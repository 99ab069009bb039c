import NyonOS.Data.Run
import NyonOS.Signal.Deliver

namespace NyonOS.Signal

open Data
open User

/-! What `sig_return` makes of a frame that lay in user memory. -/

def gdtUserCodeRpl3 : BitVec 64 := 0x23#64
def gdtUserDataRpl3 : BitVec 64 := 0x1B#64

/-- A frame without privilege: the selectors of user code, interrupts enabled, no access to
ports, and both pointers in user memory. -/
structure UserFrame (frame : Frame) : Prop where
  cs : frame.cs = gdtUserCodeRpl3
  ss : frame.ss = gdtUserDataRpl3
  interrupts : frame.rflags.getLsbD 9 = true
  iopl : frame.rflags.getLsbD 12 = false ∧ frame.rflags.getLsbD 13 = false
  rip : frame.rip < userMax
  rsp : frame.rsp < userMax

/-- `sig_return` leaves the handler, with this frame. -/
def Installs (process : Process) (frame : Frame) : Prop :=
  process.task.sigInHandler = true ∧ (sigReturn process).task.sigInHandler = false ∧ (sigReturn process).frame = frame

/-- The frame at the saved address, where it can be read, is one without privilege. -/
def SavedUser (task : Task) (memory : Memory) : Prop :=
  task.sigInHandler = true → task.sigFrameUser ≠ 0 →
    ∀ saved ∈ copyinObject task.sigFrameUser Frame.size memory, UserFrame (Frame.ofBytes saved)

theorem installs_iff {process : Process} {frame : Frame} : Installs process frame ↔
    process.task.sigInHandler = true ∧ process.task.sigFrameUser ≠ 0 ∧
      ∃ saved ∈ copyinObject process.task.sigFrameUser Frame.size process.memory, frame = Frame.ofBytes saved := by
  unfold Installs
  rcases sigReturn_cases process with ⟨⟨code, fails⟩, refused⟩ | ⟨inside, some_, saved, copied, returns⟩
  · rw [fails]
    constructor
    · rintro ⟨inside, outside, -⟩
      exact absurd (inside.symm.trans outside) (by decide)
    · rintro ⟨inside, some_, saved, copied, -⟩
      rcases refused with outside | null | none_
      · exact absurd (inside.symm.trans outside) (by decide)
      · exact absurd null some_
      · rw [none_] at copied
        exact absurd copied (Option.not_mem_none saved)
  · rw [returns, copied]
    constructor
    · rintro ⟨-, -, rfl⟩
      exact ⟨inside, some_, saved, rfl, rfl⟩
    · rintro ⟨-, -, other, ⟨⟩, rfl⟩
      exact ⟨inside, rfl, rfl⟩

/-- What can happen to a task around signals. -/
inductive PrivilegeCall
  | runs (task : Task) (frame : Frame) (memory : Memory)
  | exit
  | resume
  | sigreturn

/-- User code, with its other system calls, may change anything but what marks the handler
under way. The others are the end of a system call, the scheduler and `sig_return`. -/
def PrivilegeStep : PrivilegeCall → Process → Process → Prop
  | .runs task frame memory, before, after => after = ⟨task, frame, memory⟩ ∧
      task.sigInHandler = before.task.sigInHandler ∧ task.sigFrameUser = before.task.sigFrameUser
  | .exit, before, after => deliverSignals before true = .goesOn after
  | .resume, before, after => after = taskSigCheck before
  | .sigreturn, before, after => after = sigReturn before

/-- User code enters the kernel without privilege and leaves the saved frame without. -/
def Unprivileged : PrivilegeCall → Process → Prop
  | .runs task frame memory, _ => UserFrame frame ∧ SavedUser task memory
  | .exit, _ => True
  | .resume, _ => True
  | .sigreturn, _ => True

/-- The frame is one without privilege, or one is saved. -/
structure Guarded (process : Process) : Prop where
  frame : process.task.sigInHandler = false → UserFrame process.frame
  saved : SavedUser process.task process.memory

namespace Guarded

variable {process : Process}

theorem of_outside (outside : process.task.sigInHandler = false) (frame : UserFrame process.frame) :
    Guarded process where
  frame _ := frame
  saved inside := absurd (outside.symm.trans inside) Bool.false_ne_true

theorem delivers {after : Process} (guarded : Guarded process) (delivers : Delivers process after) : Guarded after := by
  cases delivers with
  | quiet none_ => exact guarded
  | ignored next ignores | terminated next default_ | lost next caught failed =>
    have outside := (Task.deliverable_spec next).1
    exact of_outside outside (guarded.frame outside)
  | entered next caught saved =>
    have user := guarded.frame (Task.deliverable_spec next).1
    obtain ⟨-, -, loaded⟩ := copyAll_saves saved
    refine ⟨fun now => absurd now (by simp [Task.handling]), fun _ _ list copied => ?_⟩
    have found := loadBytes_of_copyinObject copied
    rw [Task.handling, loaded] at found
    cases found
    rw [Frame.ofBytes_bytes]
    exact user

theorem sigReturn (guarded : Guarded process) : Guarded (sigReturn process) := by
  rcases sigReturn_cases process with ⟨⟨code, fails⟩, -⟩ | ⟨inside, some_, saved, copied, returns⟩
  · rw [fails]
    refine ⟨fun outside => ?_, guarded.saved⟩
    have user := guarded.frame outside
    exact ⟨user.cs, user.ss, user.interrupts, user.iopl, user.rip, user.rsp⟩
  · rw [returns]
    exact of_outside rfl (guarded.saved inside some_ saved copied)

theorem step {call : PrivilegeCall} {after : Process} (guarded : Guarded process) (meets : Unprivileged call process)
    (taken : PrivilegeStep call process after) : Guarded after := by
  cases call with
  | runs task frame memory =>
    obtain ⟨rfl, -, -⟩ := taken
    exact ⟨fun _ => meets.1, meets.2⟩
  | exit => exact guarded.delivers (deliverSignals_delivers taken)
  | resume =>
    subst taken
    exact guarded.delivers (taskSigCheck_delivers process)
  | sigreturn =>
    subst taken
    exact guarded.sigReturn

end Guarded

/-- `sig_return` installs frames without privilege exactly where the saved frame is one; and
that stays so as long as user code puts nothing else in its place. -/
theorem sigreturn_unprivileged (now : Process) :
    ((∀ frame, Installs now frame → UserFrame frame) ↔ SavedUser now.task now.memory) ∧
      ∀ start, start.task.sigInHandler = false → UserFrame start.frame → Run PrivilegeStep Unprivileged start now →
        ∀ frame, Installs now frame → UserFrame frame := by
  have exact_ : (∀ frame, Installs now frame → UserFrame frame) ↔ SavedUser now.task now.memory := by
    constructor
    · intro safe inside some_ saved copied
      exact safe _ (installs_iff.mpr ⟨inside, some_, saved, copied, rfl⟩)
    · intro saved frame installs
      obtain ⟨inside, some_, list, copied, rfl⟩ := installs_iff.mp installs
      exact saved inside some_ list copied
  refine ⟨exact_, fun start outside user run => exact_.mpr ?_⟩
  have guarded : Guarded now := run.invariant (Guarded.of_outside outside user) fun call before after guarded meets taken =>
    guarded.step meets taken
  exact guarded.saved

/-- A task with a handler for `SIGUSR1` that has just been sent it. -/
def caughtTask : Task where
  sigPending := sigBit 10
  sigBlocked := 0
  sigSavedBlocked := 0
  sigActHandler := fun sig => if sig = 10 then 0x400200#64 else sigDfl
  sigActMask := fun _ => 0
  sigActFlags := fun _ => 0
  sigFrameUser := 0
  sigInHandler := false
  sigTerminate := false
  exitCode := 0

def userFrame : Frame where
  r15 := 15
  r14 := 14
  r13 := 13
  r12 := 12
  r11 := 11
  r10 := 10
  r9 := 9
  r8 := 8
  rbp := 7
  rdi := 6
  rsi := 5
  rdx := 4
  rcx := 3
  rbx := 2
  rax := 0
  interruptNumber := 0x80
  errorCode := 0
  rip := 0x400100#64
  cs := gdtUserCodeRpl3
  rflags := 0x202#64
  rsp := 0x40000000#64
  ss := gdtUserDataRpl3

def caughtProcess : Process := ⟨caughtTask, userFrame, openMemory⟩

/-- The process in its handler. -/
def handlingProcess : Process := enterHandler { caughtProcess with task := caughtTask.consume 10 } 10 0x400200#64

theorem caughtProcess_delivers : deliverSignals caughtProcess true = .goesOn handlingProcess := by
  rfl

theorem sigreturn_unprivileged_intact : Installs handlingProcess userFrame ∧ UserFrame userFrame := by
  have installs : Installs handlingProcess userFrame := by
    refine ⟨by decide +kernel, by decide +kernel, by decide +kernel⟩
  have start : UserFrame caughtProcess.frame := ⟨rfl, rfl, by decide, by decide, by decide, by decide⟩
  have meets : Unprivileged .exit caughtProcess := trivial
  have taken : PrivilegeStep .exit caughtProcess handlingProcess := caughtProcess_delivers
  have run : Run PrivilegeStep Unprivileged caughtProcess handlingProcess := Run.start.next meets taken
  exact ⟨installs, (sigreturn_unprivileged handlingProcess).2 caughtProcess rfl start run userFrame installs⟩

/-- The handler changes the saved code selector, and `sig_return` takes it. -/
theorem handler_installs_kernel_selector : deliverSignals caughtProcess true = .goesOn handlingProcess ∧
      ∃ frame, frame.cs = 8#64 ∧ Installs { handlingProcess with
        memory := handlingProcess.memory.setByte (handlingProcess.task.sigFrameUser + 144#64) 8#8 } frame := by
  refine ⟨caughtProcess_delivers, { userFrame with cs := 8#64 }, rfl, ?_⟩
  refine ⟨by decide +kernel, by decide +kernel, by decide +kernel⟩

end NyonOS.Signal
