import NyonOS.Signal.Privilege

namespace NyonOS.Signal

open Data Option
open User
open Abi Function

/-! The scheduler of one processor, and the frames on which it looks for signals. -/

/-- The frame of code that ran in user mode. -/
def Ring3 (frame : Frame) : Prop := frame.cs &&& 3#64 = 3#64

instance decidableRing3 (frame : Frame) : Decidable (Ring3 frame) := inferInstanceAs (Decidable (_ = _))

/-- What the scheduler knows of a task. The flag `inKernel` says where the task was
interrupted: it is not kept by the source, and is set while a system call waits. -/
structure Slot where
  inUse : Bool
  blocked : Bool
  stopped : Bool
  running : Bool
  cpu : Option Nat
  inKernel : Bool
  task : Task
  frame : Option Frame
  memory : Memory

structure Sched where
  cpu : Nat
  slots : Nat → Slot
  current : Nat
  idleSlot : Nat

namespace Sched

section

variable (sched : Sched)

def setSlot (idx : Nat) (slot : Slot) : Sched :=
  { sched with slots := update sched.slots idx slot }

/-- The slots in the order in which they are searched, the current one last. -/
def order : List Nat := (List.range taskMax).map fun i => (sched.current + (i + 1)) % taskMax

def runnable (idx : Nat) : Bool :=
  (sched.slots idx).inUse && !(sched.slots idx).blocked && !(sched.slots idx).running &&
    ((sched.slots idx).cpu == none || (sched.slots idx).cpu == some sched.cpu)

def pickNext : Option Nat :=
  sched.order.find? fun idx => sched.runnable idx && !(sched.slots idx).stopped &&
    !(decide (sched.idleSlot < taskMax) && idx == sched.idleSlot)

/-- The second search of `task_switch_to`, when the current task gives way. -/
def pickAway (next : Option Nat) (forceAway : Bool) : Option Nat :=
  if next = some sched.current ∧ forceAway then (sched.order.find? sched.runnable).or next else next

def taskZombifyLocked (idx : Nat) : Sched :=
  if (sched.slots idx).inUse then
    sched.setSlot idx { sched.slots idx with inUse := false, blocked := false, frame := none, running := false }
  else sched

end

/-- The tasks that a signal has ended are taken away before one is resumed. -/
def zombifyTerminated : (fuel : Nat) → Sched → Option Nat → Sched × Option Nat
  | 0, sched, next => (sched, next)
  | _ + 1, sched, none => (sched, none)
  | fuel + 1, sched, some idx =>
    if idx ≠ sched.current ∧ (sched.slots idx).task.sigTerminate then
      zombifyTerminated fuel (sched.taskZombifyLocked idx) (sched.taskZombifyLocked idx).pickNext
    else (sched, some idx)

variable (sched : Sched)

def orIdle : Option Nat → Option Nat
  | some idx => some idx
  | none =>
    if sched.idleSlot < taskMax ∧ (sched.slots sched.idleSlot).inUse ∧ !(sched.slots sched.idleSlot).running ∧
        sched.idleSlot ≠ sched.current then
      some sched.idleSlot
    else none

def setRunning (idx : Nat) (running : Bool) : Sched :=
  sched.setSlot idx { sched.slots idx with running }

def makeCurrent : Option Nat → Sched
  | none => sched
  | some idx =>
    if idx = sched.current then sched
    else { (sched.setRunning sched.current false).setRunning idx true with current := idx }

def saveFrame (frame : Frame) : Sched :=
  sched.setSlot sched.current { sched.slots sched.current with frame := some frame }

/-- `task_switch_to` up to the check for signals. -/
def resumes (frame : Frame) (forceAway : Bool) : Sched :=
  let saved := sched.saveFrame frame
  let picked := zombifyTerminated (taskMax + 1) saved (saved.pickAway saved.pickNext forceAway)
  picked.1.makeCurrent (picked.1.orIdle picked.2)

/-- The task that is resumed, as it was saved. -/
def resumed : Option Process :=
  (sched.slots sched.current).frame.map fun frame =>
    ⟨(sched.slots sched.current).task, frame, (sched.slots sched.current).memory⟩

def setCurrent (process : Process) : Sched :=
  sched.setSlot sched.current { sched.slots sched.current with
    task := process.task
    frame := some process.frame
    memory := process.memory }

/-- Without a saved frame the processor halts. -/
def taskSwitchTo (frame : Frame) (forceAway : Bool) : Option Sched :=
  (sched.resumes frame forceAway).resumed.map fun process =>
    (sched.resumes frame forceAway).setCurrent (taskSigCheck process)

/-- `task_exit_code`, which resumes the next task without a check. -/
def taskExitCode : Option Sched :=
  let gone := sched.setSlot sched.current
    { sched.slots sched.current with inUse := false, blocked := false, frame := none }
  let next := gone.pickNext.or
    (if gone.idleSlot < taskMax ∧ (gone.slots gone.idleSlot).inUse ∧ !(gone.slots gone.idleSlot).running then
      some gone.idleSlot
    else none)
  next.bind fun idx =>
    if (gone.slots idx).frame.isSome then some { gone.setRunning idx true with current := idx } else none

/-- The current task at the end of a system call. -/
def atExit (frame : Frame) : Process :=
  ⟨(sched.slots sched.current).task, frame, (sched.slots sched.current).memory⟩

end Sched

inductive SchedCall
  | interrupt (frame : Frame) (forceAway : Bool)
  | exit (frame : Frame)
  | waits
  | wakes (idx : Nat)
  | leaves
  | post (idx : Nat) (sig : Nat)
  | acts (task : Task) (memory : Memory)
  | spawn (idx : Nat) (slot : Slot)

/-- The saved frame of a slot is of the mode in which the task was interrupted. -/
def Slot.Settled (slot : Slot) : Prop := ∀ frame ∈ slot.frame, (Ring3 frame ↔ slot.inKernel = false)

/-- An interrupt pushes the selector of the code it interrupts, and a system call is made
from user mode. -/
def SchedStep : SchedCall → Sched → Sched → Prop
  | .interrupt frame forceAway, before, after =>
    (Ring3 frame ↔ (before.slots before.current).inKernel = false) ∧ before.taskSwitchTo frame forceAway = some after
  | .exit frame, before, after => (before.slots before.current).inKernel = false ∧ Ring3 frame ∧
      match deliverSignals (before.atExit frame) true with
      | .goesOn process => after = before.setCurrent process
      | .exits _ => before.taskExitCode = some after
  | .waits, before, after => after = before.setSlot before.current
      { before.slots before.current with blocked := true, inKernel := true }
  | .wakes idx, before, after => after = before.setSlot idx { before.slots idx with blocked := false }
  | .leaves, before, after => (before.slots before.current).blocked = false ∧
      after = before.setSlot before.current { before.slots before.current with inKernel := false }
  | .post idx sig, before, after =>
    after = before.setSlot idx { before.slots idx with task := (before.slots idx).task.post sig }
  | .acts task memory, before, after =>
    after = before.setSlot before.current { before.slots before.current with task, memory }
  | .spawn idx slot, before, after => idx ≠ before.current ∧ (before.slots idx).inUse = false ∧ slot.Settled ∧
      after = before.setSlot idx slot

/-- The frame of the current task is the one it had when it was last resumed. -/
def Consistent (sched : Sched) : Prop := ∀ idx ≠ sched.current, (sched.slots idx).Settled

/-- No signal that is caught is next. -/
def NoneCaught (task : Task) : Prop :=
  ∀ s, task.deliverable = some s → task.sigActHandler s = sigIgn ∨ task.sigActHandler s = sigDfl

/-- A handler is entered from user mode only, and what was interrupted in the kernel goes on
there with its signals still pending. -/
structure UserOnly (before after : Process) : Prop where
  redirected : after.frame.rip ≠ before.frame.rip → Ring3 before.frame
  kept : ¬Ring3 before.frame → after.frame = before.frame ∧ ∀ s, before.task.deliverable = some s →
      before.task.sigActHandler s ≠ sigIgn → before.task.sigActHandler s ≠ sigDfl →
        after.task.sigPending.getLsbD (s - 1) = true

section Delivery

variable {before after : Process}

theorem Task.consume_self {task : Task} {s : Nat} : (task.consume s).sigPending.getLsbD (s - 1) = false := by
  rw [consume, BitVec.getLsbD_and, BitVec.getLsbD_not, getLsbD_sigBit]
  by_cases low : s - 1 < 64
  · rw [decide_eq_true low, decide_eq_true ⟨low, rfl⟩]
    simp
  · rw [decide_eq_false low]
    simp

theorem Delivers.userOnly_iff (delivers : Delivers before after) :
    UserOnly before after ↔ Ring3 before.frame ∨ NoneCaught before.task := by
  have frames : NoneCaught before.task → after.frame = before.frame := by
    intro none_
    cases delivers with
    | quiet | ignored | terminated | lost => rfl
    | entered next caught _ => exact absurd (none_ _ next) (not_or.mpr caught)
  have consumed : ∀ s, before.task.deliverable = some s → before.task.sigActHandler s ≠ sigIgn →
      before.task.sigActHandler s ≠ sigDfl → after.task.sigPending.getLsbD (s - 1) = false := by
    intro s next notIgnored notDefault
    cases delivers with
    | quiet none_ => exact absurd (none_.symm.trans next) (some_ne_none s).symm
    | ignored other ignores =>
      cases Option.some.inj (next.symm.trans other)
      exact absurd ignores notIgnored
    | terminated other default_ =>
      cases Option.some.inj (next.symm.trans other)
      exact absurd default_ notDefault
    | lost other _ _ | entered other _ _ =>
      cases Option.some.inj (next.symm.trans other)
      exact Task.consume_self
  constructor
  · intro userOnly
    by_contra neither
    obtain ⟨kernel, caught⟩ := not_or.mp neither
    apply caught
    intro s next
    by_contra catches
    obtain ⟨notIgnored, notDefault⟩ := not_or.mp catches
    have stays := (userOnly.kept kernel).2 s next notIgnored notDefault
    exact absurd (stays.symm.trans (consumed s next notIgnored notDefault)) (by decide)
  · rintro (user | none_)
    · exact ⟨fun _ => user, fun kernel => absurd user kernel⟩
    · refine ⟨fun moved => absurd (congrArg Frame.rip (frames none_)) moved, fun _ => ⟨frames none_, ?_⟩⟩
      intro s next notIgnored notDefault
      exact absurd (none_ s next) (not_or.mpr ⟨notIgnored, notDefault⟩)

end Delivery

namespace Sched

variable {sched : Sched}

theorem setSlot_self (idx : Nat) (slot : Slot) : (sched.setSlot idx slot).slots idx = slot := update_self ..

theorem setSlot_other {idx other : Nat} {slot : Slot} (differ : other ≠ idx) :
    (sched.setSlot idx slot).slots other = sched.slots other := update_of_ne differ ..

def AllSettled (sched : Sched) : Prop := ∀ idx, (sched.slots idx).Settled

section

variable (settled : sched.AllSettled)
include settled

theorem AllSettled.setSlot {idx : Nat} {slot : Slot} (new : slot.Settled) : (sched.setSlot idx slot).AllSettled := by
  intro other
  by_cases same : other = idx
  · subst same
    rwa [setSlot_self]
  · rw [setSlot_other same]
    exact settled other

theorem AllSettled.setRunning {idx : Nat} {running : Bool} :
    (sched.setRunning idx running).AllSettled := settled.setSlot (settled idx)

theorem AllSettled.taskZombifyLocked {idx : Nat} : (sched.taskZombifyLocked idx).AllSettled := by
  unfold Sched.taskZombifyLocked
  split
  · exact settled.setSlot fun _ none_ => absurd none_ (by simp)
  · exact settled

theorem AllSettled.zombifyTerminated {fuel : Nat} {next : Option Nat} :
    (zombifyTerminated fuel sched next).1.AllSettled := by
  induction fuel generalizing sched next with
  | zero => exact settled
  | succ fuel ih =>
    cases next with
    | none => exact settled
    | some idx =>
      rw [Sched.zombifyTerminated]
      split
      · exact ih settled.taskZombifyLocked
      · exact settled

theorem AllSettled.makeCurrent {next : Option Nat} : (sched.makeCurrent next).AllSettled := by
  cases next with
  | none => exact settled
  | some idx =>
    rw [Sched.makeCurrent]
    split
    · exact settled
    · exact settled.setRunning.setRunning

end

/-- The slots in use. -/
def used (sched : Sched) : Finset Nat := (Finset.range taskMax).filter fun idx => (sched.slots idx).inUse = true

theorem AllSettled.resumes {frame : Frame} {forceAway : Bool} (consistent : Consistent sched)
    (mode : Ring3 frame ↔ (sched.slots sched.current).inKernel = false) :
    (sched.resumes frame forceAway).AllSettled := by
  have saved : (sched.saveFrame frame).AllSettled := by
    intro idx
    by_cases same : idx = sched.current
    · subst same
      rw [saveFrame, setSlot_self]
      intro other isFrame
      cases Option.some.inj isFrame
      exact mode
    · rw [saveFrame, setSlot_other same]
      exact consistent idx same
  exact saved.zombifyTerminated.makeCurrent

end Sched

section Steps

variable {before after : Sched}

theorem Sched.AllSettled.consistent (settled : before.AllSettled) : Consistent before := fun idx _ => settled idx

section

variable (consistent : Consistent before)
include consistent

theorem Consistent.setSlot {idx : Nat} {slot : Slot}
    (new : idx ≠ before.current → slot.Settled) : Consistent (before.setSlot idx slot) := by
  intro other notCurrent
  by_cases same : other = idx
  · subst same
    rw [Sched.setSlot_self]
    exact new notCurrent
  · rw [Sched.setSlot_other same]
    exact consistent other notCurrent

theorem Consistent.taskExitCode (exits : before.taskExitCode = some after) : Consistent after := by
  obtain ⟨idx, -, resumes⟩ := bind_eq_some_iff.mp exits
  split at resumes
  · cases resumes
    refine Sched.AllSettled.consistent (Sched.AllSettled.setRunning fun other => ?_)
    by_cases same : other = before.current
    · subst same
      rw [Sched.setSlot_self]
      exact fun _ none_ => absurd none_ (by simp)
    · rw [Sched.setSlot_other same]
      exact consistent other same
  · contradiction

theorem Consistent.step {call : SchedCall} (taken : SchedStep call before after) : Consistent after := by
  cases call with
  | interrupt frame forceAway =>
    obtain ⟨mode, switches⟩ := taken
    obtain ⟨process, -, rfl⟩ := map_eq_some_iff.mp switches
    exact (Sched.AllSettled.resumes consistent mode).consistent.setSlot fun other => absurd rfl other
  | exit frame =>
    obtain ⟨-, -, delivers⟩ := taken
    split at delivers
    · rw [delivers]
      exact consistent.setSlot fun other => absurd rfl other
    · exact consistent.taskExitCode delivers
  | waits | acts =>
    cases taken
    exact consistent.setSlot fun other => absurd rfl other
  | wakes idx | post idx sig =>
    cases taken
    exact consistent.setSlot fun other => consistent idx other
  | leaves =>
    obtain ⟨-, rfl⟩ := taken
    exact consistent.setSlot fun other => absurd rfl other
  | spawn idx slot =>
    obtain ⟨-, -, settled, rfl⟩ := taken
    exact consistent.setSlot fun _ => settled

/-- The frame on which the scheduler looks for signals is of the mode in which the resumed
task was interrupted. -/
theorem Consistent.resumed {frame : Frame} {forceAway : Bool} {process : Process}
    (mode : Ring3 frame ↔ (before.slots before.current).inKernel = false)
    (resumed : (before.resumes frame forceAway).resumed = some process) :
    Ring3 process.frame ↔
      ((before.resumes frame forceAway).slots (before.resumes frame forceAway).current).inKernel = false := by
  obtain ⟨saved, isSaved, rfl⟩ := map_eq_some_iff.mp resumed
  exact Sched.AllSettled.resumes consistent mode _ saved isSaved

end

end Steps

/-- A task that catches signal 10 and one that does not, both in user mode. -/
def twoTasks : Sched where
  cpu := 0
  slots := fun idx => if idx = 1 then ⟨true, false, false, true, none, false, { caughtTask with sigPending := 0 }, none, openMemory⟩
    else if idx = 2 then ⟨true, false, false, false, none, false, { caughtTask with sigPending := 0 }, some userFrame, openMemory⟩
    else ⟨false, false, false, false, none, false, { caughtTask with sigPending := 0 }, none, openMemory⟩
  current := 1
  idleSlot := taskMax

/-- The frame of the timer interrupt that comes while `task_wait` halts. -/
def kernelFrame : Frame := { userFrame with cs := 8#64, rip := 0xFFFFFFFF80001000#64, rsp := 0xFFFF800000010000#64 }

theorem twoTasks_consistent : Consistent twoTasks := by
  intro idx notCurrent frame isFrame
  by_cases second : idx = 2
  · subst second
    cases Option.some.inj isFrame
    decide
  · have notFirst : idx ≠ 1 := notCurrent
    simp [twoTasks, notFirst, second] at isFrame

/-- The first task waits in a system call. -/
def waiting : Sched := twoTasks.setSlot 1 { twoTasks.slots 1 with blocked := true, inKernel := true }

/-- The second task runs. -/
def switched : Sched := (waiting.resumes kernelFrame false).setCurrent (twoTasks.atExit userFrame)

/-- It has sent signal 10 to the first one and woken it. -/
def woken : Sched :=
  let posted := switched.setSlot 1 { switched.slots 1 with task := (switched.slots 1).task.post 10 }
  posted.setSlot 1 { posted.slots 1 with blocked := false }

/-- The task in the kernel, as it is resumed. -/
def wokenProcess : Process := ⟨caughtTask, kernelFrame, openMemory⟩

theorem waiting_switches : waiting.taskSwitchTo kernelFrame false = some switched := by
  rfl

theorem woken_resumed : (woken.resumes userFrame false).resumed = some wokenProcess := by
  rfl

theorem waiting_run : Run SchedStep (fun _ _ => True) twoTasks waiting := by
  have waits : SchedStep .waits twoTasks waiting := rfl
  exact Run.start.next trivial waits

theorem waiting_step : SchedStep (.interrupt kernelFrame false) waiting switched :=
  ⟨by decide, waiting_switches⟩

end NyonOS.Signal
