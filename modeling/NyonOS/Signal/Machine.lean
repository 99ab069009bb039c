import NyonOS.Signal.Privilege

namespace NyonOS.Signal

open Data BitVec
open User
open Abi Function
open BitVec (ofNat)

/-! The signal state of a task over whole histories. -/

inductive SignalCall
  | sigaction (sig : Int) (actPtr oldPtr : Address)
  | sigprocmask (how : Int) (setPtr oldPtr : Address)
  | post (sig : Nat)
  | exit
  | resume
  | sigreturn
  | user (frame : Frame) (memory : Memory)

/-- A system call leaves its result in `rax`. -/
def answered (result : Int × Process) : Process := { result.2 with frame := result.2.frame.result result.1 }

/-- The end of a system call is a step of its own. A task that exits has no next state. -/
def SignalStep : SignalCall → Process → Process → Prop
  | .sigaction sig actPtr oldPtr, before, after => after = answered (sysSigaction sig actPtr oldPtr before)
  | .sigprocmask how setPtr oldPtr, before, after => after = answered (sysSigprocmask how setPtr oldPtr before)
  | .post sig, before, after => after = { before with task := before.task.post sig }
  | .exit, before, after => deliverSignals before true = .goesOn after
  | .resume, before, after => after = taskSigCheck before
  | .sigreturn, before, after => after = sigReturn before
  | .user frame memory, before, after => after = ⟨before.task, frame, memory⟩

/-- A mask without `SIGKILL` and `SIGSTOP`. -/
def Allowed (mask : BitVec 64) : Prop := mask.getLsbD (sigKill - 1) = false ∧ mask.getLsbD (sigStop - 1) = false

/-- `SIGKILL` and `SIGSTOP` are not blocked, ignored or caught, and nothing is set up that
would block them. -/
structure Unmaskable (task : Task) : Prop where
  blocked : Allowed task.sigBlocked
  saved : task.sigInHandler = true → Allowed task.sigSavedBlocked
  handler : task.sigActHandler sigKill = sigDfl ∧ task.sigActHandler sigStop = sigDfl
  masks : ∀ sig, Allowed (task.sigActMask sig)

/-- The handler of a signal has been entered. -/
def Entered (sig : Nat) (before after : Process) : Prop :=
  after.task.sigInHandler = true ∧ after.frame.rip = before.task.sigActHandler sig ∧ after.frame.rdi = ofNat 64 sig

/-- What may end a pending signal. -/
def Consumed (sig : Nat) (before after : Process) : Prop :=
  before.task.sigActHandler sig = sigDfl ∧ after.task.sigTerminate = true ∨
    before.task.sigActHandler sig = sigIgn ∨ Entered sig before after

/-- The frame saved when the handler was entered is still as it was. -/
def Unmodified (frame : Frame) (process : Process) : Prop :=
  loadBytes process.task.sigFrameUser Frame.size process.memory = some frame.bytes

/-- What a step may do. -/
structure Lawful (call : SignalCall) (before after : Process) : Prop where
  mask : ∀ how setPtr oldPtr, call = .sigprocmask how setPtr oldPtr →
    setPtr = 0 ∨ (sysSigprocmask how setPtr oldPtr before).1 < 0 → after.task.sigBlocked = before.task.sigBlocked
  pending : ∀ sig, 1 ≤ sig → sig ≤ 64 → before.task.sigPending.getLsbD (sig - 1) = true →
    before.task.sigBlocked.getLsbD (sig - 1) = false → after.task.sigPending.getLsbD (sig - 1) = false →
      Consumed sig before after
  restored : before.task.sigInHandler = false → after.task.sigInHandler = true → ∀ later,
    Run SignalStep (fun call _ => call ≠ .sigreturn) after later → Unmodified before.frame later →
      (sigReturn later).frame = before.frame ∧ (sigReturn later).task.sigBlocked = before.task.sigBlocked

/-- The action that `sys_sigaction` reads. -/
def readAct (sig : Int) (actPtr oldPtr : Address) (process : Process) : Option Sigaction :=
  (copyinObject actPtr Sigaction.size
    (copyoutOptional oldPtr (process.task.act sig.toNat).bytes process.memory).2).map Sigaction.ofBytes

/-- If a caught signal is delivered next, the place below the stack pointer is user memory
that can be written. -/
def StackReady (process : Process) : Prop :=
  ∀ s, process.task.deliverable = some s →
    process.task.sigActHandler s ≠ sigIgn → process.task.sigActHandler s ≠ sigDfl →
      userRangeOk process.frame.saveBase 208#64 = true ∧
        ∀ index < 208, process.memory.writable (process.frame.saveBase + ofNat 64 index) = true

/-- The calls under which signals behave. -/
def Careful : SignalCall → Process → Prop
  | .sigaction sig actPtr oldPtr, process => ∀ act ∈ readAct sig actPtr oldPtr process,
      Allowed act.mask ∧ (sig = sigKill ∨ sig = sigStop → act.handler = sigDfl)
  | .sigprocmask how setPtr _, process =>
    (∀ set ∈ readSet setPtr process.memory, how = sigUnblock ∨ Allowed set) ∧
      (setPtr = 0 → how = sigSetmask → process.task.sigBlocked = 0)
  | .post _, _ => True
  | .exit, process => StackReady process
  | .resume, process => StackReady process
  | .sigreturn, _ => True
  | .user _ _, _ => True

section Masks

variable {first second : BitVec 64}

theorem Allowed.or (allowed : Allowed first) (allowedToo : Allowed second) : Allowed (first ||| second) := by
  unfold Allowed
  rw [getLsbD_or, getLsbD_or, allowed.1, allowed.2, allowedToo.1, allowedToo.2]
  exact ⟨rfl, rfl⟩

theorem Allowed.and (allowed : Allowed first) : Allowed (first &&& second) := by
  unfold Allowed
  rw [getLsbD_and, getLsbD_and, allowed.1, allowed.2]
  exact ⟨rfl, rfl⟩

theorem allowed_sigBit {s : Nat} (some_ : 1 ≤ s) (notKill : s ≠ sigKill) (notStop : s ≠ sigStop) : Allowed (sigBit s) := by
  unfold Allowed
  rw [getLsbD_sigBit, getLsbD_sigBit]
  unfold sigKill at notKill ⊢
  unfold sigStop at notStop ⊢
  exact ⟨decide_eq_false (by omega), decide_eq_false (by omega)⟩

end Masks

section Steps

variable {before after : Process}

theorem sysSigaction_task (sig : Int) (actPtr oldPtr : Address) (process : Process) :
    (sysSigaction sig actPtr oldPtr process).2.task = process.task ∨
      ∃ act ∈ readAct sig actPtr oldPtr process, 0 < sig ∧
        (sysSigaction sig actPtr oldPtr process).2.task = process.task.setAct sig.toNat act := by
  unfold sysSigaction readAct
  split
  · exact .inl rfl
  · rename_i inRange
    cases copied : copyoutOptional oldPtr (process.task.act sig.toNat).bytes process.memory with
    | mk ok memory =>
      cases ok with
      | false => exact .inl rfl
      | true =>
        dsimp only
        split
        · exact .inl rfl
        · cases read : copyinObject actPtr Sigaction.size memory with
          | none => exact .inl rfl
          | some list => exact .inr ⟨Sigaction.ofBytes list, rfl, by omega, rfl⟩

/-- The mask is changed as asked and the call succeeds, or the call fails and nothing of the
task is changed. -/
theorem sysSigprocmask_task (how : Int) (setPtr oldPtr : Address) (process : Process) :
    (sysSigprocmask how setPtr oldPtr process).2.task = process.task ∨
      (sysSigprocmask how setPtr oldPtr process).1 = 0 ∧ ∃ set ∈ readSet setPtr process.memory,
        some (sysSigprocmask how setPtr oldPtr process).2.task = process.task.changeMask how set := by
  unfold sysSigprocmask
  cases read : readSet setPtr process.memory with
  | none => exact .inl rfl
  | some set =>
    dsimp only
    cases copied : copyoutOptional oldPtr (Bytes.toLe 8 process.task.sigBlocked.toNat) process.memory with
    | mk ok memory =>
      cases ok with
      | false => exact .inl rfl
      | true =>
        dsimp only
        cases changed : process.task.changeMask how set with
        | none => exact .inl rfl
        | some task => exact .inr ⟨rfl, set, rfl, changed.symm⟩

variable {task : Task}

theorem Task.changeMask_cases {changed : Task} {how : Int} {set : BitVec 64}
    (changes : task.changeMask how set = some changed) :
    ∃ mask, changed = { task with sigBlocked := mask } ∧
      (how = sigBlock ∧ mask = task.sigBlocked ||| set ∨ how = sigUnblock ∧ mask = task.sigBlocked &&& ~~~set ∨
        how = sigSetmask ∧ mask = set) := by
  unfold changeMask at changes
  split at changes
  · rename_i isBlock
    cases changes
    exact ⟨_, rfl, .inl ⟨isBlock, rfl⟩⟩
  · split at changes
    · rename_i isUnblock
      cases changes
      exact ⟨_, rfl, .inr (.inl ⟨isUnblock, rfl⟩)⟩
    · split at changes
      · rename_i isSetmask
        cases changes
        exact ⟨_, rfl, .inr (.inr ⟨isSetmask, rfl⟩)⟩
      · contradiction

/-- The calls for actions and masks deliver nothing and return from no handler. -/
structure KeptDelivery (before after : Task) : Prop where
  pending : after.sigPending = before.sigPending
  inside : after.sigInHandler = before.sigInHandler
  frame : after.sigFrameUser = before.sigFrameUser
  saved : after.sigSavedBlocked = before.sigSavedBlocked

theorem sysSigaction_kept (sig : Int) (actPtr oldPtr : Address) (process : Process) :
    KeptDelivery process.task (sysSigaction sig actPtr oldPtr process).2.task := by
  rcases sysSigaction_task sig actPtr oldPtr process with same | ⟨act, -, -, sets⟩
  · rw [same]
    exact ⟨rfl, rfl, rfl, rfl⟩
  · rw [sets]
    exact ⟨rfl, rfl, rfl, rfl⟩

theorem sysSigprocmask_kept (how : Int) (setPtr oldPtr : Address) (process : Process) :
    KeptDelivery process.task (sysSigprocmask how setPtr oldPtr process).2.task := by
  rcases sysSigprocmask_task how setPtr oldPtr process with same | ⟨-, set, -, changes⟩
  · rw [same]
    exact ⟨rfl, rfl, rfl, rfl⟩
  · obtain ⟨mask, isChanged, -⟩ := Task.changeMask_cases changes.symm
    rw [isChanged]
    exact ⟨rfl, rfl, rfl, rfl⟩

theorem StackReady.copies {process : Process} {s : Nat} (ready : StackReady process)
    (next : process.task.deliverable = some s)
    (caught : process.task.sigActHandler s ≠ sigIgn ∧ process.task.sigActHandler s ≠ sigDfl) :
    (copyAll process.frame.saves process.memory).1 = true := by
  obtain ⟨inRange, writable⟩ := ready s next caught.1 caught.2
  obtain ⟨high, low⟩ := userRangeOk_iff.mp inRange
  have top : (208#64 : BitVec 64).toNat = 208 := rfl
  have max : userMax.toNat = 0x0000800000000000 := rfl
  rw [top] at high
  -- each of the three writes is a part of the 208 bytes
  have part : ∀ offset length, offset + length ≤ 208 →
      userRangeOk (process.frame.saveBase + ofNat 64 offset) (ofNat 64 length) = true ∧
        ∀ index < length, process.memory.writable
          (process.frame.saveBase + ofNat 64 offset + ofNat 64 index) = true := by
    intro offset length inside
    have sum : (process.frame.saveBase + ofNat 64 offset).toNat = process.frame.saveBase.toNat + offset := by
      rw [toNat_add, toNat_ofNat]
      omega
    refine ⟨userRangeOk_iff.mpr ⟨?_, ?_⟩, fun index bound => ?_⟩
    · rw [sum, toNat_ofNat]
      omega
    · rw [sum]
      omega
    · rw [BitVec.add_assoc, ← ofNat_add]
      exact writable (offset + index) (by omega)
  apply copyAll_succeeds
  intro write member
  rcases List.mem_cons.mp member with rfl | member
  · have whole := part 0 Frame.size (by decide)
    rw [show ofNat 64 0 = 0#64 from rfl, BitVec.add_zero] at whole
    dsimp only
    rwa [Frame.length_bytes]
  · rcases List.mem_cons.mp member with rfl | last
    · exact part 184 8 (by decide)
    · rw [List.mem_singleton.mp last]
      exact part 192 16 (by decide)

theorem Unmaskable.setAct {sig : Nat} {act : Sigaction} (unmaskable : Unmaskable task)
    (mask : Allowed act.mask) (default_ : sig = sigKill ∨ sig = sigStop → act.handler = sigDfl) :
    Unmaskable (task.setAct sig act) where
  blocked := unmaskable.blocked
  saved := unmaskable.saved
  handler := by
    have kept : ∀ other, other = sigKill ∨ other = sigStop → task.sigActHandler other = sigDfl →
        (task.setAct sig act).sigActHandler other = sigDfl := by
      intro other special before
      by_cases same : other = sig
      · subst same
        exact (update_self ..).trans (default_ special)
      · exact (update_of_ne same ..).trans before
    exact ⟨kept _ (.inl rfl) unmaskable.handler.1, kept _ (.inr rfl) unmaskable.handler.2⟩
  masks other := by
    change Allowed (update task.sigActMask sig act.mask other)
    rw [update_apply]
    split
    · exact mask
    · exact unmaskable.masks other

theorem Unmaskable.delivers (unmaskable : Unmaskable before.task) (delivers : Delivers before after) :
    Unmaskable after.task := by
  cases delivers with
  | quiet none_ => exact unmaskable
  | ignored | terminated | lost => exact ⟨unmaskable.blocked, unmaskable.saved, unmaskable.handler, unmaskable.masks⟩
  | @entered s memory next caught saved =>
    have notKill : s ≠ sigKill := fun kill => caught.2 (kill ▸ unmaskable.handler.1)
    have notStop : s ≠ sigStop := fun stop => caught.2 (stop ▸ unmaskable.handler.2)
    have bit := allowed_sigBit (Task.deliverable_spec next).2.1 notKill notStop
    exact ⟨unmaskable.blocked.or (bit.or (unmaskable.masks s)), fun _ => unmaskable.blocked, unmaskable.handler,
      unmaskable.masks⟩

variable {call : SignalCall}

theorem Unmaskable.step (unmaskable : Unmaskable before.task) (careful : Careful call before)
    (taken : SignalStep call before after) : Unmaskable after.task := by
  cases call with
  | sigaction sig actPtr oldPtr =>
    cases taken
    change Unmaskable (sysSigaction sig actPtr oldPtr before).2.task
    rcases sysSigaction_task sig actPtr oldPtr before with same | ⟨act, read, positive, sets⟩
    · rwa [same]
    · obtain ⟨mask, default_⟩ := careful act read
      rw [sets]
      exact unmaskable.setAct mask fun special => default_ (by omega)
  | sigprocmask how setPtr oldPtr =>
    cases taken
    change Unmaskable (sysSigprocmask how setPtr oldPtr before).2.task
    rcases sysSigprocmask_task how setPtr oldPtr before with same | ⟨-, set, read, changes⟩
    · rwa [same]
    · obtain ⟨mask, isChanged, rule⟩ := Task.changeMask_cases changes.symm
      have allowed : Allowed mask := by
        rcases rule with ⟨isBlock, rfl⟩ | ⟨-, rfl⟩ | ⟨isSetmask, rfl⟩
        · refine unmaskable.blocked.or ((careful.1 set read).resolve_left ?_)
          rw [isBlock]
          decide
        · exact unmaskable.blocked.and
        · refine (careful.1 mask read).resolve_left ?_
          rw [isSetmask]
          decide
      rw [isChanged]
      exact ⟨allowed, unmaskable.saved, unmaskable.handler, unmaskable.masks⟩
  | post sig =>
    cases taken
    exact ⟨unmaskable.blocked, unmaskable.saved, unmaskable.handler, unmaskable.masks⟩
  | exit => exact unmaskable.delivers (deliverSignals_delivers taken)
  | resume =>
    cases taken
    exact unmaskable.delivers (taskSigCheck_delivers before)
  | sigreturn =>
    cases taken
    rcases sigReturn_cases before with ⟨⟨code, fails⟩, -⟩ | ⟨inside, -, saved, -, returns⟩
    · rwa [fails]
    · rw [returns]
      exact ⟨unmaskable.saved inside, fun inside => absurd inside Bool.false_ne_true, unmaskable.handler,
        unmaskable.masks⟩
  | user frame memory =>
    cases taken
    exact unmaskable

theorem mask_kept {how : Int} {setPtr oldPtr : Address} (careful : Careful (.sigprocmask how setPtr oldPtr) before)
    (silent : setPtr = 0 ∨ (sysSigprocmask how setPtr oldPtr before).1 < 0) :
    (sysSigprocmask how setPtr oldPtr before).2.task.sigBlocked = before.task.sigBlocked := by
  rcases sysSigprocmask_task how setPtr oldPtr before with same | ⟨ok, set, read, changes⟩
  · rw [same]
  · have null : setPtr = 0 := silent.resolve_right (by omega)
    have empty : set = 0 := by
      rw [readSet, if_pos null] at read
      exact (Option.some.inj read).symm
    obtain ⟨mask, isChanged, rule⟩ := Task.changeMask_cases changes.symm
    rw [isChanged]
    rcases rule with ⟨-, rfl⟩ | ⟨-, rfl⟩ | ⟨isSetmask, rfl⟩
    · rw [empty]
      exact or_zero
    · rw [empty]
      exact and_allOnes
    · exact empty.trans (careful.2 null isSetmask).symm

theorem Task.consume_other {s sig : Nat} (some_ : 1 ≤ sig) (next : 1 ≤ s) (differ : sig ≠ s)
    (pending : task.sigPending.getLsbD (sig - 1) = true) : (task.consume s).sigPending.getLsbD (sig - 1) = true := by
  have low := lt_of_getLsbD pending
  rw [consume, getLsbD_and, getLsbD_not, pending, getLsbD_sigBit, decide_eq_true low, decide_eq_false (by omega)]
  rfl

theorem Delivers.consumed {sig : Nat} (ready : StackReady before) (delivers : Delivers before after) (some_ : 1 ≤ sig)
    (pending : before.task.sigPending.getLsbD (sig - 1) = true)
    (gone : after.task.sigPending.getLsbD (sig - 1) = false) : Consumed sig before after := by
  -- the only signal that goes is the one delivered
  have isNext : ∀ {s}, before.task.deliverable = some s → (before.task.consume s).sigPending = after.task.sigPending →
      sig = s := by
    intro s next same
    by_contra differ
    have stays := Task.consume_other some_ (Task.deliverable_spec next).2.1 differ pending
    exact absurd (stays.symm.trans ((congrArg (fun word => word.getLsbD (sig - 1)) same).trans gone)) (by decide)
  cases delivers with
  | quiet none_ => exact absurd (pending.symm.trans gone) (by decide)
  | ignored next ignores =>
    cases isNext next rfl
    exact .inr (.inl ignores)
  | terminated next default_ =>
    cases isNext next rfl
    exact .inl ⟨default_, rfl⟩
  | lost next caught failed =>
    have copied := ready.copies next caught
    rw [failed] at copied
    contradiction
  | entered next caught saved =>
    cases isNext next rfl
    exact .inr (.inr ⟨rfl, rfl, rfl⟩)

theorem Delivers.eq_of_inside (inside : before.task.sigInHandler = true) (delivers : Delivers before after) :
    after = before := by
  cases delivers with
  | quiet none_ => rfl
  | ignored next ignores | terminated next default_ | lost next caught failed | entered next caught saved =>
    exact absurd (inside.symm.trans (Task.deliverable_spec next).1) (by decide)

/-- What the kernel remembers of the delivery until the handler returns. -/
structure Remembers (base : Address) (mask : BitVec 64) (process : Process) : Prop where
  inside : process.task.sigInHandler = true
  frame : process.task.sigFrameUser = base
  saved : process.task.sigSavedBlocked = mask

variable {mask : BitVec 64}

theorem Remembers.of_kept {base : Address} (remembers : Remembers base mask before)
    (kept : KeptDelivery before.task after.task) : Remembers base mask after :=
  ⟨kept.inside.trans remembers.inside, kept.frame.trans remembers.frame, kept.saved.trans remembers.saved⟩

theorem Remembers.step {base : Address} (remembers : Remembers base mask before) (stays : call ≠ .sigreturn)
    (taken : SignalStep call before after) : Remembers base mask after := by
  cases call with
  | sigaction sig actPtr oldPtr =>
    cases taken
    exact remembers.of_kept (sysSigaction_kept sig actPtr oldPtr before)
  | sigprocmask how setPtr oldPtr =>
    cases taken
    exact remembers.of_kept (sysSigprocmask_kept how setPtr oldPtr before)
  | post sig =>
    cases taken
    exact ⟨remembers.inside, remembers.frame, remembers.saved⟩
  | exit =>
    rw [(deliverSignals_delivers taken).eq_of_inside remembers.inside]
    exact remembers
  | resume =>
    cases taken
    rw [(taskSigCheck_delivers before).eq_of_inside remembers.inside]
    exact remembers
  | sigreturn => exact absurd rfl stays
  | user frame memory =>
    cases taken
    exact ⟨remembers.inside, remembers.frame, remembers.saved⟩

theorem Delivers.restored {later : Process} (ready : StackReady before) (delivers : Delivers before after)
    (outside : before.task.sigInHandler = false) (inside : after.task.sigInHandler = true)
    (run : Run SignalStep (fun call _ => call ≠ .sigreturn) after later) (unmodified : Unmodified before.frame later) :
    (sigReturn later).frame = before.frame ∧ (sigReturn later).task.sigBlocked = before.task.sigBlocked := by
  cases delivers with
  | quiet | ignored | terminated | lost => exact absurd (outside.symm.trans inside) (by decide)
  | @entered s memory next caught saved =>
    have remembers : Remembers before.frame.saveBase before.task.sigBlocked later :=
      Run.invariant run ⟨rfl, rfl, rfl⟩ fun _ _ _ earlier stays taken => earlier.step stays taken
    obtain ⟨notNull, kernelOr, -⟩ := copyAll_saves saved
    have low : before.frame.saveBase < userMax := by
      have high := (userRangeOk_iff.mp (ready s next caught.1 caught.2).1).1
      have top : (208#64 : BitVec 64).toNat = 208 := rfl
      rw [lt_def]
      omega
    have copied : copyinObject later.task.sigFrameUser Frame.size later.memory = some before.frame.bytes := by
      rw [copyinObject_eq (by decide) (remembers.frame ▸ notNull) (remembers.frame ▸ kernelOr low)]
      exact unmodified
    rcases sigReturn_cases later with ⟨-, refused⟩ | ⟨-, -, list, read, returns⟩
    · rcases refused with outside | null | fails
      · exact absurd (remembers.inside.symm.trans outside) (by decide)
      · exact absurd (remembers.frame.symm.trans null) notNull
      · exact absurd (copied.symm.trans fails) (Option.some_ne_none _)
    · cases Option.some.inj (copied.symm.trans read)
      rw [returns, Frame.ofBytes_bytes]
      exact ⟨rfl, remembers.saved⟩

theorem Delivers.lawful (ready : StackReady before) (delivers : Delivers before after)
    (other : ∀ how setPtr oldPtr, call ≠ .sigprocmask how setPtr oldPtr) : Lawful call before after where
  mask how setPtr oldPtr isCall := absurd isCall (other how setPtr oldPtr)
  pending _ some_ _ pending _ gone := delivers.consumed ready some_ pending gone
  restored outside inside _ run unmodified := delivers.restored ready outside inside run unmodified

theorem Lawful.of_quiet (mask : ∀ how setPtr oldPtr, call = .sigprocmask how setPtr oldPtr →
      setPtr = 0 ∨ (sysSigprocmask how setPtr oldPtr before).1 < 0 → after.task.sigBlocked = before.task.sigBlocked)
    (pending : ∀ index, before.task.sigPending.getLsbD index = true → after.task.sigPending.getLsbD index = true)
    (handler : after.task.sigInHandler = true → before.task.sigInHandler = true) : Lawful call before after where
  mask := mask
  pending sig _ _ set _ gone := absurd ((pending _ set).symm.trans gone) (by decide)
  restored outside inside := absurd (outside.symm.trans (handler inside)) (by decide)

theorem Lawful.step (careful : Careful call before) (taken : SignalStep call before after) :
    Lawful call before after := by
  cases call with
  | sigaction sig actPtr oldPtr =>
    cases taken
    have kept := sysSigaction_kept sig actPtr oldPtr before
    exact .of_quiet (fun _ _ _ isCall => by contradiction) (fun _ set => by rwa [answered, kept.pending])
      fun inside => kept.inside ▸ inside
  | sigprocmask how setPtr oldPtr =>
    cases taken
    have kept := sysSigprocmask_kept how setPtr oldPtr before
    refine .of_quiet (fun _ _ _ isCall silent => ?_) (fun _ set => by rwa [answered, kept.pending])
      fun inside => kept.inside ▸ inside
    cases isCall
    exact mask_kept careful silent
  | post sig =>
    cases taken
    refine .of_quiet (fun _ _ _ isCall => by contradiction) (fun index set => ?_) id
    rw [Task.post, getLsbD_or, set, Bool.true_or]
  | exit => exact (deliverSignals_delivers taken).lawful careful fun _ _ _ isCall => by contradiction
  | resume =>
    cases taken
    exact (taskSigCheck_delivers before).lawful careful fun _ _ _ isCall => by contradiction
  | sigreturn =>
    cases taken
    refine .of_quiet (fun _ _ _ isCall => by contradiction) (fun index set => ?_) fun inside => ?_
    · rcases sigReturn_cases before with ⟨⟨code, fails⟩, -⟩ | ⟨-, -, saved, -, returns⟩
      · rwa [fails]
      · rwa [returns]
    · rcases sigReturn_cases before with ⟨⟨code, fails⟩, -⟩ | ⟨-, -, saved, -, returns⟩
      · rwa [fails] at inside
      · rw [returns] at inside
        contradiction
  | user frame memory =>
    cases taken
    exact .of_quiet (fun _ _ _ isCall => by contradiction) (fun _ set => set) id

end Steps

theorem caughtTask_unmaskable : Unmaskable caughtTask :=
  ⟨⟨rfl, rfl⟩, fun _ => ⟨rfl, rfl⟩, ⟨rfl, rfl⟩, fun _ => ⟨getLsbD_zero, getLsbD_zero⟩⟩

/-- A process whose memory cannot be written. -/
def stuckProcess : Process :=
  { caughtProcess with memory := ⟨openMemory.bytes, openMemory.readable, fun _ => false, fun _ no => Bool.noConfusion no⟩ }

end NyonOS.Signal
