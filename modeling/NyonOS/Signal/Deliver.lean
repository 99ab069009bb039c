import NyonOS.Signal.Frame

namespace NyonOS.Signal

open Data
open User
open Abi Function
open BitVec (ofNat)

/-! The signal system calls, delivery and return, for a task with its own page table. -/

def sigDfl : BitVec 64 := 0#64
def sigIgn : BitVec 64 := 1#64
def sigKill : Nat := 9
def sigStop : Nat := 19
def sigBlock : Int := 0
def sigUnblock : Int := 1
def sigSetmask : Int := 2

def sigBit (sig : Nat) : BitVec 64 := BitVec.twoPow 64 (sig - 1)

/-- The part of `struct task` that signals use; the three arrays go from 0 to 64. -/
structure Task where
  sigPending : BitVec 64
  sigBlocked : BitVec 64
  sigSavedBlocked : BitVec 64
  sigActHandler : Nat → BitVec 64
  sigActMask : Nat → BitVec 64
  sigActFlags : Nat → BitVec 64
  sigFrameUser : Address
  sigInHandler : Bool
  sigTerminate : Bool
  exitCode : Nat

/-- A task as the kernel finds it: with the registers it was interrupted with and its
memory. -/
structure Process where
  task : Task
  frame : Frame
  memory : Memory

/-- The kernel variables are copied one after the other, up to the first that fails. -/
def copyAll : List (Address × List Byte) → Memory → Bool × Memory
  | [], memory => (true, memory)
  | (dst, object) :: rest, memory =>
    match copyoutObject dst object memory with
    | (false, memory) => (false, memory)
    | (true, memory) => copyAll rest memory

/-- The code that calls `SYS_SIGRETURN` when the handler returns. -/
def sigreturnCode : List Byte :=
  [0xB8, 65, 0, 0, 0, 0x0F, 0x05, 0xC3, 0x90, 0x90, 0x90, 0x90, 0x90, 0x90, 0x90, 0x90]

namespace Task

variable (task : Task)

/-- The signal that is delivered next. -/
def deliverable : Option Nat :=
  if task.sigInHandler then none
  else if task.sigPending &&& ~~~task.sigBlocked = 0 then none
  else some (ctz (task.sigPending &&& ~~~task.sigBlocked) + 1)

def consume (s : Nat) : Task := { task with sigPending := task.sigPending &&& ~~~sigBit s }

/-- What `deliver_signals` does to the task when the handler is entered. -/
def handling (s : Nat) (base : Address) : Task :=
  { task with
    sigSavedBlocked := task.sigBlocked
    sigBlocked := task.sigBlocked ||| (sigBit s ||| task.sigActMask s)
    sigFrameUser := base
    sigInHandler := true }

/-- What `sig_return` does to the task. -/
def returned : Task :=
  { task with sigBlocked := task.sigSavedBlocked, sigInHandler := false, sigFrameUser := 0 }

end Task

namespace Frame

variable (frame : Frame)

/-- Where the frame is saved on the user's stack. -/
def saveBase : Address := (frame.rsp - 208#64) &&& ~~~0xF#64

/-- The frame with which the handler starts. -/
def redirect (s : Nat) (handler : BitVec 64) : Frame :=
  { frame with rip := handler, rdi := ofNat 64 s, rsp := frame.saveBase + 184#64 }

/-- The frame with the result of a system call. -/
def result (code : Int) : Frame := { frame with rax := BitVec.ofInt 64 code }

/-- What is written to the user's stack. -/
def saves : List (Address × List Byte) :=
  [(frame.saveBase, frame.bytes), (frame.saveBase + 184#64, Bytes.ofWords [frame.saveBase + 192#64]),
    (frame.saveBase + 192#64, sigreturnCode)]

end Frame

/-- The last part of `deliver_signals`, for a signal that is caught. -/
def enterHandler (process : Process) (s : Nat) (handler : BitVec 64) : Process :=
  match copyAll process.frame.saves process.memory with
  | (false, memory) => { process with memory }
  | (true, memory) => ⟨process.task.handling s process.frame.saveBase, process.frame.redirect s handler, memory⟩

inductive Outcome
  | goesOn (process : Process)
  | exits (code : Nat)

section

variable (process : Process)

def deliverSignals (allowTerm : Bool) : Outcome :=
  match process.task.deliverable with
  | none => .goesOn process
  | some s =>
    let taken := { process with task := process.task.consume s }
    let h := process.task.sigActHandler s
    if h = sigIgn then .goesOn taken
    else if h = sigDfl then
      if !allowTerm then
        .goesOn { taken with task := { taken.task with sigPending := taken.task.sigPending ||| sigBit s } }
      else .exits (128 + s)
    else .goesOn (enterHandler taken s h)

/-- `task_sig_check`, which the scheduler calls before it resumes a task. -/
def taskSigCheck : Process :=
  match process.task.deliverable with
  | none => process
  | some s =>
    let taken := process.task.consume s
    let h := process.task.sigActHandler s
    if h = sigIgn then { process with task := taken }
    else if h = sigDfl then { process with task := { taken with exitCode := 128 + s, sigTerminate := true } }
    else
      match deliverSignals process false with
      | .goesOn process => process
      | .exits _ => process

def sigReturn : Process :=
  if !process.task.sigInHandler ∨ process.task.sigFrameUser = 0 then
    { process with frame := process.frame.result einval }
  else
    match copyinObject process.task.sigFrameUser Frame.size process.memory with
    | none => { process with frame := process.frame.result efault }
    | some saved => ⟨process.task.returned, Frame.ofBytes saved, process.memory⟩

end

/-- `struct sys_sigaction` as it lies in memory. -/
structure Sigaction where
  handler : BitVec 64
  flags : BitVec 32
  mask : BitVec 64

namespace Sigaction

def size : Nat := 32

def bytes (act : Sigaction) : List Byte :=
  Bytes.toLe 8 act.handler.toNat ++ Bytes.toLe 4 act.flags.toNat ++ Bytes.toLe 4 0 ++ Bytes.toLe 8 0 ++
    Bytes.toLe 8 act.mask.toNat

def ofBytes (list : List Byte) : Sigaction where
  handler := ofNat 64 (Bytes.ofLe (list.take 8))
  flags := ofNat 32 (Bytes.ofLe ((list.drop 8).take 4))
  mask := ofNat 64 (Bytes.ofLe ((list.drop 24).take 8))

end Sigaction

/-- Copying out to a pointer that may be null. -/
def copyoutOptional (ptr : Address) (object : List Byte) (memory : Memory) : Bool × Memory :=
  if ptr = 0 then (true, memory) else copyoutObject ptr object memory

def Task.act (task : Task) (sig : Nat) : Sigaction where
  handler := task.sigActHandler sig
  flags := (task.sigActFlags sig).setWidth 32
  mask := task.sigActMask sig

def Task.setAct (task : Task) (sig : Nat) (act : Sigaction) : Task :=
  { task with
    sigActHandler := update task.sigActHandler sig act.handler
    sigActMask := update task.sigActMask sig act.mask
    sigActFlags := update task.sigActFlags sig (act.flags.setWidth 64) }

def sysSigaction (sig : Int) (actPtr oldPtr : Address) (process : Process) : Int × Process :=
  if sig ≤ 0 ∨ 65 ≤ sig then (einval, process)
  else
    match copyoutOptional oldPtr (process.task.act sig.toNat).bytes process.memory with
    | (false, memory) => (efault, { process with memory })
    | (true, memory) =>
      if actPtr = 0 then (0, { process with memory })
      else
        match copyinObject actPtr Sigaction.size memory with
        | none => (efault, { process with memory })
        | some act => (0, { process with memory, task := process.task.setAct sig.toNat (Sigaction.ofBytes act) })

/-- The mask that `sys_sigprocmask` sets. -/
def Task.changeMask (task : Task) (how : Int) (set : BitVec 64) : Option Task :=
  if how = sigBlock then some { task with sigBlocked := task.sigBlocked ||| set }
  else if how = sigUnblock then some { task with sigBlocked := task.sigBlocked &&& ~~~set }
  else if how = sigSetmask then some { task with sigBlocked := set }
  else none

/-- The set that `sys_sigprocmask` works with; it is empty when the pointer is null. -/
def readSet (setPtr : Address) (memory : Memory) : Option (BitVec 64) :=
  if setPtr = 0 then some 0
  else (copyinObject setPtr 8 memory).map fun list => ofNat 64 (Bytes.ofLe list)

def sysSigprocmask (how : Int) (setPtr oldPtr : Address) (process : Process) : Int × Process :=
  match readSet setPtr process.memory with
  | none => (efault, process)
  | some set =>
    match copyoutOptional oldPtr (Bytes.toLe 8 process.task.sigBlocked.toNat) process.memory with
    | (false, memory) => (efault, { process with memory })
    | (true, memory) =>
      match process.task.changeMask how set with
      | none => (einval, { process with memory })
      | some task => (0, { process with memory, task })

/-- How `sys_kill` posts a signal to a task. -/
def Task.post (task : Task) (sig : Nat) : Task := { task with sigPending := task.sigPending ||| sigBit sig }

section Bits

theorem getLsbD_sigBit (sig index : Nat) : (sigBit sig).getLsbD index = decide (index < 64 ∧ sig - 1 = index) := by
  rw [sigBit, BitVec.getLsbD_twoPow, ← Bool.decide_and]
  exact decide_eq_decide.mpr (by omega)

end Bits

section Delivery

variable {task : Task} {process : Process} {s : Nat}

theorem Task.deliverable_spec (next : task.deliverable = some s) :
    task.sigInHandler = false ∧ 1 ≤ s ∧ s ≤ 64 ∧ task.sigPending.getLsbD (s - 1) = true ∧
      task.sigBlocked.getLsbD (s - 1) = false := by
  unfold deliverable at next
  split at next
  · contradiction
  · rename_i outside
    split at next
    · contradiction
    · rename_i some_
      cases next
      obtain ⟨bound, set⟩ := ctz_spec some_
      rw [BitVec.getLsbD_and, Bool.and_eq_true, BitVec.getLsbD_not, Bool.and_eq_true, Bool.not_eq_true'] at set
      exact ⟨by simpa using outside, by omega, by omega, set.1, set.2.2⟩

theorem copyoutObject_readable (dst : Address) (object : List Byte) (memory : Memory) :
    (copyoutObject dst object memory).2.readable = memory.readable := by
  unfold copyoutObject
  split
  · rfl
  · split
    · rfl
    · split
      · rfl
      · exact storeBytes_readable dst object memory

theorem copyoutObject_writable (dst : Address) (object : List Byte) (memory : Memory) :
    (copyoutObject dst object memory).2.writable = memory.writable := by
  unfold copyoutObject
  split
  · rfl
  · split
    · rfl
    · split
      · rfl
      · exact storeBytes_writable dst object memory

variable {object : List Byte} {memory : Memory}

theorem copyoutObject_outside {dst addr : Address} (outside : ∀ index < object.length, addr ≠ dst + ofNat 64 index) :
    (copyoutObject dst object memory).2.bytes addr = memory.bytes addr := by
  unfold copyoutObject
  split
  · rfl
  · split
    · rfl
    · split
      · rfl
      · exact storeBytes_outside outside

theorem copyoutObject_ok {dst : Address} (some_ : object ≠ []) (ok : (copyoutObject dst object memory).1 = true) :
    dst ≠ 0 ∧ (dst < userMax → userRangeOk dst (ofNat 64 object.length) = true) ∧
      copyoutObject dst object memory = storeBytes dst object memory := by
  unfold copyoutObject at ok ⊢
  rw [if_neg some_] at ok ⊢
  split at ok
  · contradiction
  · rename_i notNull
    split at ok
    · contradiction
    · rename_i inRange
      rw [if_neg notNull, if_neg inRange]
      refine ⟨notNull, fun low => ?_, rfl⟩
      by_contra bad
      exact inRange ⟨low, by simpa using bad⟩

variable {writes : List (Address × List Byte)}

theorem copyAll_succeeds (each : ∀ write ∈ writes, userRangeOk write.1 (ofNat 64 write.2.length) = true ∧
      ∀ index < write.2.length, memory.writable (write.1 + ofNat 64 index) = true) :
    (copyAll writes memory).1 = true := by
  induction writes generalizing memory with
  | nil => rfl
  | cons write rest ih =>
    obtain ⟨inRange, writable⟩ := each write List.mem_cons_self
    have copied : (copyoutObject write.1 write.2 memory).1 = true := by
      have notNull : write.1 ≠ 0 := by
        intro null
        rw [null, userRangeOk_iff] at inRange
        exact absurd inRange.2 (by decide)
      unfold copyoutObject
      by_cases none_ : write.2 = []
      · rw [if_pos none_]
      · rw [if_neg none_, if_neg notNull, if_neg (by simp [inRange])]
        exact storeBytes_succeeds writable
    have same := copyoutObject_writable write.1 write.2 memory
    rw [copyAll]
    cases result : copyoutObject write.1 write.2 memory with
    | mk ok after =>
      rw [result] at copied same
      cases copied
      exact ih fun other member => ⟨(each other (List.mem_cons_of_mem _ member)).1, fun index bound => by
        rw [same]
        exact (each other (List.mem_cons_of_mem _ member)).2 index bound⟩

theorem Frame.saves_apart (base : Address) {index offset later length : Nat} (inside : index < Frame.size)
    (above : Frame.size ≤ offset) (bound : later < length) (short : offset + length ≤ 208) :
    base + ofNat 64 index ≠ base + ofNat 64 offset + ofNat 64 later := by
  unfold Frame.size at inside above
  rw [BitVec.add_assoc, ← BitVec.ofNat_add]
  exact add_ofNat_ne base (by omega) (by omega) (by omega)

theorem loadBytes_copyAll {src : Address} {len : Nat}
    (apart : ∀ write ∈ writes, ∀ index < len, ∀ later < write.2.length,
      src + ofNat 64 index ≠ write.1 + ofNat 64 later) :
    loadBytes src len (copyAll writes memory).2 = loadBytes src len memory := by
  induction writes generalizing memory with
  | nil => rfl
  | cons write rest ih =>
    have kept : loadBytes src len (copyoutObject write.1 write.2 memory).2 = loadBytes src len memory :=
      loadBytes_congr (copyoutObject_readable ..) fun index bound =>
        copyoutObject_outside (apart write List.mem_cons_self index bound)
    rw [copyAll]
    cases copied : copyoutObject write.1 write.2 memory with
    | mk ok after =>
      rw [copied] at kept
      cases ok with
      | false => exact kept
      | true => exact (ih fun other member => apart other (List.mem_cons_of_mem _ member)).trans kept

theorem copyAll_saves {frame : Frame} {saved : Memory} (copied : copyAll frame.saves memory = (true, saved)) :
    frame.saveBase ≠ 0 ∧ (frame.saveBase < userMax → userRangeOk frame.saveBase (ofNat 64 Frame.size) = true) ∧
      loadBytes frame.saveBase Frame.size saved = some frame.bytes := by
  have ok : (copyAll frame.saves memory).1 = true := by rw [copied]
  have after_ : (copyAll frame.saves memory).2 = saved := by rw [copied]
  subst after_
  have some_ : frame.bytes ≠ [] := by
    intro none_
    exact absurd (congrArg List.length none_) (by rw [Frame.length_bytes]; decide)
  cases first : copyoutObject frame.saveBase frame.bytes memory with
  | mk firstOk after =>
    rw [Frame.saves, copyAll, first] at ok
    cases firstOk with
    | false => contradiction
    | true =>
      have stored : (copyoutObject frame.saveBase frame.bytes memory).1 = true := by rw [first]
      obtain ⟨notNull, inRange, same⟩ := copyoutObject_ok some_ stored
      rw [Frame.length_bytes] at inRange
      refine ⟨notNull, inRange, ?_⟩
      have loaded : loadBytes frame.saveBase Frame.size after = some frame.bytes := by
        have back := loadBytes_storeBytes (same ▸ stored) (by rw [Frame.length_bytes]; decide)
        rwa [← same, first, Frame.length_bytes] at back
      rw [Frame.saves, copyAll, first]
      refine (loadBytes_copyAll fun write member index inside later bound => ?_).trans loaded
      rcases List.mem_cons.mp member with rfl | last
      · exact Frame.saves_apart _ inside (by decide) bound (show 184 + 8 ≤ 208 by decide)
      · rw [List.mem_singleton.mp last] at bound ⊢
        exact Frame.saves_apart _ inside (by decide) bound (show 192 + 16 ≤ 208 by decide)

/-- Everything a delivery can do to a task that goes on. -/
inductive Delivers (process : Process) : Process → Prop
  | quiet (none_ : process.task.deliverable = none) : Delivers process process
  | ignored {s : Nat} (next : process.task.deliverable = some s) (ignores : process.task.sigActHandler s = sigIgn) :
      Delivers process { process with task := process.task.consume s }
  | terminated {s : Nat} (next : process.task.deliverable = some s) (default_ : process.task.sigActHandler s = sigDfl) :
      Delivers process
        { process with task := { process.task.consume s with exitCode := 128 + s, sigTerminate := true } }
  | lost {s : Nat} {memory : Memory} (next : process.task.deliverable = some s)
      (caught : process.task.sigActHandler s ≠ sigIgn ∧ process.task.sigActHandler s ≠ sigDfl)
      (failed : copyAll process.frame.saves process.memory = (false, memory)) :
      Delivers process ⟨process.task.consume s, process.frame, memory⟩
  | entered {s : Nat} {memory : Memory} (next : process.task.deliverable = some s)
      (caught : process.task.sigActHandler s ≠ sigIgn ∧ process.task.sigActHandler s ≠ sigDfl)
      (saved : copyAll process.frame.saves process.memory = (true, memory)) :
      Delivers process ⟨(process.task.consume s).handling s process.frame.saveBase,
        process.frame.redirect s (process.task.sigActHandler s), memory⟩

theorem Delivers.enterHandler (next : process.task.deliverable = some s)
    (caught : process.task.sigActHandler s ≠ sigIgn ∧ process.task.sigActHandler s ≠ sigDfl) :
    Delivers process (enterHandler { process with task := process.task.consume s } s (process.task.sigActHandler s)) := by
  unfold Signal.enterHandler
  cases copied : copyAll process.frame.saves process.memory with
  | mk ok memory =>
    cases ok with
    | false => exact .lost next caught copied
    | true => exact .entered next caught copied

theorem deliverSignals_delivers {after : Process} (goes : deliverSignals process true = .goesOn after) :
    Delivers process after := by
  unfold deliverSignals at goes
  cases next : process.task.deliverable with
  | none =>
    rw [next] at goes
    cases goes
    exact .quiet next
  | some s =>
    rw [next] at goes
    dsimp only at goes
    split at goes
    · rename_i ignores
      cases goes
      exact .ignored next ignores
    · rename_i notIgnored
      split at goes
      · contradiction
      · rename_i notDefault
        cases goes
        exact .enterHandler next ⟨notIgnored, notDefault⟩

theorem taskSigCheck_delivers (process : Process) : Delivers process (taskSigCheck process) := by
  unfold taskSigCheck
  cases next : process.task.deliverable with
  | none => exact .quiet next
  | some s =>
    dsimp only
    split
    · rename_i ignores
      exact .ignored next ignores
    · rename_i notIgnored
      split
      · rename_i default_
        exact .terminated next default_
      · rename_i notDefault
        have delivers : deliverSignals process false = .goesOn
            (enterHandler { process with task := process.task.consume s } s (process.task.sigActHandler s)) := by
          unfold deliverSignals
          rw [next]
          dsimp only
          rw [if_neg notIgnored, if_neg notDefault]
        rw [delivers]
        exact .enterHandler next ⟨notIgnored, notDefault⟩

/-- `sig_return` fails and changes no more than the result, or takes the saved frame. -/
theorem sigReturn_cases (process : Process) :
    (∃ code, sigReturn process = { process with frame := process.frame.result code }) ∧
        (process.task.sigInHandler = false ∨ process.task.sigFrameUser = 0 ∨
          copyinObject process.task.sigFrameUser Frame.size process.memory = none) ∨
      process.task.sigInHandler = true ∧ process.task.sigFrameUser ≠ 0 ∧
        ∃ saved, copyinObject process.task.sigFrameUser Frame.size process.memory = some saved ∧
          sigReturn process = ⟨process.task.returned, Frame.ofBytes saved, process.memory⟩ := by
  unfold sigReturn
  split
  · rename_i refused
    exact .inl ⟨⟨einval, rfl⟩, refused.imp (by simp) .inl⟩
  · rename_i taken
    rw [not_or, Bool.not_eq_true', Bool.not_eq_false] at taken
    cases copied : copyinObject process.task.sigFrameUser Frame.size process.memory with
    | none => exact .inl ⟨⟨efault, rfl⟩, .inr (.inr rfl)⟩
    | some saved => exact .inr ⟨taken.1, taken.2, saved, rfl, rfl⟩

end Delivery

end NyonOS.Signal
