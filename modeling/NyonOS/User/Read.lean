import NyonOS.Abi
import NyonOS.User.Copy

namespace NyonOS.User

open Data List
open Abi
open BitVec (ofNat)

/-! `sys_read` and the objects that it hands a user's pointer to. -/

/-- What the kernel does with memory outside its own variables. -/
inductive Transfer
  | copyin (dst src len : Address)
  | copyout (dst src len : Address)
  | fill (dst : Address) (bytes : List Byte)

abbrev Call := Program Transfer fun _ => Bool

def askCopyin (dst src len : Address) : Call Bool := Program.perform (Transfer.copyin dst src len)

def askCopyout (dst src len : Address) : Call Bool := Program.perform (Transfer.copyout dst src len)

def askFill (dst : Address) (bytes : List Byte) : Call Bool := Program.perform (Transfer.fill dst bytes)

def Memory.fill (memory : Memory) : Address → List Byte → Memory
  | _, [] => memory
  | dst, byte :: rest => (memory.setByte dst byte).fill (dst + 1) rest

/-- The current task has its own page table. The second component is `copy_abort`. -/
def answerTransfer : Program.Handler Transfer (fun _ => Bool) (Memory × Bool)
  | .copyin dst src len, (memory, copyAbort) =>
    let (copied, memory) := (copyin true copyAbort dst src len).run Memory.answer memory
    (copied.ok == some true, memory, copied.copyAbort)
  | .copyout dst src len, (memory, copyAbort) =>
    let (copied, memory) := (copyout true copyAbort dst src len).run Memory.answer memory
    (copied.ok == some true, memory, copied.copyAbort)
  | .fill dst bytes, (memory, copyAbort) => (true, memory.fill dst bytes, copyAbort)

structure PipePair where
  ring : Address
  cap : Nat
  count : Nat
  head : Nat
  writeEnds : Nat

def pipeReadAt (p : PipePair) (ubuf : Address) (len : Nat) : Call (Int × PipePair) :=
  if ubuf = 0 ∨ len = 0 then return (0, p)
  else if p.count = 0 then return (if p.writeEnds = 0 then 0 else eagain, p)
  else
    let n := min len p.count
    let first := min (p.cap - p.head) n
    let after : PipePair := { p with head := (p.head + n) % p.cap, count := p.count - n }
    do
      if !(← askCopyout ubuf (p.ring + ofNat 64 p.head) (ofNat 64 first)) then return (efault, p)
      if n ≤ first then return (n, after)
      if !(← askCopyout (ubuf + ofNat 64 first) p.ring (ofNat 64 (n - first))) then return (efault, p)
      return (n, after)

structure Eventfd where
  counter : BitVec 64
  semaphore : Bool

/-- The value that is copied out lies at `val` on the kernel stack. -/
def eventfdReadAt (ef : Eventfd) (val ubuf : Address) (len : Nat) : Call (Int × Eventfd) :=
  if len < 8 then return (einval, ef)
  else if ef.counter = 0 then return (eagain, ef)
  else
    let after : Eventfd := { ef with counter := if ef.semaphore then ef.counter - 1 else 0 }
    do
      if !(← askCopyout ubuf val 8) then return (efault, after)
      return (8, after)

/-- The keyboard, and who reads from it. -/
structure Console where
  owner : Nat
  me : Nat
  canonical : Bool
  inputReady : Bool
  eof : Byte
  queue : List Byte

/-- The loop of a canonical read: the bytes up to the end of the line or the end mark. -/
def takeLine (eof : Byte) : (len : Nat) → List Byte → List Byte
  | 0, _ => []
  | _, [] => []
  | len + 1, c :: rest =>
    if eof ≠ 0 ∧ c = eof then []
    else if c = 10 then [c]
    else c :: takeLine eof len rest

/-- The owner of the keyboard; a reader takes it when there is none. -/
def Console.takeOwner (console : Console) : Nat :=
  if console.owner = 0 ∧ console.me ≠ 0 then console.me else console.owner

/-- `console_read_at`; its buffer is one of the kernel's. -/
def consoleReadAt (console : Console) (ubuf : Address) (len : Nat) : Call Int :=
  if ubuf = 0 ∨ len = 0 then return 0
  else if console.takeOwner ≠ console.me then return eio
  else if !console.canonical then do
    let typed := console.queue.take len
    let _ ← askFill ubuf typed
    return if typed = [] then eagain else typed.length
  else if !console.inputReady then return eagain
  else do
    let line := takeLine console.eof len console.queue
    let _ ← askFill ubuf line
    return if line = [] then if console.eof ≠ 0 ∧ console.queue.head? = some console.eof then 0 else eagain
      else line.length

/-- What an object is like each time the loop of `fd_read` comes round, with the result of
waiting for it. -/
inductive Source
  | pipe (rounds : List (PipePair × Int))
  | eventfd (val : Address) (rounds : List (Eventfd × Int))
  | console (rounds : List (Console × Int))

namespace Source

def userBufs : Source → Bool
  | pipe _ => true
  | eventfd .. => true
  | console _ => false

/-- The calls of `read_at`. -/
def readAt (ubuf : Address) (len : Nat) : Source → List (Call Int × Int)
  | pipe rounds => rounds.map fun (p, waited) => (do return (← pipeReadAt p ubuf len).1, waited)
  | eventfd val rounds => rounds.map fun (ef, waited) => (do return (← eventfdReadAt ef val ubuf len).1, waited)
  | console rounds => rounds.map fun (keyboard, waited) => (consoleReadAt keyboard ubuf len, waited)

end Source

/-- The loop of `fd_read` for an object that is not a file; the result is missing while the
loop goes on. -/
def fdRead (nonblock : Bool) : List (Call Int × Int) → Call (Option Int)
  | [] => return none
  | (readAt, waited) :: rest => do
    let r ← readAt
    if r ≠ eagain ∨ nonblock then return some r
    if waited < 0 then return some waited
    fdRead nonblock rest

def sysMaxIo : Nat := 65536

/-- `sys_read` through a buffer of the kernel's, once the user's was read from. -/
def sysReadBuffered (nonblock : Bool) (buf iobuf : Address) (rounds : List (Call Int × Int)) : Call (Option Int) := do
  match ← fdRead nonblock rounds with
  | none => return none
  | some r =>
    if r ≤ 0 then return some r
    else if !(← askCopyout buf iobuf (ofNat 64 r.toNat)) then return some efault
    else return some r

/-- `sys_read` of a user task; `iobuf` is what `kmalloc` returns. -/
def sysRead (nonblock : Bool) (iobuf : Option Address) (source : Source) (buf : Address) (len : BitVec 32) :
    Call (Option Int) :=
  let len := min len.toNat sysMaxIo
  if source.userBufs then fdRead nonblock (source.readAt buf len)
  else
    match iobuf with
    | none => return some enomem
    | some iobuf => do
      if !(← askCopyin iobuf buf (ofNat 64 len)) then return some efault
      sysReadBuffered nonblock buf iobuf (source.readAt iobuf len)

/-- A request to `copyout` that writes user memory only. -/
def Transfer.Contained : Transfer → Prop
  | .copyout dst _ len => CopyoutContained dst len
  | .copyin _ _ _ => True
  | .fill _ _ => True

section Requests

variable {buf : Address} {len : Nat} {state : Memory × Bool}

theorem below_userMax {index : Nat} (fits : buf.toNat + len ≤ userMax.toNat) (inside : index < len) :
    buf + ofNat 64 index < userMax := by
  have max : userMax.toNat = 0x0000800000000000 := rfl
  rw [BitVec.lt_def, BitVec.toNat_add, BitVec.toNat_ofNat]
  omega

theorem pipeReadAt_only (p : PipePair) (fits : buf.toNat + len ≤ userMax.toNat) :
    (pipeReadAt p buf len).Only Transfer.Contained := by
  unfold pipeReadAt
  split
  · trivial
  · rename_i real
    have some_ : 0 < len := by
      rw [not_or] at real
      exact Nat.pos_of_ne_zero real.2
    split
    · trivial
    · have start : buf < userMax := by
        have first := below_userMax fits some_
        simpa using first
      refine ⟨copyout_contained (.inl start), fun copied => ?_⟩
      cases copied with
      | false => trivial
      | true =>
        dsimp only
        split
        · trivial
        · rename_i wraps
          have inside : min (p.cap - p.head) (min len p.count) < len := by omega
          refine ⟨copyout_contained (.inl (below_userMax fits inside)), fun copied => ?_⟩
          cases copied with
          | false | true => trivial

theorem eventfdReadAt_only (ef : Eventfd) (val : Address) (fits : buf.toNat + len ≤ userMax.toNat) :
    (eventfdReadAt ef val buf len).Only Transfer.Contained := by
  unfold eventfdReadAt
  split
  · trivial
  · rename_i long
    split
    · trivial
    · have start : buf < userMax := by
        have first := below_userMax fits (show 0 < len by omega)
        simpa using first
      refine ⟨copyout_contained (.inl start), fun copied => ?_⟩
      cases copied with
      | false | true => trivial

theorem consoleReadAt_only (keyboard : Console) (ubuf : Address) (len : Nat) :
    (consoleReadAt keyboard ubuf len).Only Transfer.Contained ∧
      (consoleReadAt keyboard ubuf len).Returns fun r => 0 < r → 0 < len := by
  unfold consoleReadAt
  split
  · exact ⟨trivial, fun positive => absurd positive (Int.lt_irrefl 0)⟩
  · rename_i real
    rw [not_or] at real
    have some_ : 0 < len := Nat.pos_of_ne_zero real.2
    split
    · exact ⟨trivial, fun _ => some_⟩
    · split
      · exact ⟨⟨trivial, fun _ => trivial⟩, fun _ _ => some_⟩
      · split
        · exact ⟨trivial, fun _ => some_⟩
        · exact ⟨⟨trivial, fun _ => trivial⟩, fun _ _ => some_⟩

variable {rounds : List (Call Int × Int)}

theorem fdRead_only {allowed : Transfer → Prop} (nonblock : Bool)
    (each : ∀ round ∈ rounds, round.1.Only allowed) : (fdRead nonblock rounds).Only allowed := by
  induction rounds with
  | nil => trivial
  | cons round rest ih =>
    refine (each round mem_cons_self).bind fun r => ?_
    split
    · trivial
    · split
      · trivial
      · exact ih fun later member => each later (mem_cons_of_mem _ member)

theorem fdRead_returns {post : Int → Prop} (nonblock : Bool)
    (each : ∀ round ∈ rounds, round.1.Returns post ∧ (round.2 < 0 → post round.2)) :
    (fdRead nonblock rounds).Returns fun result => ∀ r ∈ result, post r := by
  induction rounds with
  | nil => exact fun r none_ => absurd none_ (Option.not_mem_none r)
  | cons round rest ih =>
    obtain ⟨returns, waits⟩ := each round mem_cons_self
    refine returns.bind fun r good => ?_
    split
    · rintro _ ⟨⟩
      exact good
    · split
      · rename_i negative
        rintro _ ⟨⟩
        exact waits negative
      · exact ih fun later member => each later (mem_cons_of_mem _ member)

theorem sysReadBuffered_only (nonblock : Bool) {iobuf : Address}
    (only : ∀ round ∈ rounds, round.1.Only Transfer.Contained)
    (returns : ∀ round ∈ rounds, round.1.Returns fun r => 0 < r → 0 < len) (start : 0 < len → buf < userMax) :
    (sysReadBuffered nonblock buf iobuf rounds).Only Transfer.Contained := by
  have lengths := fdRead_returns nonblock fun round member =>
    ⟨returns round member, fun negative positive => absurd positive (by omega)⟩
  refine (fdRead_only nonblock only).bind_of_returns lengths fun result bound => ?_
  cases result with
  | none => trivial
  | some r =>
    dsimp only
    split
    · trivial
    · rename_i positive
      refine ⟨copyout_contained (.inl (start (bound r rfl (by omega)))), fun copied => ?_⟩
      cases copied with
      | false | true => trivial

theorem copyin_answer {dst : Address} {count : Address} (some_ : count ≠ 0)
    (copied : (answerTransfer (.copyin dst buf count) state).1 = true) : buf < userMax := by
  rcases doCopy_cases state.2 dst buf count true state.1 with
    ⟨⟨empty, -⟩ | ⟨-, -, fails⟩, -, -⟩ | ⟨-, taken, -, -, -⟩
  · exact absurd empty some_
  · have fails_ : ((copyin true state.2 dst buf count).run Memory.answer state.1).1.ok = some false := fails
    simp [answerTransfer, fails_] at copied
  · by_contra high
    refine taken (.inr (.inr (.inl ⟨.inl rfl, ?_⟩)))
    rw [← Bool.not_eq_true, userRangeOk_iff]
    rw [BitVec.not_lt, BitVec.le_def] at high
    have positive : 0 < count.toNat := by
      rw [Nat.pos_iff_ne_zero]
      exact fun zero => some_ (BitVec.eq_of_toNat_eq zero)
    omega

end Requests

/-- A read through a pipe or an eventfd is contained when its whole buffer is below
`userMax`; one through the console always, since the buffer is first read from. -/
theorem sysRead_contained (nonblock : Bool) (iobuf : Option Address) (source : Source) (buf : Address) (len : BitVec 32)
    (state : Memory × Bool) (safe : source.userBufs = true → buf.toNat + len.toNat ≤ userMax.toNat) :
    ∀ request ∈ (sysRead nonblock iobuf source buf len).trace answerTransfer state, request.Contained := by
  unfold sysRead
  dsimp only
  cases source with
  | pipe rounds =>
    refine (fdRead_only nonblock fun round member => ?_).of_trace answerTransfer state
    obtain ⟨⟨p, waited⟩, -, rfl⟩ := mem_map.mp member
    have fits := safe rfl
    exact (pipeReadAt_only p (by omega)).bind fun _ => trivial
  | eventfd val rounds =>
    refine (fdRead_only nonblock fun round member => ?_).of_trace answerTransfer state
    obtain ⟨⟨ef, waited⟩, -, rfl⟩ := mem_map.mp member
    have fits := safe rfl
    exact (eventfdReadAt_only ef val (by omega)).bind fun _ => trivial
  | console rounds =>
    cases iobuf with
    | none => exact fun request member => absurd member not_mem_nil
    | some iobuf =>
      have each : ∀ round ∈ Source.readAt iobuf (min len.toNat sysMaxIo) (.console rounds),
          round.1.Only Transfer.Contained ∧ round.1.Returns fun r => 0 < r → 0 < min len.toNat sysMaxIo := by
        intro round member
        obtain ⟨⟨keyboard, waited⟩, -, rfl⟩ := mem_map.mp member
        exact consoleReadAt_only keyboard iobuf (min len.toNat sysMaxIo)
      intro request member
      change request ∈ (askCopyin iobuf buf _ >>= _).trace answerTransfer state at member
      rw [Program.trace_bind] at member
      rcases mem_append.mp member with first | member
      · rw [askCopyin, Program.trace_perform, mem_singleton] at first
        rw [first]
        trivial
      · rw [askCopyin, Program.run_perform] at member
        cases copied : (answerTransfer (.copyin iobuf buf (ofNat 64 (min len.toNat sysMaxIo))) state).1 with
        | false =>
          rw [copied] at member
          exact absurd member not_mem_nil
        | true =>
          rw [copied] at member
          refine (sysReadBuffered_only nonblock (fun round here => (each round here).1)
            (fun round here => (each round here).2) fun positive => ?_).of_trace answerTransfer _ request member
          refine copyin_answer (fun zero => ?_) copied
          have value := congrArg BitVec.toNat zero
          rw [BitVec.toNat_ofNat, Nat.mod_eq_of_lt (by unfold sysMaxIo; omega)] at value
          exact absurd value (Nat.pos_iff_ne_zero.mp positive)

/-- A pipe of four bytes that holds one. -/
def fullPipe : PipePair := ⟨0xFFFF800000001000#64, 4, 1, 0, 1⟩

end NyonOS.User
