import NyonOS.Abi
import NyonOS.Data.Bytes
import NyonOS.Data.RingBuffer
import NyonOS.Data.Run

namespace NyonOS.Pipe

open Abi List
open Data Function

/-! Pipes as byte streams. The section of each call under `pipe_lock` is one step. -/

/-- A user's buffer, as the copies find it. They turn down some ranges as a whole and stop
at the first byte that faults. -/
structure UserBuffer where
  null : Bool
  rangeOk : (offset n : Nat) → Bool
  source : Nat → Option Byte
  writable : Nat → Bool

/-- The loop of a copy into the kernel. -/
def copyBytes (source : Nat → Option Byte) : (n : Nat) → (cells : Nat → Byte) → (start offset : Nat) → Bool × (Nat → Byte)
  | 0, cells, _, _ => (true, cells)
  | n + 1, cells, start, offset =>
    match source offset with
    | none => (false, cells)
    | some byte => copyBytes source n (update cells start byte) (start + 1) (offset + 1)

namespace UserBuffer

variable (ubuf : UserBuffer)

def copyin (cells : Nat → Byte) (start offset n : Nat) : Bool × (Nat → Byte) :=
  if n = 0 then (true, cells)
  else if !ubuf.rangeOk offset n then (false, cells)
  else copyBytes ubuf.source n cells start offset

def copyout (offset n : Nat) : Bool :=
  n = 0 || ubuf.rangeOk offset n && (range n).all fun i => ubuf.writable (offset + i)

/-- The first bytes of the buffer. -/
def bytes (n : Nat) : List Byte := (range n).map fun i => (ubuf.source i).getD 0#8

end UserBuffer

/-- `struct pipe_pair`. -/
structure Pair extends RingBuffer Byte where
  readEnds : Nat
  writeEnds : Nat
  refs : Nat

section

variable (p : Pair)

section

variable (ubuf : UserBuffer)

/-- The bytes that come with a result are those that are in the user's buffer then. -/
def pipeReadAt (len : Nat) : Int × List Byte × Pair :=
  if ubuf.null ∨ len = 0 then (0, [], p)
  else if p.count = 0 then (if p.writeEnds = 0 then 0 else eagain, [], p)
  else
    let n := min len p.count
    let first := min (p.cap - p.head) n
    if !ubuf.copyout 0 first then (efault, [], p)
    else if first < n ∧ !ubuf.copyout first (n - first) then (efault, [], p)
    else (n, slice p.cells p.head first ++ slice p.cells 0 (n - first), { p with toRingBuffer := p.toRingBuffer.pop n })

theorem Pair.room (len : Nat) : p.count + min len (p.cap - p.count) ≤ p.cap := by
  have most := p.fits
  omega

/-- The copies of `pipe_write_at` into the free part of the ring, for `n` bytes. -/
def Pair.copyRing (n : Nat) : Bool × (Nat → Byte) :=
  let first := min (p.cap - p.tail) n
  let one := ubuf.copyin p.cells p.tail 0 first
  if !one.1 then (false, one.2)
  else if first < n then ubuf.copyin one.2 0 first (n - first)
  else (true, one.2)

def pipeWriteAt (len : Nat) : Int × Pair :=
  if ubuf.null ∨ len = 0 then (0, p)
  else if p.readEnds = 0 then (epipe, p)
  else if p.cap - p.count = 0 then (eagain, p)
  else if len ≤ pipeBuf ∧ p.cap - p.count < len then (eagain, p)
  else
    let n := min len (p.cap - p.count)
    let copied := p.copyRing ubuf n
    if !copied.1 then (efault, { p with toRingBuffer := p.toRingBuffer.setCells copied.2 })
    else (n, { p with toRingBuffer := (p.toRingBuffer.setCells copied.2).push n (p.room len) })

end

/-- The memory of the pair is freed with its last end. -/
def pipeClose (isRead : Bool) : Option Pair :=
  if p.refs - 1 = 0 then none
  else some { p with
    readEnds := if isRead then p.readEnds - 1 else p.readEnds
    writeEnds := if isRead then p.writeEnds else p.writeEnds - 1
    refs := p.refs - 1 }

end

/-- The pair that `pipe_create` makes, in memory that may hold anything. -/
def Pair.create (cells : Nat → Byte) : Pair where
  cells := cells
  cap := pipeCapacity
  head := 0
  count := 0
  inside := by decide
  fits := by decide
  readEnds := 1
  writeEnds := 1
  refs := 2

/-- One pipe, which of its ends are open, and what has gone through it so far. -/
structure Stream where
  pair : Option Pair
  readOpen : Bool
  writeOpen : Bool
  sent : List Byte
  received : List Byte

inductive PipeCall
  | read (ubuf : UserBuffer) (len : Nat)
  | write (ubuf : UserBuffer) (len : Nat)
  | close (isRead : Bool)

namespace Stream

def create (cells : Nat → Byte) : Stream := ⟨some (.create cells), true, true, [], []⟩

variable (s : Stream)

/-- A call is made through an end that is open. -/
def act (call : PipeCall) : Option (Int × Stream) :=
  match s.pair, call with
  | none, _ => none
  | some p, .read ubuf len =>
    let done := pipeReadAt p ubuf len
    if s.readOpen then some (done.1, { s with pair := some done.2.2, received := s.received ++ done.2.1 }) else none
  | some p, .write ubuf len =>
    let done := pipeWriteAt p ubuf len
    if s.writeOpen then some (done.1, { s with pair := some done.2, sent := s.sent ++ ubuf.bytes done.1.toNat }) else none
  | some p, .close isRead =>
    if (if isRead then s.readOpen else s.writeOpen) then
      some (0, { s with
        pair := pipeClose p isRead
        readOpen := s.readOpen && !isRead
        writeOpen := s.writeOpen && isRead })
    else none

def buffered : Option (List Byte) := s.pair.map fun p => p.contents

/-- There is nothing to read, and there never will be. -/
def Eof : Prop := s.buffered = some [] ∧ s.writeOpen = false

end Stream

def StreamStep (call : PipeCall) (before after : Stream) : Prop := ∃ result, before.act call = some (result, after)

/-- What has come out, followed by what is still in the pipe, is what has gone in. -/
structure Fifo (s : Stream) : Prop where
  order : ∀ {p}, s.pair = some p → s.received ++ p.contents = s.sent
  bounded : ∀ {p}, s.pair = some p → p.count ≤ pipeCapacity

/-- What a single call has to respect. -/
structure Lawful (call : PipeCall) (before : Stream) (result : Int) (after : Stream) : Prop where
  error : result < 0 → after.sent = before.sent ∧ after.received = before.received ∧ after.buffered = before.buffered
  whole : ∀ {ubuf len}, call = .write ubuf len → len ≤ pipeBuf →
    after.sent = before.sent ∨ result = len ∧ after.sent = before.sent ++ ubuf.bytes len
  zero : ∀ {ubuf len}, call = .read ubuf len → len ≠ 0 → result = 0 → before.Eof

/-- A read of some bytes passes a buffer, or is made at the end of the stream. -/
def PassesBuffer : PipeCall → Stream → Prop
  | .read ubuf len, s => ubuf.null = true → len ≠ 0 → s.Eof
  | _, _ => True

section Copies

variable {source : Nat → Option Byte} {ubuf : UserBuffer} {cells : Nat → Byte} {start offset n : Nat} {i : Nat}

theorem copyBytes_outside (outside : ¬(start ≤ i ∧ i < start + n)) :
    (copyBytes source n cells start offset).2 i = cells i := by
  induction n generalizing cells start offset with
  | zero => rfl
  | succ n ih =>
    unfold copyBytes
    cases source offset with
    | none => rfl
    | some byte =>
      dsimp only
      rw [ih (by omega), update_of_ne (by omega)]

theorem copyBytes_inside (copied : (copyBytes source n cells start offset).1 = true) (inside : i < n) :
    (copyBytes source n cells start offset).2 (start + i) = (source (offset + i)).getD 0#8 := by
  induction n generalizing cells start offset i with
  | zero => omega
  | succ n ih =>
    unfold copyBytes at copied ⊢
    cases there : source offset with
    | none =>
      rw [there] at copied
      cases copied
    | some byte =>
      rw [there] at copied
      dsimp only at copied ⊢
      cases i with
      | zero =>
        rw [copyBytes_outside (by omega), Nat.add_zero, update_self, Nat.add_zero, there]
        rfl
      | succ i =>
        have rest := ih copied (i := i) (by omega)
        rwa [Nat.add_assoc, Nat.add_comm 1 i, Nat.add_assoc, Nat.add_comm 1 i] at rest

theorem copyin_outside (outside : ¬(start ≤ i ∧ i < start + n)) : (ubuf.copyin cells start offset n).2 i = cells i := by
  unfold UserBuffer.copyin
  split
  · rfl
  · split
    · rfl
    · exact copyBytes_outside outside

variable (copied : (ubuf.copyin cells start offset n).1 = true)
include copied

theorem copyin_inside (inside : i < n) :
    (ubuf.copyin cells start offset n).2 (start + i) = (ubuf.source (offset + i)).getD 0#8 := by
  unfold UserBuffer.copyin at copied ⊢
  split at copied
  · omega
  · rename_i some_
    rw [if_neg some_]
    split at copied
    · cases copied
    · rename_i fine
      rw [if_neg fine]
      exact copyBytes_inside copied inside

theorem slice_copyin :
    slice (ubuf.copyin cells start offset n).2 start n = (range n).map fun i => (ubuf.source (offset + i)).getD 0#8 :=
  map_congr_left fun _ member => copyin_inside copied (mem_range.mp member)

end Copies

section Pairs

variable {p : Pair} {ubuf : UserBuffer} {len n : Nat}

theorem copyRing_outside {i : Nat} (free : ¬(p.tail ≤ i ∧ i < p.tail + min (p.cap - p.tail) n))
    (around : ¬i < n - min (p.cap - p.tail) n) : (p.copyRing ubuf n).2 i = p.cells i := by
  unfold Pair.copyRing
  dsimp only
  split
  · exact copyin_outside free
  · split
    · rw [copyin_outside (by omega), copyin_outside free]
    · exact copyin_outside free

theorem window_copyRing (most : n ≤ p.cap) (copied : (p.copyRing ubuf n).1 = true) :
    window (p.copyRing ubuf n).2 p.cap p.tail n = ubuf.bytes n := by
  have tail := p.tail_lt
  have bytes : ubuf.bytes n = ((range (min (p.cap - p.tail) n)).map fun i => (ubuf.source (0 + i)).getD 0#8) ++
      (range (n - min (p.cap - p.tail) n)).map fun i => (ubuf.source (min (p.cap - p.tail) n + i)).getD 0#8 := by
    conv_lhs => rw [show n = min (p.cap - p.tail) n + (n - min (p.cap - p.tail) n) by omega]
    simp only [UserBuffer.bytes, range_add, map_append, map_map, Function.comp_def, Nat.zero_add]
  rw [window_split tail most, bytes]
  unfold Pair.copyRing at copied ⊢
  dsimp only at copied ⊢
  split at copied
  · cases copied
  · rename_i firstCopied
    rw [if_neg firstCopied]
    have firstCopied : (ubuf.copyin p.cells p.tail 0 (min (p.cap - p.tail) n)).1 = true := by simpa using firstCopied
    split at copied
    · rename_i wraps
      rw [if_pos wraps]
      have second := slice_copyin copied
      rw [second]
      congr 1
      rw [← slice_copyin firstCopied]
      -- the second part ends before the first one begins
      refine slice_congr fun i bound => copyin_outside ?_
      omega
    · rename_i fits
      rw [if_neg fits, slice_copyin firstCopied]
      congr 1
      rw [show n - min (p.cap - p.tail) n = 0 by omega]
      rfl

theorem pipeWriteAt_cases (p : Pair) (ubuf : UserBuffer) (len : Nat) :
    (pipeWriteAt p ubuf len).2.contents = p.contents ∧ (pipeWriteAt p ubuf len).1 ≤ 0 ∨
      (pipeWriteAt p ubuf len).1 = min len (p.cap - p.count) ∧
        (pipeWriteAt p ubuf len).2.contents = p.contents ++ ubuf.bytes (min len (p.cap - p.count)) ∧
          (len ≤ pipeBuf → len ≤ p.cap - p.count) := by
  unfold pipeWriteAt
  split
  · exact .inl ⟨rfl, Int.le_refl _⟩
  · split
    · exact .inl ⟨rfl, show epipe ≤ 0 by decide⟩
    · split
      · exact .inl ⟨rfl, show eagain ≤ 0 by decide⟩
      · split
        · exact .inl ⟨rfl, show eagain ≤ 0 by decide⟩
        · rename_i atomic
          have room := p.room len
          have kept : (p.toRingBuffer.setCells (p.copyRing ubuf (min len (p.cap - p.count))).2).contents = p.contents :=
            RingBuffer.contents_setCells room fun i free around => copyRing_outside free around
          dsimp only
          split
          · exact .inl ⟨kept, show efault ≤ 0 by decide⟩
          · rename_i copied
            refine .inr ⟨rfl, ?_, by omega⟩
            refine (RingBuffer.contents_push (r := p.toRingBuffer.setCells
              (p.copyRing ubuf (min len (p.cap - p.count))).2) room).trans ?_
            rw [kept]
            congr 1
            exact window_copyRing (by omega) (by simpa using copied)

theorem pipeReadAt_cases (p : Pair) (ubuf : UserBuffer) (len : Nat) :
    (pipeReadAt p ubuf len).2 = ([], p) ∧ (pipeReadAt p ubuf len).1 ≤ 0 ∧
        ((pipeReadAt p ubuf len).1 = 0 → ubuf.null = true ∨ len = 0 ∨ p.count = 0 ∧ p.writeEnds = 0) ∨
      0 < (pipeReadAt p ubuf len).1 ∧ (pipeReadAt p ubuf len).2.1 ++ (pipeReadAt p ubuf len).2.2.contents = p.contents := by
  unfold pipeReadAt
  split
  · rename_i trivial_
    exact .inl ⟨rfl, Int.le_refl _, fun _ => trivial_.imp_right .inl⟩
  · rename_i proper
    split
    · rename_i empty
      refine .inl ⟨rfl, ?_, fun zero => .inr (.inr ⟨empty, ?_⟩)⟩
      · dsimp only
        split <;> decide
      · by_contra open_
        rw [if_neg open_] at zero
        cases zero
    · rename_i some_
      dsimp only
      split
      · exact .inl ⟨rfl, show efault ≤ 0 by decide, (fun zero => nomatch zero)⟩
      · split
        · exact .inl ⟨rfl, show efault ≤ 0 by decide, (fun zero => nomatch zero)⟩
        · refine .inr ⟨by omega, ?_⟩
          rw [← RingBuffer.take_contents (Nat.min_le_right ..), RingBuffer.contents_pop (Nat.min_le_right ..), take_append_drop]

/-- The ends and the size of a pair are no matter of reading and writing. -/
structure SameEnds (p p' : Pair) : Prop where
  cap : p'.cap = p.cap
  readEnds : p'.readEnds = p.readEnds
  writeEnds : p'.writeEnds = p.writeEnds
  refs : p'.refs = p.refs

theorem SameEnds.rfl' : SameEnds p p := ⟨rfl, rfl, rfl, rfl⟩

theorem pipeReadAt_ends : SameEnds p (pipeReadAt p ubuf len).2.2 := by
  unfold pipeReadAt
  split
  · exact .rfl'
  · split
    · exact .rfl'
    · dsimp only
      split
      · exact .rfl'
      · split
        · exact .rfl'
        · exact ⟨rfl, rfl, rfl, rfl⟩

theorem pipeWriteAt_ends : SameEnds p (pipeWriteAt p ubuf len).2 := by
  unfold pipeWriteAt
  split
  · exact .rfl'
  · split
    · exact .rfl'
    · split
      · exact .rfl'
      · split
        · exact .rfl'
        · dsimp only
          split
          · exact ⟨rfl, rfl, rfl, rfl⟩
          · exact ⟨rfl, rfl, rfl, rfl⟩

end Pairs

/-- The counts of a pair are those of its open ends. -/
structure EndsOpen (s : Stream) (p : Pair) : Prop where
  cap : p.cap = pipeCapacity
  readEnds : p.readEnds = s.readOpen.toNat
  writeEnds : p.writeEnds = s.writeOpen.toNat
  refs : p.refs = s.readOpen.toNat + s.writeOpen.toNat

structure Flowing (s : Stream) : Prop where
  order : ∀ {p}, s.pair = some p → s.received ++ p.contents = s.sent
  ends : ∀ {p}, s.pair = some p → EndsOpen s p

namespace Flowing

variable {s after : Stream} {result : Int} {call : PipeCall} {cells : Nat → Byte}

theorem create : Flowing (.create cells) where
  order found := by
    cases found
    rfl
  ends found := by
    cases found
    exact ⟨rfl, rfl, rfl, rfl⟩

theorem fifo (flowing : Flowing s) : Fifo s where
  order := flowing.order
  bounded {p} found := by
    rw [← (flowing.ends found).cap]
    exact p.fits

variable {p : Pair} {ubuf : UserBuffer}

theorem read {len : Nat} (flowing : Flowing s) (found : s.pair = some p) :
    Flowing { s with pair := some (pipeReadAt p ubuf len).2.2, received := s.received ++ (pipeReadAt p ubuf len).2.1 } where
  order here := by
    cases here
    have before := flowing.order found
    rcases pipeReadAt_cases p ubuf len with ⟨nothing, -⟩ | ⟨-, moved⟩
    · rw [nothing]
      exact (congrArg (· ++ p.contents) (append_nil _)).trans before
    · rw [append_assoc, moved]
      exact before
  ends here := by
    cases here
    have same : SameEnds p (pipeReadAt p ubuf len).2.2 := pipeReadAt_ends
    have before := flowing.ends found
    exact ⟨same.cap.trans before.cap, same.readEnds.trans before.readEnds, same.writeEnds.trans before.writeEnds,
      same.refs.trans before.refs⟩

theorem write {len : Nat} (flowing : Flowing s) (found : s.pair = some p) :
    Flowing { s with
      pair := some (pipeWriteAt p ubuf len).2
      sent := s.sent ++ ubuf.bytes (pipeWriteAt p ubuf len).1.toNat } where
  order here := by
    cases here
    have before := flowing.order found
    rcases pipeWriteAt_cases p ubuf len with ⟨kept, failed⟩ | ⟨count, grown, -⟩
    · rw [kept, Int.toNat_of_nonpos failed]
      exact before.trans (append_nil _).symm
    · rw [grown, count, ← append_assoc]
      exact congrArg (· ++ _) before
  ends here := by
    cases here
    have same : SameEnds p (pipeWriteAt p ubuf len).2 := pipeWriteAt_ends
    have before := flowing.ends found
    exact ⟨same.cap.trans before.cap, same.readEnds.trans before.readEnds, same.writeEnds.trans before.writeEnds,
      same.refs.trans before.refs⟩

theorem close {isRead : Bool} (flowing : Flowing s) (found : s.pair = some p)
    (open_ : (if isRead then s.readOpen else s.writeOpen) = true) :
    Flowing { s with
      pair := pipeClose p isRead
      readOpen := s.readOpen && !isRead
      writeOpen := s.writeOpen && isRead } := by
  have before := flowing.ends found
  unfold pipeClose
  split
  · exact ⟨(fun here => nomatch here), (fun here => nomatch here)⟩
  · refine ⟨fun here => ?_, fun here => ?_⟩
    · cases here
      have order := flowing.order found
      exact order
    · cases here
      cases isRead with
      | true =>
        have isOpen : s.readOpen = true := open_
        refine ⟨before.cap, ?_, ?_, ?_⟩
        · simp [before.readEnds, isOpen]
        · simp [before.writeEnds]
        · simp [before.refs, isOpen]
      | false =>
        have isOpen : s.writeOpen = true := open_
        refine ⟨before.cap, ?_, ?_, ?_⟩
        · simp [before.readEnds]
        · simp [before.writeEnds, isOpen]
        · simp [before.refs, isOpen]

theorem act_cases (taken : s.act call = some (result, after)) : ∃ p, s.pair = some p ∧
    ((∃ ubuf len, call = .read ubuf len ∧ result = (pipeReadAt p ubuf len).1 ∧ after =
        { s with pair := some (pipeReadAt p ubuf len).2.2, received := s.received ++ (pipeReadAt p ubuf len).2.1 }) ∨
      (∃ ubuf len, call = .write ubuf len ∧ result = (pipeWriteAt p ubuf len).1 ∧ after = { s with
          pair := some (pipeWriteAt p ubuf len).2
          sent := s.sent ++ ubuf.bytes (pipeWriteAt p ubuf len).1.toNat }) ∨
        ∃ isRead, call = .close isRead ∧ result = 0 ∧ (if isRead then s.readOpen else s.writeOpen) = true ∧ after = { s with
          pair := pipeClose p isRead
          readOpen := s.readOpen && !isRead
          writeOpen := s.writeOpen && isRead }) := by
  unfold Stream.act at taken
  cases found : s.pair with
  | none =>
    rw [found] at taken
    cases taken
  | some p =>
    rw [found] at taken
    refine ⟨p, rfl, ?_⟩
    cases call with
    | read ubuf len =>
      obtain ⟨-, same⟩ := Option.ite_none_right_eq_some.mp taken
      cases same
      exact .inl ⟨ubuf, len, rfl, rfl, rfl⟩
    | write ubuf len =>
      obtain ⟨-, same⟩ := Option.ite_none_right_eq_some.mp taken
      cases same
      exact .inr (.inl ⟨ubuf, len, rfl, rfl, rfl⟩)
    | close isRead =>
      obtain ⟨open_, same⟩ := Option.ite_none_right_eq_some.mp taken
      cases same
      exact .inr (.inr ⟨isRead, rfl, rfl, open_, rfl⟩)

variable (flowing : Flowing s)
include flowing

theorem step (taken : s.act call = some (result, after)) : Flowing after := by
  obtain ⟨p, found, ⟨ubuf, len, -, -, rfl⟩ | ⟨ubuf, len, -, -, rfl⟩ | ⟨isRead, -, -, open_, rfl⟩⟩ := act_cases taken
  · exact flowing.read found
  · exact flowing.write found
  · exact flowing.close found open_

theorem eof_iff (found : s.pair = some p) : s.Eof ↔ p.count = 0 ∧ p.writeEnds = 0 := by
  rw [Stream.Eof, Stream.buffered, found, Option.map_some, Option.some.injEq, RingBuffer.contents_eq_nil,
    (flowing.ends found).writeEnds, Bool.toNat_eq_zero]

theorem lawful_iff (taken : s.act call = some (result, after)) : Lawful call s result after ↔ PassesBuffer call s := by
  obtain ⟨p, found, ⟨ubuf, len, rfl, rfl, rfl⟩ | ⟨ubuf, len, rfl, rfl, rfl⟩ | ⟨isRead, rfl, rfl, -, rfl⟩⟩ := act_cases taken
  · constructor
    · intro lawful null some_
      refine lawful.zero rfl some_ ?_
      unfold pipeReadAt
      rw [if_pos (.inl null)]
    · intro passes
      refine ⟨fun error => ?_, (fun same => nomatch same), fun same some_ zero => ?_⟩
      · rcases pipeReadAt_cases p ubuf len with ⟨nothing, -⟩ | ⟨moved, -⟩
        · simp [nothing, Stream.buffered, found]
        · omega
      · cases same
        rcases pipeReadAt_cases p ubuf len with ⟨-, -, why⟩ | ⟨moved, -⟩
        · rcases why zero with null | none_ | ended
          · exact passes null some_
          · exact absurd none_ some_
          · exact (flowing.eof_iff found).mpr ended
        · omega
  · refine ⟨fun _ => trivial, fun _ => ⟨fun error => ?_, fun {ubuf' len'} same small => ?_, (fun same => nomatch same)⟩⟩
    · rcases pipeWriteAt_cases p ubuf len with ⟨kept, failed⟩ | ⟨count, -⟩
      · simp [Int.toNat_of_nonpos failed, UserBuffer.bytes, Stream.buffered, found, kept]
      · omega
    · cases same
      rcases pipeWriteAt_cases p ubuf len with ⟨-, failed⟩ | ⟨count, -, whole⟩
      · refine .inl ?_
        simp [Int.toNat_of_nonpos failed, UserBuffer.bytes]
      · have all : min len (p.cap - p.count) = len := Nat.min_eq_left (whole small)
        rw [all] at count
        refine .inr ⟨count, ?_⟩
        simp [count]
  · refine ⟨fun _ => trivial, fun _ => ⟨fun error => ?_, (fun same => nomatch same), (fun same => nomatch same)⟩⟩
    omega

end Flowing

/-- A pipe is a FIFO byte stream under every interleaving of calls, and every call respects
the rules, but for one: a read without a buffer returns 0 as if the stream had ended. -/
theorem pipe_is_fifo {cells : Nat → Byte} {now : Stream} (run : Run StreamStep (fun _ _ => True) (.create cells) now) :
    Fifo now ∧ ∀ call result after, now.act call = some (result, after) →
      (Lawful call now result after ↔ PassesBuffer call now) := by
  have flowing : Flowing now := by
    refine run.invariant Flowing.create fun call before after flowing _ taken => ?_
    obtain ⟨result, taken⟩ := taken
    exact flowing.step taken
  exact ⟨flowing.fifo, fun _ _ _ taken => flowing.lawful_iff taken⟩

/-- A buffer that can be read and written everywhere. -/
def UserBuffer.filled (byte : Byte) : UserBuffer := ⟨false, fun _ _ => true, fun _ => some byte, fun _ => true⟩

def UserBuffer.nothing : UserBuffer := ⟨true, fun _ _ => true, fun _ => none, fun _ => false⟩

def emptyPipe : Stream := .create fun _ => 0#8

/-- The state after a call that is made. -/
def Stream.after (s : Stream) (call : PipeCall) : Stream := (s.act call).elim s Prod.snd

/-- Three bytes are written, and then two are read. -/
def afterTransfer : Stream := (emptyPipe.after (.write (.filled 7#8) 3)).after (.read (.filled 0#8) 2)

theorem pipe_is_fifo_transfer : (afterTransfer.received = [7#8, 7#8] ∧ afterTransfer.buffered = some [7#8]) ∧ Fifo afterTransfer ∧
    (∀ result after, afterTransfer.act (.read (.filled 0#8) 5) = some (result, after) →
      Lawful (.read (.filled 0#8) 5) afterTransfer result after) := by
  have written : StreamStep (.write (.filled 7#8) 3) emptyPipe (emptyPipe.after (.write (.filled 7#8) 3)) := ⟨3, rfl⟩
  have read : StreamStep (.read (.filled 0#8) 2) (emptyPipe.after (.write (.filled 7#8) 3)) afterTransfer := ⟨2, rfl⟩
  have general := pipe_is_fifo ((Run.start.next trivial written).next trivial read)
  refine ⟨⟨by decide, by decide⟩, general.1, fun result after taken => (general.2 _ _ _ taken).mpr ?_⟩
  exact fun null => nomatch null

/-- One byte is in the pipe and its write end is open, and a read of five bytes returns 0. -/
theorem null_read_ends_stream : ∃ now after, Run StreamStep (fun _ _ => True) emptyPipe now ∧
    now.buffered = some [7#8] ∧ now.writeOpen = true ∧ now.act (.read .nothing 5) = some (0, after) ∧
      ¬Lawful (.read .nothing 5) now 0 after := by
  have written : StreamStep (.write (.filled 7#8) 1) emptyPipe (emptyPipe.after (.write (.filled 7#8) 1)) := ⟨1, rfl⟩
  refine ⟨_, _, Run.start.next trivial written, by decide, rfl, rfl, fun lawful => ?_⟩
  have eof := lawful.zero rfl (by decide) rfl
  exact absurd eof.2 (by decide)

end NyonOS.Pipe
