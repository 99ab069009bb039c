import NyonOS.Fd.Timer
import NyonOS.Fd.Transfer
import NyonOS.Pipe.Stream

namespace NyonOS.Fd

open Abi List
open Data
open Pipe

/-! Memory files. -/

/-- `struct memfd`. -/
structure Memfd where
  data : Nat → Byte
  size : Nat
  cap : Nat
  off : Nat

/-- The loop of `memfd_grow`. After 64 doublings there is 0 left, and the loop never ends. -/
def growCap (need : Nat) : (rounds cap : Nat) → Option Nat
  | 0, _ => none
  | rounds + 1, cap => if cap < need then growCap need rounds (u64 (cap * 2)) else some cap

section

variable (heap : Nat → Bool)

/-- `memfd_grow`, if it returns; `heap` says which sizes `krealloc` can provide. -/
def memfdGrow (mf : Memfd) (need : Nat) : Option (Int × Memfd) :=
  if need ≤ mf.cap then some (0, mf)
  else
    match growCap need 65 (if mf.cap ≠ 0 then mf.cap else 64) with
    | none => none
    | some cap =>
      if !heap cap then some (enomem, mf)
      else some (0, { mf with data := fun i => if i < mf.cap then mf.data i else 0#8, cap })

def memfdReadAt (mf : Memfd) (ubuf : UserBuffer) (len : Nat) : (Int × List Byte) × Memfd :=
  if mf.size ≤ mf.off then ((0, []), mf)
  else
    let n := min len (mf.size - mf.off)
    if !ubuf.copyout 0 n then ((efault, []), mf)
    else ((n, slice mf.data mf.off n), { mf with off := mf.off + n })

def memfdWriteAt (ubuf : UserBuffer) (mf : Memfd) (start len : Nat) : Option (Int × Memfd) :=
  match memfdGrow heap mf (u64 (mf.off + len)) with
  | none => none
  | some (r, mf) =>
    if r ≠ 0 then some (r, mf)
    else
      let copied := ubuf.copyin mf.data mf.off start len
      if !copied.1 then some (efault, { mf with data := copied.2 })
      else
        let off := u64 (mf.off + len)
        some (len, { mf with data := copied.2, off, size := max mf.size off })

def memfdTruncate (mf : Memfd) (len : Nat) : Option (Int × Memfd) :=
  match if mf.cap < len then memfdGrow heap mf len else some (0, mf) with
  | none => none
  | some (r, mf) =>
    if r ≠ 0 then some (r, mf)
    else
      let mf := if len < mf.size then { mf with size := len }
        else { mf with data := fun i => if mf.size ≤ i ∧ i < len then 0#8 else mf.data i }
      some (0, { mf with off := min mf.off mf.size })

/-- The handler in the loop of `fd_write`; there is no file while a call does not return. -/
def memfdHandler (ubuf : UserBuffer) (mf : Option Memfd) (start len _pos : Nat) : Int × Option Memfd :=
  match mf.bind fun mf => memfdWriteAt heap ubuf mf start len with
  | none => (0, none)
  | some (r, mf) => (r, some mf)

/-- `fd_write`, if it returns. A round takes all bytes. -/
def memfdWrite (mf : Memfd) (ubuf : UserBuffer) (len : Nat) : Option (Int × Memfd) :=
  match writeLoop (memfdHandler heap ubuf) none len 0 3 0 (some mf) 0 with
  | (some r, some mf) => some (r, mf)
  | _ => none

end

inductive MemCall
  | read (ubuf : UserBuffer) (len : BitVec 32)
  | write (heap : Nat → Bool) (ubuf : UserBuffer) (len : BitVec 32)
  | lseek (off : BitVec 64) (whence : Nat)
  | truncate (heap : Nat → Bool) (len : BitVec 64)

/-- A call: its result, the bytes it delivers, and the file. `fd_lseek` only seeks in files of the file system. -/
def Memfd.perform (mf : Memfd) : MemCall → Option ((Int × List Byte) × Memfd)
  | .read ubuf len => some (memfdReadAt mf ubuf len.toNat)
  | .write heap ubuf len => (memfdWrite heap mf ubuf len.toNat).map fun done => ((done.1, []), done.2)
  | .lseek _ _ => some ((espipe, []), mf)
  | .truncate heap len => (memfdTruncate heap mf len.toNat).map fun done => ((done.1, []), done.2)

/-- The array that is meant, with a position. -/
structure Contents where
  bytes : List Byte
  pos : Nat

/-- Where a seek leads to, if that is anywhere. -/
def Contents.target (a : Contents) (off : BitVec 64) (whence : Nat) : Option Nat :=
  match (match whence with | 0 => some 0 | 1 => some a.pos | 2 => some a.bytes.length | _ => none : Option Nat) with
  | none => none
  | some base => if 0 ≤ base + off.toInt ∧ base + off.toInt < 2 ^ 63 then some (base + off.toInt).toNat else none

/-- What a call that succeeds returns and does. -/
def Contents.expected (a : Contents) : MemCall → Option ((Int × List Byte) × Contents)
  | .read _ len =>
    let got := (a.bytes.drop a.pos).take len.toNat
    some ((got.length, got), { a with pos := a.pos + got.length })
  | .write _ ubuf len =>
    let gap := List.replicate (a.pos - a.bytes.length) 0#8
    some ((len.toNat, []), ⟨(a.bytes ++ gap).take a.pos ++ ubuf.bytes len.toNat ++ a.bytes.drop (a.pos + len.toNat), a.pos + len.toNat⟩)
  | .lseek off whence => (a.target off whence).map fun pos => (((pos : Nat), []), { a with pos })
  | .truncate _ len =>
    some ((0, []), ⟨a.bytes.take len.toNat ++ List.replicate (len.toNat - a.bytes.length) 0#8, min a.pos len.toNat⟩)

/-- A memory file and the array that it should be. -/
structure Holds (mf : Memfd) (a : Contents) : Prop where
  size : mf.size = a.bytes.length
  bytes : slice mf.data 0 mf.size = a.bytes
  off : mf.off = a.pos

/-- A call returns. It fails and changes nothing, which a seek to a position does not; or it does what is expected. -/
def Agrees (mf : Memfd) (a : Contents) (call : MemCall) : Prop :=
  ∃ r got mf', mf.perform call = some ((r, got), mf') ∧
    (r < 0 ∧ Holds mf' a ∧ (∀ off whence, call = .lseek off whence → a.target off whence = none) ∨
      0 ≤ r ∧ ∃ a', a.expected call = some ((r, got), a') ∧ Holds mf' a')

/-- Seeks lead nowhere, truncations do not extend, and writes stay below 2 ^ 63. -/
def Plain (mf : Memfd) (a : Contents) : MemCall → Prop
  | .read _ _ => True
  | .write _ _ len => mf.off + len.toNat ≤ 2 ^ 63
  | .lseek off whence => a.target off whence = none
  | .truncate _ len => len.toNat ≤ mf.size

section Growth

variable {heap : Nat → Bool} {mf : Memfd} {need : Nat}

theorem growCap_some {rounds cap : Nat} (most : need ≤ 2 ^ 63) (enough : need ≤ cap * 2 ^ rounds) :
    ∃ grown, growCap need (rounds + 1) cap = some grown ∧ need ≤ grown := by
  induction rounds generalizing cap with
  | zero => exact ⟨cap, if_neg (by omega), by omega⟩
  | succ rounds ih =>
    rw [growCap]
    by_cases small : cap < need
    · rw [if_pos small, u64, Nat.mod_eq_of_lt (by omega)]
      exact ih (by rw [Nat.mul_assoc, ← Nat.pow_succ']; exact enough)
    · exact ⟨cap, if_neg small, Nat.not_lt.mp small⟩

theorem memfdGrow_cases (most : need ≤ 2 ^ 63) : memfdGrow heap mf need = some (enomem, mf) ∨
    ∃ mf', memfdGrow heap mf need = some (0, mf') ∧ need ≤ mf'.cap ∧ mf.cap ≤ mf'.cap ∧ mf'.size = mf.size ∧ mf'.off = mf.off ∧
      ∀ i < mf.cap, mf'.data i = mf.data i := by
  unfold memfdGrow
  by_cases fits : need ≤ mf.cap
  · exact .inr ⟨mf, if_pos fits, fits, Nat.le_refl _, rfl, rfl, fun _ _ => rfl⟩
  rw [if_neg fits]
  have enough : need ≤ (if mf.cap ≠ 0 then mf.cap else 64) * 2 ^ 64 := by
    split_ifs <;> omega
  obtain ⟨cap, grown, large⟩ := growCap_some most enough
  rw [grown]
  dsimp only
  by_cases full : (!heap cap) = true
  · exact .inl (if_pos full)
  · rw [if_neg full]
    exact .inr ⟨_, rfl, large, by dsimp only; omega, rfl, rfl, fun i inside => if_pos inside⟩

end Growth

/-- The position is at the end, inside the buffer. -/
structure AtEnd (mf : Memfd) : Prop where
  off : mf.off = mf.size
  room : mf.size ≤ mf.cap

section Calls

variable {heap : Nat → Bool} {ubuf : UserBuffer} {mf : Memfd} {a : Contents}

theorem memfdWriteAt_cases {start len : Nat} (atEnd : AtEnd mf) (most : mf.off + len ≤ 2 ^ 63) :
    ∃ r mf', memfdWriteAt heap ubuf mf start len = some (r, mf') ∧ AtEnd mf' ∧
      (r < 0 ∧ mf'.size = mf.size ∧ slice mf'.data 0 mf.size = slice mf.data 0 mf.size ∨
        r = len ∧ mf'.size = mf.size + len ∧ slice mf'.data 0 (mf.size + len) =
          slice mf.data 0 mf.size ++ (range len).map fun i => (ubuf.source (start + i)).getD 0#8) := by
  have exact_ : u64 (mf.off + len) = mf.off + len := Nat.mod_eq_of_lt (by omega)
  unfold memfdWriteAt
  rw [exact_]
  rcases @memfdGrow_cases heap mf _ most with failed | ⟨mf', grown, large, more, size, off, kept⟩
  · rw [failed]
    exact ⟨enomem, mf, rfl, atEnd, .inl ⟨by decide, rfl, rfl⟩⟩
  · have old : slice mf'.data 0 mf.size = slice mf.data 0 mf.size := slice_congr fun i bound => by
      rw [Nat.zero_add]
      exact kept i (Nat.lt_of_lt_of_le bound atEnd.room)
    have before : slice (ubuf.copyin mf'.data mf'.off start len).2 0 mf.size = slice mf.data 0 mf.size := by
      rw [← old]
      refine slice_congr fun i bound => copyin_outside ?_
      rw [off, atEnd.off]
      omega
    rw [grown]
    dsimp only
    rw [if_neg (fun wrong : (0 : Int) ≠ 0 => wrong rfl), off, exact_]
    rw [off] at before
    by_cases faults : (!(ubuf.copyin mf'.data mf.off start len).1) = true
    · rw [if_pos faults]
      refine ⟨efault, _, rfl, ⟨atEnd.off.trans size.symm, ?_⟩, .inl ⟨by decide, size, before⟩⟩
      exact size ▸ Nat.le_trans atEnd.room more
    · rw [if_neg faults]
      have all : max mf'.size (mf.off + len) = mf.size + len := by
        rw [size, atEnd.off]
        omega
      refine ⟨len, _, rfl, ⟨?_, ?_⟩, .inr ⟨rfl, all, ?_⟩⟩
      · exact (congrArg (· + len) atEnd.off).trans all.symm
      · exact all ▸ atEnd.off ▸ large
      · rw [slice_add, before, Nat.zero_add]
        have copied := slice_copyin (by simpa using faults : (ubuf.copyin mf'.data mf.off start len).1 = true)
        rw [atEnd.off] at copied
        rw [atEnd.off, copied]

theorem memfdWriteAt_none {start : Nat} (atEnd : AtEnd mf) (most : mf.off < 2 ^ 64) :
    memfdWriteAt heap ubuf mf start 0 = some (0, mf) := by
  have exact_ : u64 (mf.off + 0) = mf.off := Nat.mod_eq_of_lt most
  have fits : mf.off ≤ mf.cap := atEnd.off ▸ atEnd.room
  obtain ⟨data, size, cap, off⟩ := mf
  cases atEnd.off
  unfold memfdWriteAt memfdGrow
  rw [exact_, if_pos fits]
  dsimp only
  rw [if_neg (fun wrong : (0 : Int) ≠ 0 => wrong rfl), exact_, Nat.max_self, UserBuffer.copyin, if_pos rfl]
  rfl

theorem memfdHandler_some {start len pos : Nat} {r : Int} {mf' : Memfd} (wrote : memfdWriteAt heap ubuf mf start len = some (r, mf')) :
    memfdHandler heap ubuf (some mf) start len pos = (r, some mf') := by
  unfold memfdHandler
  rw [Option.bind_some, wrote]

theorem memfdWrite_cases {len : Nat} (short : len < 2 ^ 32) (atEnd : AtEnd mf) (most : mf.off + len ≤ 2 ^ 63) :
    ∃ r mf', memfdWrite heap mf ubuf len = some (r, mf') ∧ AtEnd mf' ∧
      (r < 0 ∧ mf'.size = mf.size ∧ slice mf'.data 0 mf.size = slice mf.data 0 mf.size ∨
        r = len ∧ mf'.size = mf.size + len ∧ slice mf'.data 0 (mf.size + len) = slice mf.data 0 mf.size ++ ubuf.bytes len) := by
  have whole : (2 ^ 32 + len - 0 % 2 ^ 32) % 2 ^ 32 = len := by omega
  have rest : (2 ^ 32 + len - (0 + len) % 2 ^ 32) % 2 ^ 32 = 0 := by omega
  obtain ⟨r, mf', wrote, atEnd', outcome⟩ := @memfdWriteAt_cases heap ubuf mf 0 len atEnd most
  simp only [Nat.zero_add] at outcome
  have handled : memfdHandler heap ubuf (some mf) 0 ((2 ^ 32 + len - 0 % 2 ^ 32) % 2 ^ 32) ((0 + 0) % 2 ^ 64) = (r, some mf') :=
    memfdHandler_some (by rw [whole]; exact wrote)
  refine ⟨r, mf', ?_, atEnd', outcome⟩
  have looped : writeLoop (memfdHandler heap ubuf) none len 0 3 0 (some mf) 0 = (some r, some mf') := by
    rcases outcome with ⟨negative, -⟩ | ⟨rfl, size, -⟩
    · exact writeLoop_failed handled negative (.inl rfl)
    · by_cases none_ : len = 0
      · subst none_
        exact writeLoop_ended handled
      · have small : mf'.off < 2 ^ 64 := by
          rw [atEnd'.off, size, ← atEnd.off]
          omega
        rw [writeLoop_more handled none_, writeLoop_ended (memfdHandler_some (by rw [rest]; exact memfdWriteAt_none atEnd' small)), Nat.zero_add]
  rw [memfdWrite, looped]

theorem agrees_write {len : BitVec 32} (holds : Holds mf a) (atEnd : AtEnd mf) (plain : Plain mf a (.write heap ubuf len)) :
    ∃ r got mf', mf.perform (.write heap ubuf len) = some ((r, got), mf') ∧ AtEnd mf' ∧
      (r < 0 ∧ Holds mf' a ∨ 0 ≤ r ∧ ∃ a', a.expected (.write heap ubuf len) = some ((r, got), a') ∧ Holds mf' a') := by
  obtain ⟨r, mf', wrote, atEnd', outcome⟩ := @memfdWrite_cases heap ubuf mf len.toNat len.isLt atEnd plain
  have here : a.pos = a.bytes.length := holds.off.symm.trans (atEnd.off.trans holds.size)
  refine ⟨r, [], mf', by rw [Memfd.perform, wrote]; rfl, atEnd', ?_⟩
  rcases outcome with ⟨negative, size, same⟩ | ⟨rfl, size, bytes⟩
  · exact .inl ⟨negative, size.trans holds.size, by rw [size, same, holds.bytes], by rw [atEnd'.off, size, ← atEnd.off, holds.off]⟩
  · refine .inr ⟨Int.natCast_nonneg _, _, rfl, ?_, ?_, ?_⟩
    · simp [size, holds.size, here, UserBuffer.bytes]
    · rw [size, bytes, holds.bytes, here, Nat.sub_self, replicate_zero, append_nil, take_length,
        drop_eq_nil_of_le (Nat.le_add_right ..), append_nil]
    · rw [atEnd'.off, size, holds.size, here]

theorem agrees_truncate {len : BitVec 64} (holds : Holds mf a) (atEnd : AtEnd mf) (plain : Plain mf a (.truncate heap len)) :
    ∃ mf', mf.perform (.truncate heap len) = some ((0, []), mf') ∧ AtEnd mf' ∧
      ∃ a', a.expected (.truncate heap len) = some ((0, []), a') ∧ Holds mf' a' := by
  have inside : len.toNat ≤ mf.size := plain
  have here : a.pos = a.bytes.length := holds.off.symm.trans (atEnd.off.trans holds.size)
  have shorter : slice mf.data 0 len.toNat = a.bytes.take len.toNat := by
    rw [← holds.bytes, show mf.size = len.toNat + (mf.size - len.toNat) by omega, slice_add]
    exact (take_left' (length_slice ..)).symm
  have expects : a.expected (.truncate heap len) = some ((0, []), ⟨a.bytes.take len.toNat, len.toNat⟩) := by
    rw [Contents.expected, ← holds.size, Nat.sub_eq_zero_of_le inside, replicate_zero, append_nil, here, ← holds.size,
      Nat.min_eq_right inside]
  have taken : (a.bytes.take len.toNat).length = len.toNat := by
    rw [length_take, ← holds.size, Nat.min_eq_left inside]
  rw [Memfd.perform, memfdTruncate, if_neg (Nat.not_lt.mpr (Nat.le_trans inside atEnd.room))]
  dsimp only
  rw [if_neg (fun wrong : (0 : Int) ≠ 0 => wrong rfl)]
  by_cases less : len.toNat < mf.size
  · rw [if_pos less]
    have off : min mf.off len.toNat = len.toNat := by
      rw [atEnd.off]
      omega
    exact ⟨_, rfl, ⟨off, Nat.le_trans inside atEnd.room⟩, _, expects, taken.symm, shorter, off⟩
  · have whole : len.toNat = mf.size := by omega
    rw [if_neg less]
    have off : min mf.off mf.size = mf.size := by
      rw [atEnd.off, Nat.min_self]
    refine ⟨_, rfl, ⟨off, atEnd.room⟩, _, expects, whole.symm.trans taken.symm, ?_, off.trans whole.symm⟩
    rw [← shorter, whole]
    exact slice_congr fun i bound => if_neg (by omega)

theorem agrees_plain {call : MemCall} (holds : Holds mf a) (atEnd : AtEnd mf) (plain : Plain mf a call) :
    Agrees mf a call ∧ ∀ answer mf', mf.perform call = some (answer, mf') → AtEnd mf' := by
  cases call with
  | read ubuf len =>
    have done : mf.perform (.read ubuf len) = some ((0, []), mf) := by
      rw [Memfd.perform, memfdReadAt, if_pos (Nat.le_of_eq atEnd.off.symm)]
    have expects : a.expected (.read ubuf len) = some ((0, []), a) := by
      rw [Contents.expected, drop_eq_nil_of_le (by rw [← holds.off, atEnd.off, holds.size]), take_nil]
      rfl
    refine ⟨⟨0, [], mf, done, .inr ⟨Int.le_refl 0, a, expects, holds⟩⟩, fun answer mf' got => ?_⟩
    cases done.symm.trans got
    exact atEnd
  | write heap ubuf len =>
    obtain ⟨r, got, mf', done, atEnd', outcome⟩ := agrees_write holds atEnd plain
    refine ⟨⟨r, got, mf', done, ?_⟩, fun answer after same => ?_⟩
    · rcases outcome with ⟨negative, kept⟩ | written
      · exact .inl ⟨negative, kept, fun _ _ other => nomatch other⟩
      · exact .inr written
    · cases done.symm.trans same
      exact atEnd'
  | lseek off whence =>
    refine ⟨⟨espipe, [], mf, rfl, .inl ⟨by decide, holds, fun _ _ same => ?_⟩⟩, fun answer mf' got => ?_⟩
    · cases same
      exact plain
    · cases got
      exact atEnd
  | truncate heap len =>
    obtain ⟨mf', done, atEnd', written⟩ := agrees_truncate holds atEnd plain
    refine ⟨⟨0, [], mf', done, .inr ⟨Int.le_refl 0, written⟩⟩, fun answer after same => ?_⟩
    cases done.symm.trans same
    exact atEnd'

end Calls

/-- A call that returns; the array changes if the call succeeds. -/
def MemStep (call : MemCall) (before after : Memfd × Contents) : Prop :=
  ∃ r got, before.1.perform call = some ((r, got), after.1) ∧
    (r < 0 ∧ after.2 = before.2 ∨ 0 ≤ r ∧ before.2.expected call = some ((r, got), after.2))

/-- `memfd_create`, and the empty array. -/
def memfdCreate (data : Nat → Byte) : Memfd × Contents := (⟨data, 0, 0, 0⟩, ⟨[], 0⟩)

theorem MemStep.keeps {call : MemCall} {before after : Memfd × Contents} (step : MemStep call before after)
    (holds : Holds before.1 before.2) (atEnd : AtEnd before.1) (plain : Plain before.1 before.2 call) :
    Holds after.1 after.2 ∧ AtEnd after.1 := by
  obtain ⟨r, got, done, change⟩ := step
  obtain ⟨⟨_, _, _, done', outcome⟩, stays⟩ := agrees_plain holds atEnd plain
  cases done'.symm.trans done
  refine ⟨?_, stays _ _ done⟩
  rcases outcome with ⟨negative, kept, -⟩ | ⟨positive, a', expected, holds'⟩
  · rcases change with ⟨-, same⟩ | ⟨positive, -⟩
    · rwa [same]
    · exact absurd negative (Int.not_lt.mpr positive)
  · rcases change with ⟨negative, -⟩ | ⟨-, expected'⟩
    · exact absurd negative (Int.not_lt.mpr positive)
    · cases expected.symm.trans expected'
      exact holds'

/-- Along plain calls a memory file is the array, and every plain call agrees. -/
theorem memfd_is_array (data : Nat → Byte) (mf : Memfd) (a : Contents)
    (run : Run MemStep (fun call now => Plain now.1 now.2 call) (memfdCreate data) (mf, a)) :
    Holds mf a ∧ ∀ call, Plain mf a call → Agrees mf a call := by
  have reached : Holds mf a ∧ AtEnd mf := run.invariant
    (show (fun now : Memfd × Contents => Holds now.1 now.2 ∧ AtEnd now.1) (memfdCreate data) from ⟨⟨rfl, rfl, rfl⟩, rfl, Nat.le_refl 0⟩)
    fun _ _ _ now plain step => step.keeps now.1 now.2 plain
  exact ⟨reached.1, fun call plain => (agrees_plain reached.1 reached.2 plain).1⟩

def writeByte : MemCall := .write (fun _ => true) (.filled 7#8) 1#32

/-- A new file after a write of one byte. -/
def oneByte : Memfd × Contents :=
  (((memfdCreate fun _ => 0#8).1.perform writeByte).elim (memfdCreate fun _ => 0#8).1 Prod.snd, ⟨[7#8], 1⟩)

theorem run_oneByte : Run MemStep (fun call now => Plain now.1 now.2 call) (memfdCreate fun _ => 0#8) oneByte :=
  Run.next .start (show Plain _ _ writeByte from (by decide : 0 + 1 ≤ 2 ^ 63)) ⟨1, [], rfl, .inr ⟨by decide, rfl⟩⟩

theorem memfd_is_array_oneByte : (oneByte.1.size = 1 ∧ Plain oneByte.1 oneByte.2 (.truncate (fun _ => true) 0#64)) ∧
    Holds oneByte.1 oneByte.2 ∧ Agrees oneByte.1 oneByte.2 (.truncate (fun _ => true) 0#64) := by
  have facts := memfd_is_array (fun _ => 0#8) oneByte.1 oneByte.2 run_oneByte
  exact ⟨⟨rfl, Nat.zero_le _⟩, facts.1, facts.2 _ (Nat.zero_le _)⟩

/-- A seek back to the start fails, a longer size is not taken, and growing to more than 2 ^ 63 bytes does not end. -/
theorem memfd_not_array : Run MemStep (fun call now => Plain now.1 now.2 call) (memfdCreate fun _ => 0#8) oneByte ∧
    ¬ Agrees oneByte.1 oneByte.2 (.lseek 0#64 0) ∧ ¬ Agrees oneByte.1 oneByte.2 (.truncate (fun _ => true) 2#64) ∧
      oneByte.1.perform (.truncate (fun _ => true) (BitVec.ofNat 64 (2 ^ 63 + 1))) = none := by
  refine ⟨run_oneByte, ?_, ?_, by decide +kernel⟩
  · rintro ⟨r, got, mf', done, ⟨-, -, nowhere⟩ | ⟨positive, -⟩⟩
    · exact absurd (nowhere _ _ rfl) (by decide)
    · cases done
      exact absurd positive (by decide)
  · rintro ⟨r, got, mf', done, ⟨negative, -⟩ | ⟨-, a', expected, holds⟩⟩
    · cases done
      exact absurd negative (by decide)
    · cases done
      cases expected
      exact absurd holds.size (by decide)

end NyonOS.Fd
