import NyonOS.Data.Bits
import NyonOS.Fd.Timer
import NyonOS.Fd.Transfer

namespace NyonOS.Fd

open Abi
open Data

/-! Event counters, and what reads take from counters, timers and pending signals. -/

/-- `struct eventfd`. -/
structure Eventfd where
  counter : Nat
  semaphore : Bool
deriving DecidableEq

def uint64Max : Nat := 2 ^ 64 - 1

/-- `eventfd_read_at`: the result, with what it delivers. The counter is lowered before the value is stored. -/
def eventfdReadAt (ef : Eventfd) (len : Nat) (copies : Bool) : (Int × Nat) × Eventfd :=
  if len < 8 then ((einval, 0), ef)
  else if ef.counter = 0 then ((eagain, 0), ef)
  else
    let val := if ef.semaphore then 1 else ef.counter
    (if copies then (8, val) else (efault, 0), { ef with counter := ef.counter - val })

/-- `eventfd_write_at`, with the value at the buffer if it can be read. -/
def eventfdWriteAt (ef : Eventfd) (value : Option (BitVec 64)) (len : Nat) : Int × Eventfd :=
  if len < 8 then (einval, ef)
  else
    match value with
    | none => (efault, ef)
    | some add =>
      if add.toNat = uint64Max then (einval, ef)
      else if uint64Max - ef.counter < add.toNat then (einval, ef)
      else (8, { ef with counter := u64 (ef.counter + add.toNat) })

/-- `fd_write` from a buffer with these values at its offsets. Every round but the last takes eight bytes. -/
def eventfdWrite (ef : Eventfd) (source : Nat → Option (BitVec 64)) (len : Nat) : Option Int × Eventfd :=
  writeLoop (fun ef start len _ => eventfdWriteAt ef (source start) len) none len 0 (len / 8 + 2) 0 ef 0

/-- A counter, with the sums of the values that have been written and delivered. -/
structure Counting where
  ef : Eventfd
  added : Nat
  delivered : Nat

/-- A blocking read that finds nothing waits and is made again. -/
inductive EventCall
  | read (len : Nat) (copies : Bool)
  | write (len : Nat) (source : Nat → Option (BitVec 64))

/-- The result of a call and the counter. -/
def Counting.result (c : Counting) : EventCall → Option Int × Eventfd
  | .read len copies => (some (eventfdReadAt c.ef len copies).1.1, (eventfdReadAt c.ef len copies).2)
  | .write len source => eventfdWrite c.ef source len

def Counting.after (c : Counting) : EventCall → Counting
  | .read len copies =>
    let read := eventfdReadAt c.ef len copies
    ⟨read.2, c.added, c.delivered + read.1.2⟩
  | .write len source =>
    let wrote := eventfdWrite c.ef source len
    ⟨wrote.2, if 0 ≤ wrote.1.getD 0 then c.added + ((source 0).getD 0).toNat else c.added, c.delivered⟩

def CountRuns (call : EventCall) (before after : Counting) : Prop := after = before.after call

/-- Calls of eight bytes or more: a value that is taken can be stored, and there are no two values. -/
def SingleValue : EventCall → Counting → Prop
  | .read len copies, c => 8 ≤ len ∧ (c.ef.counter = 0 ∨ copies = true)
  | .write len _, _ => 8 ≤ len ∧ len < 16

/-- The sums agree; a call ends, and changes nothing if it fails. -/
structure Conserved (initial : Nat) (c : Counting) : Prop where
  sum : initial + c.added = c.ef.counter + c.delivered
  word : c.ef.counter ≤ uint64Max
  fails : ∀ call, SingleValue call c → ∃ r, (c.result call).1 = some r ∧ (r < 0 → (c.result call).2 = c.ef)

/-- `signalfd_read_at` of a task with these pending and blocked signals: the result, with the signal, and the
signals that stay pending. -/
def signalfdReadAt (mask pending blocked : BitVec 64) (len : Nat) (copies : Bool) : (Int × Nat) × BitVec 64 :=
  let found := pending &&& ~~~blocked &&& mask
  if len < 128 then ((einval, 0), pending)
  else if found = 0 then ((eagain, 0), pending)
  else (if copies then (128, ctz found + 1) else (efault, 0), pending &&& ~~~(1#64 <<< ctz found))

section Counters

variable {ef : Eventfd} {len : Nat} {source : Nat → Option (BitVec 64)}

theorem eventfdWriteAt_cases (word : ef.counter ≤ uint64Max) (value : Option (BitVec 64)) (len : Nat) :
    (∃ r < 0, r ≠ eagain ∧ eventfdWriteAt ef value len = (r, ef)) ∨ ∃ add, value = some add ∧ 8 ≤ len ∧
      ef.counter + add.toNat ≤ uint64Max ∧ eventfdWriteAt ef value len = (8, { ef with counter := ef.counter + add.toNat }) := by
  unfold eventfdWriteAt
  by_cases short : len < 8
  · exact .inl ⟨einval, by decide, by decide, if_pos short⟩
  rw [if_neg short]
  cases value with
  | none => exact .inl ⟨efault, by decide, by decide, rfl⟩
  | some add =>
    dsimp only
    split_ifs with most large
    · exact .inl ⟨einval, by decide, by decide, rfl⟩
    · exact .inl ⟨einval, by decide, by decide, rfl⟩
    · have fits : ef.counter + add.toNat ≤ uint64Max := by omega
      have exact_ : u64 (ef.counter + add.toNat) = ef.counter + add.toNat := Nat.mod_eq_of_lt (Nat.lt_of_le_of_lt fits (by decide))
      rw [exact_]
      exact .inr ⟨add, rfl, by omega, fits, rfl⟩

theorem eventfdWrite_single (word : ef.counter ≤ uint64Max) (large : 8 ≤ len) (small : len < 16) :
    (∃ r < 0, eventfdWrite ef source len = (some r, ef)) ∨ ∃ add, source 0 = some add ∧ ef.counter + add.toNat ≤ uint64Max ∧
      eventfdWrite ef source len = (some 8, { ef with counter := ef.counter + add.toNat }) := by
  have rounds : len / 8 + 2 = 3 := by omega
  have whole : (2 ^ 32 + len - 0 % 2 ^ 32) % 2 ^ 32 = len := by omega
  unfold eventfdWrite
  rw [rounds]
  rcases eventfdWriteAt_cases word (source 0) len with ⟨r, negative, -, failed⟩ | ⟨add, value, -, fits, added⟩
  · exact .inl ⟨r, negative, writeLoop_failed (by rw [whole]; exact failed) negative (.inl rfl)⟩
  · have rest : (2 ^ 32 + len - (0 + 8) % 2 ^ 32) % 2 ^ 32 < 8 := by omega
    refine .inr ⟨add, value, fits, ?_⟩
    rw [writeLoop_more (n := 8) (by rw [whole]; exact added) (by decide)]
    exact writeLoop_failed (if_pos rest) (by decide) (.inl rfl)

theorem eventfdReadAt_cases (ef : Eventfd) (len : Nat) (copies : Bool) :
    (∃ r < 0, eventfdReadAt ef len copies = ((r, 0), ef)) ∨ ∃ val, val ≤ ef.counter ∧ ef.counter ≠ 0 ∧
      eventfdReadAt ef len copies = (if copies then (8, val) else (efault, 0), { ef with counter := ef.counter - val }) := by
  unfold eventfdReadAt
  by_cases short : len < 8
  · exact .inl ⟨einval, by decide, if_pos short⟩
  rw [if_neg short]
  by_cases none_ : ef.counter = 0
  · exact .inl ⟨eagain, by decide, if_pos none_⟩
  · refine .inr ⟨if ef.semaphore then 1 else ef.counter, ?_, none_, if_neg none_⟩
    split_ifs
    · exact Nat.pos_of_ne_zero none_
    · exact Nat.le_refl _

variable {c : Counting} {initial : Nat}

theorem result_cases (word : c.ef.counter ≤ uint64Max) {call : EventCall} (single : SingleValue call c) :
    (∃ r < 0, (c.result call) = (some r, c.ef) ∧ (c.after call) = c) ∨ ∃ r ≥ 0, (c.result call).1 = some r ∧
      (c.after call).ef.counter ≤ uint64Max ∧
      (c.after call).ef.counter + (c.after call).delivered + c.added = c.ef.counter + c.delivered + (c.after call).added := by
  cases call with
  | read len copies =>
    rcases eventfdReadAt_cases c.ef len copies with ⟨r, negative, failed⟩ | ⟨val, most, some_, took⟩
    · refine .inl ⟨r, negative, ?_, ?_⟩
      · rw [Counting.result, failed]
      · rw [Counting.after, failed]
        rfl
    · have copied := single.2.resolve_left some_
      subst copied
      refine .inr ⟨8, by decide, ?_, ?_⟩
      · rw [Counting.result, took]
        rfl
      · rw [Counting.after, took]
        refine ⟨Nat.le_trans (Nat.sub_le ..) word, ?_⟩
        change c.ef.counter - val + (c.delivered + val) + c.added = c.ef.counter + c.delivered + c.added
        omega
  | write len source =>
    rcases @eventfdWrite_single c.ef len source word single.1 single.2 with ⟨r, negative, failed⟩ | ⟨add, value, fits, added⟩
    · refine .inl ⟨r, negative, failed, ?_⟩
      rw [Counting.after, failed]
      dsimp only
      rw [if_neg (by rw [Option.getD_some]; omega)]
    · refine .inr ⟨8, by decide, congrArg Prod.fst added, ?_⟩
      rw [Counting.after, added, value]
      dsimp only
      rw [if_pos (by decide), Option.getD_some]
      exact ⟨fits, by omega⟩

theorem Conserved.of_sum (sum : initial + c.added = c.ef.counter + c.delivered) (word : c.ef.counter ≤ uint64Max) : Conserved initial c := by
  refine ⟨sum, word, fun call single => ?_⟩
  rcases result_cases word single with ⟨r, negative, failed, -⟩ | ⟨r, natural, result, -⟩
  · exact ⟨r, congrArg Prod.fst failed, fun _ => congrArg Prod.snd failed⟩
  · exact ⟨r, result, fun negative => absurd negative (not_lt_of_ge natural)⟩

theorem Conserved.step {call : EventCall} (conserved : Conserved initial c) (single : SingleValue call c) : Conserved initial (c.after call) := by
  have sum := conserved.sum
  rcases result_cases conserved.word single with ⟨r, -, -, same⟩ | ⟨r, -, -, word, moved⟩
  · rw [same]
    exact conserved
  · exact .of_sum (by omega) word

theorem taken_kept_iff {α : Type} {short nothing : Prop} [Decidable short] [Decidable nothing] {got : Int × Nat} {before taken : α}
    {copies : Bool} (natural : 0 ≤ got.1) (changed : ¬ nothing → taken ≠ before) {read : (Int × Nat) × α}
    (is : read = if short then ((einval, 0), before) else if nothing then ((eagain, 0), before)
      else (if copies then got else (efault, 0), taken)) :
    (read.1.1 < 0 → read.2 = before) ↔ (short ∨ nothing ∨ copies = true) := by
  subst is
  by_cases tooShort : short
  · rw [if_pos tooShort]
    exact ⟨fun _ => .inl tooShort, fun _ _ => rfl⟩
  rw [if_neg tooShort]
  by_cases none_ : nothing
  · rw [if_pos none_]
    exact ⟨fun _ => .inr (.inl none_), fun _ _ => rfl⟩
  rw [if_neg none_]
  cases copies with
  | true => exact ⟨fun _ => .inr (.inr rfl), fun _ negative => absurd negative (not_lt_of_ge natural)⟩
  | false =>
    refine ⟨fun kept => absurd (kept (by decide : efault < 0)) (changed none_), fun either => ?_⟩
    exact absurd either (not_or.mpr ⟨tooShort, not_or.mpr ⟨none_, Bool.false_ne_true⟩⟩)

theorem signal_taken {mask pending blocked : BitVec 64} (some_ : ¬ pending &&& ~~~blocked &&& mask = 0) :
    pending &&& ~~~(1#64 <<< ctz (pending &&& ~~~blocked &&& mask)) ≠ pending := by
  intro same
  obtain ⟨bound, set⟩ := ctz_spec some_
  have bit := congrArg (BitVec.getLsbD · (ctz (pending &&& ~~~blocked &&& mask))) same
  simp only [BitVec.getLsbD_and, Bool.and_eq_true] at set
  simp only [BitVec.getLsbD_and, set.1.1] at bit
  simp [bound] at bit

end Counters

/-- The counter is the initial value with all that has been written and without what has been delivered, as long as every write
is of one value and what a read takes can be stored. A failing read of a timer or of signals takes nothing in the same case. -/
theorem counters_conserved {initial : BitVec 32} {semaphore : Bool} {now : Counting}
    (run : Run CountRuns SingleValue ⟨⟨initial.toNat, semaphore⟩, 0, 0⟩ now) :
    Conserved initial.toNat now ∧
      (∀ tf len copies, ((timerfdReadAt tf len copies).1.1 < 0 → (timerfdReadAt tf len copies).2 = tf) ↔
        (len < 8 ∨ tf.expirations = 0 ∨ copies = true)) ∧
      ∀ mask pending blocked len copies, ((signalfdReadAt mask pending blocked len copies).1.1 < 0 →
        (signalfdReadAt mask pending blocked len copies).2 = pending) ↔
          (len < 128 ∨ pending &&& ~~~blocked &&& mask = 0 ∨ copies = true) := by
  refine ⟨?_, fun tf len copies => ?_, fun mask pending blocked len copies => ?_⟩
  rotate_left
  · exact @taken_kept_iff _ (len < 8) (tf.expirations = 0) _ _ (8, tf.expirations) _ _ _ (by decide : (0 : Int) ≤ 8)
      (fun some_ same => some_ (congrArg Timerfd.expirations same).symm) _ rfl
  · exact @taken_kept_iff _ (len < 128) (pending &&& ~~~blocked &&& mask = 0) _ _ (128, _) _ _ _ (by decide : (0 : Int) ≤ 128) signal_taken _ rfl
  induction run with
  | start => exact .of_sum (by rfl) (Nat.le_of_lt (Nat.lt_of_lt_of_le initial.isLt (by decide)))
  | next _ single step ih =>
    cases step
    exact ih.step single

theorem counters_conserved_write : Conserved 5 ((Counting.mk ⟨5, false⟩ 0 0).after (.write 8 fun _ => some 7)) := by
  have single : SingleValue (.write 8 fun _ => some 7) ⟨⟨5, false⟩, 0, 0⟩ := ⟨by decide, by decide⟩
  exact (@counters_conserved 5#32 false _ (Run.start.next single rfl)).1

/-- A write of sixteen bytes adds two values; a read without a place for its value loses it. -/
theorem second_value_added :
    eventfdWrite ⟨5, false⟩ (fun start => some (if start = 0 then 7 else 1)) 16 = (some 16, ⟨13, false⟩) ∧
      ¬ Conserved 5 ((Counting.mk ⟨5, false⟩ 0 0).after (.write 16 fun start => some (if start = 0 then 7 else 1))) ∧
      eventfdReadAt ⟨5, false⟩ 8 false = ((efault, 0), ⟨0, false⟩) ∧
      timerfdReadAt ⟨0, 0, 3⟩ 8 false = ((efault, 0), ⟨0, 0, 0⟩) ∧
      signalfdReadAt 0x200 0x200 0 128 false = ((efault, 0), 0) := by
  refine ⟨by decide +kernel, fun conserved => ?_, by decide, by decide, by decide +kernel⟩
  exact absurd conserved.sum (by decide +kernel)

end NyonOS.Fd
