import Mathlib

namespace NyonOS.Data

open Nat

/-! Aligned blocks of powers of two, and their buddies.

A block of an order is the class of all numbers that have the same quotient by its size, so
blocks of one order are equal or apart. -/

/-- The start of the block of this order that a number lies in. -/
def blockStart (order n : Nat) : Nat := n / 2 ^ order * 2 ^ order

/-- The other half of the block one order above. -/
def buddyOf (order start : Nat) : Nat := start ^^^ 2 ^ order

/-- Two numbers lie in the same block of this order. -/
def SameBlock (order n m : Nat) : Prop := n / 2 ^ order = m / 2 ^ order

section Blocks

variable {order n m start : Nat}

theorem SameBlock.symm (same : SameBlock order n m) : SameBlock order m n := Eq.symm same

theorem SameBlock.trans {k : Nat} (first : SameBlock order n m) (second : SameBlock order m k) : SameBlock order n k :=
  Eq.trans first second

theorem sameBlock_zero : SameBlock 0 n m ↔ n = m := by
  rw [SameBlock, Nat.pow_zero, Nat.div_one, Nat.div_one]

theorem blockStart_dvd : 2 ^ order ∣ blockStart order n := Nat.dvd_mul_left _ _

theorem blockStart_of_dvd (aligned : 2 ^ order ∣ start) : blockStart order start = start :=
  Nat.div_mul_cancel aligned

theorem blockStart_same : SameBlock order (blockStart order n) n :=
  Nat.mul_div_cancel _ (Nat.two_pow_pos order)

theorem SameBlock.start_eq (same : SameBlock order n m) : blockStart order n = blockStart order m := by
  rw [blockStart, blockStart, same]

theorem start_unique (first : 2 ^ order ∣ n) (second : 2 ^ order ∣ m) (same : SameBlock order n m) : n = m := by
  rw [← blockStart_of_dvd first, same.start_eq, blockStart_of_dvd second]

theorem sameBlock_iff (aligned : 2 ^ order ∣ start) : SameBlock order n start ↔ start ≤ n ∧ n < start + 2 ^ order := by
  obtain ⟨index, rfl⟩ := aligned
  rw [SameBlock, Nat.mul_div_cancel_left _ (Nat.two_pow_pos order), Nat.div_eq_iff (Nat.two_pow_pos order)]
  have positive := Nat.two_pow_pos order
  rw [Nat.mul_comm index]
  omega

theorem SameBlock.mono {higher : Nat} (le : order ≤ higher) (same : SameBlock order n m) : SameBlock higher n m := by
  obtain ⟨more, rfl⟩ := Nat.exists_eq_add_of_le le
  rw [SameBlock, Nat.pow_add, ← Nat.div_div_eq_div_mul, ← Nat.div_div_eq_div_mul, same]

end Blocks

section Buddies

variable {order n start : Nat}

theorem buddyOf_div : buddyOf order start / 2 ^ order = start / 2 ^ order ^^^ 1 := by
  rw [buddyOf, ← shiftRight_eq_div_pow, shiftRight_xor_distrib, shiftRight_eq_div_pow,
    shiftRight_eq_div_pow, Nat.div_self (Nat.two_pow_pos order)]

theorem buddyOf_buddyOf : buddyOf order (buddyOf order start) = start := by
  rw [buddyOf, buddyOf, Nat.xor_assoc, Nat.xor_self, xor_zero]

theorem xor_one_cases (n : Nat) : n % 2 = 0 ∧ n ^^^ 1 = n + 1 ∨ n % 2 = 1 ∧ (n ^^^ 1) + 1 = n := by
  have half : (n ^^^ 1) / 2 = n / 2 := by rw [xor_div_two, div_eq_of_lt Nat.one_lt_two, xor_zero]
  have bit : (n ^^^ 1) % 2 = (n + 1) % 2 := xor_mod_two_eq
  omega

theorem buddyOf_dvd (aligned : 2 ^ order ∣ start) : 2 ^ order ∣ buddyOf order start := by
  obtain ⟨index, rfl⟩ := aligned
  refine ⟨index ^^^ 1, ?_⟩
  rw [buddyOf, Nat.mul_comm, Nat.mul_comm _ (index ^^^ 1), ← shiftLeft_eq, ← shiftLeft_eq, shiftLeft_xor_distrib,
    one_shiftLeft]

theorem buddyOf_not_same : ¬SameBlock order (buddyOf order start) start := by
  intro same
  rw [SameBlock, buddyOf_div] at same
  have := xor_one_cases (start / 2 ^ order)
  omega

theorem SameBlock.buddyOf {m : Nat} (same : SameBlock order n m) : SameBlock order (buddyOf order n) (buddyOf order m) := by
  rw [SameBlock, buddyOf_div, buddyOf_div, same]

theorem sameBlock_succ : SameBlock (order + 1) n start ↔ SameBlock order n start ∨ SameBlock order n (buddyOf order start) := by
  rw [SameBlock, SameBlock, SameBlock, buddyOf_div, Nat.pow_succ, ← Nat.div_div_eq_div_mul, ← Nat.div_div_eq_div_mul]
  have := xor_one_cases (start / 2 ^ order)
  omega

theorem lower_dvd (aligned : 2 ^ order ∣ start) :
    2 ^ (order + 1) ∣ if buddyOf order start < start then buddyOf order start else start := by
  obtain ⟨other, position⟩ := buddyOf_dvd aligned
  obtain ⟨index, rfl⟩ := aligned
  have quotient : other = index ^^^ 1 := by
    have := @buddyOf_div order (2 ^ order * index)
    rwa [position, Nat.mul_div_cancel_left _ (Nat.two_pow_pos order), Nat.mul_div_cancel_left _ (Nat.two_pow_pos order)] at this
  rw [position, Nat.pow_succ]
  have side := xor_one_cases index
  rw [← quotient] at side
  split
  · rename_i lower
    have := Nat.lt_of_mul_lt_mul_left lower
    exact Nat.mul_dvd_mul_left _ (dvd_of_mod_eq_zero (by omega))
  · rename_i lower
    have : index ≤ other := Nat.le_of_mul_le_mul_left (Nat.le_of_not_lt lower) (Nat.two_pow_pos order)
    exact Nat.mul_dvd_mul_left _ (dvd_of_mod_eq_zero (by omega))

theorem lower_same :
    SameBlock (order + 1) (if buddyOf order start < start then buddyOf order start else start) start := by
  split
  · exact sameBlock_succ.mpr (.inr rfl)
  · rfl

theorem buddyOf_lower (aligned : 2 ^ (order + 1) ∣ start) : buddyOf order start = start + 2 ^ order := by
  have dvd : 2 ^ order ∣ start := (Nat.pow_dvd_pow 2 (le_succ order)).trans aligned
  obtain ⟨other, position⟩ := buddyOf_dvd dvd
  obtain ⟨index, rfl⟩ := aligned
  have split_ : 2 ^ (order + 1) * index = 2 ^ order * (2 * index) := by rw [Nat.pow_succ, Nat.mul_assoc]
  have quotient : other = 2 * index ^^^ 1 := by
    have := @buddyOf_div order (2 ^ (order + 1) * index)
    rwa [position, split_, Nat.mul_div_cancel_left _ (Nat.two_pow_pos order), Nat.mul_div_cancel_left _ (Nat.two_pow_pos order)] at this
  have side := xor_one_cases (2 * index)
  rw [position, split_, show other = 2 * index + 1 by omega, mul_succ]

end Buddies

/-! Numbers divided into blocks. -/

/-- What a number belongs to: nothing at all, a free block, a used block, somebody who
keeps it alone, or a block that is just being moved from one of these to another. -/
inductive Mark (κ : Type)
  | outside
  | free (order : Nat)
  | used (order : Nat)
  | kept (by_ : κ)
  | moving
deriving DecidableEq

def Mark.Spare {κ : Type} : Mark κ → Prop
  | .free _ => True
  | .kept _ => True
  | _ => False

def Mark.Alike {κ : Type} (first second : Mark κ) : Prop := first = second ∨ first.Spare ∧ second.Spare

theorem Mark.Alike.trans {κ : Type} {first second third : Mark κ} (left : first.Alike second) (right : second.Alike third) :
    first.Alike third := by
  rcases left with rfl | ⟨spare, other⟩
  · exact right
  · rcases right with rfl | ⟨-, last⟩
    · exact .inr ⟨spare, other⟩
    · exact .inr ⟨spare, last⟩

theorem Mark.Alike.used_iff {κ : Type} {first second : Mark κ} {order : Nat} (alike : first.Alike second) :
    first = .used order ↔ second = .used order := by
  rcases alike with rfl | ⟨spare, other⟩
  · rfl
  · constructor
    · rintro rfl
      exact spare.elim
    · rintro rfl
      exact other.elim

theorem Mark.Alike.outside_iff {κ : Type} {first second : Mark κ} (alike : first.Alike second) :
    first = .outside ↔ second = .outside := by
  rcases alike with rfl | ⟨spare, other⟩
  · rfl
  · constructor
    · rintro rfl
      exact spare.elim
    · rintro rfl
      exact other.elim

/-- Free and used blocks are whole, and free buddies are joined. -/
structure Layout {κ : Type} (top : Nat) (mark : Nat → Mark κ) : Prop where
  freeOrder {n order : Nat} : mark n = .free order → order ≤ top
  usedOrder {n order : Nat} : mark n = .used order → order ≤ top
  free {n m order : Nat} : mark n = .free order → SameBlock order m n → mark m = .free order
  used {n m order : Nat} : mark n = .used order → SameBlock order m n → mark m = .used order
  joined {n order : Nat} : order < top → mark n = .free order → mark (buddyOf order n) ≠ .free order

def paint {κ : Type} (mark : Nat → Mark κ) (order start : Nat) (new : Mark κ) (n : Nat) : Mark κ :=
  if n / 2 ^ order = start / 2 ^ order then new else mark n

section Layouts

variable {κ : Type} {mark : Nat → Mark κ} {top order start n : Nat} {new : Mark κ}

theorem paint_same (same : SameBlock order n start) : paint mark order start new n = new := if_pos same

theorem paint_other (other : ¬SameBlock order n start) : paint mark order start new n = mark n := if_neg other

theorem paint_iff {old value : Mark κ} (uniform : ∀ m, SameBlock order m start → mark m = old) (notOld : old ≠ value)
    (notNew : new ≠ value) : paint mark order start new n = value ↔ mark n = value := by
  by_cases inside : SameBlock order n start
  · rw [paint_same inside, uniform n inside]
    exact ⟨fun same => absurd same notNew, fun same => absurd same notOld⟩
  · rw [paint_other inside]

def Whole (mark : Nat → Mark κ) (order start : Nat) : Prop :=
  ∀ ⦃m n other⦄, SameBlock order m start → mark m = .free other ∨ mark m = .used other → SameBlock other n m → SameBlock order n start

/-- A block may be marked so. -/
structure Fits (top : Nat) (mark : Nat → Mark κ) (order start : Nat) (new : Mark κ) : Prop where
  free {other : Nat} : new = .free other → other = order ∧ order ≤ top ∧ (order < top → mark (buddyOf order start) ≠ .free order)
  used {other : Nat} : new = .used other → other = order ∧ order ≤ top

theorem Layout.paint (layout : Layout top mark) (whole : Whole mark order start) (fits : Fits top mark order start new) :
    Layout top (paint mark order start new) where
  freeOrder {n other} free := by
    by_cases inside : SameBlock order n start
    · obtain ⟨rfl, low, -⟩ := fits.free ((paint_same inside).symm.trans free)
      exact low
    · exact layout.freeOrder ((paint_other inside).symm.trans free)
  usedOrder {n other} used := by
    by_cases inside : SameBlock order n start
    · obtain ⟨rfl, low⟩ := fits.used ((paint_same inside).symm.trans used)
      exact low
    · exact layout.usedOrder ((paint_other inside).symm.trans used)
  free {n m other} free same := by
    by_cases inside : SameBlock order n start
    · have new_ := (paint_same inside).symm.trans free
      obtain ⟨rfl, -⟩ := fits.free new_
      rw [paint_same (same.trans inside), new_]
    · have old := (paint_other inside).symm.trans free
      have kept := layout.free old same
      rw [paint_other fun crossed => inside (whole crossed (.inl kept) same.symm), kept]
  used {n m other} used same := by
    by_cases inside : SameBlock order n start
    · have new_ := (paint_same inside).symm.trans used
      obtain ⟨rfl, -⟩ := fits.used new_
      rw [paint_same (same.trans inside), new_]
    · have old := (paint_other inside).symm.trans used
      have kept := layout.used old same
      rw [paint_other fun crossed => inside (whole crossed (.inr kept) same.symm), kept]
  joined {n other} low free := by
    by_cases inside : SameBlock order n start
    · obtain ⟨rfl, -, alone⟩ := fits.free ((paint_same inside).symm.trans free)
      rw [paint_other fun crossed => buddyOf_not_same (crossed.trans inside.symm)]
      exact fun both => alone low (layout.free both inside.symm.buddyOf)
    · have old := (paint_other inside).symm.trans free
      by_cases crossed : SameBlock order (buddyOf other n) start
      · rw [paint_same crossed]
        intro both
        obtain ⟨rfl, -, alone⟩ := fits.free both
        refine alone low (layout.free old ?_)
        have back := crossed.symm.buddyOf
        rwa [buddyOf_buddyOf] at back
      · rw [paint_other crossed]
        exact layout.joined low old

theorem Layout.whole_free (layout : Layout top mark) (free : mark start = .free order) : Whole mark order start := by
  intro m n other inside cell same
  have here := layout.free free inside
  rcases cell with cell | cell
  · cases here.symm.trans cell
    exact same.trans inside
  · cases here.symm.trans cell

theorem Layout.whole_used (layout : Layout top mark) (used : mark start = .used order) : Whole mark order start := by
  intro m n other inside cell same
  have here := layout.used used inside
  rcases cell with cell | cell
  · cases here.symm.trans cell
  · cases here.symm.trans cell
    exact same.trans inside

theorem whole_idle (idle : ∀ n, SameBlock order n start → ∀ other, mark n ≠ .free other ∧ mark n ≠ .used other) :
    Whole mark order start := by
  intro m n other inside cell _
  rcases cell with cell | cell
  · exact absurd cell (idle m inside other).1
  · exact absurd cell (idle m inside other).2

theorem fits_moving : Fits top mark order start .moving := ⟨nofun, nofun⟩

theorem fits_kept {by_ : κ} : Fits top mark order start (.kept by_) := ⟨nofun, nofun⟩

theorem fits_used (low : order ≤ top) : Fits top mark order start (.used order) :=
  ⟨nofun, fun same => ⟨(Mark.used.inj same).symm, low⟩⟩

theorem fits_free (low : order ≤ top) (alone : order < top → mark (buddyOf order start) ≠ .free order) :
    Fits top mark order start (.free order) :=
  ⟨fun same => ⟨(Mark.free.inj same).symm, low, alone⟩, nofun⟩

end Layouts

end NyonOS.Data
