import Mathlib

namespace NyonOS.Data

open List

/-! The lowest set bit of a word. -/

/-- `__builtin_ctzll` of a word that is not 0. -/
def ctz (word : BitVec 64) : Nat := ((range 64).find? fun index => word.getLsbD index).getD 0

theorem ctz_spec {word : BitVec 64} (some_ : word ≠ 0) : ctz word < 64 ∧ word.getLsbD (ctz word) = true := by
  unfold ctz
  cases found : (range 64).find? fun index => word.getLsbD index with
  | some index =>
    have bound := mem_range.mp (mem_of_find?_eq_some found)
    have set := find?_some found
    exact ⟨bound, set⟩
  | none =>
    refine absurd (BitVec.eq_of_getLsbD_eq fun index bound => ?_) some_
    have clear := find?_eq_none.mp found index (mem_range.mpr bound)
    simpa using clear

end NyonOS.Data
