import NyonOS.Paging.Mprotect

namespace NyonOS.Paging

open List

/-! The search for a gap between the regions of an address space. -/

/-- The loop of `vm_find_free`; there is no result as long as it goes on. -/
def findFreeFrom (regions : List VmRegion) (hi bytes : Nat) : (rounds cur : Nat) → Option (Option Nat)
  | 0, _ => none
  | rounds + 1, cur =>
    let stop := (cur + bytes) % 2 ^ 64
    if hi < stop ∨ stop < cur then some none
    else
      match regions.find? fun r => cur < r.end_ && r.start < stop with
      | some r => findFreeFrom regions hi bytes rounds r.end_
      | none => some (some cur)

def vmFindFree (vs : VmSpace) (lo hi bytes rounds : Nat) : Option (Option Nat) :=
  if bytes = 0 ∨ hi ≤ lo then some none else findFreeFrom vs.regions hi bytes rounds lo

/-- The addresses between `lo` and `hi` from which on as many bytes are in no region. -/
def VmSpace.Gaps (vs : VmSpace) (lo hi bytes : Nat) : Set Nat :=
  {a | lo ≤ a ∧ a + bytes ≤ hi ∧ ∀ at_, a ≤ at_ → at_ < a + bytes → ¬vs.Covers at_}

section

variable {vs : VmSpace} {lo hi bytes cur a : Nat} {r : VmRegion}

theorem VmSpace.Gaps.past (gap : a ∈ vs.Gaps lo hi bytes) (some_ : 0 < bytes) (member : r ∈ vs.regions)
    (nonempty : r.start < r.end_) (clash : r.start < a + bytes) : r.end_ ≤ a := by
  by_contra inside
  exact gap.2.2 (max a r.start) (le_max_left ..) (by omega) ⟨r, member, le_max_right .., by omega⟩

theorem countP_passed (regions : List VmRegion) (member : r ∈ regions) (ahead : cur < r.end_) :
    regions.countP (fun s => r.end_ < s.end_) < regions.countP (fun s => cur < s.end_) := by
  have fewer := @List.countP_lt_length_iff _ (regions.filter fun s => cur < s.end_) fun s => r.end_ < s.end_
  have same : (regions.filter fun s => cur < s.end_).countP (fun s => r.end_ < s.end_) =
      regions.countP fun s => r.end_ < s.end_ := by
    rw [countP_filter]
    refine countP_congr fun s _ => ?_
    simp only [Bool.and_eq_true, decide_eq_true_eq]
    omega
  rw [← same]
  apply (fewer.mpr ⟨r, mem_filter.mpr ⟨member, decide_eq_true ahead⟩, by simp⟩).trans_eq
  exact countP_eq_length_filter.symm

/-- No gap is before the cursor; the regions that end behind it bound the rounds that are left. -/
theorem findFreeFrom_smallest (regions : ∀ r ∈ vs.regions, r.start < r.end_ ∧ r.end_ < 2 ^ 64) (high : hi < 2 ^ 64)
    (some_ : 0 < bytes) (fits : bytes < 2 ^ 64) {rounds : Nat} (enough : vs.regions.countP (fun r => cur < r.end_) < rounds)
    (word : cur < 2 ^ 64) (lower : lo ≤ cur) (passed : ∀ a ∈ vs.Gaps lo hi bytes, cur ≤ a) :
    ∃ result, findFreeFrom vs.regions hi bytes rounds cur = some result ∧
      (∀ a, result = some a → IsLeast (vs.Gaps lo hi bytes) a) ∧ (result = none → vs.Gaps lo hi bytes = ∅) := by
  induction rounds generalizing cur with
  | zero => omega
  | succ rounds ih =>
    rw [findFreeFrom]
    split
    · rename_i refused
      refine ⟨none, rfl, by simp, fun _ => Set.eq_empty_of_forall_notMem fun a gap => ?_⟩
      have behind := passed a gap
      have top := gap.2.1
      omega
    · rename_i room
      have stop : (cur + bytes) % 2 ^ 64 = cur + bytes := by omega
      rw [stop] at room ⊢
      cases found : vs.regions.find? fun r => cur < r.end_ && r.start < cur + bytes with
      | some r =>
        have member := mem_of_find?_eq_some found
        have clash := find?_some found
        simp only [Bool.and_eq_true, decide_eq_true_eq] at clash
        have fewer := countP_passed vs.regions member clash.1
        refine ih (by omega) (regions r member).2 (by omega) fun a gap => ?_
        have behind := passed a gap
        exact VmSpace.Gaps.past gap some_ member (regions r member).1 (by omega)
      | none =>
        have free : cur ∈ vs.Gaps lo hi bytes := by
          refine ⟨lower, by omega, fun at_ from_ to_ ⟨r, member, covers⟩ => ?_⟩
          have apart := find?_eq_none.mp found r member
          simp only [Bool.and_eq_true, decide_eq_true_eq] at apart
          omega
        refine ⟨some cur, rfl, fun a same => ?_, by simp⟩
        cases same
        exact ⟨free, passed⟩

end

/-- `vm_find_free` ends after at most one round more than there are regions, with the first gap, or without one if there is none. -/
theorem vmFindFree_smallest {vs : VmSpace} (regions : ∀ r ∈ vs.regions, r.start < r.end_ ∧ r.end_ < 2 ^ 64) {lo hi bytes : Nat}
    (ordered : lo < hi) (high : hi < 2 ^ 64) (some_ : 0 < bytes) (fits : bytes < 2 ^ 64) {rounds : Nat} (enough : vs.regions.length < rounds) :
    ∃ result, vmFindFree vs lo hi bytes rounds = some result ∧ (∀ a, result = some a ↔ IsLeast (vs.Gaps lo hi bytes) a) ∧
      (result = none ↔ vs.Gaps lo hi bytes = ∅) := by
  obtain ⟨result, ends, found, missing⟩ := findFreeFrom_smallest regions high some_ fits (countP_le_length.trans_lt enough)
    (ordered.trans high) le_rfl fun a (gap : a ∈ vs.Gaps lo hi bytes) => gap.1
  refine ⟨result, by rw [vmFindFree, if_neg (by omega), ends], fun a => ⟨found a, fun least => ?_⟩, missing, fun empty => ?_⟩
  · cases result with
    | none => exact absurd least.1 (by simp [missing rfl])
    | some other => rw [(found other rfl).unique least]
  · cases result with
    | none => rfl
    | some other => exact absurd (found other rfl).1 (by simp [empty])

theorem vmFindFree_smallest_full : ∃ result, vmFindFree ⟨0#64, [⟨2, 4, 0, 0, 0, true⟩, ⟨0, 1, 0, 0, 0, true⟩]⟩ 0 5 2 3 = some result ∧
    (∀ a, result = some a ↔ IsLeast (VmSpace.Gaps ⟨0#64, [⟨2, 4, 0, 0, 0, true⟩, ⟨0, 1, 0, 0, 0, true⟩]⟩ 0 5 2) a) ∧
      (result = none ↔ VmSpace.Gaps ⟨0#64, [⟨2, 4, 0, 0, 0, true⟩, ⟨0, 1, 0, 0, 0, true⟩]⟩ 0 5 2 = ∅) :=
  vmFindFree_smallest (by decide) (by decide) (by decide) (by decide) (by decide) (by decide)

end NyonOS.Paging
