import Mathlib

namespace NyonOS.Data

open Function Finset Nat

/-! Radix trees of fixed depth.

A tree of depth `d` is indexed by the `d` low digits of a key in base `width`.
Inner nodes carry a label; a missing node is a whole range of missing keys. -/

inductive Radix (width : Nat) (ν α : Type) : Nat → Type
  | leaf (value : α) : Radix width ν α 0
  | absent {depth : Nat} : Radix width ν α (depth + 1)
  | node {depth : Nat} (label : ν) (slots : Fin width → Radix width ν α depth) :
      Radix width ν α (depth + 1)

namespace Radix

variable {width depth : Nat} {ν α : Type}

/-- The digit of a key that selects a slot of a node of depth `depth + 1`. -/
def digit (width depth key : Nat) [NeZero width] : Fin width := Fin.ofNat width (key / width ^ depth)

/-- Two keys that a tree of this depth cannot tell apart. -/
def SameKey (width depth first second : Nat) : Prop :=
  first % width ^ depth = second % width ^ depth

instance {first second : Nat} : Decidable (SameKey width depth first second) :=
  inferInstanceAs (Decidable (_ = _))

theorem sameKey_zero (first second : Nat) : SameKey width 0 first second := by
  simp [SameKey, mod_one]

theorem SameKey.symm {first second : Nat} (same : SameKey width depth first second) :
    SameKey width depth second first := Eq.symm same

theorem sameKey_of_bounds {first second : Nat} (firstBound : first < width ^ depth)
    (secondBound : second < width ^ depth) :
    SameKey width depth first second ↔ first = second := by
  rw [SameKey, mod_eq_of_lt firstBound, mod_eq_of_lt secondBound]

variable [NeZero width]

theorem sameKey_succ {first second : Nat} : SameKey width (depth + 1) first second ↔
      digit width depth first = digit width depth second ∧ SameKey width depth first second := by
  have positive : 0 < width ^ depth := Nat.pow_pos (pos_of_neZero width)
  have digits : digit width depth first = digit width depth second ↔
      first / width ^ depth % width = second / width ^ depth % width := by
    simp [digit, Fin.ext_iff]
  rw [digits, SameKey, SameKey, mod_pow_succ, mod_pow_succ]
  constructor
  · intro equal
    have low : first % width ^ depth = second % width ^ depth := by
      have reduced := congrArg (· % width ^ depth) equal
      simpa [add_mul_mod_self_left] using reduced
    refine ⟨?_, low⟩
    rw [low] at equal
    exact Nat.eq_of_mul_eq_mul_left positive (Nat.add_left_cancel equal)
  · rintro ⟨high, low⟩
    rw [high, low]

def get : {depth : Nat} → Radix width ν α depth → Nat → Option α
  | 0, .leaf value, _ => some value
  | _ + 1, .absent, _ => none
  | depth + 1, .node _ slots, key => (slots (digit width depth key)).get key

/-- Overwrites the leaf of a key; a key without a leaf is left alone. -/
def set : {depth : Nat} → Radix width ν α depth → Nat → α → Radix width ν α depth
  | 0, .leaf _, _, value => .leaf value
  | _ + 1, .absent, _, _ => .absent
  | depth + 1, .node label slots, key, value =>
    .node label (update slots (digit width depth key) ((slots (digit width depth key)).set key value))

section

variable (tree : Radix width ν α depth)

theorem get_congr {first second : Nat}
    (same : SameKey width depth first second) : tree.get first = tree.get second := by
  induction tree with
  | leaf | absent => rfl
  | node label slots ih =>
    obtain ⟨high, low⟩ := sameKey_succ.mp same
    rw [get, get, high]
    exact ih _ low

theorem set_congr {first second : Nat} (same : SameKey width depth first second) (value : α) :
    tree.set first value = tree.set second value := by
  induction tree with
  | leaf | absent => rfl
  | node label slots ih =>
    obtain ⟨high, low⟩ := sameKey_succ.mp same
    rw [set, set, high, ih _ low]

theorem get_set (key other : Nat) (value : α) : (tree.set key value).get other =
      if SameKey width depth key other then (tree.get other).map fun _ => value
      else tree.get other := by
  induction tree with
  | leaf old => simp [set, get, sameKey_zero]
  | absent => simp [set, get]
  | @node depth label slots ih =>
    simp only [set, get, sameKey_succ]
    by_cases high : digit width depth key = digit width depth other
    · rw [← high, update_self, ih]
      simp
    · rw [update_of_ne (Ne.symm high)]
      simp [high]

end

theorem set_of_get {tree : Radix width ν α depth} {key : Nat} {value : α}
    (found : tree.get key = some value) : tree.set key value = tree := by
  induction tree with
  | leaf old => rw [set, ← Option.some.inj found]
  | absent => rfl
  | node label slots ih => rw [set, ih _ found, update_eq_self]

theorem set_set (tree : Radix width ν α depth) (key : Nat) (first second : α) :
    (tree.set key first).set key second = tree.set key second := by
  induction tree with
  | leaf | absent => rfl
  | node label slots ih =>
    simp only [set, update_self, update_idem, ih]

/-- Every node's label satisfies a property. -/
def All (holds : ν → Prop) : {depth : Nat} → Radix width ν α depth → Prop
  | 0, .leaf _ => True
  | _ + 1, .absent => True
  | _ + 1, .node label slots => holds label ∧ ∀ index, (slots index).All holds

theorem all_set {holds : ν → Prop} {tree : Radix width ν α depth} (key : Nat) (value : α)
    (every : tree.All holds) : (tree.set key value).All holds := by
  induction tree with
  | leaf | absent => trivial
  | @node depth label slots ih =>
    refine ⟨every.1, fun index => ?_⟩
    by_cases here : index = digit width depth key
    · rw [here, update_self]
      exact ih _ (every.2 _)
    · rw [update_of_ne here]
      exact every.2 index

/-- The sum of a weight over the labels of all nodes. -/
def weight (measure : ν → Nat) : {depth : Nat} → Radix width ν α depth → Nat
  | 0, .leaf _ => 0
  | _ + 1, .absent => 0
  | _ + 1, .node label slots => measure label + ∑ index, (slots index).weight measure

omit [NeZero width] in
theorem sum_update (measure : Fin width → Nat) (index : Fin width) (value : Nat) :
    (∑ slot, update measure index value slot) + measure index = (∑ slot, measure slot) + value := by
  rw [sum_update_of_mem (mem_univ index), ← add_sum_erase Finset.univ measure (mem_univ index),
    sdiff_singleton_eq_erase]
  omega

omit [NeZero width] in
theorem weight_update (measure : ν → Nat) (label : ν) (slots : Fin width → Radix width ν α depth)
    (index : Fin width) (slot : Radix width ν α depth) :
    (node label (update slots index slot)).weight measure + (slots index).weight measure =
      (node label slots).weight measure + slot.weight measure := by
  have moved : ∑ other, (update slots index slot other).weight measure =
      ∑ other, update (fun kept => (slots kept).weight measure) index (slot.weight measure) other := by
    apply sum_congr rfl
    intro other _
    by_cases same : other = index
    · subst same; simp
    · simp [same]
  have total := sum_update (fun kept => (slots kept).weight measure) index (slot.weight measure)
  rw [weight, weight, moved]
  omega

theorem weight_set (measure : ν → Nat) (tree : Radix width ν α depth) (key : Nat) (value : α) :
    (tree.set key value).weight measure = tree.weight measure := by
  induction tree with
  | leaf | absent => rfl
  | @node depth label slots ih =>
    have total := weight_update measure label slots (digit width depth key)
      ((slots (digit width depth key)).set key value)
    rw [ih] at total
    rw [set]
    omega

end Radix

end NyonOS.Data
