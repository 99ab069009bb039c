import NyonOS.Data.Loop
import NyonOS.Data.Radix

namespace NyonOS.Data.Radix

open Function List Nat

/-! Recursive traversals of a radix tree.

`traverse` is the recursion as such code is written: a loop over the slots of a
node, descending where `enter` allows it, a step at each leaf that may rewrite
the leaf and may stop the whole traversal.  `traverse_eq` turns it into one loop
over all keys, where `forUntil_range` applies. -/

variable {width depth : Nat} {ν α τ : Type} [NeZero width]

def traverse (enter : ν → Bool) (leaf : Nat → α → τ → Bool × α × τ) :
    {depth : Nat} → Radix width ν α depth → Nat → τ → Bool × Radix width ν α depth × τ
  | 0, .leaf value, key, context =>
    ((leaf key value context).1, .leaf (leaf key value context).2.1, (leaf key value context).2.2)
  | _ + 1, .absent, _, context => (true, .absent, context)
  | depth + 1, .node label slots, base, context =>
    if enter label then
      let done := forUntil (fun index (now : (Fin width → Radix width ν α depth) × τ) =>
        let below := traverse enter leaf (slots index) (base + index.val * width ^ depth) now.2
        (below.1, update now.1 index below.2.1, below.2.2))
        (List.finRange width) (slots, context)
      (done.1, .node label done.2.1, done.2.2)
    else (true, .node label slots, context)

def visit (enter : ν → Bool) : {depth : Nat} → Radix width ν α depth → Nat → Option α
  | 0, .leaf value, _ => some value
  | _ + 1, .absent, _ => none
  | depth + 1, .node label slots, key =>
    if enter label then (slots (digit width depth key)).visit enter key else none

def visitStep (enter : ν → Bool) (leaf : Nat → α → τ → Bool × α × τ) (key : Nat)
    (now : Radix width ν α depth × τ) : Bool × Radix width ν α depth × τ :=
  match now.1.visit enter key with
  | none => (true, now)
  | some value =>
    ((leaf key value now.2).1, now.1.set key (leaf key value now.2).2.1, (leaf key value now.2).2.2)

variable {enter : ν → Bool} {leaf : Nat → α → τ → Bool × α × τ} {tree : Radix width ν α depth}

theorem get_of_visit {key : Nat} {value : α}
    (visited : tree.visit enter key = some value) : tree.get key = some value := by
  induction tree with
  | leaf old => exact visited
  | absent => simp [visit] at visited
  | node label slots ih =>
    rw [visit] at visited
    split at visited
    · exact ih _ visited
    · contradiction

theorem visit_eq_get (every : tree.All (enter · = true)) (key : Nat) : tree.visit enter key = tree.get key := by
  induction tree with
  | leaf | absent => rfl
  | @node depth label slots ih =>
    rw [visit, if_pos every.1, get]
    exact ih _ (every.2 _)

theorem forUntil_fresh {ι β : Type} [DecidableEq ι] (slots : ι → β) (work : ι → β → τ → Bool × β × τ)
    {indices : List ι} (nodup : indices.Nodup) {now : (ι → β) × τ}
    (same : ∀ index ∈ indices, now.1 index = slots index) :
    forUntil (fun index (now : (ι → β) × τ) =>
        ((work index (slots index) now.2).1, update now.1 index (work index (slots index) now.2).2.1,
          (work index (slots index) now.2).2.2)) indices now =
      forUntil (fun index (now : (ι → β) × τ) =>
        ((work index (now.1 index) now.2).1, update now.1 index (work index (now.1 index) now.2).2.1,
          (work index (now.1 index) now.2).2.2)) indices now := by
  induction indices generalizing now with
  | nil => rfl
  | cons index rest ih =>
    obtain ⟨fresh, nodup⟩ := nodup_cons.mp nodup
    rw [forUntil_cons, forUntil_cons, same index (by simp)]
    dsimp only
    rw [ih nodup]
    intro other member
    have different : other ≠ index := fun equal => fresh (equal ▸ member)
    dsimp only
    rw [update_of_ne different]
    exact same other (by simp [member])

theorem visitStep_node {label : ν} (entered : enter label = true)
    (slots : Fin width → Radix width ν α depth) {index : Fin width} {key : Nat}
    (here : digit width depth key = index) (now : Radix width ν α depth × τ) :
    visitStep enter leaf key ((.node label (update slots index now.1) : Radix width ν α (depth + 1)), now.2) =
      ((visitStep enter leaf key now).1, .node label (update slots index (visitStep enter leaf key now).2.1),
        (visitStep enter leaf key now).2.2) := by
  simp only [visitStep, visit, entered, if_true, here, update_self]
  cases now.1.visit enter key with
  | none => rfl
  | some value => simp only [set, here, update_self, update_idem]

variable {base : Nat}

theorem digit_of_parts (aligned : width ^ (depth + 1) ∣ base) (index : Fin width)
    {low : Nat} (bound : low < width ^ depth) :
    digit width depth (base + (index.val * width ^ depth + low)) = index := by
  obtain ⟨count, rfl⟩ := aligned
  have positive : 0 < width ^ depth := Nat.pow_pos (pos_of_neZero width)
  have quotient : (width ^ (depth + 1) * count + (index.val * width ^ depth + low)) / width ^ depth =
      width * count + index.val := by
    rw [show width ^ (depth + 1) * count + (index.val * width ^ depth + low) =
      width ^ depth * (width * count + index.val) + low by ring, mul_add_div positive,
      div_eq_of_lt bound, Nat.add_zero]
  apply Fin.ext
  rw [digit, quotient]
  simp [mul_add_mod, mod_eq_of_lt index.isLt]

omit [NeZero width] in
theorem map_finRange (width : Nat) : (List.finRange width).map Fin.val = range width :=
  map_coe_finRange_eq_range

section

variable (tree : Radix width ν α depth)

theorem traverse_eq (aligned : width ^ depth ∣ base) (context : τ) : tree.traverse enter leaf base context =
      forUntil (visitStep enter leaf) ((range (width ^ depth)).map (base + ·)) (tree, context) := by
  induction tree generalizing base context with
  | leaf value =>
    have only : range (width ^ 0) = [0] := by simp
    rw [only, traverse, map_cons, map_nil, forUntil_cons]
    simp only [visitStep, visit, set, Nat.add_zero, forUntil_nil]
    by_cases go : (leaf base value context).1 = true
    · simp [go]
    · simp [go]
  | absent =>
    rw [forUntil_idle]
    · rfl
    · intro key _
      rfl
  | @node depth label slots ih =>
    by_cases entered : enter label = true
    · have rows : (range (width ^ (depth + 1))).map (base + ·) = (List.finRange width).flatMap fun index =>
            (range (width ^ depth)).map (base + index.val * width ^ depth + ·) := by
        rw [pow_succ', range_mul, map_flatMap, ← map_finRange width, flatMap_map]
        simp only [map_map]
        congr 1
        funext index
        apply map_congr_left
        intro low _
        simp [Nat.add_assoc]
      have inner : ∀ index : Fin width, width ^ depth ∣ base + index.val * width ^ depth :=
        fun index => Nat.dvd_add (dvd_trans (pow_dvd_pow width (le_succ depth)) aligned) (Nat.dvd_mul_left _ _)
      rw [traverse, if_pos entered, rows, forUntil_flatMap]
      simp only [fun index => ih index (inner index)]
      rw [forUntil_fresh slots (fun index slot context => forUntil (visitStep enter leaf)
        ((range (width ^ depth)).map (base + index.val * width ^ depth + ·)) (slot, context))
        (nodup_finRange width) (fun _ _ => rfl)]
      -- the outer loop runs on the node, the inner ones on its slots
      symm
      refine forUntil_embed _ _ (fun now : (Fin width → Radix width ν α depth) × τ =>
        ((.node label now.1 : Radix width ν α (depth + 1)), now.2)) _ (slots, context) ?_
      intro index _ now
      have lifted := forUntil_embed (visitStep enter leaf) (visitStep enter leaf)
        (fun slot : Radix width ν α depth × τ =>
          ((.node label (update now.1 index slot.1) : Radix width ν α (depth + 1)), slot.2))
        ((range (width ^ depth)).map (base + index.val * width ^ depth + ·))
        (now.1 index, now.2) ?_
      · simpa only [update_eq_self] using lifted
      · intro key member slot
        obtain ⟨low, bound, rfl⟩ := mem_map.mp member
        apply visitStep_node entered
        rw [Nat.add_assoc]
        exact digit_of_parts aligned index (mem_range.mp bound)
    · rw [traverse, if_neg entered, forUntil_idle]
      intro key _
      simp [visitStep, visit, entered]

theorem traverse_zero (context : τ) : tree.traverse enter leaf 0 context =
      forUntil (visitStep enter leaf) (range (width ^ depth)) (tree, context) := by
  rw [traverse_eq tree (Nat.dvd_zero _)]
  simp

theorem all_true : tree.All (fun _ => (true : Bool) = true) := by
  induction tree with
  | leaf | absent => trivial
  | node label slots ih => exact ⟨rfl, ih⟩

end

theorem traverse_node (label : ν) (slots : Fin width → Radix width ν α depth) (base : Nat) (context : τ) :
    ∃ after, ((.node label slots : Radix width ν α (depth + 1)).traverse enter leaf base context).2.1 =
      .node label after := by
  rw [traverse]
  split
  · exact ⟨_, rfl⟩
  · exact ⟨_, rfl⟩

theorem traverse_total (leaf : Nat → α → τ → Bool × α × τ) (tree : Radix width ν α depth) (aligned : width ^ depth ∣ base)
    (context : τ) (reached : Nat → Radix width ν α depth → τ → Prop) (initial : reached 0 tree context)
    (missing : ∀ offset < width ^ depth, ∀ now context, reached offset now context →
      now.get (base + offset) = none → reached (offset + 1) now context)
    (visited : ∀ offset < width ^ depth, ∀ now context value, reached offset now context →
      now.get (base + offset) = some value →
      (leaf (base + offset) value context).1 = true ∧
        reached (offset + 1) (now.set (base + offset) (leaf (base + offset) value context).2.1)
          (leaf (base + offset) value context).2.2) :
    reached (width ^ depth) (tree.traverse (fun _ => true) leaf base context).2.1
      (tree.traverse (fun _ => true) leaf base context).2.2 := by
  have step : ∀ offset < width ^ depth, ∀ now : Radix width ν α depth × τ, reached offset now.1 now.2 →
      (visitStep (fun _ => true) leaf (base + offset) now).1 = true ∧
        reached (offset + 1) (visitStep (fun _ => true) leaf (base + offset) now).2.1
          (visitStep (fun _ => true) leaf (base + offset) now).2.2 := by
    intro offset bound now holds
    unfold visitStep
    rw [visit_eq_get (all_true now.1)]
    cases found : now.1.get (base + offset) with
    | none => exact ⟨rfl, missing offset bound now.1 now.2 holds found⟩
    | some value => exact visited offset bound now.1 now.2 value holds found
  rw [traverse_eq tree aligned, forUntil_map]
  rcases forUntil_range (fun offset => visitStep (fun _ => true) leaf (base + offset)) (tree, context)
    (width ^ depth) (fun offset now => reached offset now.1 now.2) (fun _ _ => False) initial
    (fun offset bound now holds _ => (step offset bound now holds).2)
    (fun offset bound now holds stop => by
      rw [(step offset bound now holds).1] at stop
      contradiction) with ⟨_, holds⟩ | ⟨_, _, _, wrong⟩
  · exact holds
  · exact wrong.elim

end NyonOS.Data.Radix
