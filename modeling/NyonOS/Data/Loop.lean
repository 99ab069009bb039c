import Mathlib

namespace NyonOS.Data

open Function List

/-! Counted loops of the source that may leave their function early.

The body answers `false` to stop; the state it stopped in is kept, because the
source never rolls a loop back. -/

def forUntil (body : α → σ → Bool × σ) : List α → σ → Bool × σ
  | [], state => (true, state)
  | index :: rest, state =>
    match body index state with
    | (true, next) => forUntil body rest next
    | (false, stopped) => (false, stopped)

variable {body : α → σ → Bool × σ} {state : σ}

@[simp] theorem forUntil_nil : forUntil body [] state = (true, state) := rfl

theorem forUntil_cons (index : α) (rest : List α) : forUntil body (index :: rest) state =
      if (body index state).1 then forUntil body rest (body index state).2
      else (false, (body index state).2) := by
  rw [forUntil]
  rcases body index state with ⟨_ | _, next⟩ <;> rfl

theorem forUntil_append (first second : List α) : forUntil body (first ++ second) state =
      if (forUntil body first state).1 then forUntil body second (forUntil body first state).2
      else forUntil body first state := by
  induction first generalizing state with
  | nil => simp
  | cons index rest ih =>
    simp only [cons_append, forUntil_cons]
    by_cases go : (body index state).1
    · simp only [go, if_true, ih]
    · simp [go]

variable {leaf : β → σ → Bool × σ}

theorem forUntil_flatMap (indices : List α) (inner : α → List β) : forUntil leaf (indices.flatMap inner) state =
      forUntil (fun index => forUntil leaf (inner index)) indices state := by
  induction indices generalizing state with
  | nil => rfl
  | cons index rest ih =>
    rw [flatMap_cons, forUntil_append, forUntil_cons]
    by_cases go : (forUntil leaf (inner index) state).1
    · simp only [go, if_true, ih]
    · simp only [go]
      exact Prod.ext (by simpa using go) rfl

theorem forUntil_map (indices : List α) (rename : α → β) : forUntil leaf (indices.map rename) state =
      forUntil (fun index => leaf (rename index)) indices state := by
  induction indices generalizing state with
  | nil => rfl
  | cons index rest ih => simp only [map_cons, forUntil_cons, ih]

variable {indices : List α}

theorem forUntil_keeps (kept : σ → Prop) (each : ∀ index ∈ indices, ∀ now, kept now → kept (body index now).2)
    (initial : kept state) : kept (forUntil body indices state).2 := by
  induction indices generalizing state with
  | nil => exact initial
  | cons index rest ih =>
    have next := each index (by simp) state initial
    rw [forUntil_cons]
    split
    · exact ih (fun later member => each later (by simp [member])) next
    · exact next

theorem forUntil_stopped (left : σ → Prop)
    (each : ∀ index ∈ indices, ∀ now, (body index now).1 = false → left (body index now).2)
    (stopped : (forUntil body indices state).1 = false) : left (forUntil body indices state).2 := by
  induction indices generalizing state with
  | nil => cases stopped
  | cons index rest ih =>
    rw [forUntil_cons] at stopped ⊢
    cases goes : (body index state).1 with
    | true =>
      rw [goes, if_pos rfl] at stopped
      exact ih (fun later member => each later (by simp [member])) stopped
    | false => exact each index (by simp) state goes

theorem forUntil_refines {τ : Type} (related : σ → τ → Prop) (step : α → τ → τ)
    (each : ∀ index ∈ indices, ∀ now view, related now view → (body index now).1 = true →
      related (body index now).2 (step index view))
    (done : (forUntil body indices state).1 = true) {view : τ} (initial : related state view) :
    related (forUntil body indices state).2 (indices.foldl (fun view index => step index view) view) := by
  induction indices generalizing state view with
  | nil => exact initial
  | cons index rest ih =>
    rw [forUntil_cons] at done ⊢
    split at done
    · rename_i goes
      rw [if_pos goes]
      exact ih (fun later member => each later (by simp [member])) done (each index (by simp) state view initial goes)
    · cases done

theorem forUntil_embed (body : α → σ → Bool × σ) (outer : α → τ → Bool × τ) (embed : σ → τ)
    (indices : List α) (state : σ)
    (same : ∀ index ∈ indices, ∀ now, outer index (embed now) = ((body index now).1, embed (body index now).2)) :
    forUntil outer indices (embed state) =
      ((forUntil body indices state).1, embed (forUntil body indices state).2) := by
  induction indices generalizing state with
  | nil => rfl
  | cons index rest ih =>
    have later := fun next => ih next fun other member => same other (by simp [member])
    rw [forUntil_cons, forUntil_cons, same index (by simp), later]
    split <;> rfl

theorem forUntil_idle (idle : ∀ index ∈ indices, body index state = (true, state)) :
    forUntil body indices state = (true, state) := by
  induction indices with
  | nil => rfl
  | cons index rest ih =>
    rw [forUntil_cons, idle index (by simp)]
    exact ih (fun later member => idle later (by simp [member]))

/-- The invariant rule for a loop over `0 .. count - 1`: `reached n` holds when
the first `n` iterations are done, `left n` when iteration `n` stopped it. -/
theorem forUntil_range (body : Nat → σ → Bool × σ) (state : σ) (count : Nat)
    (reached left : Nat → σ → Prop) (initial : reached 0 state)
    (go : ∀ index < count, ∀ now, reached index now → (body index now).1 = true →
      reached (index + 1) (body index now).2)
    (stop : ∀ index < count, ∀ now, reached index now → (body index now).1 = false → left index (body index now).2) :
    ((forUntil body (range count) state).1 = true ∧ reached count (forUntil body (range count) state).2) ∨
      (forUntil body (range count) state).1 = false ∧
        ∃ index < count, left index (forUntil body (range count) state).2 := by
  induction count with
  | zero => exact .inl ⟨rfl, initial⟩
  | succ count ih =>
    have before := ih (fun index bound => go index (by omega)) (fun index bound => stop index (by omega))
    rw [range_succ, forUntil_append]
    rcases before with ⟨done, now⟩ | ⟨stopped, index, bound, now⟩
    · simp only [done, if_true, forUntil_cons, forUntil_nil]
      by_cases more : (body count (forUntil body (range count) state).2).1 = true
      · simp only [more, if_true]
        exact .inl ⟨trivial, go count (by omega) _ now more⟩
      · simp only [Bool.not_eq_true] at more
        simp only [more, Bool.false_eq_true, if_false]
        exact .inr ⟨trivial, count, by omega, stop count (by omega) _ now more⟩
    · simp only [stopped, Bool.false_eq_true, if_false]
      exact .inr ⟨trivial, index, by omega, now⟩

theorem foldl_update {β : Type} [DecidableEq α] (distinct : indices.Nodup) (change : α → β → β) (f : α → β) (at_ : α) :
    (indices.foldl (fun f index => update f index (change index (f index))) f) at_ =
      if at_ ∈ indices then change at_ (f at_) else f at_ := by
  induction indices generalizing f with
  | nil => simp
  | cons index rest ih =>
    obtain ⟨missing, distinctRest⟩ := nodup_cons.mp distinct
    rw [List.foldl_cons, ih distinctRest]
    by_cases same : at_ = index
    · subst same
      rw [if_neg missing, if_pos mem_cons_self, update_self]
    · rw [update_of_ne same]
      simp only [mem_cons, same, false_or]

theorem range_mul (rows width : Nat) : range (rows * width) =
      (range rows).flatMap fun row => (range width).map fun column => row * width + column := by
  induction rows with
  | zero => simp
  | succ rows ih =>
    rw [range_succ, flatMap_append, ← ih, Nat.succ_mul, range_add]
    simp

end NyonOS.Data
