import Mathlib

namespace NyonOS.Data

open List

/-! Programs that work on a store through a fixed set of effects, so that one program can
run on several kinds of store. -/

/-- A program asks for one effect after the other; what it asks next depends on the answers. -/
inductive Program (Effect : Type) (Answer : Effect → Type) (α : Type) : Type
  | done (value : α)
  | ask (effect : Effect) (next : Answer effect → Program Effect Answer α)

namespace Program

variable {Effect : Type} {Answer : Effect → Type} {α β σ τ : Type}

def bind : Program Effect Answer α → (α → Program Effect Answer β) → Program Effect Answer β
  | done value, continue_ => continue_ value
  | ask effect next, continue_ => ask effect fun answer => (next answer).bind continue_

instance programMonad : Monad (Program Effect Answer) where
  pure := done
  bind := bind

/-- The program that asks for one effect and returns the answer. -/
def perform (effect : Effect) : Program Effect Answer (Answer effect) := ask effect done

/-- How a store answers. -/
abbrev Handler (Effect : Type) (Answer : Effect → Type) (σ : Type) := (effect : Effect) → σ → Answer effect × σ

variable (handler : Handler Effect Answer σ)

def run : Program Effect Answer α → σ → α × σ
  | done value, state => (value, state)
  | ask effect next, state => (next (handler effect state).1).run (handler effect state).2

@[simp]
theorem run_pure (value : α) (state : σ) :
    (pure value : Program Effect Answer α).run handler state = (value, state) := rfl

@[simp]
theorem run_perform (effect : Effect) (state : σ) :
    (perform effect : Program Effect Answer (Answer effect)).run handler state = handler effect state := rfl

@[simp]
theorem run_bind (program : Program Effect Answer α) (continue_ : α → Program Effect Answer β) (state : σ) :
    (program >>= continue_).run handler state =
      (continue_ (program.run handler state).1).run handler (program.run handler state).2 := by
  change (program.bind continue_).run handler state = _
  induction program generalizing state with
  | done value => rfl
  | ask effect next ih => exact ih _ _

/-- The effects a program asks for. -/
def trace : Program Effect Answer α → σ → List Effect
  | done _, _ => []
  | ask effect next, state => effect :: (next (handler effect state).1).trace (handler effect state).2

@[simp]
theorem trace_pure (value : α) (state : σ) : (pure value : Program Effect Answer α).trace handler state = [] := rfl

@[simp]
theorem trace_perform (effect : Effect) (state : σ) :
    (perform effect : Program Effect Answer (Answer effect)).trace handler state = [effect] := rfl

@[simp]
theorem trace_bind (program : Program Effect Answer α) (continue_ : α → Program Effect Answer β) (state : σ) :
    (program >>= continue_).trace handler state = program.trace handler state ++
      (continue_ (program.run handler state).1).trace handler (program.run handler state).2 := by
  change (program.bind continue_).trace handler state = _
  induction program generalizing state with
  | done value => rfl
  | ask effect next ih => exact congrArg (effect :: ·) (ih _ _)

def Only (allowed : Effect → Prop) : Program Effect Answer α → Prop
  | done _ => True
  | ask effect next => allowed effect ∧ ∀ answer, (next answer).Only allowed

variable {allowed : Effect → Prop} {program : Program Effect Answer α}

theorem Only.mono {wider : Effect → Prop} (only : program.Only allowed)
    (implies : ∀ effect, allowed effect → wider effect) : program.Only wider := by
  induction program with
  | done value => trivial
  | ask effect next ih => exact ⟨implies effect only.1, fun answer => ih answer (only.2 answer)⟩

variable {continue_ : α → Program Effect Answer β}

theorem Only.bind (first : program.Only allowed)
    (rest : ∀ value, (continue_ value).Only allowed) : (program >>= continue_).Only allowed := by
  change (program.bind continue_).Only allowed
  induction program with
  | done value => exact rest value
  | ask effect next ih => exact ⟨first.1, fun answer => ih answer (first.2 answer)⟩

theorem Only.of_trace (only : program.Only allowed)
    (state : σ) : ∀ effect ∈ program.trace handler state, allowed effect := by
  induction program generalizing state with
  | done value => exact fun effect member => absurd member not_mem_nil
  | ask effect next ih =>
    intro other member
    rcases mem_cons.mp member with rfl | later
    · exact only.1
    · exact ih _ (only.2 _) _ other later

def Returns (post : α → Prop) : Program Effect Answer α → Prop
  | done value => post value
  | ask _ next => ∀ answer, (next answer).Returns post

theorem Returns.bind {first : α → Prop} {post : β → Prop} (returns : program.Returns first)
    (rest : ∀ value, first value → (continue_ value).Returns post) : (program >>= continue_).Returns post := by
  change (program.bind continue_).Returns post
  induction program with
  | done value => exact rest value returns
  | ask effect next ih => exact fun answer => ih answer (returns answer)

variable {post : α → Prop}

theorem Only.bind_of_returns (first : program.Only allowed) (returns : program.Returns post)
    (rest : ∀ value, post value → (continue_ value).Only allowed) : (program >>= continue_).Only allowed := by
  change (program.bind continue_).Only allowed
  induction program with
  | done value => exact rest value returns
  | ask effect next ih => exact ⟨first.1, fun answer => ih answer (first.2 answer) (returns answer)⟩

theorem returns_true (program : Program Effect Answer α) : program.Returns fun _ => True := by
  induction program with
  | done value => trivial
  | ask effect next ih => exact ih

theorem bind_congr {first second : α → Program Effect Answer β}
    (same : ∀ value, first value = second value) : program >>= first = program >>= second :=
  congrArg (program >>= ·) (funext same)

theorem bind_congr_of_returns {first second : α → Program Effect Answer β} (returns : program.Returns post)
    (same : ∀ value, post value → first value = second value) : program >>= first = program >>= second := by
  change program.bind first = program.bind second
  induction program with
  | done value => exact same value returns
  | ask effect next ih => exact congrArg (ask effect) (funext fun answer => ih answer (returns answer))

/-- Two stores that give the same answers cannot be told apart by a program that asks only
for effects they agree on. -/
theorem run_simulates {handler : Handler Effect Answer σ} {other : Handler Effect Answer τ} {related : σ → τ → Prop}
    (each : ∀ effect state twin, allowed effect → related state twin →
      (handler effect state).1 = (other effect twin).1 ∧ related (handler effect state).2 (other effect twin).2)
    (program : Program Effect Answer α) {state : σ} {twin : τ} (initial : related state twin)
    (meets : ∀ effect ∈ program.trace other twin, allowed effect) :
    (program.run handler state).1 = (program.run other twin).1 ∧
      related (program.run handler state).2 (program.run other twin).2 ∧
      program.trace handler state = program.trace other twin := by
  induction program generalizing state twin with
  | done value => exact ⟨rfl, initial, rfl⟩
  | ask effect next ih =>
    obtain ⟨same, stays⟩ := each effect state twin (meets _ mem_cons_self) initial
    rw [run, run, trace, trace, same]
    obtain ⟨result, final, later⟩ := ih (other effect twin).1 stays
      fun later member => meets later (mem_cons_of_mem _ member)
    exact ⟨result, final, congrArg (effect :: ·) later⟩

/-- From a state that meets `pre` the program asks only for `good` effects and ends with a
value and a state that meet `post`. -/
def Triple (good : Effect → Prop) (pre : σ → Prop) (program : Program Effect Answer α) (post : α → σ → Prop) : Prop :=
  ∀ state, pre state → (∀ effect ∈ program.trace handler state, good effect) ∧
    post (program.run handler state).1 (program.run handler state).2

namespace Triple

variable {handler : Handler Effect Answer σ} {good : Effect → Prop} {pre : σ → Prop}
  {program : Program Effect Answer α} {post : α → σ → Prop}

theorem pure {value : α} (holds : ∀ state, pre state → post value state) :
    Triple handler good pre (Pure.pure value) post :=
  fun state initial => ⟨fun _ member => absurd member not_mem_nil, holds state initial⟩

theorem bind {continue_ : α → Program Effect Answer β} {last : β → σ → Prop}
    (first : Triple handler good pre program post)
    (rest : ∀ value, Triple handler good (post value) (continue_ value) last) :
    Triple handler good pre (program >>= continue_) last := by
  intro state initial
  obtain ⟨effects, middle⟩ := first state initial
  obtain ⟨later, final⟩ := rest _ _ middle
  rw [run_bind, trace_bind]
  refine ⟨fun effect member => ?_, final⟩
  rcases mem_append.mp member with here | there
  · exact effects effect here
  · exact later effect there

theorem weaken {weaker : α → σ → Prop} (triple : Triple handler good pre program post)
    (implies : ∀ value state, post value state → weaker value state) :
    Triple handler good pre program weaker :=
  fun state initial => ⟨(triple state initial).1, implies _ _ (triple state initial).2⟩

end Triple

end Program

end NyonOS.Data
