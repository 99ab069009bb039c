import Mathlib

namespace NyonOS.Data

open List

/-! Programs on 64-bit words that keep a record of their arithmetic and of their accesses. -/

inductive Op where
  | add (one other : Nat)
  | sub (one other : Nat)
  | mul (one other : Nat)
  | narrow (value : Nat)
  | access (index count : Nat)
  | range (start length size : Nat)
  deriving DecidableEq, Repr

/-- The result is that of the natural numbers; an access stays inside of its object. -/
def Op.Exact : Op → Prop
  | .add one other => one + other < 2 ^ 64
  | .sub one other => other ≤ one
  | .mul one other => one * other < 2 ^ 64
  | .narrow value => value < 2 ^ 32
  | .access index count => index < count
  | .range start length size => start + length ≤ size

instance : DecidablePred Op.Exact
  | .add _ _ => inferInstanceAs (Decidable (_ < _))
  | .sub _ _ => inferInstanceAs (Decidable (_ ≤ _))
  | .mul _ _ => inferInstanceAs (Decidable (_ < _))
  | .narrow _ => inferInstanceAs (Decidable (_ < _))
  | .access _ _ => inferInstanceAs (Decidable (_ < _))
  | .range _ _ _ => inferInstanceAs (Decidable (_ ≤ _))

structure Checked (α : Type) where
  value : α
  ops : List Op

namespace Checked

variable {α β : Type}

instance : Monad Checked where
  pure value := ⟨value, []⟩
  bind program next := ⟨(next program.value).value, program.ops ++ (next program.value).ops⟩

def add (one other : Nat) : Checked Nat := ⟨(one + other) % 2 ^ 64, [.add one other]⟩

def sub (one other : Nat) : Checked Nat := ⟨if other ≤ one then one - other else 2 ^ 64 + one - other, [.sub one other]⟩

def mul (one other : Nat) : Checked Nat := ⟨one * other % 2 ^ 64, [.mul one other]⟩

/-- A cast to 32 bits. -/
def narrow (value : Nat) : Checked Nat := ⟨value % 2 ^ 32, [.narrow value]⟩

def access (index count : Nat) : Checked Unit := ⟨(), [.access index count]⟩

def range (start length size : Nat) : Checked Unit := ⟨(), [.range start length size]⟩

/-- The second part of a condition is computed only if the first is met. -/
def andThen (guard : Prop) [Decidable guard] (test : Checked Bool) : Checked Bool := if guard then test else pure false

/-- A loop that stops at the first answer. -/
def first (body : α → Checked (Option β)) : List α → Checked (Option β)
  | [] => pure none
  | item :: rest => do
    match ← body item with
    | some answer => pure (some answer)
    | none => first body rest

def each (body : α → Checked Unit) : List α → Checked Unit
  | [] => pure ()
  | item :: rest => do
    body item
    each body rest

/-- The program computes the value, and no operation on the way is inexact. -/
structure Computes (program : Checked α) (result : α) : Prop where
  value : program.value = result
  exact : ∀ op ∈ program.ops, op.Exact

abbrev Safe (program : Checked Unit) : Prop := Computes program ()

namespace Computes

variable {program : Checked α} {result : α} {one other : Nat}

theorem pure (result : α) : Computes (Pure.pure result) result := ⟨rfl, fun _ member => nomatch member⟩

theorem bind {next : α → Checked β} {final : β} (start : Computes program result) (rest : Computes (next result) final) :
    Computes (program >>= next) final := by
  obtain ⟨rfl, exact⟩ := start
  refine ⟨rest.value, fun op member => ?_⟩
  rcases mem_append.mp member with early | late
  · exact exact op early
  · exact rest.exact op late

theorem ite {condition : Prop} [Decidable condition] {yes no : Checked α} {one other : α} (holds : condition → Computes yes one)
    (fails : ¬condition → Computes no other) : Computes (if condition then yes else no) (if condition then one else other) := by
  split
  · exact holds (by assumption)
  · exact fails (by assumption)

theorem either {condition : Prop} [Decidable condition] {yes no : Checked α} (holds : condition → Computes yes result)
    (fails : ¬condition → Computes no result) : Computes (if condition then yes else no) result :=
  ite_self result ▸ ite holds fails

theorem add (small : one + other < 2 ^ 64) : Computes (Checked.add one other) (one + other) :=
  ⟨Nat.mod_eq_of_lt small, fun op member => by cases mem_singleton.mp member; exact small⟩

theorem sub (least : other ≤ one) : Computes (Checked.sub one other) (one - other) :=
  ⟨if_pos least, fun op member => by cases mem_singleton.mp member; exact least⟩

theorem mul (small : one * other < 2 ^ 64) : Computes (Checked.mul one other) (one * other) :=
  ⟨Nat.mod_eq_of_lt small, fun op member => by cases mem_singleton.mp member; exact small⟩

theorem narrow {value : Nat} (small : value < 2 ^ 32) : Computes (Checked.narrow value) value :=
  ⟨Nat.mod_eq_of_lt small, fun op member => by cases mem_singleton.mp member; exact small⟩

theorem access {index count : Nat} (inside : index < count) : Safe (Checked.access index count) :=
  ⟨rfl, fun op member => by cases mem_singleton.mp member; exact inside⟩

theorem range {start length size : Nat} (inside : start + length ≤ size) : Safe (Checked.range start length size) :=
  ⟨rfl, fun op member => by cases mem_singleton.mp member; exact inside⟩

theorem check {test : Checked Bool} {condition : Prop} [Decidable condition] {yes no : Checked α} {one other : α}
    (tests : Computes test (decide condition)) (holds : Computes yes one) (fails : ¬condition → Computes no other) :
    Computes (test >>= fun failed => if failed then yes else no) (if condition then one else other) := by
  refine tests.bind ?_
  by_cases met : condition
  · rw [if_pos met, if_pos (decide_eq_true met)]
    exact holds
  · rw [if_neg met, if_neg (by simpa using met)]
    exact fails met

theorem andThen {guard condition : Prop} [Decidable guard] [Decidable condition] {test : Checked Bool}
    (tests : guard → Computes test (decide condition)) : Computes (Checked.andThen guard test) (decide (guard ∧ condition)) := by
  unfold Checked.andThen
  by_cases met : guard
  · simp only [met, if_true, true_and]
    exact tests met
  · simp only [met, if_false, false_and, decide_false]
    exact pure false

theorem first {body : α → Checked (Option β)} {answer : α → Option β} {items : List α}
    (step : ∀ item ∈ items, Computes (body item) (answer item)) : Computes (Checked.first body items) (items.findSome? answer) := by
  induction items with
  | nil => exact pure none
  | cons item rest ih =>
    refine (step item (by simp)).bind ?_
    rw [findSome?_cons]
    cases answer item with
    | some found => exact pure (some found)
    | none => exact ih fun later member => step later (by simp [member])

theorem each {body : α → Checked Unit} {items : List α} (step : ∀ item ∈ items, Safe (body item)) : Safe (Checked.each body items) := by
  induction items with
  | nil => exact pure ()
  | cons item rest ih => exact (step item (by simp)).bind (ih fun later member => step later (by simp [member]))

end Computes

end Checked

end NyonOS.Data
