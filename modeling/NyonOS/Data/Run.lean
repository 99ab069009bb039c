import Mathlib

namespace NyonOS.Data

/-! Runs of a system that takes one call after the other. -/

variable {κ τ : Type}

/-- The states reached from `start` by calls that all meet a condition on the
state they are made in. -/
inductive Run (step : κ → τ → τ → Prop) (allowed : κ → τ → Prop) (start : τ) : τ → Prop
  | start : Run step allowed start start
  | next {call : κ} {before after : τ} (earlier : Run step allowed start before)
      (meets : allowed call before) (taken : step call before after) : Run step allowed start after

namespace Run

variable {step : κ → τ → τ → Prop} {allowed : κ → τ → Prop} {start now : τ}

theorem invariant {holds : τ → Prop} (run : Run step allowed start now) (initial : holds start)
    (preserve : ∀ call before after, holds before → allowed call before → step call before after →
      holds after) : holds now := by
  induction run with
  | start => exact initial
  | next _ meets taken ih => exact preserve _ _ _ ih meets taken

end Run

def Meets (act : κ → τ → τ) (allowed : κ → τ → Prop) : List κ → τ → Prop
  | [], _ => True
  | call :: rest, state => allowed call state ∧ Meets act allowed rest (act call state)

instance decidableMeets (act : κ → τ → τ) (allowed : κ → τ → Prop)
    [decide : ∀ call state, Decidable (allowed call state)] : ∀ calls state, Decidable (Meets act allowed calls state)
  | [], _ => isTrue trivial
  | call :: rest, state =>
    have := decide call state
    have := decidableMeets act allowed rest (act call state)
    inferInstanceAs (Decidable (_ ∧ _))

/-- The state after a script. -/
def play (act : κ → τ → τ) (calls : List κ) (state : τ) : τ := calls.foldl (fun now call => act call now) state

theorem Run.play {step : κ → τ → τ → Prop} {allowed : κ → τ → Prop} {start now : τ} {act : κ → τ → τ}
    (takes : ∀ call state, step call state (act call state)) {calls : List κ}
    (run : Run step allowed start now) (meets : Meets act allowed calls now) :
    Run step allowed start (play act calls now) := by
  induction calls generalizing now with
  | nil => exact run
  | cons call rest ih => exact ih (run.next meets.1 (takes call now)) meets.2

end NyonOS.Data
