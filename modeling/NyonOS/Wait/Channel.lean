import NyonOS.Abi

namespace NyonOS.Wait

open Abi Function

/-! The fields of the task table that waiting and waking work on. -/

/-- A channel is an address; 0 is the null pointer. -/
abbrev Chan := Nat

structure Waits where
  inUse : Nat → Bool
  waitChan : Nat → Chan
  wakeTick : Nat → Nat
  blocked : Nat → Bool
  wakeGen : Nat → BitVec 64
  earliestWake : Nat

namespace Waits

/-- The section of `task_wait` and `task_futex_wait` under `sched_lock`. -/
def register (w : Waits) (self : Nat) (chan : Chan) (deadline : Nat) : Waits :=
  { w with
    waitChan := update w.waitChan self chan
    wakeTick := update w.wakeTick self deadline
    earliestWake := if deadline ≠ 0 ∧ deadline < w.earliestWake then deadline else w.earliestWake
    blocked := update w.blocked self true }

def unblock (w : Waits) (i : Nat) : Waits := { w with blocked := update w.blocked i false }

def bumpGen (w : Waits) (i : Nat) : Waits := { w with wakeGen := update w.wakeGen i (w.wakeGen i + 1) }

/-- What a task does when it has been woken. -/
def leave (w : Waits) (self : Nat) : Waits :=
  { w with
    waitChan := update w.waitChan self 0
    wakeTick := update w.wakeTick self 0 }

def waitsOn (w : Waits) (chan : Chan) (i : Nat) : Bool := w.inUse i && w.waitChan i == chan

end Waits

/-- Where `task_wake_chan` is: it looks at one task after the other, without the lock, and
releases those that wait on the channel in two stores. -/
inductive Scan
  | look (i : Nat)
  | bump (i : Nat)
  | release (i : Nat)
  | done
deriving DecidableEq

namespace Scan

def start (chan : Chan) : Scan := if chan = 0 then done else look 0

def after (i : Nat) : Scan := if i + 1 < taskMax then look (i + 1) else done

def step (chan : Chan) (w : Waits) : Scan → Waits × Scan
  | look i => (w, if w.waitsOn chan i then bump i else after i)
  | bump i => (w.bumpGen i, release i)
  | release i => (w.unblock i, after i)
  | done => (w, done)

/-- The scan will still come to a task, or is about to release it. -/
def Reaches (r : Nat) : Scan → Prop
  | look i => i ≤ r
  | bump i => i ≤ r
  | release i => i ≤ r
  | done => False

def Ahead (r : Nat) : Scan → Prop
  | look i => i ≤ r
  | bump i => i < r
  | release i => i < r
  | done => False

variable {chan : Chan} {w : Waits} {scan : Scan} {i r : Nat}

theorem Ahead.reaches (ahead : scan.Ahead r) : scan.Reaches r := by
  cases scan with
  | look | done => exact ahead
  | bump | release => exact Nat.le_of_lt ahead

theorem ahead_start (valid : chan ≠ 0) : (start chan).Ahead r := by
  rw [start, if_neg valid]
  exact Nat.zero_le r

theorem ahead_after (below : i < r) (inside : r < taskMax) : (after i).Ahead r := by
  rw [after, if_pos (by omega)]
  exact below

theorem Ahead.step (ahead : scan.Ahead r) (inside : r < taskMax) (looks : scan ≠ look r) : (scan.step chan w).2.Ahead r := by
  cases scan with
  | look i =>
    have below : i < r := by
      refine Nat.lt_of_le_of_ne ahead ?_
      rintro rfl
      exact looks rfl
    unfold Scan.step
    dsimp only
    split
    · exact below
    · exact ahead_after below inside
  | bump | done => exact ahead
  | release i => exact ahead_after ahead inside

theorem step_waits : (scan.step chan w).1.waitChan = w.waitChan ∧ (scan.step chan w).1.inUse = w.inUse := by
  cases scan with
  | look | bump | release | done => exact ⟨rfl, rfl⟩

theorem step_blocked (blocked : (scan.step chan w).1.blocked r = true) : w.blocked r = true := by
  cases scan with
  | look | bump | done => exact blocked
  | release i =>
    change update w.blocked i false r = true at blocked
    rw [update_apply] at blocked
    split at blocked
    · cases blocked
    · exact blocked

theorem Reaches.step (reaches : scan.Reaches r) (inside : r < taskMax) (waits : w.waitsOn chan r = true)
    (holds : scan ≠ release r) : (scan.step chan w).2.Reaches r := by
  by_cases looks : scan = look r
  · subst looks
    unfold Scan.step
    dsimp only
    rw [if_pos waits]
    exact Nat.le_refl r
  · cases scan with
    | look i =>
      have ahead : (look i).Ahead r := reaches
      exact (ahead.step inside looks).reaches
    | bump | done => exact reaches
    | release i =>
      refine (ahead_after (Nat.lt_of_le_of_ne reaches ?_) inside).reaches
      rintro rfl
      exact holds rfl

def rank : Scan → Nat
  | look i => 3 * (taskMax - i) + 3
  | bump i => 3 * (taskMax - i) + 2
  | release i => 3 * (taskMax - i) + 1
  | done => 0

theorem rank_after : (after i).rank ≤ 3 * (taskMax - i) := by
  unfold after
  split
  · dsimp only [rank]
    omega
  · exact Nat.zero_le _

theorem step_rank (busy : scan ≠ done) : (scan.step chan w).2.rank < scan.rank := by
  cases scan with
  | look i =>
    have later := rank_after (i := i)
    unfold step
    dsimp only
    split
    · simp [rank]
    · exact Nat.lt_of_le_of_lt later (by dsimp only [rank]; omega)
  | bump i => simp [step, rank]
  | release i => exact Nat.lt_of_le_of_lt rank_after (by dsimp only [rank]; omega)
  | done => exact absurd rfl busy

end Scan

end NyonOS.Wait
