import NyonOS.Fd.Timer
import NyonOS.Wait.Timer

namespace NyonOS.Fd

open Abi Function

/-! The timer interrupt, and what it does for timers. -/

/-- What the interrupt works on, and the timers. -/
structure Ticking where
  pitTicks : Nat
  waits : Wait.Waits
  timers : Timerfds

/-- `task_tick`, which gives up if preemption is disabled or the lock is taken. -/
def taskTick (free : Bool) (now : Nat) (m : Ticking) : Ticking :=
  if now < m.waits.earliestWake then m
  else if !free then m
  else
    let done := Wait.tickSection now m.waits
    { m with waits := { done.1 with earliestWake := done.2 } }

/-- `pit_handler` up to the choice of the next task. -/
def pitHandler (free : Bool) (m : Ticking) : Ticking := taskTick free (m.pitTicks + 1) { m with pitTicks := m.pitTicks + 1 }

/-- The interrupt, calls on timers, and whatever else concerns waiting tasks. -/
inductive TickingMove
  | interrupt (free : Bool)
  | settime (freq id : Nat) (absolute copies : Bool) (new : Option (Timespec × Timespec))
  | read (id len : Nat) (copies : Bool)
  | other (waits : Wait.Waits)

def Ticking.after (m : Ticking) : TickingMove → Ticking
  | .interrupt free => pitHandler free m
  | .settime freq id absolute copies new =>
    { m with timers := (timerfdSettime freq m.pitTicks absolute copies new id m.timers).2 }
  | .read id len copies =>
    { m with timers := { m.timers with timer := update m.timers.timer id (timerfdReadAt (m.timers.timer id) len copies).2 } }
  | .other waits => { m with waits }

/-- The events of `timerfd_poll_read`. -/
def timerfdPollRead (tf : Timerfd) (ticks : Nat) (events revents : BitVec 16) : BitVec 16 :=
  let revents := if events &&& pollin ≠ 0 ∧ (tf.expirations ≠ 0 ∨ tf.nextTick ≠ 0 ∧ tf.nextTick ≤ ticks) then revents ||| pollin else revents
  if events &&& pollout ≠ 0 then revents ||| pollout else revents

/-- An endless run in which the interrupt keeps firing. -/
structure KeepsTicking (m : Nat → Ticking) : Prop where
  fresh : ∀ id, ((m 0).timers.timer id).expirations = 0
  step : ∀ n, ∃ move, m (n + 1) = (m n).after move
  fires : ∀ ticks, ∃ n, ticks ≤ (m n).pitTicks

/-- A timer that stays armed expires after its time, and a timer that is reported to be readable can be read. -/
structure BecomesReadable (m : Nat → Ticking) : Prop where
  expires : ∀ n id, ((m n).timers.timer id).nextTick ≠ 0 →
    (∀ k ≥ n, ((m k).timers.timer id).nextTick = ((m n).timers.timer id).nextTick) →
      ∃ k ≥ n, ((m n).timers.timer id).nextTick ≤ (m k).pitTicks ∧ ((m k).timers.timer id).expirations ≠ 0
  polled : ∀ n id events, timerfdPollRead ((m n).timers.timer id) (m n).pitTicks events 0 &&& pollin ≠ 0 →
    ∀ len copies, (timerfdReadAt ((m n).timers.timer id) len copies).1.1 ≠ eagain

section Ticking

variable {m : Nat → Ticking}

theorem pitHandler_timers {m : Ticking} {free : Bool} : (pitHandler free m).timers = m.timers ∧ (pitHandler free m).pitTicks = m.pitTicks + 1 := by
  unfold pitHandler taskTick
  split_ifs
  · exact ⟨rfl, rfl⟩
  · exact ⟨rfl, rfl⟩
  · exact ⟨rfl, rfl⟩

theorem after_count {m : Ticking} (move : TickingMove) (id : Nat) (none_ : (m.timers.timer id).expirations = 0) :
    ((m.after move).timers.timer id).expirations = 0 := by
  cases move with
  | interrupt free =>
    rw [Ticking.after, pitHandler_timers.1]
    exact none_
  | settime freq j absolute copies new =>
    cases copies with
    | false => exact none_
    | true =>
      change (update m.timers.timer j ((m.timers.timer j).set freq m.pitTicks absolute new) id).expirations = 0
      by_cases same : id = j
      · subst same
        rw [update_self]
        unfold Timerfd.set
        split
        · exact none_
        · split_ifs <;> exact none_
      · rw [update_of_ne same]
        exact none_
  | read j len copies =>
    change (update m.timers.timer j (timerfdReadAt (m.timers.timer j) len copies).2 id).expirations = 0
    by_cases same : id = j
    · subst same
      rw [update_self]
      unfold timerfdReadAt
      split_ifs
      · exact none_
      · exact none_
    · rw [update_of_ne same]
      exact none_
  | other waits => exact none_

theorem KeepsTicking.monotone (ticking : KeepsTicking m) : Monotone fun n => (m n).pitTicks := by
  refine monotone_nat_of_le_succ fun n => ?_
  obtain ⟨move, same⟩ := ticking.step n
  rw [same]
  cases move with
  | interrupt free =>
    rw [Ticking.after, pitHandler_timers.2]
    exact Nat.le_succ _
  | settime | read | other => exact Nat.le_refl _

theorem KeepsTicking.count (ticking : KeepsTicking m) (n id : Nat) : ((m n).timers.timer id).expirations = 0 := by
  induction n with
  | zero => exact ticking.fresh id
  | succ n ih =>
    obtain ⟨move, same⟩ := ticking.step n
    rw [same]
    exact after_count move id ih

end Ticking

def nobodyWaits : Wait.Waits := ⟨fun _ => true, fun _ => 0, fun _ => 0, fun _ => false, fun _ => 0, Wait.uint64Max⟩

/-- The interrupt fires again and again, and nothing else happens. -/
def onlyTicks (timers : Timerfds) (n : Nat) : Ticking := ⟨n, { nobodyWaits with earliestWake := 0 }, timers⟩

theorem onlyTicks_keeps {timers : Timerfds} (fresh : ∀ id, (timers.timer id).expirations = 0) : KeepsTicking (onlyTicks timers) :=
  ⟨fresh, fun _ => ⟨.interrupt false, rfl⟩, fun ticks => ⟨ticks, Nat.le_refl _⟩⟩

/-- A timer that is armed for tick 8. -/
def armedForEight : Timerfds := (timerfdSettime 100 5 false true (some (thirtyMs, twentyMs)) 7 ⟨fun _ => ⟨0, 0, 0⟩, []⟩).2

end NyonOS.Fd
