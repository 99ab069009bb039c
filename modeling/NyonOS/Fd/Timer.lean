import NyonOS.Abi
import NyonOS.Data.Run

namespace NyonOS.Fd

open Abi List Nat
open Data Function

/-! Timers: `timerfd_settime`, `timerfd_tick` and reads. -/

def u64 (value : Nat) : Nat := value % 2 ^ 64

/-- `struct timerfd`. -/
structure Timerfd where
  periodTicks : Nat
  nextTick : Nat
  expirations : Nat
deriving DecidableEq

/-- All timers, and the list `timerfd_active`. -/
structure Timerfds where
  timer : Nat → Timerfd
  active : List Nat

/-- A time that is not negative, with less than a second of nanoseconds. -/
structure Timespec where
  sec : Nat
  nsec : Nat
  secFits : sec < 2 ^ 63
  nsecFits : nsec < 1000000000

abbrev Timespec.IsZero (t : Timespec) : Prop := t.sec = 0 ∧ t.nsec = 0

def nsToMs (ns : Nat) : Nat := u64 (ns + 999999) / 1000000

section

variable (freq : Nat)

def pitMsToTicks (ms : Nat) : Nat := u64 (u64 (ms * freq) + 999) / 1000

/-- The ticks of a time, as they are computed. -/
def Timespec.ticks (t : Timespec) : Nat :=
  pitMsToTicks freq (nsToMs (u64 (u64 (1000000000 * t.sec) + t.nsec)))

/-- The ticks until the first expiry. -/
def Timespec.valueTicks (t : Timespec) : Nat :=
  let vms := nsToMs (u64 (u64 (1000000000 * t.sec) + t.nsec))
  let vticks := pitMsToTicks freq (if vms = 0 then 1 else vms)
  if vticks = 0 then 1 else vticks

/-- The fields that `timerfd_settime` stores for `it_value` and `it_interval`. -/
def Timerfd.set (now : Nat) (absolute : Bool) (new : Option (Timespec × Timespec)) (tf : Timerfd) : Timerfd :=
  match new with
  | none => { tf with periodTicks := 0, nextTick := 0 }
  | some (value, interval) =>
    if value.IsZero then { tf with periodTicks := 0, nextTick := 0 }
    else { tf with
      nextTick := if absolute then value.valueTicks freq else u64 (now + value.valueTicks freq)
      periodTicks := if interval.IsZero then 0 else interval.ticks freq }

/-- `timerfd_settime`; `copies` says whether the new value can be read and the old one stored. -/
def timerfdSettime (now : Nat) (absolute copies : Bool) (new : Option (Timespec × Timespec)) (id : Nat) (s : Timerfds) :
    Int × Timerfds :=
  if !copies then (efault, s)
  else
    let before := s.timer id
    let after := before.set freq now absolute new
    (0, {
      timer := update s.timer id after
      active := if after.nextTick ≠ 0 ∧ before.nextTick = 0 then id :: s.active
        else if after.nextTick = 0 ∧ before.nextTick ≠ 0 then s.active.erase id
        else s.active })

def Timerfd.Due (now : Nat) (tf : Timerfd) : Prop := tf.nextTick ≠ 0 ∧ tf.nextTick ≤ now

instance decidableDue (now : Nat) (tf : Timerfd) : Decidable (tf.Due now) := inferInstanceAs (Decidable (_ ∧ _))

section

variable (now : Nat)

/-- How often a timer that is due has expired. -/
def Timerfd.hits (tf : Timerfd) : Nat := if tf.periodTicks = 0 then 1 else 1 + (now - tf.nextTick) / tf.periodTicks

/-- A timer that is due. -/
def Timerfd.expire (tf : Timerfd) : Timerfd :=
  if tf.periodTicks = 0 then { tf with nextTick := 0, expirations := u64 (tf.expirations + 1) }
  else
    let hit := u64 (tf.hits now)
    let next := u64 (tf.nextTick + u64 (hit * tf.periodTicks))
    { tf with
      nextTick := if next ≤ now then u64 (now + tf.periodTicks) else next
      expirations := u64 (tf.expirations + hit) }

def Timerfd.tick (tf : Timerfd) : Timerfd := if tf.Due now then tf.expire now else tf

/-- A round of the loop of `timerfd_tick`, which takes the next timer before it works on one. -/
def tickOne (s : Timerfds) (id : Nat) : Timerfds where
  timer := update s.timer id ((s.timer id).tick now)
  active := if (s.timer id).Due now ∧ (s.timer id).periodTicks = 0 then s.active.erase id else s.active

def timerfdTick (s : Timerfds) : Timerfds := s.active.foldl (tickOne now) s

end

/-- `timerfd_read_at`: the result, with what it delivers, and the timer. -/
def timerfdReadAt (tf : Timerfd) (len : Nat) (copies : Bool) : (Int × Nat) × Timerfd :=
  if len < 8 then ((einval, 0), tf)
  else if tf.expirations = 0 then ((eagain, 0), tf)
  else (if copies then (8, tf.expirations) else (efault, 0), { tf with expirations := 0 })

/-! What is asked for. -/

/-- A setting: the tick that its value counts from, and the two times. -/
structure Plan where
  base : Nat
  value : Timespec
  interval : Timespec

def Timespec.ns (t : Timespec) : Nat := 1000000000 * t.sec + t.nsec

/-- A time in ticks, rounded up to milliseconds and again to ticks. -/
def Timespec.exactTicks (t : Timespec) : Nat := ((t.ns + 999999) / 1000000 * freq + 999) / 1000

def Plan.first (p : Plan) : Nat := p.base + p.value.exactTicks freq

def Plan.period (p : Plan) : Nat := if p.interval.IsZero then 0 else p.interval.exactTicks freq

/-- How many of the instants have come by some tick. -/
def Plan.instants (p : Plan) (now : Nat) : Nat :=
  if now < p.first freq then 0
  else if p.period freq = 0 then 1
  else 1 + (now - p.first freq) / p.period freq

/-- The timers with what has been asked for: the last tick, the settings, whether there has been a tick since, how many
instants came under earlier settings, and how many expirations have been handed out. -/
structure Clocked where
  timers : Timerfds
  clock : Nat
  plan : Nat → Option Plan
  ticked : Nat → Bool
  past : Nat → Nat
  handed : Nat → Nat

/-- The instants that have come under a setting, if there has been a tick. -/
def reachedBy (ticked : Bool) (clock : Nat) : Option Plan → Nat
  | none => 0
  | some p => if ticked then p.instants freq clock else 0

def Clocked.reached (c : Clocked) (id : Nat) : Nat := reachedBy freq (c.ticked id) c.clock (c.plan id)

inductive TimerCall
  | settime (id now : Nat) (absolute copies : Bool) (new : Option (Timespec × Timespec))
  | tick (now : Nat)
  | read (id len : Nat) (copies : Bool)

def planOf (now : Nat) (absolute : Bool) : Option (Timespec × Timespec) → Option Plan
  | none => none
  | some (value, interval) => if value.IsZero then none else some ⟨if absolute then 0 else now, value, interval⟩

def Clocked.after (c : Clocked) : TimerCall → Clocked
  | .settime id now absolute copies new =>
    let done := timerfdSettime freq now absolute copies new id c.timers
    if done.1 = 0 then
      { c with
        timers := done.2
        plan := update c.plan id (planOf now absolute new)
        ticked := update c.ticked id false
        past := update c.past id (c.past id + c.reached freq id) }
    else { c with timers := done.2 }
  | .tick now => { c with timers := timerfdTick now c.timers, clock := now, ticked := fun _ => true }
  | .read id len copies =>
    let done := timerfdReadAt (c.timers.timer id) len copies
    { c with
      timers := { c.timers with timer := update c.timers.timer id done.2 }
      handed := update c.handed id (c.handed id + done.1.2) }

def TimerRuns (call : TimerCall) (before after : Clocked) : Prop := after = before.after freq call

/-- A time that no conversion wraps. -/
def Timespec.Fits (t : Timespec) : Prop :=
  t.ns + 999999 < 2 ^ 64 ∧ (t.ns + 999999) / 1000000 * freq + 999 < 2 ^ 64

/-- The ticks do not go back; no number of ticks wraps; what is taken from a timer can be stored. -/
def Unwrapped : TimerCall → Clocked → Prop
  | .settime _ now absolute _ new, _ => ∀ value interval, new = some (value, interval) → ¬ value.IsZero →
      value.Fits freq ∧ (absolute = false → now + value.exactTicks freq < 2 ^ 64) ∧ (¬ interval.IsZero → interval.Fits freq)
  | .tick now, c => c.clock ≤ now ∧ ∀ id, (c.timers.timer id).Due now →
      (now + (c.timers.timer id).periodTicks < 2 ^ 64 ∧ (c.timers.timer id).expirations + (c.timers.timer id).hits now < 2 ^ 64)
  | .read id len copies, c => len < 8 ∨ (c.timers.timer id).expirations = 0 ∨ copies = true

end

/-- What is expected of all timers at any time. -/
structure Punctual (freq : Nat) (c : Clocked) : Prop where
  listed : ∀ id, c.timers.active.count id = if (c.timers.timer id).nextTick ≠ 0 then 1 else 0
  counted : ∀ id, c.handed id + (c.timers.timer id).expirations = c.past id + c.reached freq id
  early : ∀ id p, c.plan id = some p → 1000000000 * c.clock < 1000000000 * p.base + p.value.ns * freq → c.reached freq id = 0
  periodic : ∀ id p, c.plan id = some p → ¬ p.interval.IsZero →
    (c.timers.timer id).nextTick ≠ 0 ∧ (c.timers.timer id).periodTicks ≠ 0

section Times

variable {freq : Nat} {t : Timespec}

theorem ticks_exact (fits : t.Fits freq) : t.ticks freq = t.exactTicks freq := by
  obtain ⟨short, few⟩ := fits
  have seconds : u64 (1000000000 * t.sec) = 1000000000 * t.sec := mod_eq_of_lt (by unfold Timespec.ns at short; omega)
  have ns : u64 (1000000000 * t.sec + t.nsec) = t.ns := mod_eq_of_lt (by unfold Timespec.ns at short; omega)
  unfold Timespec.ticks pitMsToTicks nsToMs Timespec.exactTicks
  rw [seconds, ns]
  unfold u64
  rw [mod_eq_of_lt short]
  generalize (t.ns + 999999) / 1000000 * freq = ticks at few ⊢
  rw [mod_eq_of_lt (by omega : ticks < 2 ^ 64), mod_eq_of_lt few]

theorem exactTicks_pos (runs : 0 < freq) (some_ : ¬ t.IsZero) : 1 ≤ t.exactTicks freq := by
  have positive : 1 ≤ (t.ns + 999999) / 1000000 := by
    unfold Timespec.ns Timespec.IsZero at *
    omega
  have product := Nat.mul_pos positive runs
  unfold Timespec.exactTicks
  generalize (t.ns + 999999) / 1000000 * freq = ticks at product ⊢
  omega

theorem ns_le_exactTicks : t.ns * freq ≤ 1000000000 * t.exactTicks freq := by
  have ms : t.ns ≤ 1000000 * ((t.ns + 999999) / 1000000) := by omega
  have scaled := Nat.mul_le_mul_right freq ms
  unfold Timespec.exactTicks
  rw [Nat.mul_assoc] at scaled
  generalize (t.ns + 999999) / 1000000 * freq = ticks at scaled ⊢
  omega

theorem valueTicks_exact (runs : 0 < freq) (some_ : ¬ t.IsZero) (fits : t.Fits freq) : t.valueTicks freq = t.exactTicks freq := by
  have exact_ := ticks_exact fits
  have positive := exactTicks_pos runs some_
  unfold Timespec.ticks at exact_
  have ms : nsToMs (u64 (u64 (1000000000 * t.sec) + t.nsec)) ≠ 0 := fun zero => by
    rw [zero, pitMsToTicks, Nat.zero_mul] at exact_
    have : (0 : Nat) = t.exactTicks freq := exact_
    omega
  unfold Timespec.valueTicks
  dsimp only
  rw [if_neg ms, exact_, if_neg (by omega)]

end Times

section Instants

variable {freq now k : Nat} {p : Plan}

theorem instants_mono {later : Nat} (order : now ≤ later) : p.instants freq now ≤ p.instants freq later := by
  unfold Plan.instants
  split_ifs with before after_ period beyond
  · exact Nat.le_refl _
  · exact Nat.zero_le _
  · exact Nat.zero_le _
  · omega
  · exact Nat.le_refl _
  · omega
  · exact Nat.add_le_add_left (Nat.div_le_div_right (by omega)) 1

theorem instants_due (periodic : p.period freq ≠ 0) (due : p.first freq + k * p.period freq ≤ now) :
    p.instants freq now = k + (1 + (now - (p.first freq + k * p.period freq)) / p.period freq) := by
  unfold Plan.instants
  rw [if_neg (by omega), if_neg periodic, sub_add_eq, Nat.mul_comm k, sub_mul_div]
  have enough : k ≤ (now - p.first freq) / p.period freq := (Nat.le_div_iff_mul_le (Nat.pos_of_ne_zero periodic)).mpr (by omega)
  omega

theorem instants_waiting (single : p.period freq = 0 → k = 0) (early : now < p.first freq + k * p.period freq)
    (least : k ≤ p.instants freq now) : p.instants freq now = k := by
  unfold Plan.instants at least ⊢
  split_ifs at least ⊢ with before period
  · omega
  · have none_ := single period
    rw [none_, Nat.zero_mul] at early
    omega
  · have less : (now - p.first freq) / p.period freq < k :=
      (Nat.div_lt_iff_lt_mul (Nat.pos_of_ne_zero period)).mpr (by omega)
    omega

end Instants

/-- The state of one timer: how often it is on the list, its fields, its setting, and the counts. -/
structure TimerOk (freq listed : Nat) (tf : Timerfd) (plan : Option Plan) (reached past handed : Nat) : Prop where
  listed : listed = if tf.nextTick ≠ 0 then 1 else 0
  counted : handed + tf.expirations = past + reached
  idle : plan = none → tf.nextTick = 0
  set : ∀ p, plan = some p →
    tf.nextTick ≠ 0 ∧ tf.periodTicks = p.period freq ∧ tf.nextTick = p.first freq + reached * p.period freq ∧
        (p.period freq = 0 → reached = 0) ∨
      tf.nextTick = 0 ∧ p.period freq = 0 ∧ reached = 1

def Clocked.Ok (freq : Nat) (c : Clocked) : Prop :=
  ∀ id, TimerOk freq (c.timers.active.count id) (c.timers.timer id) (c.plan id) (c.reached freq id) (c.past id) (c.handed id)

section Ticks

variable {now : Nat} {ids : List Nat} {s : Timerfds}

theorem tick_timer (distinct : ids.Nodup) (j : Nat) :
    (ids.foldl (tickOne now) s).timer j = if j ∈ ids then (s.timer j).tick now else s.timer j := by
  induction ids generalizing s with
  | nil => rfl
  | cons id rest ih =>
    obtain ⟨fresh, apart⟩ := nodup_cons.mp distinct
    rw [List.foldl_cons, ih apart]
    by_cases same : j = id
    · rw [same, if_neg fresh, if_pos mem_cons_self]
      exact update_self ..
    · have other : (tickOne now s id).timer j = s.timer j := update_of_ne same _ _
      simp only [other, mem_cons, same, false_or]

theorem tick_active (distinct : ids.Nodup) (j : Nat) : (ids.foldl (tickOne now) s).active.count j =
    s.active.count j - if j ∈ ids ∧ (s.timer j).Due now ∧ (s.timer j).periodTicks = 0 then 1 else 0 := by
  induction ids generalizing s with
  | nil => exact (if_neg (fun both : j ∈ [] ∧ _ => nomatch both.1)).symm ▸ rfl
  | cons id rest ih =>
    obtain ⟨fresh, apart⟩ := nodup_cons.mp distinct
    rw [List.foldl_cons, ih apart]
    by_cases same : j = id
    · subst same
      rw [if_neg fun both => fresh both.1, Nat.sub_zero]
      unfold tickOne
      by_cases gone : (s.timer j).Due now ∧ (s.timer j).periodTicks = 0
      · rw [if_pos gone, if_pos ⟨mem_cons_self, gone⟩, count_erase_self]
      · rw [if_neg gone, if_neg fun both => gone both.2]
        rfl
    · have other : (tickOne now s id).timer j = s.timer j := update_of_ne same _ _
      have count : (tickOne now s id).active.count j = s.active.count j := by
        unfold tickOne
        split_ifs
        · exact count_erase_of_ne same
        · rfl
      simp only [other, count, mem_cons, same, false_or]

end Ticks

section Steps

variable {freq listed reached past handed : Nat} {tf : Timerfd} {plan : Option Plan} {now : Nat}

theorem expire_periodic (due : tf.Due now) (periodic : tf.periodTicks ≠ 0) (short : now + tf.periodTicks < 2 ^ 64)
    (few : tf.expirations + tf.hits now < 2 ^ 64) : tf.expire now =
      ⟨tf.periodTicks, tf.nextTick + tf.hits now * tf.periodTicks, tf.expirations + tf.hits now⟩ := by
  have hits : tf.hits now = 1 + (now - tf.nextTick) / tf.periodTicks := if_neg periodic
  have below := div_mul_le_self (now - tf.nextTick) tf.periodTicks
  have above := lt_div_mul_add (a := now - tf.nextTick) (Nat.pos_of_ne_zero periodic)
  have product : tf.hits now * tf.periodTicks = tf.periodTicks + (now - tf.nextTick) / tf.periodTicks * tf.periodTicks := by
    rw [hits, Nat.add_mul, Nat.one_mul]
  have start := due.2
  unfold Timerfd.expire u64
  rw [if_neg periodic]
  dsimp only
  rw [mod_eq_of_lt (by omega : tf.hits now < 2 ^ 64), mod_eq_of_lt (by omega : tf.hits now * tf.periodTicks < 2 ^ 64),
    mod_eq_of_lt (by omega : tf.nextTick + tf.hits now * tf.periodTicks < 2 ^ 64), if_neg (by omega), mod_eq_of_lt few]

theorem TimerOk.tick_set {p : Plan} (ok : TimerOk freq listed tf (some p) reached past handed)
    (least : reached ≤ p.instants freq now)
    (unwrapped : tf.Due now → now + tf.periodTicks < 2 ^ 64 ∧ tf.expirations + tf.hits now < 2 ^ 64) :
    TimerOk freq (listed - if tf.Due now ∧ tf.periodTicks = 0 then 1 else 0) (tf.tick now) (some p) (p.instants freq now) past handed := by
  have counted := ok.counted
  rcases ok.set p rfl with ⟨armed, period, next, single⟩ | ⟨gone, period, once⟩
  · have one := ok.listed
    rw [if_pos armed] at one
    by_cases due : tf.Due now
    · obtain ⟨short, few⟩ := unwrapped due
      rw [Timerfd.tick, if_pos due]
      by_cases last : tf.periodTicks = 0
      · have none_ := single (period ▸ last)
        have come : p.instants freq now = 1 := by
          have arrived := due.2
          rw [next, none_, Nat.zero_mul, Nat.add_zero] at arrived
          rw [Plan.instants, if_neg (Nat.not_lt.mpr arrived), if_pos (period ▸ last)]
        have exact_ : u64 (tf.expirations + 1) = tf.expirations + 1 := mod_eq_of_lt (by
          rw [Timerfd.hits, if_pos last] at few
          exact few)
        rw [if_pos ⟨due, last⟩, Timerfd.expire, if_pos last, come, exact_]
        refine ⟨by rw [one]; rfl, by change handed + (tf.expirations + 1) = past + 1; omega, (fun none_ => nomatch none_), fun _ same => ?_⟩
        cases same
        exact .inr ⟨rfl, period ▸ last, rfl⟩
      · have come := @instants_due freq now reached p (period ▸ last) (next ▸ due.2)
        have hits : tf.hits now = 1 + (now - tf.nextTick) / tf.periodTicks := if_neg last
        rw [← next, ← period, ← hits] at come
        rw [if_neg fun both => last both.2, expire_periodic due last short few, come]
        refine ⟨?_, ?_, (fun none_ => nomatch none_), fun _ same => ?_⟩
        · rw [if_pos (by dsimp only; omega), Nat.sub_zero, one]
        · change handed + (tf.expirations + tf.hits now) = past + (reached + tf.hits now)
          omega
        · cases same
          refine .inl ⟨by dsimp only; omega, period, ?_, fun zero => absurd (period.trans zero) last⟩
          change tf.nextTick + tf.hits now * tf.periodTicks = _
          rw [next, period, Nat.add_mul, Nat.add_assoc]
    · have waiting := instants_waiting single (by rw [← next]; exact Nat.lt_of_not_le fun come => due ⟨armed, come⟩) least
      rw [Timerfd.tick, if_neg due, if_neg fun both => due both.1, waiting]
      exact ok
  · have idle : ¬ tf.Due now := fun due => due.1 gone
    have same : p.instants freq now = reached := by
      have most : p.instants freq now ≤ 1 := by
        rw [Plan.instants, if_pos period]
        split_ifs <;> omega
      omega
    rw [Timerfd.tick, if_neg idle, if_neg fun both => idle both.1, same]
    exact ok

theorem TimerOk.tick_idle (ok : TimerOk freq listed tf none reached past handed) :
    TimerOk freq (listed - if tf.Due now ∧ tf.periodTicks = 0 then 1 else 0) (tf.tick now) none reached past handed := by
  have idle : ¬ tf.Due now := fun due => due.1 (ok.idle rfl)
  rw [Timerfd.tick, if_neg idle, if_neg fun both => idle both.1]
  exact ok

theorem TimerOk.read {len : Nat} {copies : Bool} (ok : TimerOk freq listed tf plan reached past handed)
    (stored : len < 8 ∨ tf.expirations = 0 ∨ copies = true) :
    TimerOk freq listed (timerfdReadAt tf len copies).2 plan reached past (handed + (timerfdReadAt tf len copies).1.2) := by
  unfold timerfdReadAt
  split_ifs with short none_ copied
  · exact ok
  · exact ok
  · exact ⟨ok.listed, ok.counted, ok.idle, ok.set⟩
  · exact absurd stored (by simp [short, none_, copied])

variable {absolute : Bool}

theorem set_exact {value interval : Timespec} (runs : 0 < freq) (some_ : ¬ value.IsZero)
    (fits : value.Fits freq) (short : absolute = false → now + value.exactTicks freq < 2 ^ 64)
    (intervalFits : ¬ interval.IsZero → interval.Fits freq) :
    tf.set freq now absolute (some (value, interval)) =
      ⟨Plan.period freq ⟨if absolute then 0 else now, value, interval⟩, Plan.first freq ⟨if absolute then 0 else now, value, interval⟩,
        tf.expirations⟩ := by
  have period : (if interval.IsZero then 0 else interval.ticks freq) = if interval.IsZero then 0 else interval.exactTicks freq := by
    split_ifs with none_
    · rfl
    · exact ticks_exact (intervalFits none_)
  unfold Timerfd.set Plan.period Plan.first
  dsimp only
  rw [if_neg some_, valueTicks_exact runs some_ fits, period]
  generalize value.exactTicks freq = ticks at short ⊢
  cases absolute with
  | true => rw [if_pos rfl, if_pos rfl, Nat.zero_add]
  | false => rw [if_neg Bool.false_ne_true, if_neg Bool.false_ne_true, u64, mod_eq_of_lt (short rfl)]

theorem first_ne_zero {p : Plan} (runs : 0 < freq) (some_ : ¬ p.value.IsZero) : p.first freq ≠ 0 := by
  have later := exactTicks_pos runs some_
  unfold Plan.first
  omega

theorem TimerOk.set_ok {new : Option (Timespec × Timespec)} (runs : 0 < freq)
    (ok : TimerOk freq listed tf plan reached past handed)
    (unwrapped : ∀ value interval, new = some (value, interval) → ¬ value.IsZero →
      value.Fits freq ∧ (absolute = false → now + value.exactTicks freq < 2 ^ 64) ∧ (¬ interval.IsZero → interval.Fits freq))
    (listed' : Nat) (kept : listed' = if (tf.set freq now absolute new).nextTick ≠ 0 then 1 else 0) :
    TimerOk freq listed' (tf.set freq now absolute new) (planOf now absolute new) 0 (past + reached) handed := by
  have stopped : ∀ tf', tf' = { tf with periodTicks := 0, nextTick := 0 } → (listed' = if tf'.nextTick ≠ 0 then 1 else 0) →
      TimerOk freq listed' tf' none 0 (past + reached) handed := by
    rintro tf' rfl kept
    exact ⟨kept, ok.counted, fun _ => rfl, fun _ same => nomatch same⟩
  cases new with
  | none => exact stopped _ rfl kept
  | some times =>
    obtain ⟨value, interval⟩ := times
    by_cases zero : value.IsZero
    · rw [planOf, if_pos zero]
      exact stopped _ (if_pos zero) kept
    · obtain ⟨fits, short, intervalFits⟩ := unwrapped value interval rfl zero
      rw [set_exact runs zero fits short intervalFits] at kept ⊢
      rw [planOf, if_neg zero]
      refine ⟨kept, ok.counted, (fun none_ => nomatch none_), fun p same => ?_⟩
      rw [← Option.some.inj same]
      refine .inl ⟨first_ne_zero runs zero, rfl, ?_, fun _ => rfl⟩
      dsimp only
      rw [Nat.zero_mul, Nat.add_zero]

end Steps

namespace Clocked

variable {freq : Nat} {c : Clocked}

theorem Ok.distinct (ok : c.Ok freq) : c.timers.active.Nodup := nodup_iff_count_le_one.mpr fun id => by
  rw [(ok id).listed]
  split_ifs
  · exact Nat.le_refl _
  · exact Nat.zero_le _

theorem Ok.tick {now : Nat} (ok : c.Ok freq) (unwrapped : Unwrapped freq (.tick now) c) : (c.after freq (.tick now)).Ok freq := by
  intro id
  obtain ⟨order, short⟩ := unwrapped
  have timer : (timerfdTick now c.timers).timer id = (c.timers.timer id).tick now := by
    rw [timerfdTick, tick_timer ok.distinct]
    split_ifs with active
    · rfl
    · have out := (ok id).listed
      rw [count_eq_zero_of_not_mem active] at out
      rw [Timerfd.tick, if_neg fun due => ?_]
      rw [if_pos due.1] at out
      cases out
  have count : (timerfdTick now c.timers).active.count id = c.timers.active.count id -
      if (c.timers.timer id).Due now ∧ (c.timers.timer id).periodTicks = 0 then 1 else 0 := by
    rw [timerfdTick, tick_active ok.distinct]
    by_cases gone : (c.timers.timer id).Due now ∧ (c.timers.timer id).periodTicks = 0
    · have member : id ∈ c.timers.active := count_pos_iff.mp (by rw [(ok id).listed, if_pos gone.1.1]; exact Nat.one_pos)
      rw [if_pos ⟨member, gone⟩, if_pos gone]
    · rw [if_neg fun both => gone both.2, if_neg gone]
  have before : TimerOk freq _ _ _ (reachedBy freq (c.ticked id) c.clock (c.plan id)) _ _ := ok id
  change TimerOk freq ((timerfdTick now c.timers).active.count id) ((timerfdTick now c.timers).timer id) (c.plan id)
    (reachedBy freq true now (c.plan id)) (c.past id) (c.handed id)
  rw [timer, count]
  generalize c.plan id = plan at before ⊢
  cases plan with
  | none => exact before.tick_idle
  | some p =>
    rw [reachedBy, if_pos rfl]
    refine before.tick_set ?_ (short id)
    unfold reachedBy
    split_ifs
    · exact instants_mono order
    · exact Nat.zero_le _

theorem reachedBy_false {clock : Nat} {plan : Option Plan} : reachedBy freq false clock plan = 0 := by
  cases plan with
  | none => rfl
  | some p => rfl

def listAfter (before after id : Nat) (active : List Nat) : List Nat :=
  if after ≠ 0 ∧ before = 0 then id :: active else if after = 0 ∧ before ≠ 0 then active.erase id else active

variable {active : List Nat}

theorem count_listAfter {before after id : Nat} (once : active.count id = if before ≠ 0 then 1 else 0) :
    (listAfter before after id active).count id = if after ≠ 0 then 1 else 0 := by
  unfold listAfter
  by_cases off : after = 0 <;> by_cases was : before = 0 <;> simp [off, was, once]

theorem count_listAfter_other {before after id j : Nat} (other : j ≠ id) :
    (listAfter before after id active).count j = active.count j := by
  unfold listAfter
  split_ifs
  · exact count_cons_of_ne (Ne.symm other)
  · exact count_erase_of_ne other
  · rfl

theorem Ok.settime {id now : Nat} {absolute copies : Bool} {new : Option (Timespec × Timespec)} (runs : 0 < freq) (ok : c.Ok freq)
    (unwrapped : Unwrapped freq (.settime id now absolute copies new) c) : (c.after freq (.settime id now absolute copies new)).Ok freq := by
  cases copies with
  | false => exact ok
  | true =>
    intro j
    change TimerOk freq ((listAfter _ _ id _).count j) (update c.timers.timer id _ j) (update c.plan id _ j)
      (reachedBy freq (update c.ticked id _ j) _ (update c.plan id _ j)) (update c.past id _ j) _
    by_cases same : j = id
    · subst same
      rw [update_self, update_self, update_self, update_self, reachedBy_false]
      exact (ok j).set_ok runs unwrapped _ (count_listAfter (ok j).listed)
    · rw [update_of_ne same, update_of_ne same, update_of_ne same, update_of_ne same, count_listAfter_other same]
      exact ok j

theorem Ok.read {id len : Nat} {copies : Bool} (ok : c.Ok freq) (stored : Unwrapped freq (.read id len copies) c) :
    (c.after freq (.read id len copies)).Ok freq := by
  intro j
  by_cases same : j = id
  · subst same
    change TimerOk freq _ (update c.timers.timer j _ j) _ _ _ (update c.handed j _ j)
    rw [update_self, update_self]
    exact (ok j).read stored
  · change TimerOk freq _ (update c.timers.timer id _ j) _ _ _ (update c.handed id _ j)
    rw [update_of_ne same, update_of_ne same]
    exact ok j

theorem Ok.punctual (runs : 0 < freq) (ok : c.Ok freq) : Punctual freq c where
  listed id := (ok id).listed
  counted id := (ok id).counted
  early id p set early := by
    have ticks := @ns_le_exactTicks freq p.value
    have before : c.clock < p.first freq := by
      unfold Plan.first
      omega
    rw [reached, set, reachedBy, Plan.instants, if_pos before]
    exact ite_self _
  periodic id p set some_ := by
    have period : p.period freq ≠ 0 := by
      rw [Plan.period, if_neg some_]
      exact Nat.ne_of_gt (exactTicks_pos runs some_)
    rcases (ok id).set p set with ⟨armed, same, -⟩ | ⟨-, single, -⟩
    · exact ⟨armed, same ▸ period⟩
    · exact absurd single period

/-- No timer has been set, and none is on the list. -/
structure Fresh (c : Clocked) : Prop where
  timers : ∀ id, c.timers.timer id = ⟨0, 0, 0⟩
  active : c.timers.active = []
  plan : ∀ id, c.plan id = none
  past : ∀ id, c.past id = 0
  handed : ∀ id, c.handed id = 0

theorem Fresh.ok (fresh : Fresh c) : c.Ok freq := by
  intro id
  rw [reached, fresh.timers, fresh.active, fresh.plan, fresh.past, fresh.handed]
  exact ⟨rfl, rfl, fun _ => rfl, fun _ same => nomatch same⟩

end Clocked

/-- Timers are on the list exactly while they are armed, and expire exactly as often as they should and not too
early, as long as no number of ticks wraps and reads can store what they take. -/
theorem timers_punctual {freq : Nat} {start now : Clocked} (runs : 0 < freq) (fresh : start.Fresh)
    (run : Run (TimerRuns freq) (Unwrapped freq) start now) : Punctual freq now := by
  have ok : now.Ok freq := by
    induction run with
    | start => exact fresh.ok
    | @next call _ _ _ unwrapped step ih =>
      cases step
      cases call with
      | settime id now absolute copies new => exact ih.settime runs unwrapped
      | tick now => exact ih.tick unwrapped
      | read id len copies => exact ih.read unwrapped
  exact ok.punctual runs

/-- No timer is set. -/
def quietClock : Clocked := ⟨⟨fun _ => ⟨0, 0, 0⟩, []⟩, 0, fun _ => none, fun _ => false, fun _ => 0, fun _ => 0⟩

def thirtyMs : Timespec := ⟨0, 30000000, by decide, by decide⟩

def twentyMs : Timespec := ⟨0, 20000000, by decide, by decide⟩

/-- With 100 Hz a timer is set to 30 ms from tick 5 on and every 20 ms, and read after tick 13. -/
def ringing : Clocked :=
  ((quietClock.after 100 (.settime 7 5 false true (some (thirtyMs, twentyMs)))).after 100 (.tick 13)).after 100 (.read 7 8 true)

/-- It has expired at the ticks 8, 10 and 12. -/
theorem timers_punctual_ringing : Punctual 100 ringing ∧ ringing.handed 7 = 3 ∧ ringing.timers.timer 7 = ⟨2, 14, 0⟩ := by
  have set_ : Unwrapped 100 (.settime 7 5 false true (some (thirtyMs, twentyMs))) quietClock := by
    rintro value interval same -
    cases same
    exact ⟨⟨by decide, by decide⟩, fun _ => by decide, fun _ => ⟨by decide, by decide⟩⟩
  have ticked : Unwrapped 100 (.tick 13) (quietClock.after 100 (.settime 7 5 false true (some (thirtyMs, twentyMs)))) := by
    refine ⟨by decide, fun id due => ?_⟩
    by_cases same : id = 7
    · subst same
      exact ⟨by decide, by decide⟩
    · have idle : (quietClock.after 100 (.settime 7 5 false true (some (thirtyMs, twentyMs)))).timers.timer id = ⟨0, 0, 0⟩ :=
        update_of_ne same _ _
      exact absurd (congrArg Timerfd.nextTick idle) due.1
  have read : Unwrapped 100 (.read 7 8 true)
      ((quietClock.after 100 (.settime 7 5 false true (some (thirtyMs, twentyMs)))).after 100 (.tick 13)) := .inr (.inr rfl)
  have run : Run (TimerRuns 100) (Unwrapped 100) quietClock ringing :=
    ((Run.start.next set_ rfl).next ticked rfl).next read rfl
  exact ⟨timers_punctual (by decide) ⟨fun _ => rfl, rfl, fun _ => rfl, fun _ => rfl, fun _ => rfl⟩ run, by decide, by decide⟩

/-- 2 ^ 55 seconds are no nanoseconds in 64 bits. -/
def ages : Timespec := ⟨2 ^ 55, 0, by decide, by decide⟩

/-- A timer of 2 ^ 55 seconds expires after a tick, and one with that interval is a one-shot. -/
theorem ages_expire_at_once :
    let once := (quietClock.after 100 (.settime 7 5 false true (some (ages, ages)))).after 100 (.tick 6)
    (once.timers.timer 7 = ⟨0, 0, 1⟩ ∧ once.reached 100 7 = 0) ∧ ¬ Punctual 100 once := by
  have fields : let once := (quietClock.after 100 (.settime 7 5 false true (some (ages, ages)))).after 100 (.tick 6)
      once.timers.timer 7 = ⟨0, 0, 1⟩ ∧ once.reached 100 7 = 0 := by decide +kernel
  refine ⟨fields, fun punctual => ?_⟩
  have counted := punctual.counted 7
  rw [fields.1, fields.2] at counted
  revert counted
  decide +kernel

end NyonOS.Fd
