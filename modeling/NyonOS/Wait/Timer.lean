import NyonOS.Data.Run
import NyonOS.Wait.Channel

namespace NyonOS.Wait

open Abi List
open Data Function

/-! Waits with a deadline and the timer tick. A section under `sched_lock` is one step, but
for the accesses to the earliest wake-up, which the tick stores without the lock. -/

def uint64Max : Nat := 0xFFFFFFFFFFFFFFFF

/-- One round of the loop of `task_tick`; the second component is `next`. -/
def tickOne (now : Nat) (done : Waits × Nat) (i : Nat) : Waits × Nat :=
  if !done.1.inUse i ∨ !done.1.blocked i ∨ done.1.wakeTick i = 0 then done
  else if done.1.wakeTick i ≤ now then ((done.1.bumpGen i).unblock i, done.2)
  else if done.1.wakeTick i < done.2 then (done.1, done.1.wakeTick i)
  else done

def tickSection (now : Nat) (w : Waits) : Waits × Nat := (range taskMax).foldl (tickOne now) (w, uint64Max)

/-- Where a task is in `task_wait` or `task_futex_wait`. -/
inductive TimedPc
  | out
  | seen (futex : Bool) (chan : Chan) (deadline : Nat)
  | enter (futex : Bool) (chan : Chan) (deadline : Nat) (gen : BitVec 64)
  | load (futex : Bool) (deadline : Nat) (gen : BitVec 64)
  | lower (futex : Bool) (deadline : Nat) (gen : BitVec 64)
  | block (futex : Bool) (gen : BitVec 64)
  | check (futex : Bool) (gen : BitVec 64)
  | clear (futex : Bool)
  | read
  | withdraw (fault : Bool)
  | sleep
  | leave

/-- Where a processor is in `task_tick`. -/
inductive TickPc
  | idle
  | obtain (now : Nat)
  | store (next : Nat)

structure Timers where
  waits : Waits
  lock : Option Nat
  pc : Nat → TimedPc
  tick : Nat → TickPc

inductive TimerMove
  | wait (t : Nat) (futex : Bool) (chan : Chan) (deadline : Nat)
  | go (t : Nat)
  | value (t : Nat) (fault : Bool)
  | wake (i : Nat)
  | tick (cpu now : Nat)
  | skip (cpu : Nat)
  | obtain (cpu : Nat)
  | store (cpu : Nat)

namespace Timers

variable (s : Timers)

def goto (t : Nat) (pc : TimedPc) : Timers := { s with pc := update s.pc t pc }

def setTick (cpu : Nat) (pc : TickPc) : Timers := { s with tick := update s.tick cpu pc }

/-- The first part of the section, up to the test of the deadline. -/
def enter (t : Nat) (chan : Chan) (deadline : Nat) : Timers :=
  { s with
    lock := some t
    waits := { s.waits with
      waitChan := update s.waits.waitChan t chan
      wakeTick := update s.waits.wakeTick t deadline } }

/-- The next step of a task; a word of a futex that is read is as expected here. -/
def go (t : Nat) : Option Timers :=
  match s.pc t with
  | .out => none
  | .seen futex chan deadline => some (s.goto t (.enter futex chan deadline (s.waits.wakeGen t)))
  | .enter futex chan deadline gen =>
    if s.lock ≠ none then none
    else some ((s.enter t chan deadline).goto t (if deadline ≠ 0 then .load futex deadline gen else .block futex gen))
  | .load futex deadline gen =>
    some (s.goto t (if deadline < s.waits.earliestWake then .lower futex deadline gen else .block futex gen))
  | .lower futex deadline gen => some ({ s with waits := { s.waits with earliestWake := deadline } }.goto t (.block futex gen))
  | .block futex gen =>
    some ({ s with
      lock := none
      waits := { s.waits with blocked := update s.waits.blocked t true } }.goto t (.check futex gen))
  | .check futex gen =>
    some (s.goto t (if s.waits.wakeGen t ≠ gen then .clear futex else if futex then .read else .sleep))
  | .clear futex => some ({ s with waits := s.waits.unblock t }.goto t (if futex then .read else .sleep))
  | .read => some (s.goto t .sleep)
  | .withdraw fault =>
    if s.lock ≠ none then none
    else some ({ s with waits := { s.waits with
      blocked := update s.waits.blocked t false
      waitChan := update s.waits.waitChan t 0
      wakeTick := if fault then s.waits.wakeTick else update s.waits.wakeTick t 0 } }.goto t .out)
  | .sleep => if s.waits.blocked t then none else some (s.goto t .leave)
  | .leave => some ({ s with waits := s.waits.leave t }.goto t .out)

end Timers

inductive TimerStep : TimerMove → Timers → Timers → Prop
  | wait {s : Timers} {t : Nat} {futex : Bool} {chan : Chan} {deadline : Nat} (idle : s.pc t = .out) :
      TimerStep (.wait t futex chan deadline) s (s.goto t (.seen futex chan deadline))
  | go {s s' : Timers} {t : Nat} (goes : s.go t = some s') : TimerStep (.go t) s s'
  /-- The word cannot be read, or is not as expected. -/
  | value {s : Timers} {t : Nat} {fault : Bool} (here : s.pc t = .read) : TimerStep (.value t fault) s (s.goto t (.withdraw fault))
  | wake {s : Timers} {i : Nat} : TimerStep (.wake i) s { s with waits := (s.waits.bumpGen i).unblock i }
  | tick {s : Timers} {cpu now : Nat} (idle : s.tick cpu = .idle) :
      TimerStep (.tick cpu now) s (s.setTick cpu (if now < s.waits.earliestWake then .idle else .obtain now))
  /-- Preemption is off, or the lock is taken. -/
  | skip {s : Timers} {cpu now : Nat} (here : s.tick cpu = .obtain now) : TimerStep (.skip cpu) s (s.setTick cpu .idle)
  | obtain {s : Timers} {cpu now : Nat} (here : s.tick cpu = .obtain now) (free : s.lock = none) :
      TimerStep (.obtain cpu) s
        ({ s with waits := (tickSection now s.waits).1 }.setTick cpu (.store (tickSection now s.waits).2))
  | store {s : Timers} {cpu next : Nat} (here : s.tick cpu = .store next) :
      TimerStep (.store cpu) s ({ s with waits := { s.waits with earliestWake := next } }.setTick cpu .idle)

/-- The kernel before anybody waits. -/
structure TimersStart (s : Timers) : Prop where
  lock : s.lock = none
  out : ∀ t, s.pc t = .out
  idle : ∀ cpu, s.tick cpu = .idle
  free : ∀ i, s.waits.blocked i = false

/-- A blocked task that has a deadline. -/
structure Timed (s : Timers) (i : Nat) : Prop where
  inside : i < taskMax
  alive : s.waits.inUse i = true
  blocked : s.waits.blocked i = true
  deadline : s.waits.wakeTick i ≠ 0

/-- No deadline is missed. -/
structure Punctual (s : Timers) : Prop where
  earliest : (∀ cpu, s.tick cpu = .idle) → ∀ {i}, Timed s i → s.waits.earliestWake ≤ s.waits.wakeTick i
  tries : ∀ {i cpu now s'}, Timed s i → s.waits.wakeTick i ≤ now → TimerStep (.tick cpu now) s s' → s'.tick cpu = .obtain now
  releases : ∀ {i cpu now s'}, Timed s i → s.tick cpu = .obtain now → s.waits.wakeTick i ≤ now →
    TimerStep (.obtain cpu) s s' → s'.waits.blocked i = false

/-- A task with a deadline enters its section when no tick is about to store. -/
def EntersApart : TimerMove → Timers → Prop
  | .go t, s => ∀ futex chan deadline gen, s.pc t = .enter futex chan deadline gen → deadline ≠ 0 →
      ∀ cpu next, s.tick cpu ≠ .store next
  | _, _ => True

section Sections

variable {now i : Nat} {w : Waits}

/-- The loop of `task_tick` so far: what is behind it is either not due or released. -/
structure Swept (now : Nat) (before : Waits) (tasks : List Nat) (done : Waits × Nat) : Prop where
  same : done.1.inUse = before.inUse ∧ done.1.wakeTick = before.wakeTick ∧ done.1.earliestWake = before.earliestWake
  blocked : ∀ {i}, done.1.blocked i = true → before.blocked i = true
  later : ∀ {i}, i ∈ tasks → before.inUse i = true → done.1.blocked i = true → before.wakeTick i ≠ 0 →
    now < before.wakeTick i ∧ done.2 ≤ before.wakeTick i

variable {tasks : List Nat} {done : Waits × Nat}

theorem Swept.one (swept : Swept now w tasks done) : Swept now w (tasks ++ [i]) (tickOne now done i) := by
  obtain ⟨inUse, wakeTick, earliest⟩ := swept.same
  have split_mem : ∀ {j}, j ∈ tasks ++ [i] → j ∈ tasks ∨ j = i := by
    intro j member
    simpa using member
  unfold tickOne
  split
  · rename_i passed
    refine ⟨swept.same, swept.blocked, fun {j} member alive blocked deadline => ?_⟩
    rcases split_mem member with earlier | rfl
    · exact swept.later earlier alive blocked deadline
    · rw [inUse, wakeTick, alive, blocked] at passed
      simp [deadline] at passed
  · split
    · rename_i due
      refine ⟨⟨inUse, wakeTick, earliest⟩, fun {j} blocked => ?_, fun {j} member alive blocked deadline => ?_⟩
      all_goals
        change update done.1.blocked i false j = true at blocked
        rw [update_apply] at blocked
        split at blocked
        · cases blocked
      · exact swept.blocked blocked
      · rename_i other
        rcases split_mem member with earlier | rfl
        · exact swept.later earlier alive blocked deadline
        · exact absurd rfl other
    · rename_i notDue
      rw [wakeTick] at notDue
      split
      · rename_i sooner
        refine ⟨swept.same, swept.blocked, fun {j} member alive blocked deadline => ?_⟩
        rw [wakeTick] at sooner ⊢
        rcases split_mem member with earlier | rfl
        · have before := swept.later earlier alive blocked deadline
          dsimp only
          omega
        · dsimp only
          omega
      · rename_i notSooner
        rw [wakeTick] at notSooner
        refine ⟨swept.same, swept.blocked, fun {j} member alive blocked deadline => ?_⟩
        rcases split_mem member with earlier | rfl
        · exact swept.later earlier alive blocked deadline
        · omega

theorem Swept.fold {rest : List Nat} (swept : Swept now w tasks done) :
    Swept now w (tasks ++ rest) (rest.foldl (tickOne now) done) := by
  induction rest generalizing tasks done with
  | nil => rwa [append_nil]
  | cons first rest ih =>
    have further := ih (swept.one (i := first))
    rwa [append_assoc] at further

theorem Swept.releases (swept : Swept now w tasks done) (member : i ∈ tasks)
    (alive : w.inUse i = true) (deadline : w.wakeTick i ≠ 0) (due : w.wakeTick i ≤ now) : done.1.blocked i = false := by
  by_contra still
  have blocked : done.1.blocked i = true := by simpa using still
  have later := (swept.later member alive blocked deadline).1
  omega

theorem tickSection_swept : Swept now w (range taskMax) (tickSection now w) :=
  (⟨⟨rfl, rfl, rfl⟩, fun blocked => blocked, fun member => nomatch member⟩ : Swept now w [] (w, uint64Max)).fold

end Sections

def TimedPc.inSection : TimedPc → Bool
  | load _ _ _ => true
  | lower _ _ _ => true
  | block _ _ => true
  | _ => false

def TimedPc.awake : TimedPc → Bool
  | out => true
  | seen _ _ _ => true
  | enter _ _ _ _ => true
  | load _ _ _ => true
  | lower _ _ _ => true
  | block _ _ => true
  | leave => true
  | _ => false

def TimedPc.Knows (pc : TimedPc) (deadline earliest : Nat) : Prop :=
  match pc with
  | load _ d _ => deadline = d ∧ d ≠ 0
  | lower _ d _ => deadline = d ∧ d ≠ 0 ∧ d < earliest
  | block _ _ => deadline ≠ 0 → earliest ≤ deadline
  | _ => True

/-- The earliest wake-up is never too late, and neither is a value that a tick is about to
store. While a task with a deadline is in its section, no tick is. -/
structure OnTime (s : Timers) : Prop where
  locked : ∀ {t}, (s.pc t).inSection = true → s.lock = some t
  quiet : ∀ {t}, (s.pc t).inSection = true → s.waits.wakeTick t ≠ 0 → ∀ cpu next, s.tick cpu ≠ .store next
  free : ∀ {t}, (s.pc t).awake = true → s.waits.blocked t = false
  knows : ∀ t, (s.pc t).Knows (s.waits.wakeTick t) s.waits.earliestWake
  due : ∀ {i}, Timed s i → s.waits.earliestWake ≤ s.waits.wakeTick i
  stores : ∀ {i cpu next}, Timed s i → s.tick cpu = .store next → next ≤ s.waits.wakeTick i

namespace OnTime

variable {s s' : Timers} {t cpu : Nat} {pc : TimedPc}

theorem start (start : TimersStart s) : OnTime s where
  locked here := by
    rw [start.out] at here
    cases here
  quiet here := by
    rw [start.out] at here
    cases here
  free _ := start.free _
  knows t := by
    rw [start.out]
    trivial
  due timed := nomatch (start.free _).symm.trans timed.blocked
  stores timed := nomatch (start.free _).symm.trans timed.blocked

theorem places (holds : Nat → TimedPc → Prop) (others : ∀ other, holds other (s.pc other)) (own : holds t pc) (other : Nat) :
    holds other ((s.goto t pc).pc other) := by
  change holds other (update s.pc t pc other)
  by_cases here : other = t
  · subst here
    rw [update_self]
    exact own
  · rw [update_of_ne here]
    exact others other

theorem goto (onTime : OnTime s) (outside : pc.inSection = false)
    (free : pc.awake = true → s.waits.blocked t = false) : OnTime (s.goto t pc) where
  locked {other} := places (fun other pc => pc.inSection = true → s.lock = some other)
    (fun _ here => onTime.locked here) (fun here => nomatch outside.symm.trans here) other
  quiet {other} := places (fun other pc => pc.inSection = true → s.waits.wakeTick other ≠ 0 → _)
    (fun _ here => onTime.quiet here) (fun here => nomatch outside.symm.trans here) other
  free {other} := places (fun other pc => pc.awake = true → s.waits.blocked other = false)
    (fun _ here => onTime.free here) free other
  knows other := by
    refine places (fun other pc => pc.Knows (s.waits.wakeTick other) s.waits.earliestWake) onTime.knows ?_ other
    cases pc with
    | load | lower | block => cases outside
    | _ => trivial
  due timed := onTime.due ⟨timed.inside, timed.alive, timed.blocked, timed.deadline⟩
  stores timed := onTime.stores ⟨timed.inside, timed.alive, timed.blocked, timed.deadline⟩

theorem relax {waits : Waits} (onTime : OnTime s) (inUse : waits.inUse = s.waits.inUse)
    (earliest : waits.earliestWake = s.waits.earliestWake)
    (blocked : ∀ i, waits.blocked i = true → s.waits.blocked i = true)
    (ticks : ∀ i, waits.wakeTick i = s.waits.wakeTick i ∨ waits.wakeTick i = 0 ∧ (s.pc i).inSection = false) :
    OnTime { s with waits := waits } := by
  have before : ∀ {i}, Timed { s with waits := waits } i → Timed s i ∧ waits.wakeTick i = s.waits.wakeTick i := by
    intro i timed
    rcases ticks i with same | ⟨gone, -⟩
    · exact ⟨⟨timed.inside, (congrFun inUse i).symm.trans timed.alive, blocked i timed.blocked,
        fun zero => timed.deadline (same.trans zero)⟩, same⟩
    · exact absurd gone timed.deadline
  have own : ∀ {i}, (s.pc i).inSection = true → waits.wakeTick i = s.waits.wakeTick i := by
    intro i here
    rcases ticks i with same | ⟨-, outside⟩
    · exact same
    · exact nomatch outside.symm.trans here
  refine ⟨onTime.locked, fun here some_ => ?_, fun {i} here => ?_, fun i => ?_, fun {i} timed => ?_, fun {i cpu next} timed store => ?_⟩
  · change waits.wakeTick _ ≠ 0 at some_
    rw [own here] at some_
    exact onTime.quiet here some_
  · change waits.blocked i = false
    by_contra still
    have was := blocked i (by simpa using still)
    exact nomatch (onTime.free here).symm.trans was
  · change (s.pc i).Knows (waits.wakeTick i) waits.earliestWake
    rw [earliest]
    have knows := onTime.knows i
    cases here : s.pc i with
    | load | lower | block =>
      rw [own (by rw [here]; rfl), ← here]
      exact knows
    | _ => trivial
  · obtain ⟨was, same⟩ := before timed
    change waits.earliestWake ≤ waits.wakeTick i
    rw [earliest, same]
    exact onTime.due was
  · obtain ⟨was, same⟩ := before timed
    change _ ≤ waits.wakeTick i
    rw [same]
    exact onTime.stores was store

theorem released {blocked : Nat → Bool} {i : Nat} (still : update blocked t false i = true) : blocked i = true := by
  by_cases same : i = t
  · subst same
    rw [update_self] at still
    cases still
  · rwa [update_of_ne same] at still

theorem cleared (outside : (s.pc t).inSection = false) (i : Nat) : update s.waits.wakeTick t 0 i = s.waits.wakeTick i ∨
      update s.waits.wakeTick t 0 i = 0 ∧ (s.pc i).inSection = false := by
  by_cases same : i = t
  · subst same
    exact .inr ⟨update_self .., outside⟩
  · exact .inl (update_of_ne same ..)

theorem unblock (onTime : OnTime s) (t : Nat) : OnTime { s with waits := s.waits.unblock t } :=
  onTime.relax rfl rfl (fun _ still => released still) fun _ => .inl rfl

variable {gen : BitVec 64}

section

variable (onTime : OnTime s)
include onTime

theorem enter {futex : Bool} {chan : Chan} {deadline : Nat}
    (here : s.pc t = .enter futex chan deadline gen) (apart : deadline ≠ 0 → ∀ cpu next, s.tick cpu ≠ .store next)
    (lock : s.lock = none) :
    OnTime ((s.enter t chan deadline).goto t (if deadline ≠ 0 then .load futex deadline gen else .block futex gen)) := by
  have running : s.waits.blocked t = false := onTime.free (by rw [here]; rfl)
  have nobody : ∀ other, (s.pc other).inSection = false := by
    intro other
    by_contra inside
    exact nomatch lock.symm.trans (onTime.locked (by simpa using inside))
  have before : ∀ {i}, Timed ((s.enter t chan deadline).goto t (if deadline ≠ 0 then .load futex deadline gen else .block futex gen)) i →
      Timed s i ∧ update s.waits.wakeTick t deadline i = s.waits.wakeTick i := by
    intro i timed
    have differ : i ≠ t := by
      rintro rfl
      exact nomatch running.symm.trans timed.blocked
    have same : update s.waits.wakeTick t deadline i = s.waits.wakeTick i := update_of_ne differ ..
    exact ⟨⟨timed.inside, timed.alive, timed.blocked, fun zero => timed.deadline (same.trans zero)⟩, same⟩
  have own : update s.waits.wakeTick t deadline t = deadline := update_self ..
  refine ⟨fun {other} => ?_, fun {other} => ?_, fun {other} => ?_, fun other => ?_, fun {i} timed => ?_,
    fun {i cpu next} timed store => ?_⟩
  · refine places (s := s.enter t chan deadline) (fun other pc => pc.inSection = true → some t = some other)
      (fun other here => nomatch (nobody other).symm.trans here) (fun _ => rfl) other
  · refine places (s := s.enter t chan deadline) (fun other pc => pc.inSection = true →
      update s.waits.wakeTick t deadline other ≠ 0 → ∀ cpu next, s.tick cpu ≠ .store next)
      (fun other here => nomatch (nobody other).symm.trans here) (fun _ some_ => ?_) other
    rw [own] at some_
    exact apart some_
  · exact places (s := s.enter t chan deadline) (fun other pc => pc.awake = true → s.waits.blocked other = false)
      (fun _ here => onTime.free here) (fun _ => running) other
  · refine places (s := s.enter t chan deadline) (fun other pc =>
      pc.Knows (update s.waits.wakeTick t deadline other) s.waits.earliestWake) (fun other => ?_) ?_ other
    · have outside := nobody other
      change (s.pc other).Knows _ _
      cases at_ : s.pc other with
      | load | lower | block => rw [at_] at outside; cases outside
      | _ => trivial
    · rw [own]
      split
      · rename_i some_
        exact ⟨rfl, some_⟩
      · rename_i none_
        exact fun some_ => absurd some_ none_
  · obtain ⟨was, same⟩ := before timed
    change s.waits.earliestWake ≤ update s.waits.wakeTick t deadline i
    rw [same]
    exact onTime.due was
  · obtain ⟨was, same⟩ := before timed
    change next ≤ update s.waits.wakeTick t deadline i
    rw [same]
    exact onTime.stores was store

theorem inside (before : (s.pc t).inSection = true)
    (knows : pc.Knows (s.waits.wakeTick t) s.waits.earliestWake) : OnTime (s.goto t pc) := by
  have running : s.waits.blocked t = false := by
    refine onTime.free ?_
    cases here : s.pc t with
    | load | lower | block => rfl
    | _ => rw [here] at before; cases before
  exact {
    locked := fun {other} => places (fun other pc => pc.inSection = true → s.lock = some other)
      (fun _ here => onTime.locked here) (fun _ => onTime.locked before) other
    quiet := fun {other} => places (fun other pc => pc.inSection = true → s.waits.wakeTick other ≠ 0 →
        ∀ cpu next, s.tick cpu ≠ .store next)
      (fun _ here => onTime.quiet here) (fun _ => onTime.quiet before) other
    free := fun {other} => places (fun other pc => pc.awake = true → s.waits.blocked other = false)
      (fun _ here => onTime.free here) (fun _ => running) other
    knows := fun other => places (fun other pc => pc.Knows (s.waits.wakeTick other) s.waits.earliestWake) onTime.knows knows other
    due := fun timed => onTime.due ⟨timed.inside, timed.alive, timed.blocked, timed.deadline⟩
    stores := fun timed => onTime.stores ⟨timed.inside, timed.alive, timed.blocked, timed.deadline⟩ }

theorem alone {other : Nat} (here : (s.pc t).inSection = true) (there : (s.pc other).inSection = true) :
    other = t := Option.some.inj ((onTime.locked there).symm.trans (onTime.locked here))

theorem lower {futex : Bool} {deadline : Nat} (here : s.pc t = .lower futex deadline gen) :
    OnTime ({ s with waits := { s.waits with earliestWake := deadline } }.goto t (.block futex gen)) := by
  have inside : (s.pc t).inSection = true := by rw [here]; rfl
  have known := onTime.knows t
  rw [here] at known
  obtain ⟨own, -, less⟩ := known
  have running : s.waits.blocked t = false := onTime.free (by rw [here]; rfl)
  refine ⟨fun {other} => ?_, fun {other} => ?_, fun {other} => ?_, fun other => ?_, fun {i} timed => ?_,
    fun {i cpu next} timed store => ?_⟩
  · exact places (fun other pc => pc.inSection = true → s.lock = some other) (fun _ here => onTime.locked here)
      (fun _ => onTime.locked inside) other
  · exact places (fun other pc => pc.inSection = true → s.waits.wakeTick other ≠ 0 → ∀ cpu next, s.tick cpu ≠ .store next)
      (fun _ here => onTime.quiet here) (fun _ => onTime.quiet inside) other
  · exact places (fun other pc => pc.awake = true → s.waits.blocked other = false) (fun _ here => onTime.free here)
      (fun _ => running) other
  · change (update s.pc t _ other).Knows (s.waits.wakeTick other) deadline
    by_cases same : other = t
    · subst same
      rw [update_self, own]
      exact fun _ => Nat.le_refl deadline
    · rw [update_of_ne same]
      cases at_ : s.pc other with
      | load | lower | block => exact absurd (onTime.alone inside (by rw [at_]; rfl)) same
      | _ => trivial
  · have before := onTime.due ⟨timed.inside, timed.alive, timed.blocked, timed.deadline⟩
    change deadline ≤ s.waits.wakeTick i
    omega
  · exact onTime.stores ⟨timed.inside, timed.alive, timed.blocked, timed.deadline⟩ store

theorem block {futex : Bool} {gen : BitVec 64} (here : s.pc t = .block futex gen) :
    OnTime ({ s with
      lock := none
      waits := { s.waits with blocked := update s.waits.blocked t true } }.goto t (.check futex gen)) := by
  have inside : (s.pc t).inSection = true := by rw [here]; rfl
  have known := onTime.knows t
  rw [here] at known
  have others : ∀ {other}, other ≠ t → (s.pc other).inSection = false := by
    intro other differ
    by_contra there
    exact differ (onTime.alone inside (by simpa using there))
  have before : ∀ {i}, i ≠ t → update s.waits.blocked t true i = true → s.waits.blocked i = true := by
    intro i differ blocked
    rwa [update_of_ne differ] at blocked
  refine ⟨fun {other} there => ?_, fun {other} there => ?_, fun {other} there => ?_, fun other => ?_, fun {i} timed => ?_,
    fun {i cpu next} timed store => ?_⟩
  · change (update s.pc t _ other).inSection = true at there
    by_cases same : other = t
    · subst same
      rw [update_self] at there
      cases there
    · rw [update_of_ne same, others same] at there
      cases there
  · change (update s.pc t _ other).inSection = true at there
    by_cases same : other = t
    · subst same
      rw [update_self] at there
      cases there
    · rw [update_of_ne same, others same] at there
      cases there
  · change (update s.pc t _ other).awake = true at there
    change update s.waits.blocked t true other = false
    by_cases same : other = t
    · subst same
      rw [update_self] at there
      cases there
    · rw [update_of_ne same] at there ⊢
      exact onTime.free there
  · change (update s.pc t _ other).Knows (s.waits.wakeTick other) s.waits.earliestWake
    by_cases same : other = t
    · subst same
      rw [update_self]
      trivial
    · rw [update_of_ne same]
      exact onTime.knows other
  · by_cases same : i = t
    · subst same
      exact known timed.deadline
    · exact onTime.due ⟨timed.inside, timed.alive, before same timed.blocked, timed.deadline⟩
  · by_cases same : i = t
    · subst same
      exact absurd store (onTime.quiet inside timed.deadline cpu next)
    · exact onTime.stores ⟨timed.inside, timed.alive, before same timed.blocked, timed.deadline⟩ store

theorem setTick {pc : TickPc} (silent : ∀ next, pc ≠ .store next) : OnTime (s.setTick cpu pc) := by
  have before : ∀ {other next}, (s.setTick cpu pc).tick other = .store next → s.tick other = .store next := by
    intro other next store
    change update s.tick cpu pc other = _ at store
    by_cases same : other = cpu
    · subst same
      rw [update_self] at store
      exact absurd store (silent next)
    · rwa [update_of_ne same] at store
  exact {
    locked := onTime.locked
    quiet := fun here some_ other next store => onTime.quiet here some_ other next (before store)
    free := onTime.free
    knows := onTime.knows
    due := fun timed => onTime.due ⟨timed.inside, timed.alive, timed.blocked, timed.deadline⟩
    stores := fun timed store => onTime.stores ⟨timed.inside, timed.alive, timed.blocked, timed.deadline⟩ (before store) }

theorem obtain {now : Nat} {done : Waits × Nat} (lock : s.lock = none)
    (swept : Swept now s.waits (range taskMax) done) :
    OnTime ({ s with waits := done.1 }.setTick cpu (.store done.2)) := by
  obtain ⟨inUse, wakeTick, earliest⟩ := swept.same
  have relaxed : OnTime { s with waits := done.1 } :=
    onTime.relax inUse earliest (fun i blocked => swept.blocked blocked) fun i => .inl (congrFun wakeTick i)
  refine ⟨relaxed.locked, fun here => ?_, relaxed.free, relaxed.knows, fun timed => ?_, fun {i other next} timed store => ?_⟩
  · exact nomatch lock.symm.trans (relaxed.locked here)
  · exact relaxed.due ⟨timed.inside, timed.alive, timed.blocked, timed.deadline⟩
  · change update s.tick cpu _ other = _ at store
    by_cases same : other = cpu
    · subst same
      rw [update_self] at store
      cases store
      have alive : s.waits.inUse i = true := (congrFun inUse i).symm.trans timed.alive
      have deadline : s.waits.wakeTick i ≠ 0 := fun zero => timed.deadline ((congrFun wakeTick i).trans zero)
      have later := (swept.later (mem_range.mpr timed.inside) alive timed.blocked deadline).2
      exact later.trans (congrFun wakeTick i).symm.le
    · rw [update_of_ne same] at store
      exact relaxed.stores ⟨timed.inside, timed.alive, timed.blocked, timed.deadline⟩ store

theorem store {next : Nat} (here : s.tick cpu = .store next) :
    OnTime ({ s with waits := { s.waits with earliestWake := next } }.setTick cpu .idle) := by
  have stored : OnTime { s with waits := { s.waits with earliestWake := next } } := {
    locked := onTime.locked
    quiet := onTime.quiet
    free := onTime.free
    knows := by
      intro t
      change (s.pc t).Knows (s.waits.wakeTick t) next
      have known := onTime.knows t
      cases at_ : s.pc t with
      | load futex deadline gen =>
        rw [at_] at known
        exact known
      | lower futex deadline gen =>
        rw [at_] at known
        have some_ : s.waits.wakeTick t ≠ 0 := known.1 ▸ known.2.1
        exact absurd here (onTime.quiet (by rw [at_]; rfl) some_ cpu next)
      | block futex gen => exact fun some_ => absurd here (onTime.quiet (by rw [at_]; rfl) some_ cpu next)
      | _ => trivial
    due := fun timed => onTime.stores ⟨timed.inside, timed.alive, timed.blocked, timed.deadline⟩ here
    stores := fun timed => onTime.stores ⟨timed.inside, timed.alive, timed.blocked, timed.deadline⟩ }
  exact stored.setTick nofun

theorem go (apart : EntersApart (.go t) s) (goes : s.go t = some s') : OnTime s' := by
  unfold Timers.go at goes
  cases here : s.pc t with
  | out =>
    rw [here] at goes
    cases goes
  | seen futex chan deadline =>
    rw [here] at goes
    cases goes
    exact onTime.goto rfl fun _ => onTime.free (by rw [here]; rfl)
  | enter futex chan deadline gen =>
    rw [here] at goes
    dsimp only at goes
    split at goes
    · cases goes
    · rename_i lock
      cases goes
      exact onTime.enter here (apart futex chan deadline gen here) (not_not.mp lock)
  | load futex deadline gen =>
    rw [here] at goes
    cases goes
    have known := onTime.knows t
    rw [here] at known
    refine onTime.inside (by rw [here]; rfl) ?_
    split
    · rename_i less
      exact ⟨known.1, known.2, less⟩
    · rename_i least
      exact fun _ => (Nat.le_of_not_lt least).trans known.1.symm.le
  | lower futex deadline gen =>
    rw [here] at goes
    cases goes
    exact onTime.lower here
  | block futex gen =>
    rw [here] at goes
    cases goes
    exact onTime.block here
  | check futex gen =>
    rw [here] at goes
    cases goes
    refine onTime.goto ?_ ?_
    · repeat (first | rfl | split)
    · intro awake
      split at awake
      · cases awake
      · split at awake <;> cases awake
  | clear futex =>
    rw [here] at goes
    cases goes
    refine (onTime.unblock t).goto ?_ ?_
    · split <;> rfl
    · intro awake
      split at awake <;> cases awake
  | read =>
    rw [here] at goes
    cases goes
    exact onTime.goto rfl nofun
  | withdraw fault =>
    rw [here] at goes
    dsimp only at goes
    split at goes
    · cases goes
    · cases goes
      have outside : (s.pc t).inSection = false := by rw [here]; rfl
      have relaxed : OnTime { s with waits := { s.waits with
          blocked := update s.waits.blocked t false
          waitChan := update s.waits.waitChan t 0
          wakeTick := if fault then s.waits.wakeTick else update s.waits.wakeTick t 0 } } := by
        refine onTime.relax rfl rfl (fun i blocked => released blocked) fun i => ?_
        cases fault with
        | true => exact .inl rfl
        | false => exact cleared outside i
      exact relaxed.goto rfl fun _ => update_self ..
  | sleep =>
    rw [here] at goes
    dsimp only at goes
    split at goes
    · cases goes
    · rename_i running
      cases goes
      exact onTime.goto rfl fun _ => by simpa using running
  | leave =>
    rw [here] at goes
    cases goes
    have running : s.waits.blocked t = false := onTime.free (by rw [here]; rfl)
    have relaxed : OnTime { s with waits := s.waits.leave t } :=
      onTime.relax rfl rfl (fun i blocked => blocked) (cleared (by rw [here]; rfl))
    exact relaxed.goto rfl fun _ => running

theorem step {move : TimerMove} (apart : EntersApart move s) (taken : TimerStep move s s') : OnTime s' := by
  cases taken with
  | wait idle => exact onTime.goto rfl fun _ => onTime.free (by rw [idle]; rfl)
  | go goes => exact onTime.go apart goes
  | value here => exact onTime.goto rfl nofun
  | wake => exact onTime.relax rfl rfl (fun _ still => released still) fun _ => .inl rfl
  | tick idle =>
    refine onTime.setTick fun next store => ?_
    split at store <;> cases store
  | skip here => exact onTime.setTick nofun
  | obtain here lock => exact onTime.obtain lock tickSection_swept
  | store here => exact onTime.store here

theorem punctual : Punctual s where
  earliest _ _ timed := onTime.due timed
  tries {i cpu now s'} timed due taken := by
    cases taken with
    | tick idle =>
      have earliest := onTime.due timed
      change update s.tick cpu _ cpu = _
      rw [update_self, if_neg (by omega)]
  releases {i cpu now s'} timed here due taken := by
    cases taken with
    | @obtain _ _ now' there lock =>
      cases TickPc.obtain.inj (here.symm.trans there)
      have swept : Swept now s.waits (range taskMax) (tickSection now s.waits) := tickSection_swept
      have released := swept.releases (mem_range.mpr timed.inside) timed.alive timed.deadline due
      simpa only [Timers.setTick] using released

end

end OnTime

/-- From the start of the kernel, while every task with a deadline enters its section when
no tick is about to store, no deadline is missed. -/
theorem deadlines_kept {s s' : Timers} (start : TimersStart s) (run : Run TimerStep EntersApart s s') : Punctual s' :=
  (run.invariant (OnTime.start start) fun _ _ _ onTime apart taken => onTime.step apart taken).punctual

/-- Nobody is waiting. -/
def quietTimers : Timers :=
  { waits := ⟨fun _ => true, fun _ => 0, fun _ => 0, fun _ => false, fun _ => 0, uint64Max⟩
    lock := none
    pc := fun _ => .out
    tick := fun _ => .idle }

theorem quietTimers_start : TimersStart quietTimers := ⟨rfl, fun _ => rfl, fun _ => rfl, fun _ => rfl⟩

namespace Timers

def stepped (s : Timers) (t : Nat) : Timers := (s.go t).getD s

/-- The task calls `task_wait` on a channel, and has looked at its generation and has the lock. -/
def waiting (s : Timers) (t : Nat) (chan : Chan) (deadline : Nat) : Timers :=
  ((s.goto t (.seen false chan deadline)).stepped t).stepped t

end Timers

theorem TimerStep.stepped {s : Timers} {t : Nat} (goes : (s.go t).isSome = true) : TimerStep (.go t) s (s.stepped t) := by
  obtain ⟨s', reached⟩ := Option.isSome_iff_exists.mp goes
  have same : s.stepped t = s' := by
    unfold Timers.stepped
    rw [reached]
    rfl
  exact same ▸ .go reached

/-- Task 1 is blocked until the tick 50. -/
def untilFifty : Timers := (((quietTimers.waiting 1 0x1000 50).stepped 1).stepped 1).stepped 1

theorem deadlines_kept_fifty : (untilFifty.waits.wakeTick 1 = 50 ∧ Timed untilFifty 1) ∧ Punctual untilFifty := by
  have idle : ∀ {s : Timers} {t : Nat}, s.tick = quietTimers.tick → EntersApart (.go t) s := by
    intro s t ticks futex chan deadline gen _ _ cpu next store
    rw [ticks] at store
    cases store
  have called : Run TimerStep EntersApart quietTimers (quietTimers.goto 1 (.seen false 0x1000 50)) :=
    Run.start.next (by trivial) (.wait rfl)
  have locked : Run TimerStep EntersApart quietTimers (quietTimers.waiting 1 0x1000 50) :=
    (called.next (idle rfl) (.stepped rfl)).next (idle rfl) (.stepped rfl)
  have run : Run TimerStep EntersApart quietTimers untilFifty :=
    ((locked.next (idle rfl) (.stepped rfl)).next (idle rfl) (.stepped rfl)).next (idle rfl) (.stepped rfl)
  exact ⟨⟨rfl, by decide, rfl, rfl, by decide⟩, deadlines_kept quietTimers_start run⟩

theorem tickSection_quiet {now : Nat} {w : Waits} (free : ∀ i, w.blocked i = false) : tickSection now w = (w, uint64Max) := by
  have one : ∀ i, tickOne now (w, uint64Max) i = (w, uint64Max) := by
    intro i
    unfold tickOne
    rw [if_pos (.inr (.inl (by simp [free i])))]
  unfold tickSection
  induction range taskMax with
  | nil => rfl
  | cons first rest ih => rw [List.foldl_cons, one, ih]

/-- Task 1 has been woken before its deadline. -/
def wokenEarly : Timers := { untilFifty with waits := (untilFifty.waits.bumpGen 1).unblock 1 }

/-- A tick at 60 has found nobody blocked, and is about to store that. -/
def aboutToStore : Timers := (wokenEarly.setTick 0 (.obtain 60)).setTick 0 (.store uint64Max)

/-- Task 2 has been blocked until the tick 70 before that. -/
def untilSeventy : Timers := ((aboutToStore.waiting 2 0x2000 70).stepped 2).stepped 2

def overslept : Timers :=
  { untilSeventy with waits := { untilSeventy.waits with earliestWake := uint64Max } }.setTick 0 .idle

/-- Task 2 sleeps on, although no tick is in progress, and no tick ever tries to release it. -/
theorem deadline_lost : TimersStart quietTimers ∧ Run TimerStep (fun _ _ => True) quietTimers overslept ∧
    (Timed overslept 2 ∧ overslept.waits.wakeTick 2 = 70 ∧ overslept.waits.earliestWake = uint64Max ∧
      ∀ cpu, overslept.tick cpu = .idle) ∧ ¬Punctual overslept := by
  have called : Run TimerStep (fun _ _ => True) quietTimers (quietTimers.goto 1 (.seen false 0x1000 50)) :=
    Run.start.next trivial (.wait rfl)
  have locked : Run TimerStep (fun _ _ => True) quietTimers (quietTimers.waiting 1 0x1000 50) :=
    (called.next trivial (.stepped rfl)).next trivial (.stepped rfl)
  have blocked : Run TimerStep (fun _ _ => True) quietTimers untilFifty :=
    ((locked.next trivial (.stepped rfl)).next trivial (.stepped rfl)).next trivial (.stepped rfl)
  have woken : Run TimerStep (fun _ _ => True) quietTimers wokenEarly := blocked.next trivial .wake
  have tested : Run TimerStep (fun _ _ => True) quietTimers (wokenEarly.setTick 0 (.obtain 60)) := by
    have taken : TimerStep (.tick 0 60) wokenEarly
      (wokenEarly.setTick 0 (if 60 < wokenEarly.waits.earliestWake then .idle else .obtain 60)) := .tick rfl
    rw [if_neg (by decide)] at taken
    exact woken.next trivial taken
  have free : ∀ i, wokenEarly.waits.blocked i = false := by
    intro i
    change update (update (fun _ => false) 1 true) 1 false i = false
    rw [update_idem, update_apply]
    split <;> rfl
  have swept : Run TimerStep (fun _ _ => True) quietTimers aboutToStore := by
    have taken : TimerStep (.obtain 0) (wokenEarly.setTick 0 (.obtain 60)) _ := .obtain rfl rfl
    have quiet : tickSection 60 (wokenEarly.setTick 0 (.obtain 60)).waits = (wokenEarly.waits, uint64Max) :=
      tickSection_quiet free
    rw [quiet] at taken
    exact tested.next trivial taken
  have blockedToo : Run TimerStep (fun _ _ => True) quietTimers untilSeventy := by
    have called : Run TimerStep (fun _ _ => True) quietTimers (aboutToStore.goto 2 (.seen false 0x2000 70)) :=
      swept.next trivial (.wait rfl)
    exact (((called.next trivial (.stepped rfl)).next trivial (.stepped rfl)).next trivial (.stepped rfl)).next trivial
      (.stepped rfl)
  have run : Run TimerStep (fun _ _ => True) quietTimers overslept := blockedToo.next trivial (.store rfl)
  have idle : ∀ cpu, overslept.tick cpu = .idle := by
    intro cpu
    change update (update (update (fun _ => TickPc.idle) 0 (TickPc.obtain 60)) 0
      (TickPc.store uint64Max)) 0 TickPc.idle cpu = _
    rw [update_idem, update_idem, update_apply]
    split <;> rfl
  have timed : Timed overslept 2 := ⟨by decide, rfl, rfl, by decide⟩
  refine ⟨quietTimers_start, run, ⟨timed, rfl, rfl, idle⟩, fun punctual => ?_⟩
  exact absurd (punctual.earliest idle timed) (by decide)

end NyonOS.Wait
