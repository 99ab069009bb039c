import NyonOS.Data.Run

namespace NyonOS.Keyboard

open Data Function List Nat

/-! The ring of input events and its readers. -/

structure InputEvent where
  sec : Nat
  nsec : Nat
  type : BitVec 16
  code : BitVec 16
  value : BitVec 32
deriving DecidableEq

/-- The static variables of the ring. -/
structure EventRing where
  inputRing : Nat → InputEvent
  head : Nat
  tail : Nat

def keyEvent (ticks : Nat) (code : BitVec 16) (value : BitVec 32) : InputEvent :=
  ⟨ticks / 1000, ticks % 1000 * 1000000, 1, code, value⟩

def keyboardEventPush (ring : EventRing) (ev : InputEvent) : EventRing :=
  let tail := (ring.tail + 1) % 256
  { inputRing := update ring.inputRing ring.tail ev, tail,
    head := if ring.head = tail then (ring.head + 1) % 256 else ring.head }

def keyboardEventSeq (ring : EventRing) : Nat := (ring.tail + 256 - 1) % 256

def keyboardEventAvailableAt (ring : EventRing) (seq : Nat) : Bool :=
  let skip := (seq + 1) % 256
  let n := (ring.tail + 256 - skip) % 256
  if n < 256 then n ≠ 0 else false

def keyboardEventPopAt (ring : EventRing) (seq : Nat) : Option (InputEvent × Nat) :=
  let skip := (seq + 1) % 256
  let n := (ring.tail + 256 - skip) % 256
  if n ≠ 0 then some (ring.inputRing skip, skip) else none

/-- What a reader gets by popping until there is nothing more. -/
def drain (ring : EventRing) : (fuel seq : Nat) → List InputEvent
  | 0, _ => []
  | fuel + 1, seq =>
    match keyboardEventPopAt ring seq with
    | none => []
    | some (ev, seq) => ev :: drain ring fuel seq

variable {ι : Type} [DecidableEq ι]

/-- The ring and the positions of its readers. The other fields record what has happened: all events pushed, which of them each
cell was written by, and for each reader the number of events pushed before it started and before its last pop, the events it has
received, and the number of events up to the last one of them. -/
structure Input (ι : Type) where
  ring : EventRing
  seq : ι → Nat
  pushed : List InputEvent
  written : Nat → Nat
  start : ι → Nat
  popped : ι → Nat
  received : ι → List InputEvent
  next : ι → Nat

inductive InputCall (ι : Type)
  | push (ticks : Nat) (code : BitVec 16) (value : BitVec 32)
  | attach (reader : ι)
  | pop (reader : ι)

def Input.after (call : InputCall ι) (s : Input ι) : Input ι :=
  match call with
  | .push ticks code value =>
    { s with
      ring := keyboardEventPush s.ring (keyEvent ticks code value)
      pushed := s.pushed ++ [keyEvent ticks code value]
      written := update s.written s.ring.tail s.pushed.length }
  | .attach r =>
    { s with
      seq := update s.seq r (keyboardEventSeq s.ring)
      start := update s.start r s.pushed.length
      popped := update s.popped r s.pushed.length
      received := update s.received r []
      next := update s.next r s.pushed.length }
  | .pop r =>
    match keyboardEventPopAt s.ring (s.seq r) with
    | none => s
    | some (ev, seq) =>
      { s with
        seq := update s.seq r seq
        popped := update s.popped r s.pushed.length
        received := update s.received r (s.received r ++ [ev])
        next := update s.next r (s.written seq + 1) }

/-- Nothing has been pushed, and every reader is at the start. -/
def Input.boot (cells : Nat → InputEvent) : Input ι where
  ring := ⟨cells, 0, 0⟩
  seq _ := keyboardEventSeq ⟨cells, 0, 0⟩
  pushed := []
  written _ := 0
  start _ := 0
  popped _ := 0
  received _ := []
  next _ := 0

/-- The events pushed since the reader's last pop. -/
def Input.since (s : Input ι) (r : ι) : Nat := s.pushed.length - s.popped r

/-- The events after the last one that the reader has received. -/
def Input.unread (s : Input ι) (r : ι) : Nat := s.pushed.length - s.next r

/-- Of the events pushed since its last pop, the reader obtains exactly the newest 255. -/
def Input.ObtainsNewest (s : Input ι) (r : ι) (got : List InputEvent) : Prop :=
  got.drop (got.length - s.since r) = s.pushed.drop (s.pushed.length - min (s.since r) 255)

section Reading

variable {ring : EventRing} {written : Nat → Nat} {pushed : List InputEvent} {seq p : Nat}

/-- The ring holds the last 256 events. -/
structure Recorded (ring : EventRing) (written : Nat → Nat) (pushed : List InputEvent) : Prop where
  tail : ring.tail = pushed.length % 256
  cells : ∀ i < pushed.length, pushed.length ≤ i + 256 → pushed[i]? = some (ring.inputRing (i % 256)) ∧ written (i % 256) = i

/-- A reader that has come to position `p`. -/
structure At (pushed : List InputEvent) (seq p : Nat) : Prop where
  bound : p ≤ pushed.length
  seq : (seq + 1) % 256 = p % 256

section

variable (recorded : Recorded ring written pushed)
include recorded

theorem distance (here : At pushed seq p) : (ring.tail + 256 - (seq + 1) % 256) % 256 = (pushed.length - p) % 256 := by
  rw [recorded.tail, here.seq]
  have := here.bound
  omega

theorem keyboardEventPopAt_none (here : At pushed seq p) (even : (pushed.length - p) % 256 = 0) :
    keyboardEventPopAt ring seq = none := by
  rw [keyboardEventPopAt, distance recorded here, even]
  rfl

theorem keyboardEventPopAt_some (here : At pushed seq p) {n : Nat}
    (left : (pushed.length - p) % 256 = n + 1) : ∃ i ev, i + (n + 1) = pushed.length ∧ p ≤ i ∧ pushed[i]? = some ev ∧
      keyboardEventPopAt ring seq = some (ev, i % 256) ∧ written (i % 256) = i := by
  have bound := here.bound
  have most := mod_le (pushed.length - p) 256
  have small := mod_lt (pushed.length - p) (show 256 > 0 by decide)
  have skip : (seq + 1) % 256 = (pushed.length - (n + 1)) % 256 := by
    rw [here.seq]
    omega
  obtain ⟨cell, index⟩ := recorded.cells (pushed.length - (n + 1)) (by omega) (by omega)
  refine ⟨_, _, by omega, by omega, cell, ?_, index⟩
  rw [keyboardEventPopAt, distance recorded here, left, skip]
  rfl

end

theorem available_iff_pops (ring : EventRing) (seq : Nat) :
    keyboardEventAvailableAt ring seq = true ↔ (keyboardEventPopAt ring seq).isSome := by
  unfold keyboardEventAvailableAt keyboardEventPopAt
  dsimp only
  rw [if_pos (mod_lt _ (by decide))]
  split_ifs with empty <;> simp [empty]

theorem drain_eq (recorded : Recorded ring written pushed) (here : At pushed seq p) {fuel : Nat}
    (enough : (pushed.length - p) % 256 ≤ fuel) : drain ring fuel seq = pushed.drop (pushed.length - (pushed.length - p) % 256) := by
  induction fuel generalizing seq p with
  | zero =>
    rw [le_zero.mp enough]
    exact (drop_length).symm
  | succ fuel ih =>
    cases left : (pushed.length - p) % 256 with
    | zero =>
      rw [drain, keyboardEventPopAt_none recorded here left]
      exact (drop_length).symm
    | succ n =>
      obtain ⟨i, ev, place, -, cell, popped, -⟩ := keyboardEventPopAt_some recorded here left
      have small := mod_lt (pushed.length - p) (show 256 > 0 by decide)
      have rest : (pushed.length - (i + 1)) % 256 = n := by omega
      have tail := @ih (i % 256) (i + 1) ⟨by omega, by omega⟩ (by omega)
      rw [rest] at tail
      rw [drain, popped]
      dsimp only
      obtain ⟨inside, rfl⟩ := List.getElem?_eq_some_iff.mp cell
      rw [tail, show pushed.length - (n + 1) = i by omega, show pushed.length - n = i + 1 by omega]
      exact (drop_eq_getElem_cons inside).symm

end Reading

/-- What every sequence of calls keeps. -/
structure Delivered (s : Input ι) : Prop where
  recorded : Recorded s.ring s.written s.pushed
  position : ∀ r, At s.pushed (s.seq r) (s.next r)
  started : ∀ r, s.start r ≤ s.next r
  received : ∀ r, (s.received r).Sublist ((s.pushed.take (s.next r)).drop (s.start r))

theorem Delivered.push {s : Input ι} (kept : Delivered s) (ticks : Nat) (code : BitVec 16) (value : BitVec 32) :
    Delivered (s.after (.push ticks code value)) where
  recorded := by
    have tail := kept.recorded.tail
    constructor
    · change (s.ring.tail + 1) % 256 = (s.pushed ++ [_]).length % 256
      rw [tail, length_append, length_singleton]
      omega
    · intro i inside near
      change (s.pushed ++ [_])[i]? = some (update s.ring.inputRing s.ring.tail _ (i % 256)) ∧
        update s.written s.ring.tail s.pushed.length (i % 256) = i
      change i < (s.pushed ++ [_]).length at inside
      change (s.pushed ++ [_]).length ≤ i + 256 at near
      rw [length_append, length_singleton] at inside near
      by_cases last : i = s.pushed.length
      · subst last
        rw [tail, update_self, update_self, getElem?_append_right (Nat.le_refl _), Nat.sub_self]
        exact ⟨rfl, rfl⟩
      · -- the cell that is overwritten held the event of 256 pushes ago
        have other : i % 256 ≠ s.ring.tail := by
          rw [tail]
          omega
        rw [update_of_ne other, update_of_ne other, getElem?_append_left (by omega)]
        exact kept.recorded.cells i (by omega) (by omega)
  position r := by
    obtain ⟨bound, seq⟩ := kept.position r
    exact ⟨Nat.le_trans bound (by simp [Input.after]), seq⟩
  started := kept.started
  received r := by
    change (s.received r).Sublist (((s.pushed ++ [_]).take (s.next r)).drop (s.start r))
    rw [take_append_of_le_length (kept.position r).bound]
    exact kept.received r

theorem Delivered.attach {s : Input ι} (kept : Delivered s) (r : ι) : Delivered (s.after (.attach r)) where
  recorded := kept.recorded
  position other := by
    by_cases same : other = r
    · subst same
      refine ⟨?_, ?_⟩
      · simp [Input.after]
      · simp only [Input.after, update_self, keyboardEventSeq, kept.recorded.tail]
        omega
    · simpa [Input.after, update_of_ne same] using kept.position other
  started other := by
    by_cases same : other = r
    · simp [Input.after, same]
    · simpa [Input.after, update_of_ne same] using kept.started other
  received other := by
    by_cases same : other = r
    · subst same
      simp [Input.after]
    · simpa [Input.after, update_of_ne same] using kept.received other

theorem Delivered.pop {s : Input ι} (kept : Delivered s) (r : ι) : Delivered (s.after (.pop r)) := by
  cases left : (s.pushed.length - s.next r) % 256 with
  | zero =>
    rw [Input.after, keyboardEventPopAt_none kept.recorded (kept.position r) left]
    exact kept
  | succ n =>
    obtain ⟨i, ev, place, later, cell, popped, index⟩ := keyboardEventPopAt_some kept.recorded (kept.position r) left
    rw [Input.after, popped]
    have started := kept.started r
    refine ⟨kept.recorded, fun other => ?_, fun other => ?_, fun other => ?_⟩ <;> by_cases same : other = r
    · subst same
      simp only [update_self, index]
      exact ⟨by omega, by omega⟩
    · simpa [update_of_ne same] using kept.position other
    · subst same
      simp only [update_self, index]
      omega
    · simpa [update_of_ne same] using kept.started other
    · subst same
      simp only [update_self, index]
      obtain ⟨inside, rfl⟩ := List.getElem?_eq_some_iff.mp cell
      have before := (kept.received other).trans ((take_prefix_take_left later).sublist.drop (s.start other))
      rw [take_succ_eq_append_getElem inside, drop_append_of_le_length (by rw [length_take]; omega)]
      exact before.append_right _
    · simpa [update_of_ne same] using kept.received other

theorem Delivered.play {s : Input ι} (kept : Delivered s) (calls : List (InputCall ι)) : Delivered (Data.play Input.after calls s) := by
  induction calls generalizing s with
  | nil => exact kept
  | cons call rest ih =>
    refine ih ?_
    cases call with
    | push ticks code value => exact kept.push ticks code value
    | attach r => exact kept.attach r
    | pop r => exact kept.pop r

omit [DecidableEq ι] in
theorem Delivered.boot (cells : Nat → InputEvent) : Delivered (Input.boot cells : Input ι) :=
  ⟨⟨rfl, fun _ none_ => nomatch none_⟩, fun _ => ⟨Nat.le_refl 0, (by decide : ((0 + 256 - 1) % 256 + 1) % 256 = 0 % 256)⟩,
    fun _ => Nat.le_refl 0, fun _ => List.Sublist.refl _⟩

/-- The last `k` of the last `m` elements are the last `n` of the last `k`. -/
theorem newest_iff {l : List InputEvent} {m k n : Nat} (most : m ≤ l.length) (fewer : k ≤ l.length) :
    (l.drop (l.length - m)).drop ((l.drop (l.length - m)).length - k) = l.drop (l.length - min k n) ↔ min k m = min k n := by
  rw [drop_drop, length_drop]
  constructor
  · intro same
    have lengths := congrArg List.length same
    rw [length_drop, length_drop] at lengths
    omega
  · intro same
    congr 1
    omega

/-- After any calls, each reader has received events pushed since its start, in order; it can pop exactly when events are said to be
available; and it obtains the newest 255 of the events since its last pop exactly if as many are left modulo 256. -/
theorem events_delivered_iff (cells : Nat → InputEvent) (calls : List (InputCall ι)) (r : ι) (fuel : Nat) :
    let s := play Input.after calls (Input.boot cells)
    (s.received r).Sublist (s.pushed.drop (s.start r)) ∧
      (keyboardEventAvailableAt s.ring (s.seq r) = true ↔ (keyboardEventPopAt s.ring (s.seq r)).isSome) ∧
      (s.ObtainsNewest r (drain s.ring (fuel + 255) (s.seq r)) ↔ min (s.since r) (s.unread r % 256) = min (s.since r) 255) := by
  intro s
  have kept : Delivered s := (Delivered.boot cells).play calls
  refine ⟨(kept.received r).trans ((take_sublist ..).drop _), available_iff_pops _ _, ?_⟩
  have small := mod_lt (s.unread r) (show 256 > 0 by decide)
  have most : s.unread r % 256 ≤ s.pushed.length := (mod_le ..).trans (sub_le ..)
  rw [Input.ObtainsNewest, drain_eq kept.recorded (kept.position r) (by unfold Input.unread at small; omega)]
  exact newest_iff most (sub_le ..)

/-- The reader of a ring into which 256 events have been pushed. -/
def lapped : Input Unit := play Input.after (List.replicate 256 (.push 0 30 1)) (Input.boot fun _ => keyEvent 0 0 0)

/-- None of the 256 events is available. -/
theorem all_events_lost : lapped.since () = 256 ∧ keyboardEventAvailableAt lapped.ring (lapped.seq ()) = false ∧
    ¬ lapped.ObtainsNewest () (drain lapped.ring 256 (lapped.seq ())) := by
  refine ⟨by decide +kernel, by decide +kernel, ?_⟩
  have nothing : drain lapped.ring 256 (lapped.seq ()) = [] := by decide +kernel
  rw [Input.ObtainsNewest, nothing]
  intro same
  exact absurd (congrArg List.length same) (by decide +kernel)

end NyonOS.Keyboard
