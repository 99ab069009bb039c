import Mathlib

namespace NyonOS.Data

open Function List

/-! Doubly linked lists whose links are fields of the items. -/

/-- The link fields of all items. -/
structure Links (α : Type) where
  next : α → Option α
  prev : α → Option α

namespace Links

variable {α : Type} [DecidableEq α]

def setNext (links : Links α) (item : α) (value : Option α) : Links α :=
  { links with next := update links.next item value }

def setPrev (links : Links α) (item : α) (value : Option α) : Links α :=
  { links with prev := update links.prev item value }

/-- Puts an item in front of the list with this head; the item is the new head. -/
def push (links : Links α) (head : Option α) (item : α) : Links α :=
  let links := (links.setPrev item none).setNext item head
  match head with
  | none => links
  | some first => links.setPrev first (some item)

/-- Takes an item out of a list and answers the head that is left. -/
def remove (links : Links α) (head : Option α) (item : α) : Links α × Option α :=
  let forward := match links.prev item with
    | some before => (links.setNext before (links.next item), head)
    | none => (links, if head = some item then links.next item else head)
  let backward := match forward.1.next item with
    | some after => forward.1.setPrev after (forward.1.prev item)
    | none => forward.1
  ((backward.setNext item none).setPrev item none, forward.2)

/-- Items that are linked in this order, between two neighbours. -/
def Segment (links : Links α) : (before : Option α) → List α → (after : Option α) → Prop
  | _, [], _ => True
  | before, item :: rest, after =>
    links.prev item = before ∧ links.next item = rest.head?.or after ∧ Segment links (some item) rest after

/-- The list with this head has these items. -/
structure Linked (links : Links α) (head : Option α) (items : List α) : Prop where
  head : head = items.head?
  nodup : items.Nodup
  segment : links.Segment none items none

variable {links changed : Links α} {before after head other : Option α} {item : α} {items rest front back : List α}

section

omit [DecidableEq α]

theorem segment_append : links.Segment before (front ++ back) after ↔
      links.Segment before front (back.head?.or after) ∧ links.Segment (front.getLast?.or before) back after := by
  induction front generalizing before with
  | nil => simp [Segment]
  | cons first front ih =>
    rw [cons_append, Segment, Segment, ih]
    cases front with
    | nil =>
      cases back <;> simp [Segment]
      tauto
    | cons second front =>
      cases last : (second :: front).getLast? with
      | none => simp at last
      | some final => simp [and_assoc, getLast?_cons_cons, last]

theorem Segment.congr (segment : links.Segment before items after)
    (same : ∀ item ∈ items, changed.next item = links.next item ∧ changed.prev item = links.prev item) :
    changed.Segment before items after := by
  induction items generalizing before with
  | nil => trivial
  | cons first rest ih =>
    obtain ⟨prev, next, below⟩ := segment
    obtain ⟨sameNext, samePrev⟩ := same first (by simp)
    exact ⟨samePrev.trans prev, sameNext.trans next, ih below fun item member => same item (by simp [member])⟩

theorem Linked.congr (linked : links.Linked head items)
    (same : ∀ item ∈ items, changed.next item = links.next item ∧ changed.prev item = links.prev item) :
    changed.Linked head items :=
  ⟨linked.head, linked.nodup, linked.segment.congr same⟩

theorem linked_nil (links : Links α) : links.Linked none [] := ⟨rfl, nodup_nil, trivial⟩

theorem Linked.head_mem (linked : links.Linked (some item) items) : item ∈ items :=
  mem_of_head? linked.head.symm

end

/-! Pushing. -/

theorem push_elsewhere {place : α} (notItem : place ≠ item) (notHead : head ≠ some place) :
    (links.push head item).next place = links.next place ∧ (links.push head item).prev place = links.prev place := by
  cases head with
  | none => simp [push, setNext, setPrev, notItem]
  | some first =>
    have notFirst : place ≠ first := fun same => notHead (by rw [same])
    simp [push, setNext, setPrev, notItem, notFirst]

theorem Linked.push (linked : links.Linked head items) (fresh : item ∉ items) :
    (links.push head item).Linked (some item) (item :: items) := by
  have list := linked.head
  refine ⟨rfl, nodup_cons.mpr ⟨fresh, linked.nodup⟩, ?_⟩
  cases items with
  | nil =>
    obtain rfl : head = none := list
    simp [Segment, Links.push, setNext, setPrev]
  | cons first rest =>
    obtain rfl : head = some first := list
    have different : item ≠ first := fun same => fresh (by simp [same])
    obtain ⟨-, next, below⟩ := linked.segment
    have once := (nodup_cons.mp linked.nodup).1
    refine ⟨by simp [Links.push, setNext, setPrev, different], by simp [Links.push, setNext, setPrev],
      by simp [Links.push, setNext, setPrev], ?_, ?_⟩
    · simpa [Links.push, setNext, setPrev, Ne.symm different] using next
    · refine below.congr fun place member => push_elsewhere ?_ ?_
      · exact fun same => fresh (by simp [← same, member])
      · rintro ⟨⟩
        exact once member

theorem Linked.push_other (linked : links.Linked other items) (fresh : item ∉ items)
    (apart : ∀ place ∈ items, head ≠ some place) : (links.push head item).Linked other items :=
  linked.congr fun place member => push_elsewhere (fun same => fresh (same ▸ member)) (apart place member)

/-! Removing. -/

theorem remove_next (place : α) : (links.remove head item).1.next place =
    if place = item then none else if links.prev item = some place then links.next item else links.next place := by
  by_cases isItem : place = item
  · simp [remove, setNext, setPrev, isItem]
  · cases prev : links.prev item with
    | none => cases next : links.next item <;> simp [remove, setNext, setPrev, isItem, prev, next]
    | some before =>
      by_cases self : before = item
      · cases next : links.next item <;>
          simp [remove, setNext, setPrev, isItem, prev, next, self, Ne.symm isItem]
      · cases next : links.next item <;>
          simp [remove, setNext, setPrev, isItem, prev, next, Ne.symm self, update_apply, eq_comm]

theorem remove_prev (place : α) : (links.remove head item).1.prev place =
    if place = item then none else if links.next item = some place then links.prev item else links.prev place := by
  by_cases isItem : place = item
  · simp [remove, setNext, setPrev, isItem]
  · cases prev : links.prev item with
    | none =>
      cases next : links.next item <;>
        simp [remove, setNext, setPrev, isItem, prev, next, update_apply, eq_comm]
    | some before =>
      by_cases self : before = item
      · cases next : links.next item <;>
          simp [remove, setNext, setPrev, isItem, prev, next, self, update_apply, eq_comm]
      · cases next : links.next item <;>
          simp [remove, setNext, setPrev, isItem, prev, next, Ne.symm self, update_apply, eq_comm]

theorem remove_head : (links.remove head item).2 =
    if links.prev item = none ∧ head = some item then links.next item else head := by
  cases prev : links.prev item <;> simp [remove, prev]

theorem remove_elsewhere {place : α} (notItem : place ≠ item) (notPrev : links.prev item ≠ some place)
    (notNext : links.next item ≠ some place) :
    (links.remove head item).1.next place = links.next place ∧
      (links.remove head item).1.prev place = links.prev place := by
  rw [remove_next, remove_prev, if_neg notItem, if_neg notItem, if_neg notPrev, if_neg notNext]
  exact ⟨rfl, rfl⟩

omit [DecidableEq α] in
theorem Linked.neighbours (linked : links.Linked head (front ++ item :: back)) :
    links.prev item = front.getLast? ∧ links.next item = back.head? := by
  obtain ⟨-, prev, next, -⟩ := segment_append.mp linked.segment
  exact ⟨by simpa using prev, by simpa using next⟩

omit [DecidableEq α] in
theorem Segment.relink {newAfter : Option α} (segment : links.Segment before items after) (nodup : items.Nodup)
    (prev : ∀ place ∈ items, changed.prev place = links.prev place)
    (next : ∀ place ∈ items, items.getLast? ≠ some place → changed.next place = links.next place)
    (last : ∀ place, items.getLast? = some place → changed.next place = newAfter) :
    changed.Segment before items newAfter := by
  induction items generalizing before with
  | nil => trivial
  | cons first rest ih =>
    obtain ⟨prevFirst, nextFirst, below⟩ := segment
    obtain ⟨fresh, nodup⟩ := nodup_cons.mp nodup
    refine ⟨(prev first (by simp)).trans prevFirst, ?_, ?_⟩
    · cases rest with
      | nil => exact last first rfl
      | cons second rest =>
        rw [next first (by simp), nextFirst]
        · rfl
        · rw [getLast?_cons_cons]
          exact fun same => fresh (mem_of_getLast? same)
    · cases rest with
      | nil => trivial
      | cons second rest =>
        rw [getLast?_cons_cons] at next last
        exact ih below nodup (fun place member => prev place (by simp [member]))
          (fun place member => next place (by simp [member])) last

theorem Linked.remove_parts (linked : links.Linked head (front ++ item :: back)) :
    (links.remove head item).1.Linked (links.remove head item).2 (front ++ back) := by
  obtain ⟨prev, next⟩ := linked.neighbours
  obtain ⟨segmentFront, -, -, segmentBack⟩ := segment_append.mp linked.segment
  obtain ⟨nodupFront, nodupBack, apart⟩ := nodup_append.mp linked.nodup
  obtain ⟨freshBack, nodupBack⟩ := nodup_cons.mp nodupBack
  have freshFront : item ∉ front := fun member => apart item member item (by simp) rfl
  have apart : ∀ place ∈ front, ∀ second ∈ back, place ≠ second := fun place inFront second inBack =>
    apart place inFront second (by simp [inBack])
  refine ⟨?_, nodup_append.mpr ⟨nodupFront, nodupBack, apart⟩, segment_append.mpr ⟨?_, ?_⟩⟩
  · have list := linked.head
    rw [remove_head, prev, next]
    cases front with
    | nil | cons => simp [list]
  · refine segmentFront.relink nodupFront (fun place member => ?_) (fun place member notLast => ?_)
      fun place isLast => ?_
    · have notNext : back.head? ≠ some place := fun same =>
        apart place member place (mem_of_head? same) rfl
      rw [remove_prev, next, if_neg (ne_of_mem_of_not_mem member freshFront), if_neg notNext]
    · rw [remove_next, prev, if_neg (ne_of_mem_of_not_mem member freshFront), if_neg notLast]
    · have member := mem_of_getLast? isLast
      rw [remove_next, prev, if_neg (ne_of_mem_of_not_mem member freshFront), if_pos isLast, next]
      simp
  · cases back with
    | nil => trivial
    | cons first back =>
      obtain ⟨-, nextFirst, below⟩ := segmentBack
      have isNext : links.next item = some first := next
      have notItem : ∀ place ∈ first :: back, place ≠ item := fun place member same =>
        freshBack (same ▸ member)
      have notPrev : ∀ place ∈ first :: back, links.prev item ≠ some place := by
        intro place member same
        rw [prev] at same
        exact apart place (mem_of_getLast? same) place member rfl
      refine ⟨?_, ?_, below.congr fun place member => ?_⟩
      · rw [remove_prev, if_neg (notItem first (by simp)), if_pos isNext, prev]
        simp
      · rw [remove_next, if_neg (notItem first (by simp)), if_neg (notPrev first (by simp))]
        exact nextFirst
      · have inBack : place ∈ first :: back := mem_cons_of_mem first member
        refine remove_elsewhere (notItem place inBack) (notPrev place inBack) ?_
        rw [isNext]
        rintro ⟨⟩
        exact (nodup_cons.mp nodupBack).1 member

theorem Linked.remove (linked : links.Linked head items) (member : item ∈ items) :
    (links.remove head item).1.Linked (links.remove head item).2 (items.erase item) := by
  obtain ⟨front, back, rfl⟩ := append_of_mem member
  have fresh : item ∉ front := fun inFront =>
    (nodup_append.mp linked.nodup).2.2 item inFront item (by simp) rfl
  rw [erase_append_right _ fresh, erase_cons_head]
  exact linked.remove_parts

theorem Linked.remove_other (linked : links.Linked other rest) (from_ : links.Linked head items)
    (member : item ∈ items) (apart : ∀ place ∈ rest, place ∉ items) :
    (links.remove head item).1.Linked other rest := by
  obtain ⟨front, back, rfl⟩ := append_of_mem member
  obtain ⟨prev, next⟩ := from_.neighbours
  refine linked.congr fun place inRest => remove_elsewhere ?_ ?_ ?_
  · exact fun same => apart place inRest (by simp [same])
  · intro same
    rw [prev] at same
    exact apart place inRest (by simp [mem_of_getLast? same])
  · intro same
    rw [next] at same
    exact apart place inRest (by simp [mem_of_head? same])

end Links

end NyonOS.Data
