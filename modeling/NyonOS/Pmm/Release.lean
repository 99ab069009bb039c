import NyonOS.Pmm.Runs

namespace NyonOS.Pmm

open Data List
open Paging (pageSize)

/-! Blocks whose pages are given back one at a time, as the page tables do with the pages
they own. -/

/-- What happens while the pages of a block are given back: `pmm_free(page, 1)` of one of
them, or a call that has nothing to do with them. -/
inductive Event
  | release (cpu : Cpu) (index : Nat)
  | other (call : Call)

/-- A call, without the book of live blocks. -/
def perform : Call → Allocator → Allocator
  | .alloc cpu pages, pmm => (pmm.pmmAlloc cpu pages).2
  | .free cpu addr pages, pmm => pmm.pmmFree cpu addr pages

def Event.perform (page : Nat) : Event → Allocator → Allocator
  | .release cpu index, pmm => pmm.pmmFree cpu ((page + index) * pageSize) 1
  | .other call, pmm => Pmm.perform call pmm

/-- The pages that have been released, after an event. -/
def Event.note : Event → List Nat → List Nat
  | .release _ index, released => index :: released
  | .other _, released => released

/-- The event is about a page of the block, or a free of a page elsewhere. -/
def Event.About (page order pages : Nat) : Event → Prop
  | .release _ index => index < pages
  | .other (.alloc _ _) => True
  | .other (.free _ addr _) => ¬SameBlock order (addr / pageSize) page

/-- A page that some call of `pmm_alloc` can hand out. -/
def Allocatable (pmm : Allocator) (p : Nat) : Prop :=
  (∃ order, ∃ start ∈ pmm.freeLists order, start ≤ p ∧ p < start + 2 ^ order) ∨ ∃ cpu, p ∈ pmm.caches cpu

/-- In every state of these events, the pages of the block that can be handed out have been
released. -/
def Respected (page pages : Nat) : List Event → List Nat → Allocator → Prop
  | [], released, pmm => ∀ index < pages, Allocatable pmm (page + index) → index ∈ released
  | event :: rest, released, pmm => (∀ index < pages, Allocatable pmm (page + index) → index ∈ released) ∧
      Respected page pages rest (event.note released) (event.perform page pmm)

/-- A page of a recorded region is only released as the last page of the block. -/
def Gathered (managed : Nat → Bool) (page pages : Nat) : List Event → List Nat → Prop
  | [], _ => True
  | .release _ index :: rest, released =>
    (managed (page + index) = true → ∀ other < pages, other ∈ index :: released) ∧ Gathered managed page pages rest (index :: released)
  | .other _ :: rest, released => Gathered managed page pages rest released

section Release

variable {mark : Nat → Mark Cpu} {pmm : Allocator} {page pages order p : Nat} {events : List Event} {released : List Nat}
  {managed : Nat → Bool}

theorem Sound.allocatable_iff (sound : Sound mark pmm) : Allocatable pmm p ↔ (mark p).Spare := by
  constructor
  · rintro (⟨order, start, member, range⟩ | ⟨cpu, member⟩)
    · obtain ⟨aligned, free⟩ := sound.listed.mp member
      rw [sound.layout.free free ((sameBlock_iff aligned).mpr range)]
      trivial
    · rw [sound.cached.mp member]
      trivial
  · intro spare
    cases kind : mark p with
    | outside => exact (kind ▸ spare : (Mark.outside : Mark Cpu).Spare).elim
    | free order =>
      refine .inl ⟨order, blockStart order p, sound.listed.mpr ⟨blockStart_dvd, sound.layout.free kind blockStart_same⟩, ?_⟩
      exact (sameBlock_iff blockStart_dvd).mp blockStart_same.symm
    | used order => exact (kind ▸ spare : (Mark.used order : Mark Cpu).Spare).elim
    | kept cpu => exact .inr ⟨cpu, sound.cached.mpr kind⟩
    | moving => exact absurd kind (sound.settled p)

theorem respected_of_all (all : ∀ index < pages, index ∈ released) : Respected page pages events released pmm := by
  induction events generalizing released pmm with
  | nil => exact fun index small _ => all index small
  | cons event rest ih =>
    refine ⟨fun index small _ => all index small, ih fun index small => ?_⟩
    cases event with
    | release cpu other => exact mem_cons_of_mem _ (all index small)
    | other call => exact all index small

theorem gathered_of_all (all : ∀ index < pages, index ∈ released) : Gathered managed page pages events released := by
  induction events generalizing released with
  | nil => trivial
  | cons event rest ih =>
    cases event with
    | release cpu other =>
      have more : ∀ index < pages, index ∈ other :: released := fun index small => mem_cons_of_mem _ (all index small)
      exact ⟨fun _ => more, ih more⟩
    | other call => exact ih all

theorem Resting.pmmFree {cpu : Cpu} {addr count : Nat} (resting : Resting mark pmm) :
    pmm.pmmFree cpu addr count = pmm ∨ ∃ order after, Resting after (pmm.pmmFree cpu addr count) ∧
      (pmm.pmmFree cpu addr count).statics = pmm.statics ∧ Returned order (blockStart order (addr / pageSize)) mark after := by
  by_cases taken : count ≠ 0 ∧ addr % pageSize = 0 ∧ addr / pageSize + count ≤ pmm.totalPages ∧ pmm.pmmPageManaged (addr / pageSize)
  · by_cases used : ∃ order, mark (addr / pageSize) = .used order
    · obtain ⟨order, used⟩ := used
      exact .inr ⟨order, resting.pmmFree_used taken.1 taken.2.1 taken.2.2.1 taken.2.2.2 used⟩
    · exact .inl (resting.toSound.pmmFree_idle (not_exists.mp used))
  · exact .inl (pmmFree_refused taken)

theorem Resting.other {call : Call} (resting : Resting mark pmm) (used : mark page = .used order)
    (about : (Event.other call).About page order pages) :
    ∃ after, Resting after (perform call pmm) ∧ (perform call pmm).statics = pmm.statics ∧ after page = .used order := by
  cases call with
  | alloc cpu count =>
    obtain ⟨after, resting', statics, answered⟩ := @Resting.pmmAlloc _ _ count cpu resting
    refine ⟨after, resting', statics, ?_⟩
    cases answer : (pmm.pmmAlloc cpu count).1 with
    | none =>
      rw [answer] at answered
      exact (answered page).used_iff.mp used
    | some addr =>
      rw [answer] at answered
      obtain ⟨start, -, -, given⟩ := answered
      refine (given.elsewhere fun inside => ?_).used_iff.mp used
      have spare := given.spare inside
      rw [used] at spare
      exact spare
  | free cpu addr count =>
    rcases @Resting.pmmFree mark pmm cpu addr count resting with same | ⟨other, after, resting', statics, returned⟩
    · refine ⟨mark, ?_, congrArg Allocator.statics same, used⟩
      change Resting mark (pmm.pmmFree cpu addr count)
      rwa [same]
    · refine ⟨after, resting', statics, (returned.elsewhere fun inside => about ?_).used_iff.mp used⟩
      cases (returned.used inside).symm.trans used
      exact (blockStart_same.symm.trans inside.symm)

theorem Resting.release {cpu : Cpu} {index : Nat} (resting : Resting mark pmm) (aligned : 2 ^ order ∣ page)
    (used : mark page = .used order) (inside : SameBlock order (page + index) page) :
    pmm.pmmPageManaged (page + index) = false ∧ pmm.pmmFree cpu ((page + index) * pageSize) 1 = pmm ∨
      pmm.pmmPageManaged (page + index) = true ∧ ∃ after, Resting after (pmm.pmmFree cpu ((page + index) * pageSize) 1) ∧
        Returned order page mark after := by
  have here := resting.layout.used used inside
  cases known : pmm.pmmPageManaged (page + index) with
  | false =>
    refine .inl ⟨rfl, pmmFree_refused fun taken => ?_⟩
    rw [page_of_addr, known] at taken
    exact Bool.false_ne_true taken.2.2.2
  | true =>
    have low := resting.low (p := page + index) (by rw [here]; exact nofun)
    obtain ⟨after, resting', -, returned⟩ := @Resting.pmmFree_used mark pmm order 1 ((page + index) * pageSize) cpu resting
      Nat.one_ne_zero (Nat.mul_mod_left ..) (by rw [page_of_addr]; omega) (by rw [page_of_addr, known]) (by rw [page_of_addr, here])
    rw [page_of_addr, inside.start_eq, blockStart_of_dvd aligned] at returned
    exact .inr ⟨rfl, after, resting', returned⟩

/-- While the block is whole, by induction on the events: the first release of a page of a
recorded region takes the whole block back. -/
theorem Resting.respected_iff (resting : Resting mark pmm) (aligned : 2 ^ order ∣ page) (enough : pages ≤ 2 ^ order)
    (used : mark page = .used order) (same : pmm.pmmPageManaged = managed) (about : ∀ event ∈ events, event.About page order pages) :
    Respected page pages events released pmm ↔ Gathered managed page pages events released := by
  have inside : ∀ {index}, index < pages → SameBlock order (page + index) page := fun small =>
    (sameBlock_iff aligned).mpr (by omega)
  induction events generalizing mark pmm released with
  | nil =>
    refine ⟨fun _ => trivial, fun _ index small free => ?_⟩
    have spare := resting.toSound.allocatable_iff.mp free
    rw [resting.layout.used used (inside small)] at spare
    exact spare.elim
  | cons event rest ih =>
    have now : ∀ index < pages, Allocatable pmm (page + index) → index ∈ released := fun index small free => by
      have spare := resting.toSound.allocatable_iff.mp free
      rw [resting.layout.used used (inside small)] at spare
      exact spare.elim
    have later : ∀ event ∈ rest, event.About page order pages := fun event member => about event (mem_cons_of_mem _ member)
    cases event with
    | other call =>
      obtain ⟨after, resting', statics, still⟩ := resting.other used (about _ mem_cons_self)
      have regions : (perform call pmm).regions = pmm.regions := congrArg (fun statics => statics.2.1) statics
      have same' : (perform call pmm).pmmPageManaged = managed := by
        rw [← same]
        funext p
        rw [Allocator.pmmPageManaged, Allocator.pmmPageManaged, regions]
      exact (and_iff_right now).trans (ih resting' still same' later)
    | release cpu index =>
      have small : index < pages := about _ mem_cons_self
      refine (and_iff_right now).trans ?_
      rcases @Resting.release mark pmm page order cpu index resting aligned used (inside small) with ⟨unknown, same'⟩ | ⟨known, after, resting', returned⟩
      · rw [same] at unknown
        have step : Respected page pages rest (index :: released) pmm ↔ Gathered managed page pages rest (index :: released) :=
          ih resting used same later
        change Respected page pages rest (index :: released) (pmm.pmmFree cpu ((page + index) * pageSize) 1) ↔
          (managed (page + index) = true → _) ∧ Gathered managed page pages rest (index :: released)
        rw [same', unknown]
        exact step.trans (and_iff_right fun impossible => absurd impossible Bool.false_ne_true).symm
      · rw [same] at known
        have spare : ∀ other < pages, Allocatable (pmm.pmmFree cpu ((page + index) * pageSize) 1) (page + other) := fun other small' =>
          resting'.toSound.allocatable_iff.mpr (returned.spare (inside small'))
        constructor
        · intro respected
          have all : ∀ other < pages, other ∈ index :: released := fun other small' => by
            cases rest with
            | nil => exact respected other small' (spare other small')
            | cons next tail => exact respected.1 other small' (spare other small')
          exact ⟨fun _ => all, gathered_of_all all⟩
        · intro gathered
          exact respected_of_all (gathered.1 known)

end Release

/-- Calls of any kind, by anybody. -/
def Calls (call : Call) (before after : Allocator) : Prop := after = perform call before

section Blocks

variable {memmap : List MemmapEntry} {boot pmm next : Allocator} {cpu : Cpu} {addr pages : Nat} {events : List Event}

theorem Resting.calls {mark : Nat → Mark Cpu} {call : Call} (resting : Resting mark pmm) : ∃ after, Resting after (perform call pmm) := by
  cases call with
  | alloc cpu pages =>
    obtain ⟨after, resting', -⟩ := @Resting.pmmAlloc mark pmm pages cpu resting
    exact ⟨after, resting'⟩
  | free cpu addr count =>
    rcases @Resting.pmmFree mark pmm cpu addr count resting with same | ⟨-, after, resting', -⟩
    · refine ⟨mark, ?_⟩
      change Resting mark (pmm.pmmFree cpu addr count)
      rwa [same]
    · exact ⟨after, resting'⟩

theorem calls_resting (disjoint : Disjoint memmap) (init : pmmInit memmap = some boot) (run : Run Calls (fun _ _ => True) boot pmm) :
    ∃ mark, Resting mark pmm := by
  induction run with
  | start =>
    obtain ⟨mark, booted⟩ := pmmInit_booted disjoint init
    exact ⟨mark, booted.toResting⟩
  | next _ _ called ih =>
    obtain ⟨mark, resting⟩ := ih
    rw [called]
    exact resting.calls

/-- The pages of a block, given back one at a time, can be handed out again only after they
have been given back exactly when no page of a recorded region is given back before all the
others: the first of them takes the whole block with it. -/
theorem released_singly_iff (disjoint : Disjoint memmap) (init : pmmInit memmap = some boot)
    (run : Run Calls (fun _ _ => True) boot pmm) (taken : pmm.pmmAlloc cpu pages = (some addr, next))
    (about : ∀ event ∈ events, event.About (addr / pageSize) (orderForPages pages) pages) :
    Respected (addr / pageSize) pages events [] next ↔ Gathered next.pmmPageManaged (addr / pageSize) pages events [] := by
  obtain ⟨mark, resting⟩ := calls_resting disjoint init run
  obtain ⟨after, resting', -, answered⟩ := @Resting.pmmAlloc mark pmm pages cpu resting
  rw [taken] at resting' answered
  obtain ⟨page, rfl, some_, given⟩ := answered
  rw [page_of_addr] at about ⊢
  exact resting'.respected_iff given.aligned (le_orderForPages pages) (given.used rfl) rfl about

end Blocks

theorem released_singly_one : (Sample.boot.pmmAlloc 1 1).1 = some 0xF000 ∧
    Respected (0xF000 / pageSize) 1 [.release 0 0] [] (Sample.boot.pmmAlloc 1 1).2 := by
  have answer : (Sample.boot.pmmAlloc 1 1).1 = some 0xF000 := by decide +kernel
  have about : ∀ event ∈ [Event.release 0 0], event.About (0xF000 / pageSize) (orderForPages 1) 1 := fun event member => by
    cases mem_singleton.mp member
    exact Nat.one_pos
  exact ⟨answer, (released_singly_iff Sample.disjoint Sample.init .start (Prod.ext answer rfl) about).mpr ⟨fun _ => by decide, trivial⟩⟩

/-- Two pages are taken and the first is released: the second can be handed out again, and
the next two pages that are taken are the same ones. -/
theorem second_page_lost : pmmInit Sample.memmap = some Sample.boot ∧ (Sample.boot.pmmAlloc 0 2).1 = some 0x2000 ∧
      Sample.boot.pmmPageManaged 2 = true ∧
      Allocatable ((Sample.boot.pmmAlloc 0 2).2.pmmFree 0 0x2000 1) 3 ∧
      (((Sample.boot.pmmAlloc 0 2).2.pmmFree 0 0x2000 1).pmmAlloc 1 2).1 = some 0x2000 := by
  refine ⟨Sample.init, by decide +kernel, by decide +kernel, .inl ⟨1, 2, by decide +kernel, by decide, by decide⟩, by decide +kernel⟩

end NyonOS.Pmm
