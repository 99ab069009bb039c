import NyonOS.Pmm.Start

namespace NyonOS.Pmm

open Data List
open Paging (pageSize)

/-! Runs of the allocator: calls of `pmm_alloc` and `pmm_free` by any processors, one at a
time. -/

/-- The allocator, with the blocks that have been handed out and not been given back: their
addresses, and the pages that were asked for. -/
structure System where
  pmm : Allocator
  live : List (Nat × Nat)

inductive Call
  | alloc (cpu : Cpu) (pages : Nat)
  | free (cpu : Cpu) (addr pages : Nat)

def act : Call → System → System
  | .alloc cpu pages, s =>
    match s.pmm.pmmAlloc cpu pages with
    | (none, next) => { s with pmm := next }
    | (some addr, next) => ⟨next, (addr, pages) :: s.live⟩
  | .free cpu addr pages, s => ⟨s.pmm.pmmFree cpu addr pages, s.live.erase (addr, pages)⟩

def Step (call : Call) (before after : System) : Prop := after = act call before

theorem step_act (call : Call) (s : System) : Step call s (act call s) := rfl

/-- The bytes of the block that is handed out for some pages. -/
def blockBytes (pages : Nat) : Nat := 2 ^ orderForPages pages * pageSize

/-- An address that lies in no live block. -/
def Idle (live : List (Nat × Nat)) (addr : Nat) : Prop :=
  ∀ block ∈ live, ¬(block.1 ≤ addr ∧ addr < block.1 + blockBytes block.2)

/-- A free gives back a live block, or an address that lies in none: so does one that is made
a second time, when the address has not been handed out again. -/
def Allowed : Call → System → Prop
  | .alloc _ _, _ => True
  | .free _ addr pages, s => (addr, pages) ∈ s.live ∨ Idle s.live addr

/-- How many live blocks, blocks of free lists and entries of caches a page lies in. -/
def holders (s : System) (p : Nat) : Nat :=
  s.live.countP (fun block => decide (block.1 ≤ p * pageSize ∧ p * pageSize < block.1 + blockBytes block.2)) +
    (∑ order ∈ Finset.range (pmmMaxOrder + 1), (s.pmm.freeLists order).countP fun start => decide (start ≤ p ∧ p < start + 2 ^ order)) +
    ∑ cpu : Cpu, (s.pmm.caches cpu).count p

/-- What holds between calls. -/
structure Consistent (memmap : List MemmapEntry) (s : System) : Prop where
  apart : s.live.Pairwise fun first second =>
    first.1 + blockBytes first.2 ≤ second.1 ∨ second.1 + blockBytes second.2 ≤ first.1
  usable : ∀ block ∈ s.live, ∀ byte, block.1 ≤ byte → byte < block.1 + blockBytes block.2 → ∃ entry ∈ memmap, entry.Covers byte
  clear : ∀ block ∈ s.live, ∀ byte, block.1 ≤ byte → byte < block.1 + blockBytes block.2 →
    ¬(s.pmm.sharePhys ≤ byte ∧ byte < s.pmm.sharePhys + s.pmm.totalPages) ∧
      ¬(s.pmm.statePhys ≤ byte ∧ byte < s.pmm.statePhys + s.pmm.totalPages)
  aligned : ∀ block ∈ s.live, blockBytes block.2 ∣ block.1
  one : ∀ p, s.pmm.pmmPageManaged p = true → holders s p = 1
  counted : s.pmm.freePages = s.pmm.stock
  joined : ∀ order < pmmMaxOrder, ∀ start ∈ s.pmm.freeLists order, buddyOf order start ∉ s.pmm.freeLists order
  repeated : ∀ cpu addr pages, Idle s.live addr → s.pmm.pmmFree cpu addr pages = s.pmm

/-- The marks of the pages, and the blocks that are live. -/
structure Tracked (boot : Allocator) (first mark : Nat → Mark Cpu) (s : System) : Prop extends Resting mark s.pmm where
  statics : s.pmm.statics = boot.statics
  outside {p : Nat} : mark p = .outside ↔ first p = .outside
  held {block : Nat × Nat} : block ∈ s.live → ∃ page, block.1 = page * pageSize ∧ 2 ^ orderForPages block.2 ∣ page ∧ 0 < block.2 ∧
    mark page = .used (orderForPages block.2)
  owner {p order : Nat} : mark p = .used order →
    ∃ block ∈ s.live, orderForPages block.2 = order ∧ SameBlock order p (block.1 / pageSize)
  distinct : (s.live.map Prod.fst).Nodup

section Steps

variable {memmap : List MemmapEntry} {boot : Allocator} {first mark : Nat → Mark Cpu} {s : System} {cpu : Cpu} {addr pages p : Nat}

theorem page_of_addr (page : Nat) : page * pageSize / pageSize = page := Nat.mul_div_cancel _ (by decide)

theorem addr_in_block_iff {page order : Nat} (aligned : 2 ^ order ∣ page) :
    SameBlock order (addr / pageSize) page ↔ page * pageSize ≤ addr ∧ addr < page * pageSize + 2 ^ order * pageSize := by
  rw [sameBlock_iff aligned, ← Nat.add_mul, Nat.le_div_iff_mul_le (by decide), Nat.div_lt_iff_lt_mul (by decide)]

section

variable (tracked : Tracked boot first mark s)
include tracked

theorem Tracked.alloc : ∃ after, Tracked boot first after (act (.alloc cpu pages) s) := by
  obtain ⟨after, resting, statics, answered⟩ := @Resting.pmmAlloc _ _ pages cpu tracked.toResting
  unfold act
  dsimp only
  cases answer : s.pmm.pmmAlloc cpu pages with
  | mk result next =>
    rw [answer] at resting statics answered
    cases result with
    | none =>
      exact ⟨after, resting, statics.trans tracked.statics, (answered _).outside_iff.symm.trans tracked.outside,
        fun member => by
          obtain ⟨page, at_, aligned, some_, used⟩ := tracked.held member
          exact ⟨page, at_, aligned, some_, (answered _).used_iff.mp used⟩,
        fun used => tracked.owner ((answered _).used_iff.mpr used), tracked.distinct⟩
    | some addr =>
      obtain ⟨page, rfl, some_, given⟩ := answered
      have notSpare : ∀ {q order}, mark q = .used order → ¬SameBlock (orderForPages pages) q page := fun used inside => by
        have := given.spare inside
        rw [used] at this
        exact this
      refine ⟨after, resting, statics.trans tracked.statics, fun {p} => ?_, fun {block} member => ?_, fun {p order} used => ?_, ?_⟩
      · by_cases inside : SameBlock (orderForPages pages) p page
        · refine ⟨fun out => (nomatch (given.used inside).symm.trans out), fun out => ?_⟩
          have spare := given.spare inside
          rw [tracked.outside.mpr out] at spare
          exact spare.elim
        · exact (given.elsewhere inside).outside_iff.symm.trans tracked.outside
      · rcases mem_cons.mp member with rfl | member
        · exact ⟨page, rfl, given.aligned, some_, given.used rfl⟩
        · obtain ⟨old, at_, aligned, positive, used⟩ := tracked.held member
          exact ⟨old, at_, aligned, positive, (given.elsewhere (notSpare used)).used_iff.mp used⟩
      · by_cases inside : SameBlock (orderForPages pages) p page
        · cases (given.used inside).symm.trans used
          refine ⟨_, mem_cons_self, rfl, ?_⟩
          dsimp only
          rwa [page_of_addr]
        · obtain ⟨block, member, order_, same⟩ := tracked.owner ((given.elsewhere inside).used_iff.mpr used)
          exact ⟨block, mem_cons_of_mem _ member, order_, same⟩
      · refine nodup_cons.mpr ⟨fun member => ?_, tracked.distinct⟩
        obtain ⟨block, inside, same⟩ := mem_map.mp member
        obtain ⟨old, at_, -, -, used⟩ := tracked.held inside
        have same_ : old = page := Nat.eq_of_mul_eq_mul_right (by decide : 0 < pageSize) (at_.symm.trans same)
        exact notSpare used (same_ ▸ rfl)

theorem Tracked.in_live_iff {block : Nat × Nat} (member : block ∈ s.live) :
    SameBlock (orderForPages block.2) (addr / pageSize) (block.1 / pageSize) ↔ block.1 ≤ addr ∧ addr < block.1 + blockBytes block.2 := by
  obtain ⟨page, at_, aligned, -, -⟩ := tracked.held member
  rw [at_, page_of_addr]
  exact addr_in_block_iff aligned

theorem Tracked.idle (idle : Idle s.live addr) (order : Nat) : mark (addr / pageSize) ≠ .used order := by
  intro used
  obtain ⟨block, member, rfl, same⟩ := tracked.owner used
  exact idle block member ((tracked.in_live_iff member).mp same)

theorem Tracked.free_idle (idle : Idle s.live addr) :
    s.pmm.pmmFree cpu addr pages = s.pmm ∧ act (.free cpu addr pages) s = s := by
  have same : s.pmm.pmmFree cpu addr pages = s.pmm := tracked.toSound.pmmFree_idle (tracked.idle idle)
  refine ⟨same, ?_⟩
  have absent : (addr, pages) ∉ s.live := by
    intro member
    have bytes : 0 < blockBytes pages := Nat.mul_pos (Nat.two_pow_pos _) (by decide)
    exact idle _ member ⟨Nat.le_refl _, Nat.lt_add_of_pos_right bytes⟩
  change (⟨s.pmm.pmmFree cpu addr pages, s.live.erase (addr, pages)⟩ : System) = s
  rw [same, erase_of_not_mem absent]

theorem Tracked.unique {one two : Nat × Nat} (left : one ∈ s.live) (right : two ∈ s.live)
    (same : one.1 = two.1) : one = two :=
  inj_on_of_nodup_map tracked.distinct left right same

theorem Tracked.meet {one two : Nat × Nat} (left : one ∈ s.live) (right : two ∈ s.live)
    (inOne : SameBlock (orderForPages one.2) p (one.1 / pageSize)) (inTwo : SameBlock (orderForPages two.2) p (two.1 / pageSize)) :
    one = two := by
  obtain ⟨page, at_, aligned, -, used⟩ := tracked.held left
  obtain ⟨other, at_', aligned', -, used'⟩ := tracked.held right
  rw [at_, page_of_addr] at inOne
  rw [at_', page_of_addr] at inTwo
  have here := tracked.layout.used used inOne
  have there := tracked.layout.used used' inTwo
  have order : orderForPages one.2 = orderForPages two.2 := Mark.used.inj (here.symm.trans there)
  rw [order] at inOne aligned
  have pages : page = other := start_unique aligned aligned' (inOne.symm.trans inTwo)
  exact tracked.unique left right (by rw [at_, at_', pages])

theorem Tracked.free (managed : ∀ p, first p ≠ .outside → boot.pmmPageManaged p = true)
    (member : (addr, pages) ∈ s.live) : ∃ after, Tracked boot first after (act (.free cpu addr pages) s) := by
  obtain ⟨page, at_, aligned, some_, used⟩ := tracked.held member
  dsimp only at at_ aligned some_ used
  subst at_
  have some_' : mark page ≠ .outside := by
    rw [used]
    exact nofun
  have last : SameBlock (orderForPages pages) (page + 2 ^ orderForPages pages - 1) page :=
    (sameBlock_iff aligned).mpr (by have := Nat.two_pow_pos (orderForPages pages); omega)
  have high := tracked.low (p := page + 2 ^ orderForPages pages - 1) (by rw [tracked.layout.used used last]; exact nofun)
  have enough := le_orderForPages pages
  have regions : s.pmm.regions = boot.regions := congrArg (fun statics => statics.2.1) tracked.statics
  have known : s.pmm.pmmPageManaged page = true := by
    rw [Allocator.pmmPageManaged, regions]
    exact managed page fun out => some_' (tracked.outside.mpr out)
  obtain ⟨after, resting, statics, returned⟩ := @Resting.pmmFree_used _ _ (orderForPages pages) pages (page * pageSize) cpu
    tracked.toResting (Nat.ne_of_gt some_) (Nat.mul_mod_left ..) (by rw [page_of_addr]; omega)
    (by rw [page_of_addr]; exact known) (by rw [page_of_addr]; exact used)
  rw [page_of_addr, blockStart_of_dvd aligned] at returned
  have nodup : s.live.Nodup := List.Nodup.of_map _ tracked.distinct
  have apart : ∀ block ∈ s.live.erase (page * pageSize, pages), ∀ q,
      SameBlock (orderForPages block.2) q (block.1 / pageSize) → ¬SameBlock (orderForPages pages) q page := by
    intro block inside q inBlock inFreed
    obtain ⟨differ, here⟩ := (List.Nodup.mem_erase_iff nodup).mp inside
    refine differ (tracked.meet here member inBlock ?_)
    dsimp only
    rwa [page_of_addr]
  refine ⟨after, resting, statics.trans tracked.statics, fun {p} => ?_, fun {block} inside => ?_, fun {p order} still => ?_, ?_⟩
  · by_cases inside : SameBlock (orderForPages pages) p page
    · have spare := returned.spare inside
      have old := returned.used inside
      constructor
      · intro out
        rw [out] at spare
        exact spare.elim
      · intro out
        rw [tracked.outside.mpr out] at old
        cases old
    · exact (returned.elsewhere inside).outside_iff.symm.trans tracked.outside
  · have here := mem_of_mem_erase inside
    obtain ⟨old, at_, aligned', positive, used'⟩ := tracked.held here
    refine ⟨old, at_, aligned', positive, (returned.elsewhere (apart block inside old ?_)).used_iff.mp used'⟩
    rw [at_, page_of_addr]
    rfl
  · have outside : ¬SameBlock (orderForPages pages) p page := fun inside => by
      have spare := returned.spare inside
      rw [still] at spare
      exact spare
    obtain ⟨block, here, order_, same⟩ := tracked.owner ((returned.elsewhere outside).used_iff.mpr still)
    refine ⟨block, (List.Nodup.mem_erase_iff nodup).mpr ⟨fun at_ => outside ?_, here⟩, order_, same⟩
    subst at_
    dsimp only at order_ same
    rwa [← order_, page_of_addr] at same
  · exact tracked.distinct.sublist ((erase_sublist).map _)

end

end Steps

section Consistency

variable {memmap : List MemmapEntry} {boot : Allocator} {first mark : Nat → Mark Cpu} {s : System} {p : Nat}

theorem Ok.countP_list {pmm : Allocator} (ok : Ok mark pmm) (order : Nat) :
    ((pmm.freeLists order).countP fun start => decide (start ≤ p ∧ p < start + 2 ^ order)) = if mark p = .free order then 1 else 0 := by
  have inside : ∀ start ∈ pmm.freeLists order, (start ≤ p ∧ p < start + 2 ^ order ↔ mark p = .free order ∧ start = blockStart order p) := by
    intro start member
    obtain ⟨aligned, free⟩ := ok.listed.mp member
    rw [← sameBlock_iff aligned]
    constructor
    · intro same
      exact ⟨ok.layout.free free same, start_unique aligned blockStart_dvd (same.symm.trans blockStart_same.symm)⟩
    · rintro ⟨-, rfl⟩
      exact blockStart_same.symm
  split
  · rename_i free
    have member : blockStart order p ∈ pmm.freeLists order := ok.listed.mpr ⟨blockStart_dvd, ok.layout.free free blockStart_same⟩
    rw [← count_eq_one_of_mem (ok.listNodup order) member]
    refine countP_congr fun start here => ?_
    rw [decide_eq_true_eq, inside start here, beq_iff_eq]
    exact and_iff_right free
  · rename_i differ
    refine countP_eq_zero.mpr fun start here => ?_
    rw [decide_eq_true_eq, inside start here]
    exact fun both => differ both.1

theorem Ok.count_cache {pmm : Allocator} (ok : Ok mark pmm) (cpu : Cpu) : (pmm.caches cpu).count p = if mark p = .kept cpu then 1 else 0 := by
  split
  · rename_i kept
    exact count_eq_one_of_mem (ok.cacheNodup cpu) (ok.cached.mpr kept)
  · rename_i differ
    exact count_eq_zero.mpr fun member => differ (ok.cached.mp member)

section

variable (tracked : Tracked boot first mark s)
include tracked

theorem Tracked.page_in_live {block : Nat × Nat} (member : block ∈ s.live) :
    block.1 ≤ p * pageSize ∧ p * pageSize < block.1 + blockBytes block.2 ↔ SameBlock (orderForPages block.2) p (block.1 / pageSize) := by
  rw [← tracked.in_live_iff member, page_of_addr]

theorem Tracked.countP_used {order : Nat} (used : mark p = .used order) :
    (s.live.countP fun block => decide (block.1 ≤ p * pageSize ∧ p * pageSize < block.1 + blockBytes block.2)) = 1 := by
  obtain ⟨block, member, rfl, same⟩ := tracked.owner used
  rw [← count_eq_one_of_mem (List.Nodup.of_map _ tracked.distinct) member]
  refine countP_congr fun other here => ?_
  rw [decide_eq_true_eq, tracked.page_in_live here, beq_iff_eq]
  exact ⟨fun there => tracked.meet here member there same, fun at_ => at_ ▸ same⟩

theorem Tracked.countP_unused (unused : ∀ order, mark p ≠ .used order) :
    (s.live.countP fun block => decide (block.1 ≤ p * pageSize ∧ p * pageSize < block.1 + blockBytes block.2)) = 0 := by
  refine countP_eq_zero.mpr fun block here => ?_
  rw [decide_eq_true_eq, tracked.page_in_live here]
  intro same
  obtain ⟨page, at_, -, -, used⟩ := tracked.held here
  rw [at_, page_of_addr] at same
  exact unused _ (tracked.layout.used used same)

theorem Tracked.holders (some_ : mark p ≠ .outside) : holders s p = 1 := by
  unfold Pmm.holders
  rw [Finset.sum_congr rfl fun order _ => tracked.toOk.countP_list order, Finset.sum_congr rfl fun cpu _ => tracked.toOk.count_cache cpu]
  cases kind : mark p with
  | outside => exact absurd kind some_
  | free order =>
    have low : order < pmmMaxOrder + 1 := Nat.lt_succ_of_le (tracked.layout.freeOrder kind)
    rw [tracked.countP_unused fun order used => nomatch kind.symm.trans used]
    simp [low]
  | used order =>
    rw [tracked.countP_used kind]
    simp
  | kept cpu =>
    rw [tracked.countP_unused fun order used => nomatch kind.symm.trans used]
    simp
  | moving => exact absurd kind (tracked.settled p)

theorem Tracked.byte_inside {block : Nat × Nat} {byte : Nat} (member : block ∈ s.live)
    (low : block.1 ≤ byte) (high : byte < block.1 + blockBytes block.2) : first (byte / pageSize) ≠ .outside := by
  have same := (tracked.in_live_iff member).mpr ⟨low, high⟩
  obtain ⟨page, at_, -, -, used⟩ := tracked.held member
  rw [at_, page_of_addr] at same
  intro out
  exact nomatch (tracked.outside.mpr out).symm.trans (tracked.layout.used used same)

end

theorem page_bounds (byte : Nat) : byte / pageSize * pageSize ≤ byte ∧ byte < (byte / pageSize + 1) * pageSize := by
  unfold pageSize
  omega

theorem Tracked.apart (tracked : Tracked boot first mark s) : s.live.Pairwise fun one two =>
    one.1 + blockBytes one.2 ≤ two.1 ∨ two.1 + blockBytes two.2 ≤ one.1 := by
  refine List.Pairwise.imp_of_mem ?_ (pairwise_map.mp tracked.distinct)
  intro one two left right differ
  by_contra overlap
  obtain ⟨below, above⟩ := not_or.mp overlap
  have bytes : ∀ pages, 0 < blockBytes pages := fun pages => Nat.mul_pos (Nat.two_pow_pos _) (by decide)
  have first_ := bytes one.2
  have second := bytes two.2
  have inOne : SameBlock (orderForPages one.2) (max one.1 two.1 / pageSize) (one.1 / pageSize) :=
    (tracked.in_live_iff left).mpr (by omega)
  have inTwo : SameBlock (orderForPages two.2) (max one.1 two.1 / pageSize) (two.1 / pageSize) :=
    (tracked.in_live_iff right).mpr (by omega)
  exact differ (congrArg Prod.fst (tracked.meet left right inOne inTwo))

theorem Tracked.consistent (tracked : Tracked boot first mark s) (booted : Booted memmap first boot) : Consistent memmap s where
  apart := tracked.apart
  usable block member byte low high := by
    obtain ⟨entry, inside, covers⟩ := booted.usable (tracked.byte_inside member low high)
    exact ⟨entry, inside, covers byte (page_bounds byte).1 (page_bounds byte).2⟩
  clear block member byte low high := by
    obtain ⟨share, state⟩ := booted.clear (tracked.byte_inside member low high)
    have statics := tracked.statics
    simp only [Allocator.statics, Prod.mk.injEq] at statics
    rw [statics.1, statics.2.2.1, statics.2.2.2]
    exact ⟨share byte (page_bounds byte).1 (page_bounds byte).2, state byte (page_bounds byte).1 (page_bounds byte).2⟩
  aligned block member := by
    obtain ⟨page, at_, aligned, -, -⟩ := tracked.held member
    rw [at_]
    exact Nat.mul_dvd_mul_right aligned _
  one p managed := by
    have regions : s.pmm.regions = boot.regions := congrArg (fun statics => statics.2.1) tracked.statics
    rw [Allocator.pmmPageManaged, regions] at managed
    exact tracked.holders fun out => booted.managed managed (tracked.outside.mp out)
  counted := tracked.counted
  joined order low start member both :=
    tracked.layout.joined low (tracked.listed.mp member).2 (tracked.listed.mp both).2
  repeated cpu addr pages idle := (tracked.free_idle idle).1

theorem Booted.tracked (booted : Booted memmap mark boot) : Tracked boot mark mark ⟨boot, []⟩ where
  toResting := booted.toResting
  statics := rfl
  outside := Iff.rfl
  held := nofun
  owner {p order} used := by
    have spare := booted.spare (p := p) (by rw [used]; exact nofun)
    rw [used] at spare
    exact spare.elim
  distinct := .nil

/-- In every run of the allocator on a map whose usable entries do not overlap and can all be
recorded, the blocks, the lists, the caches and the count stay consistent. -/
theorem pmm_consistent {now : System} (disjoint : Disjoint memmap) (few : memmap.countP (·.usable) ≤ maxRegions)
    (init : pmmInit memmap = some boot) (run : Run Step Allowed ⟨boot, []⟩ now) :
    Consistent memmap now := by
  obtain ⟨first, booted⟩ := pmmInit_booted disjoint init
  have tracked : ∃ mark, Tracked boot first mark now := by
    induction run with
    | start => exact ⟨first, booted.tracked⟩
    | @next call before after _ allowed taken ih =>
      obtain ⟨mark, tracked⟩ := ih
      rw [taken]
      cases call with
      | alloc cpu pages => exact tracked.alloc
      | free cpu addr pages =>
        rcases allowed with member | idle
        · exact tracked.free (fun p => booted.recorded few) member
        · exact ⟨mark, (tracked.free_idle idle).2.symm ▸ tracked⟩
  obtain ⟨mark, tracked⟩ := tracked
  exact tracked.consistent booted

instance decidableAllowed : ∀ call s, Decidable (Allowed call s)
  | .alloc _ _, _ => isTrue trivial
  | .free _ addr pages, s =>
    inferInstanceAs (Decidable ((addr, pages) ∈ s.live ∨ ∀ block ∈ s.live, ¬(block.1 ≤ addr ∧ addr < block.1 + blockBytes block.2)))

end Consistency

/-! A machine with sixteen usable pages, of which the arrays take a part of the first. -/

namespace Sample

def memmap : List MemmapEntry := [⟨0x1000, 0x10000, true⟩, ⟨0x20000, 0x1000, false⟩]

def boot : Allocator := (pmmInit memmap).get (by decide)

theorem init : pmmInit memmap = some boot := (Option.some_get _).symm

theorem disjoint : Disjoint memmap :=
  pairwise_cons.mpr ⟨fun second member _ _ covers => (by
    cases mem_singleton.mp member
    cases covers.1), pairwise_singleton ..⟩

/-- Two blocks are taken; the first is given back twice. -/
def calls : List Call := [.alloc 0 2, .alloc 1 1, .free 1 0x2000 2, .free 0 0x2000 2]

end Sample

theorem pmm_consistent_sample : (play act Sample.calls ⟨Sample.boot, []⟩).live = [(0xF000, 1)] ∧
    Consistent Sample.memmap (play act Sample.calls ⟨Sample.boot, []⟩) := by
  have meets : Meets act Allowed Sample.calls ⟨Sample.boot, []⟩ := by decide +kernel
  have run : Run Step Allowed ⟨Sample.boot, []⟩ (play act Sample.calls ⟨Sample.boot, []⟩) := Run.play step_act .start meets
  exact ⟨by decide +kernel, pmm_consistent Sample.disjoint (by decide) Sample.init run⟩

end NyonOS.Pmm
