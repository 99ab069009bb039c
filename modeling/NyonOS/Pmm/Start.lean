import NyonOS.Pmm.Operations

namespace NyonOS.Pmm

open Data List Nat
open Paging (pageSize)

/-! The state that `pmm_init` leaves behind. -/

/-- The bytes of usable memory that an entry describes. -/
def MemmapEntry.Covers (entry : MemmapEntry) (byte : Nat) : Prop :=
  entry.usable = true ∧ entry.base ≤ byte ∧ byte < entry.base + entry.length

def MemmapEntry.CoversPage (entry : MemmapEntry) (page : Nat) : Prop :=
  ∀ byte, page * pageSize ≤ byte → byte < (page + 1) * pageSize → entry.Covers byte

/-- Usable entries do not overlap. -/
def Disjoint (memmap : List MemmapEntry) : Prop :=
  memmap.Pairwise fun first second => ∀ byte, first.Covers byte → ¬second.Covers byte

/-! Taking the arrays out of the map. -/

def Shrinks : List MemmapEntry → List MemmapEntry → Prop :=
  List.Forall₂ fun old new => ∀ byte, new.Covers byte → old.Covers byte

section Carve

variable {memmap carved : List MemmapEntry} {size byte : Nat}

theorem carve_shrinks (size : Nat) (memmap : List MemmapEntry) : Shrinks memmap (memmapCarve size memmap).2 := by
  induction memmap with
  | nil => exact .nil
  | cons entry rest ih =>
    unfold memmapCarve
    split
    · exact .cons (fun _ => id) ih
    · rename_i fits
      have long : size ≤ entry.length := Nat.le_of_not_lt fun short => fits (.inr short)
      refine .cons (fun byte covers => ⟨covers.1, ?_, ?_⟩) (forall₂_same.mpr fun _ _ _ => id)
      · have low := covers.2.1
        dsimp only at low
        omega
      · have high := covers.2.2
        dsimp only at high
        omega

theorem Shrinks.member {entry : MemmapEntry} (shrinks : Shrinks memmap carved) (inside : entry ∈ carved) :
    ∃ old ∈ memmap, ∀ byte, entry.Covers byte → old.Covers byte := by
  induction shrinks with
  | nil => cases inside
  | cons head _ ih =>
    rcases mem_cons.mp inside with rfl | later
    · exact ⟨_, mem_cons_self, head⟩
    · obtain ⟨old, member, covers⟩ := ih later
      exact ⟨old, mem_cons_of_mem _ member, covers⟩

theorem Shrinks.disjoint (shrinks : Shrinks memmap carved) (disjoint : Disjoint memmap) : Disjoint carved := by
  induction shrinks with
  | nil => exact .nil
  | cons head tail ih =>
    obtain ⟨first, rest⟩ := pairwise_cons.mp disjoint
    refine pairwise_cons.mpr ⟨fun later inside byte covers other => ?_, ih rest⟩
    obtain ⟨old, member, wider⟩ := Shrinks.member tail inside
    exact first old member byte (head byte covers) (wider byte other)

theorem carve_usable (size : Nat) (memmap : List MemmapEntry) :
    (memmapCarve size memmap).2.countP (·.usable) = memmap.countP (·.usable) := by
  induction memmap with
  | nil => rfl
  | cons entry rest ih =>
    unfold memmapCarve
    split
    · rw [countP_cons, countP_cons, ih]
    · rw [countP_cons, countP_cons]

theorem carve_taken (disjoint : Disjoint memmap) (found : (memmapCarve size memmap).1 ≠ 0)
    (low : (memmapCarve size memmap).1 ≤ byte) (high : byte < (memmapCarve size memmap).1 + size) :
    (∃ entry ∈ memmap, entry.Covers byte) ∧ ∀ entry ∈ (memmapCarve size memmap).2, ¬entry.Covers byte := by
  induction memmap with
  | nil => exact absurd rfl found
  | cons entry rest ih =>
    obtain ⟨first, later⟩ := pairwise_cons.mp disjoint
    unfold memmapCarve at found low high ⊢
    split at found
    · rename_i skipped
      rw [if_pos skipped] at low high ⊢
      obtain ⟨⟨old, member, covers⟩, gone⟩ := ih later found low high
      refine ⟨⟨old, mem_cons_of_mem _ member, covers⟩, fun new inside => ?_⟩
      rcases mem_cons.mp inside with rfl | inside
      · exact fun here => first old member byte here covers
      · exact gone new inside
    · rename_i fits
      rw [if_neg fits] at low high ⊢
      dsimp only at low high
      have long : size ≤ entry.length := Nat.le_of_not_lt fun short => fits (.inr short)
      have usable : entry.usable = true := by
        by_contra unusable
        exact fits (.inl (by simpa using unusable))
      have covers : entry.Covers byte := ⟨usable, low, by omega⟩
      refine ⟨⟨entry, mem_cons_self, covers⟩, fun new inside here => ?_⟩
      rcases mem_cons.mp inside with rfl | inside
      · have := here.2.1
        dsimp only at this
        omega
      · exact first new inside byte covers here

end Carve

variable {memmap : List MemmapEntry}

theorem le_maxAddr {entry : MemmapEntry} (member : entry ∈ memmap) (usable : entry.usable = true) :
    entry.base + entry.length ≤ maxAddr memmap := by
  have grows : ∀ (rest : List MemmapEntry) highest,
      highest ≤ rest.foldl (fun highest entry => if entry.usable then max highest (entry.base + entry.length) else highest) highest := by
    intro rest
    induction rest with
    | nil => exact fun _ => Nat.le_refl _
    | cons head rest ih =>
      intro highest
      refine Nat.le_trans ?_ (ih _)
      dsimp only
      split
      · exact Nat.le_max_left ..
      · exact Nat.le_refl _
  have above : ∀ (rest : List MemmapEntry) highest, entry ∈ rest → entry.base + entry.length ≤
      rest.foldl (fun highest entry => if entry.usable then max highest (entry.base + entry.length) else highest) highest := by
    intro rest
    induction rest with
    | nil => exact fun _ => nofun
    | cons head rest ih =>
      intro highest inside
      rcases mem_cons.mp inside with rfl | inside
      · refine Nat.le_trans ?_ (grows rest _)
        dsimp only
        rw [if_pos usable]
        exact Nat.le_max_right ..
      · exact ih _ inside
  exact above memmap 0 member

/-! Putting the pages of the entries on the lists. -/

section Entries

variable {mark : Nat → Mark Cpu} {pmm : Allocator} {start count : Nat}

theorem addPages_succ : addPages pmm start (count + 1) = (addPages pmm start count).buddyFree (start + count) 0 := by
  rw [addPages, addPages, range_succ, foldl_append, List.foldl_cons, foldl_nil]

theorem addPages_fixed : (addPages pmm start count).fixed = pmm.fixed := by
  induction count with
  | zero => rfl
  | succ count ih =>
    rw [addPages_succ]
    exact mergeUp_fixed.trans ih

theorem addPages_kept : (addPages pmm start count).totalPages = pmm.totalPages ∧ (addPages pmm start count).sharePhys = pmm.sharePhys ∧
    (addPages pmm start count).statePhys = pmm.statePhys := by
  have statics : (addPages pmm start count).statics = pmm.statics := congrArg Prod.fst addPages_fixed
  simp only [Allocator.statics, Prod.mk.injEq] at statics
  exact ⟨statics.1, statics.2.2⟩

theorem Sound.addPages (sound : Sound mark pmm) (outside : ∀ j < count, mark (start + j) = .outside)
    (low : ∀ j < count, start + j < pmm.totalPages) :
    ∃ after, Sound after (addPages pmm start count) ∧ (∀ p, start ≤ p → p < start + count → (after p).Spare) ∧
      (∀ p, ¬(start ≤ p ∧ p < start + count) → (mark p).Alike (after p)) ∧ (addPages pmm start count).stock = pmm.stock + count := by
  induction count with
  | zero => exact ⟨mark, sound, fun p above below => absurd below (by omega), fun _ _ => .inl rfl, (Nat.add_zero _).symm⟩
  | succ count ih =>
    obtain ⟨between, sound', spare, alike, stock⟩ := ih (fun j small => outside j (by omega)) fun j small => low j (by omega)
    have fixed := @addPages_fixed pmm start count
    rw [addPages_succ]
    generalize Pmm.addPages pmm start count = now at sound' stock fixed ⊢
    have total : now.totalPages = pmm.totalPages := congrArg (fun fixed => fixed.1.1) fixed
    have here : between (start + count) = .outside := ((alike _ (by omega)).outside_iff).mp (outside count (by omega))
    have uniform : ∀ p, SameBlock 0 p (start + count) → between p = .outside := fun p same => sameBlock_zero.mp same ▸ here
    have lifted := sound'.toOk.lift (whole_idle fun p inside other => by rw [uniform p inside]; exact ⟨nofun, nofun⟩) uniform
      (fun p same => by rw [sameBlock_zero.mp same, total]; exact low count (lt_succ_self _)) (fun _ => nofun) fun _ => nofun
    obtain ⟨after, sound'', moved, free, stock'⟩ := lifted.buddyFree (Nat.zero_le _) (Nat.one_dvd _) sound'.hole
    have elsewhere : ∀ p, p ≠ start + count → (between p).Alike (after p) := by
      intro p differ
      have apart : ¬SameBlock 0 p (start + count) := fun same => differ (sameBlock_zero.mp same)
      have kept := moved.elsewhere apart
      rwa [paint_other apart] at kept
    refine ⟨after, sound'', fun p above below => ?_, fun p out => ?_, ?_⟩
    · by_cases last : p = start + count
      · exact last ▸ free _ rfl
      · rcases elsewhere p last with same | ⟨-, both⟩
        · exact same ▸ spare p above (by omega)
        · exact both
    · exact (alike p (by omega)).trans (elsewhere p (by omega))
    · rw [stock', stock]
      omega

/-- The state after some entries have been taken in. -/
structure Started (done : List MemmapEntry) (mark : Nat → Mark Cpu) (pmm : Allocator) : Prop extends Resting mark pmm where
  spare {p : Nat} : mark p ≠ .outside → (mark p).Spare
  covered {p : Nat} : mark p ≠ .outside → ∃ entry ∈ done, entry.CoversPage p
  managed {p : Nat} : pmm.pmmPageManaged p = true → mark p ≠ .outside
  recorded {p : Nat} : done.countP (·.usable) ≤ maxRegions → mark p ≠ .outside → pmm.pmmPageManaged p = true
  few : pmm.regions.length ≤ done.countP (·.usable)

variable {done : List MemmapEntry} {entry : MemmapEntry}

theorem entry_covers {page pages : Nat} (usable : entry.usable = true)
    (above : (entry.base + pageSize - 1) / pageSize ≤ page)
    (below : page < (entry.base + pageSize - 1) / pageSize + pages)
    (pages_ : pages = (entry.base + entry.length - (entry.base + pageSize - 1) / pageSize * pageSize) / pageSize) :
    entry.CoversPage page := by
  intro byte low high
  unfold pageSize at above below pages_ low high
  exact ⟨usable, by omega, by omega⟩

theorem pmmPageManaged_iff {page : Nat} : pmm.pmmPageManaged page = true ↔
    ∃ region ∈ pmm.regions, region.base / pageSize ≤ page ∧ page < region.base / pageSize + region.pages := by
  rw [Allocator.pmmPageManaged, any_eq_true]
  simp only [decide_eq_true_eq]

variable {regions : List Region} {new : Region}

theorem mem_pushRegion {region : Region} (member : region ∈ pushRegion regions new) :
    region ∈ regions ∨ region = new := by
  unfold pushRegion at member
  split at member
  · simpa using member
  · exact .inl member

theorem pushRegion_old {region : Region} (member : region ∈ regions) : region ∈ pushRegion regions new := by
  unfold pushRegion
  split
  · exact mem_append_left _ member
  · exact member

theorem pushRegion_new (room : regions.length < maxRegions) : new ∈ pushRegion regions new := by
  rw [pushRegion, if_pos room]
  exact mem_append_right _ mem_cons_self

theorem pushRegion_length : (pushRegion regions new).length ≤ regions.length + 1 := by
  unfold pushRegion
  split
  · rw [length_append, length_singleton]
  · exact le_succ _

theorem Started.skip (started : Started done mark pmm) : Started (done ++ [entry]) mark pmm where
  toResting := started.toResting
  spare := started.spare
  covered some_ := by
    obtain ⟨old, member, covers⟩ := started.covered some_
    exact ⟨old, mem_append_left _ member, covers⟩
  managed := started.managed
  recorded few := started.recorded (by rw [countP_append] at few; omega)
  few := by
    have := started.few
    rw [countP_append]
    omega

theorem Started.addEntry (started : Started done mark pmm) (apart : ∀ old ∈ done, ∀ byte, old.Covers byte → ¬entry.Covers byte)
    (low : ∀ p, entry.CoversPage p → p < pmm.totalPages) : ∃ after, Started (done ++ [entry]) after (addEntry pmm entry) := by
  unfold Pmm.addEntry
  by_cases small : entry.usable = false ∨ entry.length < pageSize
  · rw [if_pos small]
    exact ⟨mark, started.skip⟩
  · rw [if_neg small]
    dsimp only
    by_cases tight : (entry.base + pageSize - 1) / pageSize * pageSize ≥ entry.base + entry.length
    · rw [if_pos tight]
      exact ⟨mark, started.skip⟩
    · rw [if_neg tight]
      have usable : entry.usable = true := by
        by_contra unusable
        exact small (.inl (by simpa using unusable))
      generalize size : (entry.base + entry.length - (entry.base + pageSize - 1) / pageSize * pageSize) / pageSize = pages
      generalize first : (entry.base + pageSize - 1) / pageSize = start
      have covers : ∀ p, start ≤ p → p < start + pages → entry.CoversPage p := fun p above below =>
        entry_covers usable (first ▸ above) (first ▸ below) size.symm
      have outside : ∀ p, start ≤ p → p < start + pages → mark p = .outside := by
        intro p above below
        by_contra some_
        obtain ⟨old, member, oldCovers⟩ := started.covered some_
        have inside : p * pageSize < (p + 1) * pageSize := Nat.mul_lt_mul_of_pos_right (lt_succ_self p) (by decide)
        exact apart old member _ (oldCovers _ (Nat.le_refl _) inside) (covers p above below _ (Nat.le_refl _) inside)
      have whole : start * pageSize / pageSize = start := Nat.mul_div_cancel _ (by decide)
      rw [whole]
      have entered : Sound mark { pmm with regions := pushRegion pmm.regions ⟨start * pageSize, pages⟩ } :=
        ⟨{ started.toOk with }, started.settled⟩
      obtain ⟨after, sound, spare, alike, stock⟩ := @Sound.addPages _ _ start pages entered
        (fun j inside => outside _ (Nat.le_add_right ..) (by omega)) fun j inside => low _ (covers _ (Nat.le_add_right ..) (by omega))
      have fixed := @addPages_fixed { pmm with regions := pushRegion pmm.regions ⟨start * pageSize, pages⟩ } start pages
      generalize Pmm.addPages { pmm with regions := pushRegion pmm.regions ⟨start * pageSize, pages⟩ } start pages = filled at sound stock fixed ⊢
      have freePages : filled.freePages = pmm.freePages := congrArg Prod.snd fixed
      have regions : filled.regions = pushRegion pmm.regions ⟨start * pageSize, pages⟩ := congrArg (fun fixed => fixed.1.2.1) fixed
      have within : ∀ p, after p ≠ .outside → ¬(start ≤ p ∧ p < start + pages) → mark p ≠ .outside := fun p some_ out old =>
        some_ ((alike p out).outside_iff.mp old)
      have spares : ∀ p, after p ≠ .outside → (after p).Spare := by
        intro p some_
        by_cases inside : start ≤ p ∧ p < start + pages
        · exact spare p inside.1 inside.2
        · rcases alike p inside with same | ⟨-, both⟩
          · exact same ▸ started.spare (within p some_ inside)
          · exact both
      refine ⟨after, ⟨⟨⟨{ sound.toOk with }, sound.settled⟩, ?_⟩, fun {p} => spares p, fun {p} some_ => ?_, fun {p} managed => ?_,
        fun {p} few some_ => ?_, ?_⟩⟩
      · have same : ∀ (now : Allocator) n, { now with freePages := n }.stock = now.stock := fun _ _ => rfl
        rw [same, stock, freePages, started.counted]
        rfl
      · by_cases inside : start ≤ p ∧ p < start + pages
        · exact ⟨entry, mem_append_right _ mem_cons_self, covers p inside.1 inside.2⟩
        · obtain ⟨old, member, oldCovers⟩ := started.covered (within p some_ inside)
          exact ⟨old, mem_append_left _ member, oldCovers⟩
      · obtain ⟨region, member, range⟩ := pmmPageManaged_iff.mp managed
        dsimp only at member
        rw [regions] at member
        by_cases inside : start ≤ p ∧ p < start + pages
        · intro out
          have := spare p inside.1 inside.2
          rw [out] at this
          exact this
        · rcases mem_pushRegion member with old | rfl
          · have kept := started.managed (pmmPageManaged_iff.mpr ⟨region, old, range⟩)
            exact fun out => kept ((alike p inside).outside_iff.mpr out)
          · exact absurd (by rwa [whole] at range) inside
      · rw [countP_append, countP_singleton, if_pos usable] at few
        refine pmmPageManaged_iff.mpr ?_
        dsimp only
        rw [regions]
        by_cases inside : start ≤ p ∧ p < start + pages
        · have room := started.few
          exact ⟨_, pushRegion_new (by omega), by rwa [whole]⟩
        · obtain ⟨region, member, range⟩ := pmmPageManaged_iff.mp (started.recorded (by omega) (within p some_ inside))
          exact ⟨region, pushRegion_old member, range⟩
      · dsimp only
        rw [regions, countP_append, countP_singleton, if_pos usable]
        exact Nat.le_trans pushRegion_length (succ_le_succ started.few)

theorem addEntry_kept : (addEntry pmm entry).totalPages = pmm.totalPages ∧ (addEntry pmm entry).sharePhys = pmm.sharePhys ∧
    (addEntry pmm entry).statePhys = pmm.statePhys := by
  unfold addEntry
  split
  · exact ⟨rfl, rfl, rfl⟩
  · dsimp only
    split
    · exact ⟨rfl, rfl, rfl⟩
    · exact @addPages_kept { pmm with regions := _ } _ _

theorem addEntries_kept (entries : List MemmapEntry) :
    (entries.foldl addEntry pmm).totalPages = pmm.totalPages ∧ (entries.foldl addEntry pmm).sharePhys = pmm.sharePhys ∧
      (entries.foldl addEntry pmm).statePhys = pmm.statePhys := by
  induction entries generalizing pmm with
  | nil => exact ⟨rfl, rfl, rfl⟩
  | cons entry rest ih =>
    obtain ⟨total, share, state⟩ := @ih (addEntry pmm entry)
    obtain ⟨total', share', state'⟩ := @addEntry_kept pmm entry
    exact ⟨total.trans total', share.trans share', state.trans state'⟩

theorem Started.addEntries {rest : List MemmapEntry} (started : Started done mark pmm) (disjoint : Disjoint (done ++ rest))
    (low : ∀ entry ∈ rest, ∀ p, entry.CoversPage p → p < pmm.totalPages) :
    ∃ after, Started (done ++ rest) after (rest.foldl Pmm.addEntry pmm) := by
  induction rest generalizing done mark pmm with
  | nil => exact ⟨mark, (append_nil done).symm ▸ started⟩
  | cons entry rest ih =>
    have apart : ∀ old ∈ done, ∀ byte, old.Covers byte → ¬entry.Covers byte := fun old member =>
      (pairwise_append.mp disjoint).2.2 old member entry mem_cons_self
    obtain ⟨between, next⟩ := started.addEntry apart (low entry mem_cons_self)
    rw [append_cons] at disjoint ⊢
    exact ih next disjoint fun later member p covers => by
      rw [addEntry_kept.1]
      exact low later (mem_cons_of_mem _ member) p covers

end Entries

def Clear (page start bytes : Nat) : Prop :=
  ∀ byte, page * pageSize ≤ byte → byte < (page + 1) * pageSize → ¬(start ≤ byte ∧ byte < start + bytes)

/-- The allocator after `pmm_init`. -/
structure Booted (memmap : List MemmapEntry) (mark : Nat → Mark Cpu) (pmm : Allocator) : Prop extends Resting mark pmm where
  spare {p : Nat} : mark p ≠ .outside → (mark p).Spare
  usable {p : Nat} : mark p ≠ .outside → ∃ entry ∈ memmap, entry.CoversPage p
  clear {p : Nat} : mark p ≠ .outside → Clear p pmm.sharePhys pmm.totalPages ∧ Clear p pmm.statePhys pmm.totalPages
  managed {p : Nat} : pmm.pmmPageManaged p = true → mark p ≠ .outside
  recorded {p : Nat} : memmap.countP (·.usable) ≤ maxRegions → mark p ≠ .outside → pmm.pmmPageManaged p = true

theorem emptyAllocator_started {totalPages sharePhys statePhys : Nat} :
    Started [] (fun _ => .outside) (emptyAllocator totalPages sharePhys statePhys) where
  layout := ⟨nofun, nofun, nofun, nofun, nofun⟩
  byte _ := rfl
  low some_ := absurd rfl some_
  listed := ⟨nofun, nofun⟩
  cached := ⟨nofun, nofun⟩
  listNodup _ := .nil
  cacheNodup _ := .nil
  short _ := Nat.zero_le _
  settled _ := nofun
  counted := by simp [Allocator.stock, emptyAllocator]
  spare some_ := absurd rfl some_
  covered some_ := absurd rfl some_
  managed := nofun
  recorded _ some_ := absurd rfl some_
  few := Nat.le_refl _

theorem pmmInit_booted {pmm : Allocator} (disjoint : Disjoint memmap) (init : pmmInit memmap = some pmm) :
    ∃ mark, Booted memmap mark pmm := by
  unfold pmmInit at init
  dsimp only at init
  generalize pages : (maxAddr memmap + pageSize - 1) / pageSize = total at init
  split at init
  · contradiction
  · rename_i found
    cases init
    obtain ⟨shareFound, stateFound⟩ := not_or.mp found
    have shareShrinks := carve_shrinks total memmap
    have stateShrinks := carve_shrinks total (memmapCarve total memmap).2
    have shareDisjoint := shareShrinks.disjoint disjoint
    have stateDisjoint := stateShrinks.disjoint shareDisjoint
    have origin : ∀ entry ∈ (memmapCarve total (memmapCarve total memmap).2).2,
        ∃ old ∈ memmap, ∀ byte, entry.Covers byte → old.Covers byte := by
      intro entry member
      obtain ⟨middle, inside, covers⟩ := stateShrinks.member member
      obtain ⟨old, first, covers'⟩ := shareShrinks.member inside
      exact ⟨old, first, fun byte here => covers' byte (covers byte here)⟩
    have low : ∀ entry ∈ (memmapCarve total (memmapCarve total memmap).2).2, ∀ p, entry.CoversPage p → p < total := by
      intro entry member p covers
      obtain ⟨old, first, wider⟩ := origin entry member
      have last := wider _ (covers (p * pageSize) (Nat.le_refl _) (Nat.mul_lt_mul_of_pos_right (lt_succ_self p) (by decide)))
      have bound := le_maxAddr first last.1
      have below := last.2.2
      unfold pageSize at pages below
      omega
    obtain ⟨mark, started⟩ : ∃ after, Started ([] ++ _) after _ := emptyAllocator_started.addEntries stateDisjoint low
    obtain ⟨totalKept, shareKept, stateKept⟩ := @addEntries_kept
      (emptyAllocator total (memmapCarve total memmap).1 (memmapCarve total (memmapCarve total memmap).2).1)
      (memmapCarve total (memmapCarve total memmap).2).2
    refine ⟨mark, ⟨started.toResting, started.spare, fun some_ => ?_, fun some_ => ?_, started.managed, fun few some_ => ?_⟩⟩
    · obtain ⟨entry, member, covers⟩ := started.covered some_
      obtain ⟨old, first, wider⟩ := origin entry member
      exact ⟨old, first, fun byte above below => wider byte (covers byte above below)⟩
    · obtain ⟨entry, member, covers⟩ := started.covered some_
      rw [totalKept, shareKept, stateKept]
      constructor
      · intro byte above below range
        obtain ⟨middle, inside, wider⟩ := stateShrinks.member member
        exact (carve_taken disjoint shareFound range.1 range.2).2 middle inside (wider byte (covers byte above below))
      · intro byte above below range
        exact (carve_taken shareDisjoint stateFound range.1 range.2).2 entry member (covers byte above below)
    · refine started.recorded ?_ some_
      rwa [nil_append, carve_usable, carve_usable]

end NyonOS.Pmm
