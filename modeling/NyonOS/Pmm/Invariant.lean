import NyonOS.Pmm.Allocator

namespace NyonOS.Pmm

open Data List Finset
open Paging (pageSize)
open Function

/-! What the bytes of the pages, the free lists and the caches say about each other. -/

def byteOf : Mark Cpu → UInt8
  | .outside => pmmReserved
  | .free order => pmmStateFree order
  | .used order => pmmStateUsed order
  | .kept _ => pmmBuffered
  | .moving => pmmReserved

theorem free_byte_inj : ∀ order ≤ pmmMaxOrder, ∀ other ≤ pmmMaxOrder, pmmStateFree order = pmmStateFree other → order = other := by
  decide

theorem free_byte_ne : ∀ order ≤ pmmMaxOrder, ∀ other ≤ pmmMaxOrder, pmmStateUsed other ≠ pmmStateFree order := by
  decide

theorem free_byte_odd : ∀ order ≤ pmmMaxOrder, pmmBuffered ≠ pmmStateFree order ∧ pmmReserved ≠ pmmStateFree order := by
  decide

/-- The marks of the pages agree with the variables of the allocator. -/
structure Ok (mark : Nat → Mark Cpu) (pmm : Allocator) : Prop where
  layout : Layout pmmMaxOrder mark
  byte {p : Nat} : mark p ≠ .moving → pmm.state p = byteOf (mark p)
  low {p : Nat} : mark p ≠ .outside → p < pmm.totalPages
  listed {order p : Nat} : p ∈ pmm.freeLists order ↔ 2 ^ order ∣ p ∧ mark p = .free order
  cached {cpu : Cpu} {p : Nat} : p ∈ pmm.caches cpu ↔ mark p = .kept cpu
  listNodup (order : Nat) : (pmm.freeLists order).Nodup
  cacheNodup (cpu : Cpu) : (pmm.caches cpu).Nodup
  short (cpu : Cpu) : (pmm.caches cpu).length ≤ pmmCacheSize

section Primitives

variable {mark : Nat → Mark Cpu} {pmm : Allocator} {order page p : Nat} {cpu : Cpu}

theorem Ok.free_of_byte (ok : Ok mark pmm) (low : order ≤ pmmMaxOrder) (still : mark p ≠ .moving)
    (byte : pmm.state p = pmmStateFree order) : mark p = .free order := by
  rw [ok.byte still] at byte
  cases kind : mark p with
  | outside =>
    rw [kind] at byte
    exact absurd byte (free_byte_odd order low).2
  | free other =>
    rw [kind] at byte
    rw [free_byte_inj other (ok.layout.freeOrder kind) order low byte]
  | used other =>
    rw [kind] at byte
    exact absurd byte (free_byte_ne order low other (ok.layout.usedOrder kind))
  | kept cpu =>
    rw [kind] at byte
    exact absurd byte (free_byte_odd order low).1
  | moving => exact absurd kind still

theorem stateFill_inside {value : UInt8} (aligned : 2 ^ order ∣ page) (inside : SameBlock order p page) :
    (pmm.stateFill page (2 ^ order) value).state p = value := if_pos ((sameBlock_iff aligned).mp inside)

theorem stateFill_outside {value : UInt8} (aligned : 2 ^ order ∣ page) (outside : ¬SameBlock order p page) :
    (pmm.stateFill page (2 ^ order) value).state p = pmm.state p := if_neg fun range => outside ((sameBlock_iff aligned).mpr range)

section Paint

variable {old new : Mark Cpu} (ok : Ok mark pmm) (uniform : ∀ p, SameBlock order p page → mark p = old)
include ok

theorem Ok.byte_moving (still : paint mark order page .moving p ≠ .moving) :
    pmm.state p = byteOf (paint mark order page .moving p) := by
  have outside : ¬SameBlock order p page := fun inside => still (paint_same inside)
  rw [paint_other outside] at still ⊢
  exact ok.byte still

theorem Ok.byte_fill {value : UInt8} (aligned : 2 ^ order ∣ page) (means : value = byteOf new)
    (still : paint mark order page new p ≠ .moving) :
    (pmm.stateFill page (2 ^ order) value).state p = byteOf (paint mark order page new p) := by
  by_cases inside : SameBlock order p page
  · rw [stateFill_inside aligned inside, paint_same inside, means]
  · rw [paint_other inside] at still ⊢
    rw [stateFill_outside aligned inside]
    exact ok.byte still

include uniform

theorem Ok.low_paint (was : old ≠ .outside) (is : new ≠ .outside) (some_ : paint mark order page new p ≠ .outside) : p < pmm.totalPages :=
  ok.low fun out => some_ (Iff.mpr (paint_iff uniform was is) out)

theorem Ok.listed_paint (was : ∀ other, old ≠ .free other) (is : ∀ other, new ≠ .free other) {other : Nat} :
    p ∈ pmm.freeLists other ↔ 2 ^ other ∣ p ∧ paint mark order page new p = .free other :=
  Iff.trans ok.listed (and_congr_right fun _ => Iff.symm (paint_iff uniform (was other) (is other)))

theorem Ok.cached_paint (was : ∀ cpu, old ≠ .kept cpu) (is : ∀ cpu, new ≠ .kept cpu) :
    p ∈ pmm.caches cpu ↔ paint mark order page new p = .kept cpu :=
  Iff.trans ok.cached (Iff.symm (paint_iff uniform (was cpu) (is cpu)))

end Paint

section

variable (ok : Ok mark pmm)
include ok

theorem Ok.freeListRemove (aligned : 2 ^ order ∣ page) (free : mark page = .free order) :
    Ok (paint mark order page .moving) (pmm.freeListRemove order page) := by
  have uniform : ∀ m, SameBlock order m page → mark m = .free order := fun m same => ok.layout.free free same
  refine
    { layout := ok.layout.paint (ok.layout.whole_free free) fits_moving
      byte := ok.byte_moving, low := ok.low_paint uniform nofun nofun, listed := ?_
      cached := ok.cached_paint uniform (by simp) (by simp), listNodup := ?_
      cacheNodup := ok.cacheNodup, short := ok.short }
  · intro other p
    unfold Allocator.freeListRemove
    dsimp only
    by_cases same : other = order
    · subst same
      rw [update_self, (ok.listNodup other).mem_erase_iff, ok.listed]
      constructor
      · rintro ⟨differ, dvd, here⟩
        exact ⟨dvd, by rw [paint_other fun inside => differ (start_unique dvd aligned inside), here]⟩
      · rintro ⟨dvd, here⟩
        have outside : ¬SameBlock other p page := fun inside => nomatch (paint_same inside).symm.trans here
        exact ⟨fun at_ => outside (at_ ▸ rfl), dvd, (paint_other outside).symm.trans here⟩
    · rw [update_of_ne same]
      exact Iff.trans ok.listed (and_congr_right fun _ => Iff.symm (paint_iff uniform (fun here => same (Mark.free.inj here).symm) nofun))
  · exact (forall_update_iff _ fun _ => List.Nodup).mpr ⟨(ok.listNodup order).erase _, fun other _ => ok.listNodup other⟩

theorem Ok.putFree (low : order ≤ pmmMaxOrder) (aligned : 2 ^ order ∣ page)
    (moving : ∀ p, SameBlock order p page → mark p = .moving)
    (alone : order < pmmMaxOrder → mark (buddyOf order page) ≠ .free order) :
    Ok (paint mark order page (.free order)) (pmm.putFree page order) := by
  have whole : Whole mark order page := whole_idle fun p inside other => by rw [moving p inside]; exact ⟨nofun, nofun⟩
  refine
    { layout := ok.layout.paint whole (fits_free low alone)
      byte := ok.byte_fill aligned rfl, low := ok.low_paint moving nofun nofun, listed := ?_
      cached := ok.cached_paint moving (by simp) (by simp), listNodup := ?_
      cacheNodup := ok.cacheNodup, short := ok.short }
  · intro other p
    unfold Allocator.putFree Allocator.freeListAdd Allocator.stateFill
    dsimp only
    by_cases same : other = order
    · subst same
      rw [update_self, List.mem_cons, ok.listed]
      constructor
      · rintro (rfl | ⟨dvd, here⟩)
        · exact ⟨aligned, paint_same rfl⟩
        · refine ⟨dvd, ?_⟩
          rwa [paint_other fun inside => nomatch (moving p inside).symm.trans here]
      · rintro ⟨dvd, here⟩
        by_cases inside : SameBlock other p page
        · exact .inl (start_unique dvd aligned inside)
        · exact .inr ⟨dvd, (paint_other inside).symm.trans here⟩
    · rw [update_of_ne same]
      exact Iff.trans ok.listed (and_congr_right fun _ => Iff.symm (paint_iff moving nofun fun here => same (Mark.free.inj here).symm))
  · refine (forall_update_iff _ fun _ => List.Nodup).mpr ⟨?_, fun other _ => ok.listNodup other⟩
    refine nodup_cons.mpr ⟨fun member => ?_, ok.listNodup order⟩
    exact nomatch (moving page rfl).symm.trans (ok.listed.mp member).2

theorem Ok.fillUsed (low : order ≤ pmmMaxOrder) (aligned : 2 ^ order ∣ page)
    (moving : ∀ p, SameBlock order p page → mark p = .moving) :
    Ok (paint mark order page (.used order)) (pmm.stateFill page (2 ^ order) (pmmStateUsed order)) := by
  have whole : Whole mark order page := whole_idle fun p inside other => by rw [moving p inside]; exact ⟨nofun, nofun⟩
  exact
    { layout := ok.layout.paint whole (fits_used low)
      byte := ok.byte_fill aligned rfl, low := ok.low_paint moving nofun nofun
      listed := ok.listed_paint moving (by simp) (by simp)
      cached := ok.cached_paint moving (by simp) (by simp), listNodup := ok.listNodup
      cacheNodup := ok.cacheNodup, short := ok.short }

theorem Ok.lift {old : Mark Cpu} (whole : Whole mark order page) (uniform : ∀ p, SameBlock order p page → mark p = old)
    (range : ∀ p, SameBlock order p page → p < pmm.totalPages)
    (unlisted : ∀ other, old ≠ .free other) (uncached : ∀ cpu, old ≠ .kept cpu) : Ok (paint mark order page .moving) pmm := by
  refine
    { layout := ok.layout.paint whole fits_moving
      byte := ok.byte_moving, low := ?_, listed := ok.listed_paint uniform unlisted (by simp)
      cached := ok.cached_paint uniform uncached (by simp), listNodup := ok.listNodup
      cacheNodup := ok.cacheNodup, short := ok.short }
  intro p some_
  by_cases inside : SameBlock order p page
  · exact range p inside
  · rw [paint_other inside] at some_
    exact ok.low some_

theorem Ok.liftUsed (used : mark page = .used order) : Ok (paint mark order page .moving) pmm := by
  have uniform : ∀ p, SameBlock order p page → mark p = .used order := fun p inside => ok.layout.used used inside
  exact ok.lift (ok.layout.whole_used used) uniform (fun p inside => ok.low (by rw [uniform p inside]; exact nofun)) (fun _ => nofun) fun _ => nofun

theorem Ok.pop {rest : List Nat} (top : pmm.caches cpu = page :: rest) :
    Ok (paint mark 0 page .moving) (pmm.setCache cpu rest) := by
  have kept : mark page = .kept cpu := ok.cached.mp (top ▸ List.mem_cons_self)
  have uniform : ∀ p, SameBlock 0 p page → mark p = .kept cpu := fun p same => sameBlock_zero.mp same ▸ kept
  have nodup : (page :: rest).Nodup := top ▸ ok.cacheNodup cpu
  refine
    { layout := ok.layout.paint (whole_idle fun p inside other => by rw [uniform p inside]; exact ⟨nofun, nofun⟩) fits_moving
      byte := ok.byte_moving, low := ok.low_paint uniform nofun nofun
      listed := ok.listed_paint uniform (by simp) (by simp), cached := ?_, listNodup := ok.listNodup
      cacheNodup := ?_, short := ?_ }
  · intro other p
    unfold Allocator.setCache
    dsimp only
    by_cases same : other = cpu
    · subst same
      rw [update_self]
      constructor
      · intro member
        have outside : ¬SameBlock 0 p page := fun inside =>
          (nodup_cons.mp nodup).1 (sameBlock_zero.mp inside ▸ member)
        rw [paint_other outside]
        exact ok.cached.mp (top ▸ List.mem_cons_of_mem _ member)
      · intro here
        have outside : ¬SameBlock 0 p page := fun inside => nomatch (paint_same inside).symm.trans here
        rw [paint_other outside] at here
        have member : p ∈ page :: rest := top ▸ ok.cached.mpr here
        exact (List.mem_cons.mp member).resolve_left fun at_ => outside (sameBlock_zero.mpr at_)
    · rw [update_of_ne same]
      exact Iff.trans ok.cached (Iff.symm (paint_iff uniform (fun here => same (Mark.kept.inj here).symm) nofun))
  · exact (forall_update_iff _ fun _ => List.Nodup).mpr ⟨(nodup_cons.mp nodup).2, fun other _ => ok.cacheNodup other⟩
  · refine (forall_update_iff _ fun _ list => List.length list ≤ pmmCacheSize).mpr ⟨?_, fun other _ => ok.short other⟩
    have := ok.short cpu
    rw [top, length_cons] at this
    omega

theorem Ok.buffer (moving : mark page = .moving) (room : (pmm.caches cpu).length < pmmCacheSize) :
    Ok (paint mark 0 page (.kept cpu)) (pmm.buffer cpu page) := by
  have uniform : ∀ p, SameBlock 0 p page → mark p = .moving := fun p same => sameBlock_zero.mp same ▸ moving
  have fresh : page ∉ pmm.caches cpu := fun member => nomatch moving.symm.trans (ok.cached.mp member)
  refine
    { layout := ok.layout.paint (whole_idle fun p inside other => by rw [uniform p inside]; exact ⟨nofun, nofun⟩) fits_kept
      byte := ?_, low := ok.low_paint uniform nofun nofun
      listed := ok.listed_paint uniform (by simp) (by simp), cached := ?_, listNodup := ok.listNodup
      cacheNodup := ?_, short := ?_ }
  · intro p still
    change update pmm.state page pmmBuffered p = _
    by_cases same : p = page
    · rw [same, update_self, paint_same rfl]
      rfl
    · have outside : ¬SameBlock 0 p page := fun inside => same (sameBlock_zero.mp inside)
      rw [paint_other outside] at still ⊢
      rw [update_of_ne same]
      exact ok.byte still
  · intro other p
    unfold Allocator.buffer Allocator.setCache
    dsimp only
    by_cases same : other = cpu
    · subst same
      rw [update_self, List.mem_cons, ok.cached]
      constructor
      · rintro (rfl | here)
        · exact paint_same rfl
        · rwa [paint_other fun inside => nomatch (uniform p inside).symm.trans here]
      · intro here
        by_cases inside : SameBlock 0 p page
        · exact .inl (sameBlock_zero.mp inside)
        · exact .inr ((paint_other inside).symm.trans here)
    · rw [update_of_ne same]
      exact Iff.trans ok.cached (Iff.symm (paint_iff uniform nofun fun here => same (Mark.kept.inj here).symm))
  · exact (forall_update_iff _ fun _ => List.Nodup).mpr
      ⟨nodup_cons.mpr ⟨fresh, ok.cacheNodup cpu⟩, fun other _ => ok.cacheNodup other⟩
  · exact (forall_update_iff _ fun _ list => List.length list ≤ pmmCacheSize).mpr ⟨room, fun other _ => ok.short other⟩

end

end Primitives

/-! How many pages are on the lists and in the caches. -/

def Allocator.stock (pmm : Allocator) : Nat :=
  (∑ order ∈ Finset.range (pmmMaxOrder + 1), (pmm.freeLists order).length * 2 ^ order) + ∑ cpu : Cpu, (pmm.caches cpu).length

theorem sum_update_add {ι : Type} [DecidableEq ι] (terms : Finset ι) (weigh : ι → List Nat → Nat) (table : ι → List Nat) {at_ : ι}
    (member : at_ ∈ terms) (new : List Nat) :
    ∑ i ∈ terms, weigh i (update table at_ new i) + weigh at_ (table at_) = ∑ i ∈ terms, weigh i (table i) + weigh at_ new := by
  have after := add_sum_erase terms (fun i => weigh i (update table at_ new i)) member
  have before := add_sum_erase terms (fun i => weigh i (table i)) member
  have rest : ∑ i ∈ terms.erase at_, weigh i (update table at_ new i) = ∑ i ∈ terms.erase at_, weigh i (table i) :=
    sum_congr rfl fun i inside => by rw [update_of_ne (ne_of_mem_erase inside)]
  rw [update_self] at after
  omega

section Stock

variable {pmm : Allocator} {order page : Nat} {cpu : Cpu} {pages : List Nat}

theorem stock_setList (low : order ≤ pmmMaxOrder) :
    { pmm with freeLists := update pmm.freeLists order pages }.stock + (pmm.freeLists order).length * 2 ^ order =
      pmm.stock + pages.length * 2 ^ order := by
  have change := sum_update_add (Finset.range (pmmMaxOrder + 1)) (fun o list => list.length * 2 ^ o) pmm.freeLists
    (Finset.mem_range.mpr (Nat.lt_succ_of_le low)) pages
  unfold Allocator.stock
  dsimp only at change ⊢
  omega

theorem stock_setCache : (pmm.setCache cpu pages).stock + (pmm.caches cpu).length = pmm.stock + pages.length := by
  have change := sum_update_add Finset.univ (fun _ list => list.length) pmm.caches (mem_univ cpu) pages
  unfold Allocator.stock Allocator.setCache
  dsimp only at change ⊢
  omega

theorem stock_putFree (low : order ≤ pmmMaxOrder) : (pmm.putFree page order).stock = pmm.stock + 2 ^ order := by
  have change := @stock_setList pmm order (page :: pmm.freeLists order) low
  rw [length_cons, Nat.succ_mul] at change
  have same : (pmm.putFree page order).stock =
      { pmm with freeLists := update pmm.freeLists order (page :: pmm.freeLists order) }.stock := rfl
  omega

theorem stock_freeListRemove (low : order ≤ pmmMaxOrder) (member : page ∈ pmm.freeLists order) :
    (pmm.freeListRemove order page).stock + 2 ^ order = pmm.stock := by
  have change := @stock_setList pmm order ((pmm.freeLists order).erase page) low
  have some_ := length_pos_of_mem member
  obtain ⟨rest, length⟩ : ∃ rest, (pmm.freeLists order).length = rest + 1 := ⟨_, (Nat.sub_add_cancel some_).symm⟩
  rw [length_erase_of_mem member, length, Nat.add_sub_cancel, Nat.succ_mul] at change
  have same : (pmm.freeListRemove order page).stock =
      { pmm with freeLists := update pmm.freeLists order ((pmm.freeLists order).erase page) }.stock := rfl
  omega

theorem stock_buffer : (pmm.buffer cpu page).stock = pmm.stock + 1 := by
  have change := @stock_setCache { pmm with state := update pmm.state page pmmBuffered } cpu (page :: pmm.caches cpu)
  rw [length_cons] at change
  have same : { pmm with state := update pmm.state page pmmBuffered }.stock = pmm.stock := rfl
  unfold Allocator.buffer
  dsimp only at change ⊢
  omega

end Stock

end NyonOS.Pmm
