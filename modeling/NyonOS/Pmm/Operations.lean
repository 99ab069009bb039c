import NyonOS.Pmm.Invariant

namespace NyonOS.Pmm

open Data List Nat
open Paging (pageSize)
open Function

/-! The operations keep the pages, the lists and the caches in agreement. -/

/-- No block is being moved. -/
structure Sound (mark : Nat → Mark Cpu) (pmm : Allocator) : Prop extends Ok mark pmm where
  settled (p : Nat) : mark p ≠ .moving

theorem Sound.hole {mark : Nat → Mark Cpu} {pmm : Allocator} {order page : Nat} (sound : Sound mark pmm) (p : Nat) :
    paint mark order page .moving p = .moving ↔ SameBlock order p page := by
  by_cases inside : SameBlock order p page
  · exact ⟨fun _ => inside, fun _ => paint_same inside⟩
  · rw [paint_other inside]
    exact ⟨fun moving => absurd moving (sound.settled p), fun same => absurd same inside⟩

/-- One block has been given away or taken back; other pages at most changed between being
free and lying in a cache. -/
structure Moved (order page : Nat) (before after : Nat → Mark Cpu) : Prop where
  aligned : 2 ^ order ∣ page
  low : order ≤ pmmMaxOrder
  elsewhere {p : Nat} : ¬SameBlock order p page → (before p).Alike (after p)

def Allocator.statics (pmm : Allocator) : Nat × List Region × Nat × Nat :=
  (pmm.totalPages, pmm.regions, pmm.sharePhys, pmm.statePhys)

def Allocator.fixed (pmm : Allocator) : (Nat × List Region × Nat × Nat) × Nat := (pmm.statics, pmm.freePages)

section Merge

variable {mark : Nat → Mark Cpu} {pmm : Allocator} {order page : Nat} {left : Nat}

theorem mergeUp_fixed : (Allocator.mergeUp left pmm page order).fixed = pmm.fixed := by
  induction left generalizing pmm page order with
  | zero => rfl
  | succ left ih =>
    unfold Allocator.mergeUp
    dsimp only
    split
    · rfl
    · split
      · rfl
      · exact ih

theorem mergeUp_caches : (Allocator.mergeUp left pmm page order).caches = pmm.caches := by
  induction left generalizing pmm page order with
  | zero => rfl
  | succ left ih =>
    unfold Allocator.mergeUp
    dsimp only
    split
    · rfl
    · split
      · rfl
      · exact ih

theorem Ok.settle (ok : Ok mark pmm) (low : order ≤ pmmMaxOrder) (aligned : 2 ^ order ∣ page)
    (hole : ∀ p, mark p = .moving ↔ SameBlock order p page)
    (alone : order < pmmMaxOrder → mark (buddyOf order page) ≠ .free order) :
    ∃ after, Sound after (pmm.putFree page order) ∧ Moved order page mark after ∧
      (∀ p, SameBlock order p page → (after p).Spare) ∧ (pmm.putFree page order).stock = pmm.stock + 2 ^ order := by
  refine ⟨paint mark order page (.free order), ⟨ok.putFree low aligned (fun p => (hole p).mpr) alone, fun p => ?_⟩,
    ⟨aligned, low, fun {p} outside => ?_⟩, fun p inside => ?_, stock_putFree low⟩
  · by_cases inside : SameBlock order p page
    · rw [paint_same inside]
      exact nofun
    · rw [paint_other inside]
      exact fun moving => inside ((hole p).mp moving)
  · rw [paint_other outside]
    exact .inl rfl
  · rw [paint_same inside]
    trivial

/-- The loop of `buddy_free`, by induction on the orders above: the block that moves grows by
its buddy. -/
theorem Ok.mergeUp (ok : Ok mark pmm) (level : order + left = pmmMaxOrder) (aligned : 2 ^ order ∣ page)
    (hole : ∀ p, mark p = .moving ↔ SameBlock order p page) :
    ∃ after, Sound after (Allocator.mergeUp left pmm page order) ∧ Moved order page mark after ∧
      (∀ p, SameBlock order p page → (after p).Spare) ∧ (Allocator.mergeUp left pmm page order).stock = pmm.stock + 2 ^ order := by
  induction left generalizing mark pmm page order with
  | zero => exact ok.settle (Nat.le_of_eq level) aligned hole fun below => absurd below (by omega)
  | succ left ih =>
    have low : order ≤ pmmMaxOrder := by omega
    unfold Allocator.mergeUp
    dsimp only
    by_cases fits : buddyOf order page + 2 ^ order > pmm.totalPages
    · rw [if_pos fits]
      refine ok.settle low aligned hole fun _ free => ?_
      have last : SameBlock order (buddyOf order page + 2 ^ order - 1) (buddyOf order page) :=
        (sameBlock_iff (buddyOf_dvd aligned)).mpr (by have := Nat.two_pow_pos order; omega)
      have inRange := ok.low (p := buddyOf order page + 2 ^ order - 1) (by rw [ok.layout.free free last]; exact nofun)
      omega
    · rw [if_neg fits]
      have still : mark (buddyOf order page) ≠ .moving := fun moving => buddyOf_not_same ((hole _).mp moving)
      by_cases differ : pmm.state (buddyOf order page) ≠ pmmStateFree order
      · rw [if_pos differ]
        refine ok.settle low aligned hole fun _ free => differ ?_
        rw [ok.byte still, free]
        rfl
      · rw [if_neg differ]
        have free := ok.free_of_byte low still (not_not.mp differ)
        have removed := ok.freeListRemove (buddyOf_dvd aligned) free
        have grown : ∀ p, paint mark order (buddyOf order page) .moving p = .moving ↔
            SameBlock (order + 1) p (if buddyOf order page < page then buddyOf order page else page) := by
          intro p
          have parent : SameBlock (order + 1) p (if buddyOf order page < page then buddyOf order page else page) ↔
              SameBlock (order + 1) p page :=
            ⟨fun same => same.trans lower_same, fun same => same.trans lower_same.symm⟩
          rw [parent, sameBlock_succ, ← hole p]
          by_cases inside : SameBlock order p (buddyOf order page)
          · exact ⟨fun _ => .inr inside, fun _ => paint_same inside⟩
          · rw [paint_other inside]
            exact ⟨.inl, fun either => either.resolve_right inside⟩
        obtain ⟨after, sound, moved, spare, stock⟩ := ih removed (by omega) (lower_dvd aligned) grown
        have counted := stock_freeListRemove low (ok.listed.mpr ⟨buddyOf_dvd aligned, free⟩)
        refine ⟨after, sound, ⟨aligned, low, fun {p} outside => ?_⟩, fun p inside => ?_, ?_⟩
        · by_cases inside : SameBlock order p (buddyOf order page)
          · have old := ok.layout.free free inside
            have new := spare p ((sameBlock_succ.mpr (.inr inside)).trans lower_same.symm)
            rw [old]
            exact .inr ⟨trivial, new⟩
          · have apart : ¬SameBlock (order + 1) p (if buddyOf order page < page then buddyOf order page else page) := fun same =>
              (sameBlock_succ.mp (same.trans lower_same)).elim outside inside
            have kept := moved.elsewhere apart
            rwa [paint_other inside] at kept
        · exact spare p ((sameBlock_succ.mpr (.inl inside)).trans lower_same.symm)
        · rw [stock, Nat.pow_succ]
          omega

theorem Ok.buddyFree (ok : Ok mark pmm) (low : order ≤ pmmMaxOrder) (aligned : 2 ^ order ∣ page)
    (hole : ∀ p, mark p = .moving ↔ SameBlock order p page) :
    ∃ after, Sound after (pmm.buddyFree page order) ∧ Moved order page mark after ∧
      (∀ p, SameBlock order p page → (after p).Spare) ∧ (pmm.buddyFree page order).stock = pmm.stock + 2 ^ order :=
  ok.mergeUp (by omega) aligned hole

end Merge

section Split

variable {mark : Nat → Mark Cpu} {pmm : Allocator} {order page : Nat} {steps : Nat}

theorem splitDown_fixed : (pmm.splitDown page order steps).fixed = pmm.fixed := by
  induction steps generalizing pmm with
  | zero => rfl
  | succ steps ih => exact ih

theorem splitDown_caches : (pmm.splitDown page order steps).caches = pmm.caches := by
  induction steps generalizing pmm with
  | zero => rfl
  | succ steps ih => exact ih

/-- The second loop of `buddy_alloc`, by induction on the orders that are left: the block that
moves loses its upper half. -/
theorem Ok.splitDown (ok : Ok mark pmm) (low : order + steps ≤ pmmMaxOrder) (aligned : 2 ^ (order + steps) ∣ page)
    (hole : ∀ p, mark p = .moving ↔ SameBlock (order + steps) p page) :
    ∃ after, Ok after (pmm.splitDown page order steps) ∧ (∀ p, after p = .moving ↔ SameBlock order p page) ∧
      (∀ p, SameBlock (order + steps) p page → ¬SameBlock order p page → (after p).Spare) ∧
      (∀ p, ¬SameBlock (order + steps) p page → after p = mark p) ∧
      (pmm.splitDown page order steps).stock + 2 ^ order = pmm.stock + 2 ^ (order + steps) := by
  induction steps generalizing mark pmm with
  | zero => exact ⟨mark, ok, hole, fun p inside outside => absurd inside outside, fun _ _ => rfl, rfl⟩
  | succ steps ih =>
    have dvd : 2 ^ (order + steps) ∣ page := (Nat.pow_dvd_pow 2 (le_succ _)).trans aligned
    have upper : buddyOf (order + steps) page = page + 2 ^ (order + steps) := buddyOf_lower aligned
    unfold Allocator.splitDown
    rw [← upper]
    have moving : ∀ p, SameBlock (order + steps) p (buddyOf (order + steps) page) → mark p = .moving := fun p inside =>
      (hole p).mpr (sameBlock_succ.mpr (.inr inside))
    have put := ok.putFree (by omega) (buddyOf_dvd dvd) moving fun _ free => by
      rw [buddyOf_buddyOf, (hole page).mpr rfl] at free
      cases free
    have smaller : ∀ p, paint mark (order + steps) (buddyOf (order + steps) page) (.free (order + steps)) p = .moving ↔
        SameBlock (order + steps) p page := by
      intro p
      by_cases inside : SameBlock (order + steps) p (buddyOf (order + steps) page)
      · rw [paint_same inside]
        exact ⟨nofun, fun same => absurd (inside.symm.trans same) buddyOf_not_same⟩
      · rw [paint_other inside, hole p]
        exact ⟨fun same => (sameBlock_succ.mp same).resolve_right inside, fun same => sameBlock_succ.mpr (.inl same)⟩
    obtain ⟨after, ok', hole', spare, kept, stock⟩ := ih put (by omega) dvd smaller
    refine ⟨after, ok', hole', fun p inside outside => ?_, fun p outside => ?_, ?_⟩
    · by_cases half : SameBlock (order + steps) p page
      · exact spare p half outside
      · have other : SameBlock (order + steps) p (buddyOf (order + steps) page) := (sameBlock_succ.mp inside).resolve_left half
        rw [kept p half, paint_same other]
        trivial
    · have halves : ¬SameBlock (order + steps) p page ∧ ¬SameBlock (order + steps) p (buddyOf (order + steps) page) :=
        not_or.mp fun either => outside (sameBlock_succ.mpr either)
      rw [kept p halves.1, paint_other halves.2]
    · rw [stock, stock_putFree (by omega), ← Nat.add_assoc order, Nat.pow_succ]
      omega

theorem findOrder_some {found : Nat} (search : pmm.findOrder order = some found) :
    order ≤ found ∧ found ≤ pmmMaxOrder ∧ pmm.freeLists found ≠ [] := by
  have member := mem_of_find?_eq_some search
  have some_ := find?_some search
  obtain ⟨low, high⟩ := mem_range'_1.mp member
  refine ⟨low, by omega, fun empty => ?_⟩
  rw [empty] at some_
  cases some_

variable {next : Allocator}

theorem buddyAlloc_cases (taken : pmm.buddyAlloc order = some (page, next)) :
    ∃ found, order ≤ found ∧ found ≤ pmmMaxOrder ∧ page ∈ pmm.freeLists found ∧
      next = ((pmm.freeListRemove found page).splitDown page order (found - order)).stateFill page (2 ^ order) (pmmStateUsed order) := by
  unfold Allocator.buddyAlloc at taken
  split at taken
  · contradiction
  · rename_i found search
    obtain ⟨low, high, -⟩ := findOrder_some search
    split at taken
    · contradiction
    · rename_i head rest list
      cases taken
      exact ⟨found, low, high, list ▸ mem_cons_self, rfl⟩

theorem buddyAlloc_fixed (taken : pmm.buddyAlloc order = some (page, next)) :
    next.fixed = pmm.fixed ∧ next.caches = pmm.caches := by
  obtain ⟨found, -, -, -, rfl⟩ := buddyAlloc_cases taken
  exact ⟨splitDown_fixed, splitDown_caches⟩

theorem Sound.buddyAlloc (sound : Sound mark pmm) (taken : pmm.buddyAlloc order = some (page, next)) :
    ∃ after, Sound after next ∧ Moved order page mark after ∧
      (∀ p, SameBlock order p page → (mark p).Spare ∧ after p = .used order) ∧ next.stock + 2 ^ order = pmm.stock := by
  obtain ⟨found, low, high, member, rfl⟩ := buddyAlloc_cases taken
  obtain ⟨steps, rfl⟩ := Nat.exists_eq_add_of_le low
  rw [Nat.add_sub_cancel_left]
  obtain ⟨aligned, free⟩ := sound.listed.mp member
  have dvd : 2 ^ order ∣ page := (Nat.pow_dvd_pow 2 low).trans aligned
  have removed := sound.toOk.freeListRemove aligned free
  obtain ⟨cut, ok, hole', spare, kept, stock⟩ := removed.splitDown high aligned sound.hole
  have used := ok.fillUsed (by omega) dvd fun p => (hole' p).mpr
  have counted := stock_freeListRemove high member
  refine ⟨_, ⟨used, fun p => ?_⟩, ⟨dvd, by omega, fun {p} outside => ?_⟩, fun p inside => ⟨?_, paint_same inside⟩, ?_⟩
  · by_cases inside : SameBlock order p page
    · rw [paint_same inside]
      exact nofun
    · rw [paint_other inside]
      exact fun moving => inside ((hole' p).mp moving)
  · rw [paint_other outside]
    by_cases inside : SameBlock (order + steps) p page
    · rw [sound.layout.free free inside]
      exact .inr ⟨trivial, spare p inside outside⟩
    · rw [kept p inside, paint_other inside]
      exact .inl rfl
  · rw [sound.layout.free free (inside.mono low)]
    trivial
  · have same : ∀ (now : Allocator) value, (now.stateFill page (2 ^ order) value).stock = now.stock := fun _ _ => rfl
    rw [same]
    omega

end Split

section Caches

variable {mark : Nat → Mark Cpu} {pmm next : Allocator} {page : Nat} {cpu : Cpu}

theorem takeCached_cases (taken : pmm.takeCached cpu = some (page, next)) : ∃ rest, pmm.caches cpu = page :: rest ∧
      next = { (pmm.setCache cpu rest).stateFill page (2 ^ 0) (pmmStateUsed 0) with freePages := pmm.freePages - 1 } := by
  unfold Allocator.takeCached at taken
  split at taken
  · contradiction
  · rename_i top rest list
    cases taken
    refine ⟨rest, list, ?_⟩
    have state : update pmm.state page (pmmStateUsed 0) =
        fun p => if page ≤ p ∧ p < page + 2 ^ 0 then pmmStateUsed 0 else pmm.state p := by
      funext p
      by_cases same : p = page
      · rw [same, update_self, if_pos ⟨Nat.le_refl _, lt_succ_self _⟩]
      · rw [update_of_ne same, if_neg fun range => same (by omega)]
    rw [state]
    rfl

theorem Sound.takeCached (sound : Sound mark pmm) (taken : pmm.takeCached cpu = some (page, next)) :
    ∃ after, Sound after next ∧ Moved 0 page mark after ∧
      (∀ p, SameBlock 0 p page → (mark p).Spare ∧ after p = .used 0) ∧ next.stock + 1 = pmm.stock ∧
      next.fixed = { pmm with freePages := pmm.freePages - 1 }.fixed := by
  obtain ⟨rest, list, rfl⟩ := takeCached_cases taken
  have kept : mark page = .kept cpu := sound.cached.mp (list ▸ mem_cons_self)
  have hole : ∀ p, SameBlock 0 p page → paint mark 0 page .moving p = .moving := fun p inside => paint_same inside
  have used := (sound.toOk.pop list).fillUsed (Nat.zero_le _) (Nat.one_dvd _) hole
  have counted := @stock_setCache pmm cpu rest
  rw [list, length_cons] at counted
  refine ⟨_, ⟨{ used with }, fun p => ?_⟩, ⟨Nat.one_dvd _, Nat.zero_le _, fun {p} outside => ?_⟩,
    fun p inside => ⟨?_, paint_same inside⟩, ?_, rfl⟩
  · by_cases inside : SameBlock 0 p page
    · rw [paint_same inside]
      exact nofun
    · rw [paint_other inside, paint_other inside]
      exact sound.settled p
  · rw [paint_other outside, paint_other outside]
    exact .inl rfl
  · rw [sameBlock_zero.mp inside, kept]
    trivial
  · have same : { (pmm.setCache cpu rest).stateFill page (2 ^ 0) (pmmStateUsed 0) with freePages := pmm.freePages - 1 }.stock =
      (pmm.setCache cpu rest).stock := rfl
    omega

theorem Sound.buffer (sound : Sound mark pmm) (used : mark page = .used 0) (room : (pmm.caches cpu).length < pmmCacheSize) :
    Sound (paint mark 0 page (.kept cpu)) (pmm.buffer cpu page) := by
  have lifted := (sound.toOk.liftUsed used).buffer (paint_same rfl) room
  have same : paint (paint mark 0 page .moving) 0 page (.kept cpu) = paint mark 0 page (.kept cpu) := by
    funext p
    by_cases inside : SameBlock 0 p page
    · rw [paint_same inside, paint_same inside]
    · rw [paint_other inside, paint_other inside, paint_other inside]
  rw [same] at lifted
  refine ⟨lifted, fun p => ?_⟩
  by_cases inside : SameBlock 0 p page
  · rw [paint_same inside]
    exact nofun
  · rw [paint_other inside]
    exact sound.settled p

theorem refill_fixed {room : Nat} : (pmm.refill cpu room).fixed = pmm.fixed := by
  induction room generalizing pmm with
  | zero => rfl
  | succ room ih =>
    unfold Allocator.refill
    split
    · rfl
    · rename_i page next taken
      exact ih.trans (buddyAlloc_fixed taken).1

theorem Sound.refill {room : Nat} (sound : Sound mark pmm) (fits : (pmm.caches cpu).length + room ≤ pmmCacheSize) :
    ∃ after, Sound after (pmm.refill cpu room) ∧ (∀ p, (mark p).Alike (after p)) ∧ (pmm.refill cpu room).stock = pmm.stock := by
  induction room generalizing mark pmm with
  | zero => exact ⟨mark, sound, fun _ => .inl rfl, rfl⟩
  | succ room ih =>
    unfold Allocator.refill
    split
    · exact ⟨mark, sound, fun _ => .inl rfl, rfl⟩
    · rename_i page next taken
      obtain ⟨given, sound', moved, block, stock⟩ := sound.buddyAlloc taken
      have caches := (buddyAlloc_fixed taken).2
      have room_ : (next.caches cpu).length < pmmCacheSize := by rw [caches]; omega
      have buffered := sound'.buffer (block page rfl).2 room_
      obtain ⟨after, sound'', alike, stock'⟩ := ih buffered (by
        change (update next.caches cpu (page :: next.caches cpu) cpu).length + room ≤ _
        rw [update_self, length_cons, caches]
        omega)
      refine ⟨after, sound'', fun p => Mark.Alike.trans ?_ (alike p), ?_⟩
      · by_cases inside : SameBlock 0 p page
        · rw [paint_same inside]
          exact .inr ⟨(block p inside).1, trivial⟩
        · rw [paint_other inside]
          exact moved.elsewhere inside
      · rw [stock', stock_buffer]
        exact stock

theorem flush_fixed {excess : Nat} : (pmm.flush cpu excess).fixed = pmm.fixed := by
  induction excess generalizing pmm with
  | zero => rfl
  | succ excess ih =>
    unfold Allocator.flush
    split
    · rfl
    · exact ih.trans mergeUp_fixed

theorem Sound.flush {excess : Nat} (sound : Sound mark pmm) (some_ : excess ≤ (pmm.caches cpu).length) :
    ∃ after, Sound after (pmm.flush cpu excess) ∧ (∀ p, (mark p).Alike (after p)) ∧ (pmm.flush cpu excess).stock = pmm.stock ∧
      ((pmm.flush cpu excess).caches cpu).length + excess = (pmm.caches cpu).length := by
  induction excess generalizing mark pmm with
  | zero => exact ⟨mark, sound, fun _ => .inl rfl, rfl, rfl⟩
  | succ excess ih =>
    unfold Allocator.flush
    split
    · rename_i empty
      rw [empty] at some_
      cases some_
    · rename_i page rest list
      have kept : mark page = .kept cpu := sound.cached.mp (list ▸ mem_cons_self)
      obtain ⟨given, sound', moved, spare, stock⟩ := (sound.toOk.pop list).buddyFree (Nat.zero_le _) (Nat.one_dvd _) sound.hole
      have caches : (((pmm.setCache cpu rest).buddyFree page 0).caches cpu) = rest := by
        rw [Allocator.buddyFree, mergeUp_caches]
        exact update_self ..
      rw [list, length_cons] at some_ ⊢
      obtain ⟨after, sound'', alike, stock', length⟩ := ih sound' (by rw [caches]; omega)
      have counted := @stock_setCache pmm cpu rest
      rw [list, length_cons] at counted
      refine ⟨after, sound'', fun p => Mark.Alike.trans ?_ (alike p), ?_, ?_⟩
      · by_cases inside : SameBlock 0 p page
        · rw [sameBlock_zero.mp inside, kept]
          exact .inr ⟨trivial, spare page rfl⟩
        · have same := moved.elsewhere inside
          rwa [paint_other inside] at same
      · omega
      · rw [caches] at length
        omega

end Caches

section Calls

variable {mark : Nat → Mark Cpu} {pmm next : Allocator} {order pages addr : Nat} {cpu : Cpu}

/-- The pages of a block are given away. -/
structure Given (order page : Nat) (before after : Nat → Mark Cpu) : Prop extends Moved order page before after where
  spare {p : Nat} : SameBlock order p page → (before p).Spare
  used {p : Nat} : SameBlock order p page → after p = .used order

/-- The pages of a block are taken back. -/
structure Returned (order page : Nat) (before after : Nat → Mark Cpu) : Prop extends Moved order page before after where
  used {p : Nat} : SameBlock order p page → before p = .used order
  spare {p : Nat} : SameBlock order p page → (after p).Spare

/-- The allocator between two calls. -/
structure Resting (mark : Nat → Mark Cpu) (pmm : Allocator) : Prop extends Sound mark pmm where
  counted : pmm.freePages = pmm.stock

theorem orderForPages_zero (zero : orderForPages pages = 0) : pages ≤ 1 := by
  unfold orderForPages at zero
  split at zero
  · assumption
  · cases zero

theorem le_orderForPages (pages : Nat) : pages ≤ 2 ^ orderForPages pages := by
  unfold orderForPages
  split
  · rename_i small
    simpa using small
  · rename_i many
    have := lt_log2_self (n := pages - 1)
    omega

def Answered (pages : Nat) (before after : Nat → Mark Cpu) : Option Nat → Prop
  | none => ∀ p, (before p).Alike (after p)
  | some addr => ∃ page, addr = page * pageSize ∧ 0 < pages ∧ Given (orderForPages pages) page before after

theorem Resting.takeCached {page : Nat} (resting : Resting mark pmm) (taken : pmm.takeCached cpu = some (page, next)) :
    ∃ after, Resting after next ∧ next.statics = pmm.statics ∧ Given 0 page mark after := by
  obtain ⟨after, sound, moved, block, stock, fixed⟩ := resting.toSound.takeCached taken
  have freePages : next.freePages = pmm.freePages - 1 := congrArg Prod.snd fixed
  refine ⟨after, ⟨sound, ?_⟩, congrArg Prod.fst fixed, ⟨moved, fun inside => (block _ inside).1, fun inside => (block _ inside).2⟩⟩
  rw [freePages, resting.counted]
  omega

theorem Resting.pmmAllocCached (resting : Resting mark pmm) :
    ∃ after, Resting after (pmm.pmmAllocCached cpu).2 ∧ (pmm.pmmAllocCached cpu).2.statics = pmm.statics ∧
      Answered 1 mark after (pmm.pmmAllocCached cpu).1 := by
  unfold Allocator.pmmAllocCached
  split
  · rename_i page next taken
    obtain ⟨after, resting', statics, given⟩ := resting.takeCached taken
    exact ⟨after, resting', statics, page, rfl, Nat.one_pos, given⟩
  · have short := resting.short cpu
    obtain ⟨filled, sound, alike, stock⟩ := @Sound.refill mark pmm cpu (pmmCacheSize - (pmm.caches cpu).length) resting.toSound (by omega)
    have fixed := @refill_fixed pmm cpu (pmmCacheSize - (pmm.caches cpu).length)
    have freePages : (pmm.refill cpu (pmmCacheSize - (pmm.caches cpu).length)).freePages = pmm.freePages := congrArg Prod.snd fixed
    have rested : Resting filled (pmm.refill cpu (pmmCacheSize - (pmm.caches cpu).length)) := ⟨sound, by rw [freePages, resting.counted, stock]⟩
    dsimp only
    split
    · rename_i page next taken
      obtain ⟨after, resting', statics, given⟩ := rested.takeCached taken
      refine ⟨after, resting', statics.trans (congrArg Prod.fst fixed), page, rfl, Nat.one_pos,
        ⟨⟨given.aligned, given.low, fun outside => (alike _).trans (given.elsewhere outside)⟩, fun inside => ?_, given.used⟩⟩
      rcases alike _ with same | ⟨spare, -⟩
      · rw [same]
        exact given.spare inside
      · exact spare
    · exact ⟨filled, rested, congrArg Prod.fst fixed, alike⟩

theorem Resting.pmmAlloc (resting : Resting mark pmm) :
    ∃ after, Resting after (pmm.pmmAlloc cpu pages).2 ∧ (pmm.pmmAlloc cpu pages).2.statics = pmm.statics ∧
      Answered pages mark after (pmm.pmmAlloc cpu pages).1 := by
  have refused : ∃ after, Resting after pmm ∧ pmm.statics = pmm.statics ∧ Answered pages mark after none :=
    ⟨mark, resting, rfl, fun _ => .inl rfl⟩
  unfold Allocator.pmmAlloc
  by_cases none_ : pages = 0
  · rw [if_pos none_]
    exact refused
  · rw [if_neg none_]
    dsimp only
    by_cases large : orderForPages pages > pmmMaxOrder
    · rw [if_pos large]
      exact refused
    · rw [if_neg large]
      by_cases zero : orderForPages pages = 0
      · rw [if_pos zero]
        have one : pages = 1 := by have := orderForPages_zero zero; omega
        rw [one]
        exact resting.pmmAllocCached
      · rw [if_neg zero]
        by_cases scarce : pages > pmm.freePages
        · rw [if_pos scarce]
          exact refused
        · rw [if_neg scarce]
          split
          · exact refused
          · rename_i page next taken
            obtain ⟨after, sound, moved, block, stock⟩ := resting.toSound.buddyAlloc taken
            have fixed := (buddyAlloc_fixed taken).1
            have freePages : next.freePages = pmm.freePages := congrArg Prod.snd fixed
            refine ⟨after, ⟨⟨{ sound.toOk with }, sound.settled⟩, ?_⟩, congrArg Prod.fst fixed, page, rfl, Nat.pos_of_ne_zero none_,
              ⟨moved, fun inside => (block _ inside).1, fun inside => (block _ inside).2⟩⟩
            have same : { next with freePages := next.freePages - 2 ^ orderForPages pages }.stock = next.stock := rfl
            rw [same]
            dsimp only
            rw [freePages, resting.counted]
            omega

/-! `pmm_free`. -/

theorem spare_byte : ∀ order ≤ pmmMaxOrder, pmmStateFree order &&& 0x80 = 0 := by decide

theorem used_byte : ∀ order ≤ pmmMaxOrder,
    ¬pmmStateUsed order &&& 0x80 = 0 ∧ (pmmStateUsed order &&& 0x7F).toNat = order := by decide

theorem pmmFree_refused
    (refused : ¬(pages ≠ 0 ∧ addr % pageSize = 0 ∧ addr / pageSize + pages ≤ pmm.totalPages ∧ pmm.pmmPageManaged (addr / pageSize))) :
    pmm.pmmFree cpu addr pages = pmm := by
  unfold Allocator.pmmFree
  by_cases none_ : pages = 0
  · rw [if_pos none_]
  · rw [if_neg none_]
    by_cases aligned : addr % pageSize = 0
    · rw [if_neg (not_not.mpr aligned)]
      dsimp only
      by_cases range : addr / pageSize ≥ pmm.totalPages ∨ pages > pmm.totalPages - addr / pageSize
      · rw [if_pos range]
      · rw [if_neg range]
        by_cases managed : pmm.pmmPageManaged (addr / pageSize) = true
        · exact absurd ⟨none_, aligned, by omega, managed⟩ refused
        · rw [if_pos (by simpa using managed)]
    · rw [if_pos aligned]

theorem Sound.pmmFree_idle (sound : Sound mark pmm) (idle : ∀ order, mark (addr / pageSize) ≠ .used order) :
    pmm.pmmFree cpu addr pages = pmm := by
  have byte := sound.byte (sound.settled (addr / pageSize))
  unfold Allocator.pmmFree
  split
  · rfl
  · split
    · rfl
    · dsimp only
      split
      · rfl
      · split
        · rfl
        · cases kind : mark (addr / pageSize) with
          | outside =>
            have order : (pmm.state (addr / pageSize) &&& 0x7F).toNat > pmmMaxOrder := by
              rw [byte, kind]
              decide
            rw [if_pos order, ite_self]
          | free order =>
            rw [if_pos (show pmm.state (addr / pageSize) &&& 0x80 = 0 by
              rw [byte, kind]
              exact spare_byte order (sound.layout.freeOrder kind))]
          | used order => exact absurd kind (idle order)
          | kept cpu =>
            rw [if_pos (show pmm.state (addr / pageSize) &&& 0x80 = 0 by
              rw [byte, kind]
              exact (by decide : pmmBuffered &&& 0x80 = 0))]
          | moving => exact absurd kind (sound.settled _)

theorem Resting.pmmFreeCached {page : Nat} (resting : Resting mark pmm) (used : mark page = .used 0) :
    ∃ after, Resting after (pmm.pmmFreeCached cpu page) ∧ (pmm.pmmFreeCached cpu page).statics = pmm.statics ∧
      Returned 0 page mark after := by
  have flushed : ∃ between, Sound between (if (pmm.caches cpu).length < pmmCacheSize then pmm
        else pmm.flush cpu ((pmm.caches cpu).length - pmmCacheSize / 2)) ∧ (∀ p, (mark p).Alike (between p)) ∧
      (if (pmm.caches cpu).length < pmmCacheSize then pmm
        else pmm.flush cpu ((pmm.caches cpu).length - pmmCacheSize / 2)).stock = pmm.stock ∧
      (if (pmm.caches cpu).length < pmmCacheSize then pmm
        else pmm.flush cpu ((pmm.caches cpu).length - pmmCacheSize / 2)).fixed = pmm.fixed ∧
      ((if (pmm.caches cpu).length < pmmCacheSize then pmm
        else pmm.flush cpu ((pmm.caches cpu).length - pmmCacheSize / 2)).caches cpu).length < pmmCacheSize := by
    split
    · rename_i room
      exact ⟨mark, resting.toSound, fun _ => .inl rfl, rfl, rfl, room⟩
    · rename_i full
      obtain ⟨between, sound, alike, stock, length⟩ :=
        @Sound.flush mark pmm cpu ((pmm.caches cpu).length - pmmCacheSize / 2) resting.toSound (sub_le _ _)
      have size : pmmCacheSize = 32 := rfl
      exact ⟨between, sound, alike, stock, flush_fixed, by omega⟩
  unfold Allocator.pmmFreeCached
  generalize (if (pmm.caches cpu).length < pmmCacheSize then pmm
    else pmm.flush cpu ((pmm.caches cpu).length - pmmCacheSize / 2)) = now at flushed
  obtain ⟨between, sound, alike, stock, fixed, room⟩ := flushed
  have still : between page = .used 0 := (alike page).used_iff.mp used
  have buffered := sound.buffer still room
  have freePages : now.freePages = pmm.freePages := congrArg Prod.snd fixed
  refine ⟨_, ⟨⟨{ buffered.toOk with }, buffered.settled⟩, ?_⟩, congrArg Prod.fst fixed,
    ⟨⟨Nat.one_dvd _, Nat.zero_le _, fun outside => ?_⟩, fun inside => ?_, fun inside => ?_⟩⟩
  · have same : { now.buffer cpu page with freePages := now.freePages + 1 }.stock = (now.buffer cpu page).stock := rfl
    rw [same, stock_buffer, stock, ← resting.counted, ← freePages]
  · rw [paint_other outside]
    exact alike _
  · rw [sameBlock_zero.mp inside, used]
  · rw [paint_same inside]
    trivial

theorem Resting.pmmFree_used (resting : Resting mark pmm) (some_ : pages ≠ 0) (aligned : addr % pageSize = 0)
    (range : addr / pageSize + pages ≤ pmm.totalPages) (managed : pmm.pmmPageManaged (addr / pageSize))
    (used : mark (addr / pageSize) = .used order) :
    ∃ after, Resting after (pmm.pmmFree cpu addr pages) ∧ (pmm.pmmFree cpu addr pages).statics = pmm.statics ∧
      Returned order (blockStart order (addr / pageSize)) mark after := by
  have low := resting.layout.usedOrder used
  have byte := resting.byte (resting.settled (addr / pageSize))
  rw [used] at byte
  have start : mark (blockStart order (addr / pageSize)) = .used order := resting.layout.used used blockStart_same
  have startByte := resting.byte (resting.settled (blockStart order (addr / pageSize)))
  rw [start] at startByte
  have call : pmm.pmmFree cpu addr pages = pmm.freeBlock cpu (addr / pageSize) order := by
    obtain ⟨bit, number⟩ := used_byte order low
    unfold Allocator.pmmFree
    rw [if_neg some_, if_neg (not_not.mpr aligned)]
    dsimp only
    rw [if_neg (by omega), if_neg (by rw [managed]; decide), byte]
    change (if pmmStateUsed order &&& 0x80 = 0 then pmm else
      if (pmmStateUsed order &&& 0x7F).toNat > pmmMaxOrder then pmm else pmm.freeBlock cpu (addr / pageSize) (pmmStateUsed order &&& 0x7F).toNat) = _
    rw [if_neg bit, number, if_neg (by omega)]
  rw [call]
  unfold Allocator.freeBlock
  by_cases zero : order = 0
  · subst zero
    rw [if_pos rfl, show blockStart 0 (addr / pageSize) = addr / pageSize from blockStart_of_dvd (Nat.one_dvd _)]
    exact resting.pmmFreeCached used
  · rw [if_neg zero]
    dsimp only
    rw [if_pos (show pmm.state (blockStart order (addr / pageSize)) = pmmStateUsed order from startByte)]
    obtain ⟨after, sound, moved, spare, stock⟩ := (resting.toOk.liftUsed start).buddyFree low blockStart_dvd resting.toSound.hole
    have fixed : (pmm.buddyFree (blockStart order (addr / pageSize)) order).fixed = pmm.fixed := mergeUp_fixed
    have freePages : (pmm.buddyFree (blockStart order (addr / pageSize)) order).freePages = pmm.freePages := congrArg Prod.snd fixed
    refine ⟨after, ⟨⟨{ sound.toOk with }, sound.settled⟩, ?_⟩, congrArg Prod.fst fixed,
      ⟨⟨blockStart_dvd, low, fun outside => ?_⟩, fun inside => resting.layout.used start inside, fun inside => spare _ inside⟩⟩
    · have same : ∀ (now : Allocator) count, { now with freePages := count }.stock = now.stock := fun _ _ => rfl
      rw [same, stock, freePages, resting.counted]
    · have kept := moved.elsewhere outside
      rwa [paint_other outside] at kept

end Calls

end NyonOS.Pmm
