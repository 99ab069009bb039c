import NyonOS.Data.Run
import NyonOS.Slab.Cache

namespace NyonOS.Slab

open Data Memory List Finset
open Paging (pageSize)
open Function (update update_of_ne update_self)
open BitVec (ofNat)

/-! The shape of a slab. -/

/-- The objects of a slab lie inside it, and the slab is a block the allocator aligns. -/
structure Shape.Fits (shape : Shape) : Prop where
  order : ∃ order, shape.pagesPerSlab = 2 ^ order
  bytes : shape.slabBytes = shape.pagesPerSlab * pageSize
  size : 0 < shape.objSize
  inside : shape.objOffset + shape.objsPerSlab * shape.objSize ≤ shape.slabBytes

theorem objBytes_pos (size asz : Size) : 8 ≤ (objBytes size asz).toNat := by
  unfold objBytes
  dsimp only
  split
  · decide
  · rename_i large
    simpa [sizeofPointer, BitVec.lt_def] using large

theorem choosePages_spec (overhead obj : Size) (fuel : Nat) {order : Nat} (bound : order + fuel = 17) :
    ∃ stop ≤ 17, choosePages overhead obj fuel (ofNat 64 (2 ^ order)) = ofNat 64 (2 ^ stop) ∧
      (16 ≤ stop ∨ overhead < ofNat 64 (2 ^ stop) * 4096#64 ∧
        1#64 ≤ (ofNat 64 (2 ^ stop) * 4096#64 - overhead) / obj) := by
  induction fuel generalizing order with
  | zero => exact ⟨order, by omega, rfl, .inl (by omega)⟩
  | succ fuel ih =>
    rw [choosePages]
    split
    · rename_i fits
      refine ⟨order, by omega, rfl, .inr ⟨fits.1, ?_⟩⟩
      rcases fits.2 with many | one
      · exact BitVec.le_trans (by decide) many
      · exact one.1
    · split
      · rename_i limit
        refine ⟨order, by omega, rfl, .inl ?_⟩
        have value : (ofNat 64 (2 ^ order)).toNat = 2 ^ order := by
          rw [BitVec.toNat_ofNat, Nat.mod_eq_of_lt]
          exact Nat.pow_lt_pow_right (by decide) (by omega)
        rw [BitVec.le_def, value] at limit
        exact (Nat.pow_le_pow_iff_right (by decide : 1 < 2)).mp (show 2 ^ 16 ≤ 2 ^ order from limit)
      · have next : ofNat 64 (2 ^ order) <<< 1 = ofNat 64 (2 ^ (order + 1)) := by
          apply BitVec.eq_of_toNat_eq
          rw [BitVec.toNat_shiftLeft, BitVec.toNat_ofNat, BitVec.toNat_ofNat, Nat.shiftLeft_eq, pow_succ]
          omega
        rw [next]
        exact ih (by omega)

theorem kmemCacheShape_count {size align : Size} {shape : Shape} (made : kmemCacheShape size align = some shape) :
    0 < shape.objsPerSlab ∧ shape.objsPerSlab < 2 ^ 32 := by
  unfold kmemCacheShape at made
  split at made
  · contradiction
  · dsimp only at made
    split at made
    · contradiction
    · rename_i some_
      cases made
      exact ⟨Nat.pos_of_ne_zero some_, Nat.mod_lt _ (by decide)⟩

theorem kmemCacheShape_fits {size align : Size} {shape : Shape} (made : kmemCacheShape size align = some shape)
    (small : shape.pagesPerSlab ≤ 2 ^ 14) : shape.Fits := by
  unfold kmemCacheShape at made
  split at made
  · contradiction
  · dsimp only at made
    split at made
    · contradiction
    · cases made
      obtain ⟨stop, bound, pages, reason⟩ := choosePages_spec (roundUp sizeofSlab (objAlign align))
        (objBytes size (objAlign align)) 17 (show 0 + 17 = 17 from rfl)
      have start : ofNat 64 (2 ^ 0) = 1#64 := rfl
      rw [start] at pages
      have value : (ofNat 64 (2 ^ stop)).toNat = 2 ^ stop := by
        rw [BitVec.toNat_ofNat, Nat.mod_eq_of_lt]
        exact Nat.pow_lt_pow_right (by decide) (by omega)
      simp only [pages] at small ⊢
      rw [value] at small
      have low : stop ≤ 14 := (Nat.pow_le_pow_iff_right (by decide : 1 < 2)).mp small
      obtain ⟨inside, -⟩ := reason.resolve_left (by omega)
      have bytes : (ofNat 64 (2 ^ stop) * 4096#64).toNat = 2 ^ stop * pageSize := by
        rw [BitVec.toNat_mul, value]
        refine Nat.mod_eq_of_lt ?_
        calc 2 ^ stop * 4096 ≤ 2 ^ 14 * 4096 := Nat.mul_le_mul_right _ small
          _ < 2 ^ 64 := by decide
      have positive := objBytes_pos size (objAlign align)
      rw [BitVec.lt_def, bytes] at inside
      refine ⟨⟨stop, value⟩, by rw [bytes, value], by dsimp only; omega, ?_⟩
      dsimp only
      have room : ((ofNat 64 (2 ^ stop) * 4096#64 - roundUp sizeofSlab (objAlign align)) /
          objBytes size (objAlign align)).toNat * (objBytes size (objAlign align)).toNat ≤
          2 ^ stop * pageSize - (roundUp sizeofSlab (objAlign align)).toNat := by
        rw [BitVec.toNat_udiv, BitVec.toNat_sub_of_le (by rw [BitVec.le_def, bytes]; omega), bytes]
        exact Nat.div_mul_le_self _ _
      have reduced := Nat.mul_le_mul_right (objBytes size (objAlign align)).toNat
        (Nat.mod_le ((ofNat 64 (2 ^ stop) * 4096#64 - roundUp sizeofSlab (objAlign align)) /
          objBytes size (objAlign align)).toNat (2 ^ 32))
      rw [bytes]
      omega

/-! Every object is in one place. -/

variable {σ : Type} [BlockAllocator σ] {cache : Cache σ} {partials empties live : List Nat} {obj slab : Nat}

theorem increment_eq {bits value : Nat} (bound : value + 1 < 2 ^ bits) : increment bits value = value + 1 :=
  Nat.mod_eq_of_lt bound

theorem decrement_eq {bits value : Nat} (positive : 0 < value) (bound : value < 2 ^ bits) :
    decrement bits value = value - 1 := by
  have split : value + (2 ^ bits - 1) = value - 1 + 2 ^ bits := by omega
  rw [decrement, split, Nat.add_mod_right, Nat.mod_eq_of_lt (by omega)]

/-- The objects of the slabs that exist. -/
def Cache.IsObject (cache : Cache σ) (obj : Nat) : Prop :=
  cache.slabOf obj ∈ cache.made ∧ ∃ index < cache.shape.objsPerSlab, obj = cache.shape.object (cache.slabOf obj) index

/-- How often an address is handed out, in a magazine or on the free list of its slab. -/
def Cache.places (cache : Cache σ) (live : List Nat) (obj : Nat) : Nat :=
  live.count obj + ∑ cpu, (cache.mag cpu).count obj +
    if cache.slabOf obj ∈ cache.made then (cache.slabs (cache.slabOf obj)).freelist.count obj else 0

/-- What holds of a slab that exists. -/
structure SlabOk (cache : Cache σ) (slab : Nat) : Prop where
  total : (cache.slabs slab).total = cache.shape.objsPerSlab
  inuse : (cache.slabs slab).inuse + (cache.slabs slab).freelist.length = (cache.slabs slab).total
  own : ∀ obj ∈ (cache.slabs slab).freelist, cache.slabOf obj = slab

variable {changed : Cache σ}

theorem SlabOk.of_record {record : Slab} (isRecord : changed.slabs slab = record)
    (shape : changed.shape = cache.shape) (total : record.total = cache.shape.objsPerSlab)
    (inuse : record.inuse + record.freelist.length = record.total)
    (own : ∀ obj ∈ record.freelist, cache.slabOf obj = slab) : SlabOk changed slab := by
  subst isRecord
  refine ⟨by rw [shape, total], inuse, fun obj free => ?_⟩
  rw [Cache.slabOf, shape]
  exact own obj free

theorem SlabOk.congr (ok : SlabOk cache slab) (shape : changed.shape = cache.shape)
    (same : changed.slabs slab = cache.slabs slab) : SlabOk changed slab :=
  .of_record same shape ok.total ok.inuse ok.own

/-- Where the objects are; `live` are those the callers have. -/
structure Stock (cache : Cache σ) (live : List Nat) : Prop where
  count : 0 < cache.shape.objsPerSlab ∧ cache.shape.objsPerSlab < 2 ^ 32
  shaped : cache.shape.pagesPerSlab ≤ 2 ^ 14 → cache.shape.Fits
  madeOnce : cache.made.Nodup
  backed : ∀ slab ∈ cache.made, BlockAllocator.live cache.pmm slab cache.shape.pagesPerSlab
  aligned : ∀ slab ∈ cache.made, cache.shape.slabBytes ∣ slab
  fits : cache.made ≠ [] → cache.shape.Fits
  slab : ∀ slab ∈ cache.made, SlabOk cache slab
  magazine : ∀ cpu, (cache.mag cpu).length ≤ slabMagSize
  once : ∀ obj, cache.IsObject obj → cache.places live obj = 1
  nothing : ∀ obj, ¬ cache.IsObject obj → cache.places live obj = 0

/-- The invariant of a cache; `partials` and `empties` are its two lists. -/
structure Sound (cache : Cache σ) (partials empties live : List Nat) : Prop extends Stock cache live where
  partialLinked : cache.links.Linked cache.partialHead partials
  emptyLinked : cache.links.Linked cache.emptyHead empties
  onPartial : ∀ slab, slab ∈ partials ↔
    slab ∈ cache.made ∧ 0 < (cache.slabs slab).inuse ∧ (cache.slabs slab).inuse < (cache.slabs slab).total
  onEmpty : ∀ slab, slab ∈ empties ↔ slab ∈ cache.made ∧ (cache.slabs slab).inuse = 0
  emptyCount : cache.emptyCount = empties.length
  emptyFew : empties.length ≤ slabMaxEmpty

/-- The same while one slab is being worked on and is on no list. -/
structure Detached (cache : Cache σ) (partials empties live : List Nat) (off : Nat) : Prop extends
    Stock cache live where
  partialLinked : cache.links.Linked cache.partialHead partials
  emptyLinked : cache.links.Linked cache.emptyHead empties
  onPartial : ∀ slab, slab ∈ partials ↔ slab ≠ off ∧
    slab ∈ cache.made ∧ 0 < (cache.slabs slab).inuse ∧ (cache.slabs slab).inuse < (cache.slabs slab).total
  onEmpty : ∀ slab, slab ∈ empties ↔ slab ≠ off ∧ slab ∈ cache.made ∧ (cache.slabs slab).inuse = 0
  emptyCount : cache.emptyCount = empties.length
  emptyFew : empties.length ≤ slabMaxEmpty
  offMade : off ∈ cache.made

theorem sum_mag (mag : Cpu → List Nat) (cpu : Cpu) (list : List Nat) (obj : Nat) :
    ∑ each, (update mag cpu list each).count obj + (mag cpu).count obj =
      ∑ each, (mag each).count obj + list.count obj := by
  have split : ∀ counts : Cpu → Nat, ∑ each, counts each = counts cpu + ∑ each ∈ Finset.univ.erase cpu, counts each :=
    fun counts => (add_sum_erase _ _ (mem_univ cpu)).symm
  have rest : ∑ each ∈ Finset.univ.erase cpu, (update mag cpu list each).count obj =
      ∑ each ∈ Finset.univ.erase cpu, (mag each).count obj :=
    sum_congr rfl fun each member => by rw [update_of_ne (ne_of_mem_erase member)]
  rw [split, split (fun each => (mag each).count obj), rest, update_self]
  omega

namespace Stock

variable (stock : Stock cache live)

include stock

theorem perm {other : List Nat} (same : live.Perm other) : Stock cache other := by
  have places : ∀ obj, cache.places other obj = cache.places live obj := fun obj => by
    rw [Cache.places, Cache.places, same.count_eq]
  exact { stock with
    once := fun obj isObject => (places obj).trans (stock.once obj isObject)
    nothing := fun obj noObject => (places obj).trans (stock.nothing obj noObject) }

theorem places_le (obj : Nat) : cache.places live obj ≤ 1 := by
  by_cases isObject : cache.IsObject obj
  · exact (stock.once obj isObject).le
  · rw [stock.nothing obj isObject]
    exact Nat.zero_le 1

theorem isObject_of_places (somewhere : 0 < cache.places live obj) : cache.IsObject obj := by
  by_contra noObject
  rw [stock.nothing obj noObject] at somewhere
  exact Nat.lt_irrefl 0 somewhere

variable {list : List Nat} {mag : Cpu → List Nat}

theorem relocate (magazine : ∀ cpu, (mag cpu).length ≤ slabMagSize)
    (same : ∀ obj, list.count obj + ∑ cpu, (mag cpu).count obj =
      live.count obj + ∑ cpu, (cache.mag cpu).count obj) : Stock { cache with mag } list := by
  have places : ∀ obj, Cache.places { cache with mag } list obj = cache.places live obj := by
    intro obj
    simp only [Cache.places, same]
    rfl
  exact { stock with
    slab := fun slab member => (stock.slab slab member).congr rfl rfl
    magazine
    once := fun obj isObject => (places obj).trans (stock.once obj isObject)
    nothing := fun obj noObject => (places obj).trans (stock.nothing obj noObject) }

omit stock in
theorem slabOf_object (fits : cache.shape.Fits) (aligned : cache.shape.slabBytes ∣ slab) {index : Nat}
    (bound : index < cache.shape.objsPerSlab) : cache.slabOf (cache.shape.object slab index) = slab := by
  obtain ⟨count, rfl⟩ := aligned
  have step : index * cache.shape.objSize + cache.shape.objSize ≤ cache.shape.objsPerSlab * cache.shape.objSize := by
    rw [← Nat.succ_mul]
    exact Nat.mul_le_mul_right _ bound
  have inside := fits.inside
  have size := fits.size
  have low : cache.shape.objOffset + index * cache.shape.objSize < cache.shape.slabBytes := by omega
  rw [Cache.slabOf, Shape.object, Nat.add_assoc, Nat.mul_add_div (by omega), Nat.div_eq_of_lt low,
    Nat.add_zero, Nat.mul_comm]

section

variable (member : slab ∈ cache.made)
include member

theorem fits_of_mem : cache.shape.Fits := stock.fits (ne_nil_of_mem member)

theorem freelist_places (free : obj ∈ (cache.slabs slab).freelist) :
    cache.IsObject obj ∧ live.count obj + ∑ cpu, (cache.mag cpu).count obj = 0 ∧
      (cache.slabs slab).freelist.count obj = 1 := by
  have home := (stock.slab slab member).own obj free
  have some_ := count_pos_iff.mpr free
  have bound := stock.places_le obj
  rw [Cache.places, home, if_pos member] at bound
  refine ⟨stock.isObject_of_places ?_, by omega, by omega⟩
  rw [Cache.places, home, if_pos member]
  omega

theorem freelist_nodup : (cache.slabs slab).freelist.Nodup := by
  refine nodup_iff_count_le_one.mpr fun obj => ?_
  by_cases free : obj ∈ (cache.slabs slab).freelist
  · exact (stock.freelist_places member free).2.2.le
  · rw [count_eq_zero.mpr free]
    exact Nat.zero_le 1

theorem all_free (idle : (cache.slabs slab).inuse = 0) {index : Nat} (bound : index < cache.shape.objsPerSlab) :
    cache.shape.object slab index ∈ (cache.slabs slab).freelist := by
  have ok := stock.slab slab member
  have length : (cache.slabs slab).freelist.length = cache.shape.objsPerSlab := by
    have inuse := ok.inuse
    rw [idle, ok.total] at inuse
    omega
  have subset : (cache.slabs slab).freelist ⊆ (List.range cache.shape.objsPerSlab).map (cache.shape.object slab) := by
    intro obj free
    obtain ⟨-, index, bound, same⟩ := (stock.freelist_places member free).1
    rw [ok.own obj free] at same
    exact List.mem_map.mpr ⟨index, List.mem_range.mpr bound, same.symm⟩
  have all := ((stock.freelist_nodup member).subperm subset).perm_of_length_le (by simp [length])
  exact all.mem_iff.mpr (List.mem_map_of_mem (List.mem_range.mpr bound))

end

theorem inuse_pos (isObject : cache.IsObject obj) (taken : obj ∉ (cache.slabs (cache.slabOf obj)).freelist) :
    0 < (cache.slabs (cache.slabOf obj)).inuse := by
  obtain ⟨member, index, bound, same⟩ := isObject
  refine Nat.pos_of_ne_zero fun idle => taken ?_
  have free := stock.all_free member idle bound
  rwa [← same] at free

theorem restock (member : slab ∈ cache.made) {new : Slab}
    (total : new.total = (cache.slabs slab).total) (inuse : new.inuse + new.freelist.length = new.total)
    (own : ∀ obj ∈ new.freelist, cache.slabOf obj = slab) (magazine : ∀ cpu, (mag cpu).length ≤ slabMagSize)
    (same : ∀ obj, list.count obj + ∑ cpu, (mag cpu).count obj + new.freelist.count obj =
      live.count obj + ∑ cpu, (cache.mag cpu).count obj + (cache.slabs slab).freelist.count obj) :
    Stock { cache with mag, slabs := update cache.slabs slab new } list := by
  have ok := stock.slab slab member
  have places : ∀ obj, Cache.places { cache with mag, slabs := update cache.slabs slab new } list obj =
      cache.places live obj := by
    intro obj
    have moved := same obj
    change list.count obj + ∑ cpu, (mag cpu).count obj + (if cache.slabOf obj ∈ cache.made then
      (update cache.slabs slab new (cache.slabOf obj)).freelist.count obj else 0) = _
    rw [Cache.places]
    by_cases home : cache.slabOf obj = slab
    · rw [home, update_self, if_pos member, if_pos member]
      exact moved
    · have outside : obj ∉ new.freelist := fun free => home (own obj free)
      have wasOutside : obj ∉ (cache.slabs slab).freelist := fun free => home (ok.own obj free)
      rw [count_eq_zero.mpr outside, count_eq_zero.mpr wasOutside] at moved
      rw [update_of_ne home]
      omega
  refine { stock with
    slab := fun other memberOther => ?_
    magazine
    once := fun obj isObject => (places obj).trans (stock.once obj isObject)
    nothing := fun obj noObject => (places obj).trans (stock.nothing obj noObject) }
  by_cases here : other = slab
  · subst here
    exact .of_record (update_self ..) rfl (total.trans ok.total) inuse own
  · exact (stock.slab other memberOther).congr rfl (update_of_ne here _ _)

theorem destroy (member : slab ∈ cache.made) (idle : (cache.slabs slab).inuse = 0) :
    Stock (slabDestroy cache slab) live := by
  have kept : ∀ other, other ∈ cache.made.erase slab ↔ other ≠ slab ∧ other ∈ cache.made := fun other =>
    stock.madeOnce.mem_erase_iff
  have gone : slab ∉ cache.made.erase slab := fun there => ((kept slab).mp there).1 rfl
  have elsewhere : ∀ {obj}, cache.slabOf obj ≠ slab → ((slabDestroy cache slab).IsObject obj ↔ cache.IsObject obj) ∧
        (slabDestroy cache slab).places live obj = cache.places live obj := by
    intro obj other
    have same : cache.slabOf obj ∈ cache.made.erase slab ↔ cache.slabOf obj ∈ cache.made := by
      rw [kept, and_iff_right other]
    refine ⟨and_congr_left' same, ?_⟩
    change _ + (if cache.slabOf obj ∈ cache.made.erase slab then _ else 0) = _
    simp only [same]
    rfl
  refine { stock with
    madeOnce := stock.madeOnce.erase slab
    backed := fun other memberOther => ?_
    aligned := fun other memberOther => stock.aligned other ((kept other).mp memberOther).2
    fits := fun _ => stock.fits_of_mem member
    slab := fun other memberOther => ?_
    once := fun obj isObject => ?_
    nothing := fun obj noObject => ?_ }
  · obtain ⟨different, memberOther⟩ := (kept other).mp memberOther
    exact (BlockAllocator.free_live (stock.backed slab member)).mpr
      ⟨fun same => different same.1, stock.backed other memberOther⟩
  · exact (stock.slab other ((kept other).mp memberOther).2).congr rfl rfl
  · have other : cache.slabOf obj ≠ slab := fun same => gone (same ▸ isObject.1)
    rw [(elsewhere other).2]
    exact stock.once obj ((elsewhere other).1.mp isObject)
  · by_cases home : cache.slabOf obj = slab
    · -- the objects of the slab were all free
      have unused : live.count obj + ∑ cpu, (cache.mag cpu).count obj = 0 := by
        by_cases isObject : cache.IsObject obj
        · obtain ⟨-, index, bound, same⟩ := isObject
          have free := stock.all_free member idle bound
          rw [home] at same
          rw [← same] at free
          exact (stock.freelist_places member free).2.1
        · have zero := stock.nothing obj isObject
          rw [Cache.places] at zero
          omega
      change live.count obj + ∑ cpu, (cache.mag cpu).count obj +
        (if cache.slabOf obj ∈ cache.made.erase slab then _ else 0) = 0
      rw [home, if_neg gone, unused]
    · rw [(elsewhere home).2]
      exact stock.nothing obj fun isObject => noObject ((elsewhere home).1.mpr isObject)

omit stock in
theorem foldl_cons {α : Type} (value : Nat → α) (count : Nat) :
    (List.range count).foldl (fun list index => value index :: list) [] = ((List.range count).map value).reverse := by
  induction count with
  | zero => rfl
  | succ count ih => rw [range_succ, foldl_append, ih, map_append, reverse_append]; rfl

omit stock in
theorem object_injective (fits : cache.shape.Fits) {base first second : Nat}
    (same : cache.shape.object base first = cache.shape.object base second) : first = second :=
  Nat.eq_of_mul_eq_mul_right fits.size (Nat.add_left_cancel same)

theorem create {base : Nat} {made : Cache σ} (created : slabCreate cache = some (base, made)) :
    Stock made live ∧ base ∉ cache.made ∧ made.made = base :: cache.made ∧
      made.slabs = update cache.slabs base (made.slabs base) ∧ (made.slabs base).inuse = 0 ∧
      made.links = (cache.links.setNext base none).setPrev base none ∧ made.partialHead = cache.partialHead ∧
      made.emptyHead = cache.emptyHead ∧ made.emptyCount = cache.emptyCount ∧ made.mag = cache.mag ∧
      made.shape = cache.shape := by
  unfold slabCreate at created
  split at created
  · contradiction
  rename_i start pmm taken
  cases created
  obtain ⟨positive, small⟩ := BlockAllocator.alloc_bound taken
  have fits := stock.shaped small
  obtain ⟨order, pages⟩ := fits.order
  have aligned : cache.shape.slabBytes ∣ base := by
    rw [fits.bytes, pages]
    exact BlockAllocator.alloc_aligned (pages ▸ taken)
  have fresh : base ∉ cache.made := by
    intro member
    have bytes : 0 < cache.shape.pagesPerSlab * pageSize := Nat.mul_pos positive (by decide)
    rcases BlockAllocator.alloc_apart taken (stock.backed base member) with below | above
    · omega
    · omega
  rw [foldl_cons]
  have nodup : ((List.range cache.shape.objsPerSlab).map (cache.shape.object base)).Nodup :=
    nodup_range.map fun first second same => object_injective fits same
  refine ⟨?_, fresh, rfl, by simp, by simp, rfl, rfl, rfl, rfl, rfl, rfl⟩
  have elsewhere : ∀ {obj}, cache.slabOf obj ≠ base →
      (cache.slabOf obj ∈ base :: cache.made ↔ cache.slabOf obj ∈ cache.made) := by
    intro obj other
    simp [other]
  have places : ∀ obj, live.count obj + ∑ cpu, (cache.mag cpu).count obj +
      (if cache.slabOf obj ∈ base :: cache.made then
        (update cache.slabs base ⟨((List.range cache.shape.objsPerSlab).map (cache.shape.object base)).reverse, 0,
            cache.shape.objsPerSlab⟩ (cache.slabOf obj)).freelist.count obj else 0) =
      if cache.slabOf obj = base then
        ((List.range cache.shape.objsPerSlab).map (cache.shape.object base)).count obj
      else cache.places live obj := by
    intro obj
    by_cases home : cache.slabOf obj = base
    · have zero := stock.nothing obj fun isObject => fresh (home ▸ isObject.1)
      rw [Cache.places] at zero
      rw [home, update_self, if_pos (by simp), if_pos rfl, count_reverse]
      omega
    · simp only [elsewhere home, update_of_ne home, if_neg home]
      rfl
  refine { stock with
    madeOnce := nodup_cons.mpr ⟨fresh, stock.madeOnce⟩
    backed := fun slab member => ?_
    aligned := fun slab member => ?_
    fits := fun _ => fits
    slab := fun slab member => ?_
    once := fun obj isObject => ?_
    nothing := fun obj noObject => ?_ }
  · refine (BlockAllocator.alloc_live taken).mpr ?_
    rcases List.mem_cons.mp member with rfl | old
    · exact .inl ⟨rfl, rfl⟩
    · exact .inr (stock.backed slab old)
  · rcases List.mem_cons.mp member with rfl | old
    · exact aligned
    · exact stock.aligned slab old
  · rcases List.mem_cons.mp member with rfl | old
    · refine .of_record (update_self ..) rfl rfl (by simp) fun obj free => ?_
      obtain ⟨index, bound, rfl⟩ := List.mem_map.mp (mem_reverse.mp free)
      exact slabOf_object fits aligned (List.mem_range.mp bound)
    · exact (stock.slab slab old).congr rfl (update_of_ne (ne_of_mem_of_not_mem old fresh) _ _)
  · obtain ⟨member, index, bound, same⟩ := isObject
    refine (places obj).trans ?_
    split
    · rename_i home
      refine count_eq_one_of_mem nodup (List.mem_map.mpr ⟨index, List.mem_range.mpr bound, ?_⟩)
      rw [same]
      exact congrArg (cache.shape.object · index) home.symm
    · rename_i other
      exact stock.once obj ⟨(elsewhere other).mp member, index, bound, same⟩
  · refine (places obj).trans ?_
    split
    · rename_i home
      refine count_eq_zero.mpr fun there => noObject ?_
      obtain ⟨index, bound, same⟩ := List.mem_map.mp there
      refine ⟨?_, index, List.mem_range.mp bound, ?_⟩
      · exact home.symm ▸ List.mem_cons_self
      · exact same.symm.trans (congrArg (cache.shape.object · index) home.symm)
    · rename_i other
      refine stock.nothing obj fun isObject => noObject ⟨?_, isObject.2⟩
      exact (elsewhere other).mpr isObject.1

end Stock

namespace Sound

theorem pop {cpu : Cpu} {popped : Cache σ} (sound : Sound cache partials empties live)
    (top : cache.pop cpu = some (obj, popped)) : Sound popped partials empties (obj :: live) := by
  unfold Cache.pop at top
  split at top
  · contradiction
  · rename_i first rest magIs
    cases top
    refine { sound with toStock := sound.toStock.relocate (fun each => ?_) fun other => ?_ }
    · by_cases here : each = cpu
      · have bound := sound.magazine cpu
        rw [magIs, length_cons] at bound
        rw [here, update_self]
        omega
      · rw [update_of_ne here]
        exact sound.magazine each
    · have moved := sum_mag cache.mag cpu rest other
      rw [magIs, count_cons] at moved
      rw [count_cons]
      omega

theorem push {cpu : Cpu} (sound : Sound cache partials empties (obj :: live))
    (room : (cache.mag cpu).length < slabMagSize) : Sound (cache.push cpu obj) partials empties live := by
  refine { sound with toStock := sound.toStock.relocate (fun each => ?_) fun other => ?_ }
  · by_cases here : each = cpu
    · rw [here, update_self, length_cons]
      exact room
    · rw [update_of_ne here]
      exact sound.magazine each
  · have moved := sum_mag cache.mag cpu (obj :: cache.mag cpu) other
    rw [count_cons] at moved ⊢
    omega

end Sound

/-! Slabs go on and off the two lists. -/

theorem Stock.relist (stock : Stock cache live) (links : Links Nat) (partialHead emptyHead : Option Nat)
    (emptyCount : Nat) : Stock { cache with links, partialHead, emptyHead, emptyCount } live :=
  { stock with slab := fun slab member => (stock.slab slab member).congr rfl rfl }

namespace Sound

variable (sound : Sound cache partials empties live)

include sound

theorem apart : ∀ place ∈ empties, place ∉ partials := by
  intro place isEmpty isPartial
  have idle := ((sound.onEmpty place).mp isEmpty).2
  have busy := ((sound.onPartial place).mp isPartial).2.1
  omega

theorem detachFull (member : slab ∈ cache.made) (full : (cache.slabs slab).inuse = (cache.slabs slab).total) :
    Detached cache partials empties live slab := by
  have total := (sound.slab slab member).total
  have positive := sound.count.1
  refine { sound with onPartial := fun other => ?_, onEmpty := fun other => ?_, offMade := member }
  · rw [sound.onPartial]
    refine ⟨fun on => ⟨?_, on⟩, And.right⟩
    rintro rfl
    omega
  · rw [sound.onEmpty]
    refine ⟨fun on => ⟨?_, on⟩, And.right⟩
    rintro rfl
    omega

theorem takePartial (on : slab ∈ partials) :
    Detached { cache with
      links := (cache.links.remove cache.partialHead slab).1
      partialHead := (cache.links.remove cache.partialHead slab).2 }
      (partials.erase slab) empties live slab := by
  have kept : ∀ other, other ∈ partials.erase slab ↔ other ≠ slab ∧ other ∈ partials := fun other =>
    sound.partialLinked.nodup.mem_erase_iff
  refine { sound.toStock.relist _ _ cache.emptyHead cache.emptyCount with
    partialLinked := sound.partialLinked.remove on
    emptyLinked := sound.emptyLinked.remove_other sound.partialLinked on sound.apart
    onPartial := fun other => (kept other).trans (and_congr_right fun _ => sound.onPartial other)
    onEmpty := fun other => ?_
    emptyCount := sound.emptyCount
    emptyFew := sound.emptyFew
    offMade := ((sound.onPartial slab).mp on).1 }
  refine (sound.onEmpty other).trans ⟨fun isEmpty => ⟨?_, isEmpty⟩, And.right⟩
  rintro rfl
  exact sound.apart other ((sound.onEmpty other).mpr isEmpty) on

theorem takeEmpty (on : slab ∈ empties) :
    Detached { cache with
      links := (cache.links.remove cache.emptyHead slab).1
      emptyHead := (cache.links.remove cache.emptyHead slab).2
      emptyCount := decrement 64 cache.emptyCount }
      partials (empties.erase slab) live slab := by
  have kept : ∀ other, other ∈ empties.erase slab ↔ other ≠ slab ∧ other ∈ empties := fun other =>
    sound.emptyLinked.nodup.mem_erase_iff
  have some_ : 0 < empties.length := length_pos_of_mem on
  have few := sound.emptyFew
  have length := length_erase_of_mem on
  refine { sound.toStock.relist _ cache.partialHead _ _ with
    partialLinked := sound.partialLinked.remove_other sound.emptyLinked on
      fun place isPartial isEmpty => sound.apart place isEmpty isPartial
    emptyLinked := sound.emptyLinked.remove on
    onPartial := fun other => ?_
    onEmpty := fun other => (kept other).trans (and_congr_right fun _ => sound.onEmpty other)
    emptyCount := ?_
    emptyFew := by omega
    offMade := ((sound.onEmpty slab).mp on).1 }
  · refine (sound.onPartial other).trans ⟨fun isPartial => ⟨?_, isPartial⟩, And.right⟩
    rintro rfl
    exact sound.apart other on ((sound.onPartial other).mpr isPartial)
  · have small : empties.length < 2 ^ 64 := Nat.lt_of_le_of_lt few (by decide)
    change decrement 64 cache.emptyCount = _
    rw [sound.emptyCount, decrement_eq some_ small, length]

theorem create {base : Nat} {made : Cache σ} (created : slabCreate cache = some (base, made)) :
    Detached made partials empties live base := by
  obtain ⟨stock, fresh, isMade, slabs, idle, links, partialHead, emptyHead, emptyCount, -, -⟩ :=
    sound.toStock.create created
  have record : ∀ other, other ≠ base → made.slabs other = cache.slabs other := by
    intro other different
    rw [slabs, update_of_ne different]
  have relinked : ∀ {head items}, cache.links.Linked head items → base ∉ items → made.links.Linked head items := by
    intro head items linked outside
    refine linked.congr fun place member => ?_
    have different : place ≠ base := ne_of_mem_of_not_mem member outside
    rw [links]
    simp [Links.setNext, Links.setPrev, different]
  refine { stock with
    partialLinked := partialHead ▸ relinked sound.partialLinked fun on => fresh ((sound.onPartial base).mp on).1
    emptyLinked := emptyHead ▸ relinked sound.emptyLinked fun on => fresh ((sound.onEmpty base).mp on).1
    onPartial := fun other => ?_
    onEmpty := fun other => ?_
    emptyCount := emptyCount.trans sound.emptyCount
    emptyFew := sound.emptyFew
    offMade := isMade ▸ List.mem_cons_self }
  · rw [sound.onPartial, isMade]
    by_cases here : other = base
    · subst here
      simp [fresh]
    · simp [here, record other here]
  · rw [sound.onEmpty, isMade]
    by_cases here : other = base
    · subst here
      simp [fresh]
    · simp [here, record other here]

end Sound

namespace Detached

variable {off : Nat} (detached : Detached cache partials empties live off)

include detached

theorem apart : ∀ place ∈ empties, place ∉ partials := by
  intro place isEmpty isPartial
  have idle := ((detached.onEmpty place).mp isEmpty).2.2
  have busy := ((detached.onPartial place).mp isPartial).2.2.1
  omega

theorem offPartial : off ∉ partials := fun on => ((detached.onPartial off).mp on).1 rfl

theorem offEmpty : off ∉ empties := fun on => ((detached.onEmpty off).mp on).1 rfl

theorem restock {new : Slab} {mag : Cpu → List Nat} {list : List Nat}
    (stock : Stock { cache with mag, slabs := update cache.slabs off new } list) :
    Detached { cache with mag, slabs := update cache.slabs off new } partials empties list off := by
  refine { stock with
    partialLinked := detached.partialLinked
    emptyLinked := detached.emptyLinked
    onPartial := fun other => ?_
    onEmpty := fun other => ?_
    emptyCount := detached.emptyCount
    emptyFew := detached.emptyFew
    offMade := detached.offMade }
  · rw [detached.onPartial]
    refine and_congr_right fun different => ?_
    simp only [update_of_ne different]
  · rw [detached.onEmpty]
    refine and_congr_right fun different => ?_
    simp only [update_of_ne different]

theorem full (isFull : (cache.slabs off).inuse = (cache.slabs off).total) : Sound cache partials empties live := by
  have total := (detached.slab off detached.offMade).total
  have positive := detached.count.1
  refine { detached with onPartial := fun other => ?_, onEmpty := fun other => ?_ }
  · rw [detached.onPartial]
    refine ⟨And.right, fun on => ⟨?_, on⟩⟩
    rintro rfl
    omega
  · rw [detached.onEmpty]
    refine ⟨And.right, fun on => ⟨?_, on⟩⟩
    rintro rfl
    omega

theorem listPartial (busy : 0 < (cache.slabs off).inuse) (room : (cache.slabs off).inuse < (cache.slabs off).total) :
    Sound (pushPartial cache off) (off :: partials) empties live := by
  refine { detached.toStock.relist _ _ cache.emptyHead cache.emptyCount with
    partialLinked := detached.partialLinked.push detached.offPartial
    emptyLinked := detached.emptyLinked.push_other detached.offEmpty fun place isEmpty isHead => ?_
    onPartial := fun other => ?_
    onEmpty := fun other => ?_
    emptyCount := detached.emptyCount
    emptyFew := detached.emptyFew }
  · exact detached.apart place isEmpty (mem_of_head? (detached.partialLinked.head.symm.trans isHead))
  · rw [List.mem_cons, detached.onPartial]
    by_cases here : other = off
    · subst here
      simp only [ne_eq, not_true, false_and, or_false, true_iff]
      exact ⟨detached.offMade, busy, room⟩
    · simp only [here, ne_eq, not_false_eq_true, true_and, false_or]
      rfl
  · rw [detached.onEmpty]
    refine ⟨And.right, fun on => ⟨?_, on⟩⟩
    rintro rfl
    exact Nat.ne_of_gt busy on.2

theorem listEmpty (idle : (cache.slabs off).inuse = 0) (few : cache.emptyCount < slabMaxEmpty) :
    Sound { cache with
      links := cache.links.push cache.emptyHead off
      emptyHead := some off
      emptyCount := increment 64 cache.emptyCount } partials (off :: empties) live := by
  have length := detached.emptyCount
  refine { detached.toStock.relist _ cache.partialHead _ _ with
    partialLinked := detached.partialLinked.push_other detached.offPartial fun place isPartial isHead => ?_
    emptyLinked := detached.emptyLinked.push detached.offEmpty
    onPartial := fun other => ?_
    onEmpty := fun other => ?_
    emptyCount := ?_
    emptyFew := by rw [length_cons]; omega }
  · exact detached.apart place (mem_of_head? (detached.emptyLinked.head.symm.trans isHead)) isPartial
  · rw [detached.onPartial]
    refine ⟨And.right, fun on => ⟨?_, on⟩⟩
    rintro rfl
    exact Nat.ne_of_gt on.2.1 idle
  · rw [List.mem_cons, detached.onEmpty]
    by_cases here : other = off
    · subst here
      simp only [ne_eq, not_true, false_and, or_false, true_iff]
      exact ⟨detached.offMade, idle⟩
    · simp only [here, ne_eq, not_false_eq_true, true_and, false_or]
  · have small : cache.emptyCount + 1 < 2 ^ 64 := Nat.lt_of_le_of_lt few (by decide)
    change increment 64 cache.emptyCount = _
    rw [increment_eq small, length_cons, length]

theorem destroy (idle : (cache.slabs off).inuse = 0) : Sound (slabDestroy cache off) partials empties live := by
  have kept : ∀ other, other ∈ cache.made.erase off ↔ other ≠ off ∧ other ∈ cache.made := fun other =>
    detached.madeOnce.mem_erase_iff
  refine { detached.toStock.destroy detached.offMade idle with
    partialLinked := detached.partialLinked
    emptyLinked := detached.emptyLinked
    onPartial := fun other => ?_
    onEmpty := fun other => ?_
    emptyCount := detached.emptyCount
    emptyFew := detached.emptyFew }
  · change _ ↔ other ∈ cache.made.erase off ∧ _
    rw [detached.onPartial, kept, and_assoc]
    rfl
  · change _ ↔ other ∈ cache.made.erase off ∧ _
    rw [detached.onEmpty, kept, and_assoc]
    rfl

end Detached

/-! The calls. -/

theorem moveObjects_spec (fuel : Nat) (slab : Slab) (mag : List Nat)
    (bound : slab.inuse + slab.freelist.length < 2 ^ 32) :
    moveObjects fuel slab mag = (min fuel slab.freelist.length,
      { slab with
        freelist := slab.freelist.drop (min fuel slab.freelist.length)
        inuse := slab.inuse + min fuel slab.freelist.length },
      (slab.freelist.take (min fuel slab.freelist.length)).reverse ++ mag) := by
  induction fuel generalizing slab mag with
  | zero => simp [moveObjects]
  | succ fuel ih =>
    cases free : slab.freelist with
    | nil =>
      simp only [moveObjects, free, length_nil, Nat.min_zero, drop_nil, take_nil, reverse_nil, nil_append, Nat.add_zero]
      rw [← free]
    | cons obj rest =>
      rw [free, length_cons] at bound
      have next : increment 32 slab.inuse = slab.inuse + 1 := increment_eq (by omega)
      simp only [moveObjects, free]
      rw [ih _ _ (by simp only [next]; omega)]
      simp only [next, length_cons, Nat.add_min_add_right, drop_succ_cons, take_succ_cons,
        reverse_cons, append_assoc, singleton_append]
      simp only [Nat.add_assoc, Nat.add_comm 1]

namespace Sound

theorem takeSlab {taken : Cache σ} (sound : Sound cache partials empties live)
    (took : takeSlab cache = some (slab, taken)) :
    ∃ partials empties, Detached taken partials empties live slab ∧
      (taken.slabs slab).inuse < (taken.slabs slab).total ∧ taken.mag = cache.mag ∧ taken.shape = cache.shape := by
  unfold Slab.takeSlab at took
  split at took
  · rename_i first isHead
    cases took
    have on : slab ∈ partials := mem_of_head? (sound.partialLinked.head.symm.trans isHead)
    have detached := sound.takePartial on
    rw [isHead] at detached ⊢
    exact ⟨_, _, detached, ((sound.onPartial slab).mp on).2.2, rfl, rfl⟩
  · split at took
    · rename_i first isHead
      cases took
      have on : slab ∈ empties := mem_of_head? (sound.emptyLinked.head.symm.trans isHead)
      have detached := sound.takeEmpty on
      have total := (sound.slab slab ((sound.onEmpty slab).mp on).1).total
      have idle := ((sound.onEmpty slab).mp on).2
      have positive := sound.count.1
      rw [isHead] at detached ⊢
      exact ⟨_, _, detached, by dsimp only; omega, rfl, rfl⟩
    · obtain ⟨stock, -, isMade, -, idle, -, -, -, -, mag, shape⟩ := sound.toStock.create took
      have total := (stock.slab slab (isMade ▸ List.mem_cons_self)).total
      have positive := stock.count.1
      exact ⟨_, _, sound.create took, by omega, mag, shape⟩

theorem refill {cpu : Cpu} (sound : Sound cache partials empties live) (drained : cache.mag cpu = []) :
    ∃ partials empties, Sound (slabRefill cache cpu).2 partials empties live ∧
      (slabRefill cache cpu).2.shape = cache.shape := by
  unfold slabRefill
  split
  · exact ⟨_, _, sound, rfl⟩
  rename_i slab taken took
  obtain ⟨partials, empties, detached, room, mag, shape⟩ := sound.takeSlab took
  obtain ⟨total, inuse, own⟩ := detached.slab slab detached.offMade
  have count := detached.count
  have moved := moveObjects_spec slabMagSize (taken.slabs slab) (taken.mag cpu) (by omega)
  have empty : taken.mag cpu = [] := by rw [mag, drained]
  obtain ⟨taking, isTaking⟩ : ∃ taking, taking = min slabMagSize (taken.slabs slab).freelist.length := ⟨_, rfl⟩
  have size : 0 < slabMagSize := by decide
  rw [← isTaking, empty, append_nil] at moved
  have stock : Stock { taken with
      mag := update taken.mag cpu ((taken.slabs slab).freelist.take taking).reverse
      slabs := update taken.slabs slab ⟨(taken.slabs slab).freelist.drop taking,
        (taken.slabs slab).inuse + taking, (taken.slabs slab).total⟩ } live := by
    refine detached.toStock.restock detached.offMade rfl (by simp only [length_drop]; omega)
      (fun obj free => own obj (mem_of_mem_drop free)) (fun each => ?_) fun obj => ?_
    · by_cases here : each = cpu
      · rw [here, update_self, length_reverse, length_take]
        omega
      · rw [update_of_ne here]
        exact detached.magazine each
    · have sums := sum_mag taken.mag cpu ((taken.slabs slab).freelist.take taking).reverse obj
      have parts := congrArg (List.count obj) (take_append_drop taking (taken.slabs slab).freelist)
      rw [count_append] at parts
      rw [empty, count_nil, count_reverse] at sums
      dsimp only
      omega
  have after := detached.restock stock
  have record : update taken.slabs slab ⟨(taken.slabs slab).freelist.drop taking,
      (taken.slabs slab).inuse + taking, (taken.slabs slab).total⟩ slab = _ := update_self ..
  simp only [empty, moved]
  split
  · rename_i more
    refine ⟨_, _, after.listPartial ?_ ?_, shape⟩
    · dsimp only
      rw [record]
      dsimp only
      omega
    · dsimp only
      rw [record]
      exact more
  · refine ⟨_, _, after.full ?_, shape⟩
    dsimp only
    rw [record]
    dsimp only
    omega

/-- An object goes from a caller to the free list of its slab. Where a slab holds more
than one object, a full one is not empty after that. -/
theorem put (several : cache.shape.objsPerSlab ≠ 1) (sound : Sound cache partials empties (obj :: live)) :
    ∃ partials empties, Sound (slabPut cache obj) partials empties live := by
  have held : 0 < cache.places (obj :: live) obj := by
    rw [Cache.places, count_cons_self]
    omega
  have isObject := sound.isObject_of_places held
  have member := isObject.1
  have taken : obj ∉ (cache.slabs (cache.slabOf obj)).freelist := by
    intro free
    have unused := (sound.freelist_places member free).2.1
    rw [count_cons_self] at unused
    omega
  have busy := sound.inuse_pos isObject taken
  obtain ⟨total, inuse, own⟩ := sound.slab _ member
  have count := sound.count
  have before : decrement 32 (cache.slabs (cache.slabOf obj)).inuse = (cache.slabs (cache.slabOf obj)).inuse - 1 :=
    decrement_eq busy (by omega)
  have stock : Stock { cache with
      slabs := update cache.slabs (cache.slabOf obj) ⟨obj :: (cache.slabs (cache.slabOf obj)).freelist,
        (cache.slabs (cache.slabOf obj)).inuse - 1, (cache.slabs (cache.slabOf obj)).total⟩ } live := by
    refine sound.toStock.restock member rfl (by simp only [length_cons]; omega) (fun other free => ?_)
      sound.magazine fun other => ?_
    · rcases List.mem_cons.mp free with rfl | old
      · rfl
      · exact own other old
    · simp only [count_cons]
      omega
  have record : update cache.slabs (cache.slabOf obj) ⟨obj :: (cache.slabs (cache.slabOf obj)).freelist,
      (cache.slabs (cache.slabOf obj)).inuse - 1, (cache.slabs (cache.slabOf obj)).total⟩ (cache.slabOf obj) = _ :=
    update_self ..
  unfold slabPut
  simp only [before]
  by_cases full : (cache.slabs (cache.slabOf obj)).inuse = (cache.slabs (cache.slabOf obj)).total
  · have after := (sound.detachFull member full).restock stock
    rw [if_neg (by omega), if_pos (by simpa using full)]
    refine ⟨_, _, after.listPartial ?_ ?_⟩
    all_goals
      dsimp only
      rw [record]
      dsimp only
      omega
  · have on : cache.slabOf obj ∈ partials := (sound.onPartial _).mpr ⟨member, busy, by omega⟩
    have notFull : ((cache.slabs (cache.slabOf obj)).inuse == (cache.slabs (cache.slabOf obj)).total) = false := by
      simpa using full
    simp only [notFull, Bool.false_eq_true, if_false]
    by_cases last : (cache.slabs (cache.slabOf obj)).inuse - 1 = 0
    · have after := (sound.takePartial on).restock (stock.relist _ _ cache.emptyHead cache.emptyCount)
      rw [if_pos last]
      unfold retireSlab
      simp only [Bool.false_eq_true, if_false]
      split
      · rename_i few
        refine ⟨_, _, after.listEmpty ?_ few⟩
        dsimp only
        rw [record]
        exact last
      · refine ⟨_, _, after.destroy ?_⟩
        dsimp only
        rw [record]
        exact last
    · rw [if_neg last]
      refine ⟨partials, empties, { stock with
        partialLinked := sound.partialLinked
        emptyLinked := sound.emptyLinked
        onPartial := fun other => ?_
        onEmpty := fun other => ?_
        emptyCount := sound.emptyCount
        emptyFew := sound.emptyFew }⟩
      · rw [sound.onPartial]
        dsimp only
        by_cases here : other = cache.slabOf obj
        · subst here
          rw [record]
          simp only [member, true_and]
          omega
        · rw [update_of_ne here]
      · rw [sound.onEmpty]
        dsimp only
        by_cases here : other = cache.slabOf obj
        · subst here
          rw [record]
          dsimp only
          omega
        · rw [update_of_ne here]

omit [BlockAllocator σ] in
theorem pop_mag {cpu : Cpu} {popped : Cache σ} (top : cache.pop cpu = some (obj, popped)) :
    popped.shape = cache.shape ∧ cache.mag cpu = obj :: popped.mag cpu := by
  unfold Cache.pop at top
  split at top
  · contradiction
  · rename_i first rest magIs
    cases top
    exact ⟨rfl, by simp [magIs]⟩

theorem retireSlab_keeps (cache : Cache σ) (slab : Nat) (wasFull : Bool) :
    (retireSlab cache slab wasFull).shape = cache.shape ∧ (retireSlab cache slab wasFull).mag = cache.mag := by
  cases wasFull with
  | true =>
    simp only [retireSlab, if_true]
    split <;> exact ⟨rfl, rfl⟩
  | false =>
    simp only [retireSlab, Bool.false_eq_true, if_false]
    split <;> exact ⟨rfl, rfl⟩

theorem slabPut_keeps (cache : Cache σ) (obj : Nat) :
    (slabPut cache obj).shape = cache.shape ∧ (slabPut cache obj).mag = cache.mag := by
  simp only [slabPut]
  generalize decrement 32 (cache.slabs (cache.slabOf obj)).inuse = inuse
  cases (cache.slabs (cache.slabOf obj)).inuse == (cache.slabs (cache.slabOf obj)).total with
  | true =>
    simp only [if_true]
    split
    · exact retireSlab_keeps (pushPartial _ _) _ _
    · exact ⟨rfl, rfl⟩
  | false =>
    simp only [Bool.false_eq_true, if_false]
    split
    · exact retireSlab_keeps { cache with slabs := _ } _ _
    · exact ⟨rfl, rfl⟩

theorem flush (several : cache.shape.objsPerSlab ≠ 1) (cpu : Cpu) (count : Nat)
    (sound : Sound cache partials empties live) :
    ∃ partials empties, Sound (flushMagazine count cache cpu) partials empties live ∧
      (flushMagazine count cache cpu).shape = cache.shape ∧
      ((flushMagazine count cache cpu).mag cpu).length = (cache.mag cpu).length - count := by
  induction count generalizing cache partials empties with
  | zero => exact ⟨_, _, sound, rfl, rfl⟩
  | succ count ih =>
    rw [flushMagazine]
    split
    · rename_i drained
      have empty : cache.mag cpu = [] := by
        unfold Cache.pop at drained
        split at drained
        · assumption
        · contradiction
      exact ⟨_, _, sound, rfl, by simp [empty]⟩
    · rename_i obj popped top
      obtain ⟨shape, mag⟩ := pop_mag top
      obtain ⟨shapePut, magPut⟩ := slabPut_keeps popped obj
      obtain ⟨_, _, put⟩ := (sound.pop top).put (shape ▸ several)
      obtain ⟨partials, empties, flushed, shapeAfter, length⟩ := ih (by rw [shapePut, shape]; exact several) put
      refine ⟨partials, empties, flushed, by rw [shapeAfter, shapePut, shape], ?_⟩
      rw [length, magPut, mag, length_cons]
      omega

theorem alloc (sound : Sound cache partials empties live) (cpu : Cpu) :
    ∃ partials empties, Sound (kmemCacheAlloc cache cpu).2 partials empties
        ((kmemCacheAlloc cache cpu).1.toList ++ live) ∧
      (kmemCacheAlloc cache cpu).2.shape = cache.shape := by
  unfold kmemCacheAlloc
  cases top : cache.pop cpu with
  | some found =>
    obtain ⟨obj, popped⟩ := found
    exact ⟨_, _, sound.pop top, (pop_mag top).1⟩
  | none =>
    have drained : cache.mag cpu = [] := by
      unfold Cache.pop at top
      split at top
      · assumption
      · contradiction
    obtain ⟨partials, empties, refilled, shape⟩ := sound.refill drained
    dsimp only
    split
    · exact ⟨_, _, refilled, shape⟩
    · cases again : (slabRefill cache cpu).2.pop cpu with
      | none => exact ⟨_, _, refilled, shape⟩
      | some found =>
        obtain ⟨obj, popped⟩ := found
        exact ⟨_, _, refilled.pop again, (pop_mag again).1.trans shape⟩

theorem free (several : cache.shape.objsPerSlab ≠ 1) (sound : Sound cache partials empties (obj :: live)) (cpu : Cpu) :
    ∃ partials empties, Sound (kmemCacheFree cache cpu obj) partials empties live ∧
      (kmemCacheFree cache cpu obj).shape = cache.shape := by
  unfold kmemCacheFree
  split
  · rename_i room
    exact ⟨_, _, sound.push room, rfl⟩
  · obtain ⟨partials, empties, flushed, shape, length⟩ := sound.flush several cpu (slabMagSize / 2)
    have bound := sound.magazine cpu
    have half : slabMagSize / 2 < slabMagSize ∧ 0 < slabMagSize / 2 := by decide
    exact ⟨_, _, flushed.push (by omega), shape⟩

end Sound

end NyonOS.Slab
