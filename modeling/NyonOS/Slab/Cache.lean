import NyonOS.Data.Linked
import NyonOS.Memory.Blocks

namespace NyonOS.Slab

open Data Memory
open Paging (pageSize)
open Function

/-! The slab allocator. Addresses are physical: `slab_of` and `slab_destroy` take the
constant offset of the direct mapping off again before they use an address. -/

/-- A `size_t`. -/
abbrev Size := BitVec 64

def slabMagSize : Nat := 32
def slabMaxEmpty : Nat := 8

/-- `MAX_CPUS` processors. -/
abbrev Cpu := Fin 8

def sizeofPointer : Size := 8#64
def sizeofSlab : Size := 40#64

/-- The part of a `kmem_cache` that `kmem_cache_create` computes. -/
structure Shape where
  objSize : Nat
  objOffset : Nat
  objsPerSlab : Nat
  pagesPerSlab : Nat
  slabBytes : Nat
deriving DecidableEq, Repr

def roundUp (value asz : Size) : Size := (value + asz - 1#64) &&& ~~~(asz - 1#64)

def objAlign (align : Size) : Size :=
  let asz := if align < sizeofPointer then sizeofPointer else align
  if asz < 16#64 then 16#64 else asz

def objBytes (size asz : Size) : Size :=
  let obj := roundUp size asz
  if obj < sizeofPointer then sizeofPointer else obj

/-- The loop that doubles `pages` until enough objects fit. -/
def choosePages (overhead obj : Size) : (fuel : Nat) → (pages : Size) → Size
  | 0, pages => pages
  | fuel + 1, pages =>
    let bytes := pages * 4096#64
    let count := (bytes - overhead) / obj
    if overhead < bytes ∧ (8#64 ≤ count ∨ 1#64 ≤ count ∧ 64#64 ≤ pages) then pages
    else if 65536#64 ≤ pages then pages
    else choosePages overhead obj fuel (pages <<< 1)

/-- What `kmem_cache_create` computes from its arguments; the loop ends at 65536 pages. -/
def kmemCacheShape (size align : Size) : Option Shape :=
  if size = 0#64 then none
  else
    let asz := objAlign align
    let obj := objBytes size asz
    let overhead := roundUp sizeofSlab asz
    let pages := choosePages overhead obj 17 1#64
    let slabBytes := pages * 4096#64
    let objsPerSlab := ((slabBytes - overhead) / obj).toNat % 2 ^ 32
    if objsPerSlab = 0 then none
    else some {
      objSize := obj.toNat
      objOffset := overhead.toNat
      objsPerSlab
      pagesPerSlab := pages.toNat
      slabBytes := slabBytes.toNat }

/-- The fields of `struct slab` besides its links. The free list is kept in the free
objects themselves. -/
structure Slab where
  freelist : List Nat
  inuse : Nat
  total : Nat

/-- A `kmem_cache` with the slabs in memory. `mag cpu` has the object that goes out next
first. `made` is not part of the kernel's state: it records which slabs exist. -/
structure Cache (σ : Type) where
  shape : Shape
  links : Links Nat
  slabs : Nat → Slab
  partialHead : Option Nat
  emptyHead : Option Nat
  emptyCount : Nat
  mag : Cpu → List Nat
  pmm : σ
  made : List Nat

/-- Adding and subtracting one in an unsigned integer. -/
def increment (bits value : Nat) : Nat := (value + 1) % 2 ^ bits

def decrement (bits value : Nat) : Nat := (value + (2 ^ bits - 1)) % 2 ^ bits

variable {σ : Type} [BlockAllocator σ]

/-- `kmem_cache_create`, when `kmalloc` finds room for the cache. -/
def kmemCacheCreate (size align : Size) (pmm : σ) : Option (Cache σ) :=
  match kmemCacheShape size align with
  | none => none
  | some shape =>
    some {
      shape
      links := ⟨fun _ => none, fun _ => none⟩
      slabs := fun _ => ⟨[], 0, 0⟩
      partialHead := none
      emptyHead := none
      emptyCount := 0
      mag := fun _ => []
      pmm
      made := [] }

section

variable (cache : Cache σ)

/-- `pa & ~(slab_bytes - 1)`; the number of bytes is a power of two. -/
def Cache.slabOf (obj : Nat) : Nat :=
  obj / cache.shape.slabBytes * cache.shape.slabBytes

/-- Object `index` of a slab. -/
def Shape.object (shape : Shape) (base index : Nat) : Nat := base + shape.objOffset + index * shape.objSize

def slabCreate : Option (Nat × Cache σ) :=
  match BlockAllocator.alloc cache.pmm cache.shape.pagesPerSlab with
  | none => none
  | some (base, pmm) =>
    let freelist := (List.range cache.shape.objsPerSlab).foldl
      (fun list index => cache.shape.object base index :: list) []
    some (base, { cache with
      pmm
      links := (cache.links.setNext base none).setPrev base none
      slabs := update cache.slabs base ⟨freelist, 0, cache.shape.objsPerSlab⟩
      made := base :: cache.made })

def slabDestroy (slab : Nat) : Cache σ :=
  { cache with
    pmm := BlockAllocator.free cache.pmm slab cache.shape.pagesPerSlab
    made := cache.made.erase slab }

/-- The slab that `slab_refill` takes objects from, off its list. -/
def takeSlab : Option (Nat × Cache σ) :=
  match cache.partialHead with
  | some slab =>
    let removed := cache.links.remove cache.partialHead slab
    some (slab, { cache with links := removed.1, partialHead := removed.2 })
  | none =>
    match cache.emptyHead with
    | some slab =>
      let removed := cache.links.remove cache.emptyHead slab
      some (slab, { cache with
        links := removed.1
        emptyHead := removed.2
        emptyCount := decrement 64 cache.emptyCount })
    | none => slabCreate cache

/-- The loop of `slab_refill`: objects go from the free list to the magazine. -/
def moveObjects : (fuel : Nat) → Slab → List Nat → Nat × Slab × List Nat
  | 0, slab, mag => (0, slab, mag)
  | fuel + 1, slab, mag =>
    match slab.freelist with
    | [] => (0, slab, mag)
    | obj :: rest =>
      let more := moveObjects fuel { slab with freelist := rest, inuse := increment 32 slab.inuse } (obj :: mag)
      (more.1 + 1, more.2)

def pushPartial (slab : Nat) : Cache σ :=
  { cache with links := cache.links.push cache.partialHead slab, partialHead := some slab }

variable (cpu : Cpu)

def slabRefill : Bool × Cache σ :=
  match takeSlab cache with
  | none => (false, cache)
  | some (slab, taken) =>
    let moved := moveObjects slabMagSize (taken.slabs slab) (taken.mag cpu)
    let filled := { taken with
      slabs := update taken.slabs slab moved.2.1
      mag := update taken.mag cpu moved.2.2 }
    (decide (0 < moved.1), if moved.2.1.inuse < moved.2.1.total then pushPartial filled slab else filled)

/-- The end of `slab_put`, for a slab that has no object in use any more. -/
def retireSlab (slab : Nat) (wasFull : Bool) : Cache σ :=
  let removed := cache.links.remove cache.partialHead slab
  let cache := if wasFull then cache else { cache with links := removed.1, partialHead := removed.2 }
  if cache.emptyCount < slabMaxEmpty then
    { cache with
      links := cache.links.push cache.emptyHead slab
      emptyHead := some slab
      emptyCount := increment 64 cache.emptyCount }
  else slabDestroy cache slab

def slabPut (obj : Nat) : Cache σ :=
  let slab := cache.slabOf obj
  let old := cache.slabs slab
  let wasFull := old.inuse == old.total
  let new : Slab := { old with freelist := obj :: old.freelist, inuse := decrement 32 old.inuse }
  let cache := { cache with slabs := update cache.slabs slab new }
  let cache := if wasFull then pushPartial cache slab else cache
  if new.inuse = 0 then retireSlab cache slab wasFull else cache

/-- `c->mag[cpu][--c->mag_count[cpu]]`. -/
def Cache.pop : Option (Nat × Cache σ) :=
  match cache.mag cpu with
  | [] => none
  | obj :: rest => some (obj, { cache with mag := update cache.mag cpu rest })

/-- `c->mag[cpu][c->mag_count[cpu]++] = obj`. -/
def Cache.push (obj : Nat) : Cache σ :=
  { cache with mag := update cache.mag cpu (obj :: cache.mag cpu) }

def kmemCacheAlloc : Option Nat × Cache σ :=
  match cache.pop cpu with
  | some (obj, popped) => (some obj, popped)
  | none =>
    let refilled := slabRefill cache cpu
    if !refilled.1 then (none, refilled.2)
    else
      match refilled.2.pop cpu with
      | some (obj, popped) => (some obj, popped)
      | none => (none, refilled.2)

end

/-- The loop of `kmem_cache_free` that makes room in a full magazine. -/
def flushMagazine : (count : Nat) → Cache σ → Cpu → Cache σ
  | 0, cache, _ => cache
  | count + 1, cache, cpu =>
    match cache.pop cpu with
    | none => cache
    | some (obj, popped) => flushMagazine count (slabPut popped obj) cpu

def kmemCacheFree (cache : Cache σ) (cpu : Cpu) (obj : Nat) : Cache σ :=
  if (cache.mag cpu).length < slabMagSize then cache.push cpu obj
  else (flushMagazine (slabMagSize / 2) cache cpu).push cpu obj

end NyonOS.Slab
