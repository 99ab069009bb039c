import NyonOS.Data.Buddy
import NyonOS.Data.Run
import NyonOS.Paging.Word

namespace NyonOS.Pmm

open Data
open Paging (pageSize)
open Function

/-! The allocator of physical memory: a buddy system, with a cache of single pages on every
processor. -/

def pmmMaxOrder : Nat := 14

def pmmReserved : UInt8 := 0xFF

def pmmStateFree (order : Nat) : UInt8 := UInt8.ofNat order

def pmmStateUsed (order : Nat) : UInt8 := 0x80 ||| UInt8.ofNat order

def pmmCacheSize : Nat := 32

def pmmBuffered : UInt8 := 0x7E

/-- `MAX_REGIONS`. -/
def maxRegions : Nat := 128

/-- `MAX_CPUS` processors. -/
abbrev Cpu := Fin 8

/-- `struct pmm_region`. -/
structure Region where
  base : Nat
  pages : Nat
deriving DecidableEq

/-- The variables of the allocator. Blocks are given by their first pages. The links of the
free lists lie in the free blocks themselves, which nobody else writes to; they are kept as
lists here, the first block in front, and so are the caches, the page pushed last in front.
`sharePhys` and `statePhys` are the addresses of the two arrays of bytes. -/
structure Allocator where
  state : Nat → UInt8
  freeLists : Nat → List Nat
  caches : Cpu → List Nat
  totalPages : Nat
  freePages : Nat
  regions : List Region
  sharePhys : Nat
  statePhys : Nat

namespace Allocator

variable (pmm : Allocator)

def freeListAdd (order page : Nat) : Allocator :=
  { pmm with freeLists := update pmm.freeLists order (page :: pmm.freeLists order) }

def freeListRemove (order page : Nat) : Allocator :=
  { pmm with freeLists := update pmm.freeLists order ((pmm.freeLists order).erase page) }

def stateFill (page pages : Nat) (value : UInt8) : Allocator :=
  { pmm with state := fun p => if page ≤ p ∧ p < page + pages then value else pmm.state p }

def setCache (cpu : Cpu) (pages : List Nat) : Allocator := { pmm with caches := update pmm.caches cpu pages }

/-- The first loop of `buddy_alloc`. -/
def findOrder (order : Nat) : Option Nat :=
  (List.range' order (pmmMaxOrder + 1 - order)).find? fun found => !(pmm.freeLists found).isEmpty

/-- A block that is put on the free list of its order. -/
def putFree (page order : Nat) : Allocator := (pmm.stateFill page (2 ^ order) (pmmStateFree order)).freeListAdd order page

/-- The second loop of `buddy_alloc`, `steps` orders above the one that is asked for. -/
def splitDown (pmm : Allocator) (page order : Nat) : (steps : Nat) → Allocator
  | 0 => pmm
  | steps + 1 => splitDown (pmm.putFree (page + 2 ^ (order + steps)) (order + steps)) page order steps

def buddyAlloc (order : Nat) : Option (Nat × Allocator) :=
  match pmm.findOrder order with
  | none => none
  | some found =>
    match pmm.freeLists found with
    | [] => none
    | page :: _ =>
      let split := (pmm.freeListRemove found page).splitDown page order (found - order)
      some (page, split.stateFill page (2 ^ order) (pmmStateUsed order))

/-- The loop of `buddy_free`, `left` orders below the highest one. -/
def mergeUp : (left : Nat) → Allocator → (page order : Nat) → Allocator
  | 0, pmm, page, order => pmm.putFree page order
  | left + 1, pmm, page, order =>
    let buddy := buddyOf order page
    if buddy + 2 ^ order > pmm.totalPages then pmm.putFree page order
    else if pmm.state buddy ≠ pmmStateFree order then pmm.putFree page order
    else mergeUp left (pmm.freeListRemove order buddy) (if buddy < page then buddy else page) (order + 1)

def buddyFree (page order : Nat) : Allocator := mergeUp (pmmMaxOrder - order) pmm page order

/-- A page that is put into the cache of a processor. -/
def buffer (cpu : Cpu) (page : Nat) : Allocator :=
  { pmm with state := update pmm.state page pmmBuffered }.setCache cpu (page :: pmm.caches cpu)

/-- The page on top of a cache is handed out. -/
def takeCached (cpu : Cpu) : Option (Nat × Allocator) :=
  match pmm.caches cpu with
  | [] => none
  | page :: rest =>
    some (page, { pmm with state := update pmm.state page (pmmStateUsed 0), freePages := pmm.freePages - 1 }.setCache cpu rest)

/-- The loop that fills a cache, with room for `room` pages. -/
def refill (pmm : Allocator) (cpu : Cpu) : (room : Nat) → Allocator
  | 0 => pmm
  | room + 1 =>
    match pmm.buddyAlloc 0 with
    | none => pmm
    | some (page, next) => refill (next.buffer cpu page) cpu room

def pmmAllocCached (cpu : Cpu) : Option Nat × Allocator :=
  match pmm.takeCached cpu with
  | some (page, next) => (some (page * pageSize), next)
  | none =>
    let filled := pmm.refill cpu (pmmCacheSize - (pmm.caches cpu).length)
    match filled.takeCached cpu with
    | some (page, next) => (some (page * pageSize), next)
    | none => (none, filled)

/-- The loop that empties a cache, `excess` pages above half of its size. -/
def flush (pmm : Allocator) (cpu : Cpu) : (excess : Nat) → Allocator
  | 0 => pmm
  | excess + 1 =>
    match pmm.caches cpu with
    | [] => pmm
    | page :: rest => flush ((pmm.setCache cpu rest).buddyFree page 0) cpu excess

def pmmFreeCached (cpu : Cpu) (page : Nat) : Allocator :=
  let flushed :=
    if (pmm.caches cpu).length < pmmCacheSize then pmm
    else pmm.flush cpu ((pmm.caches cpu).length - pmmCacheSize / 2)
  { flushed.buffer cpu page with freePages := flushed.freePages + 1 }

end Allocator

def orderForPages (pages : Nat) : Nat := if pages ≤ 1 then 0 else Nat.log2 (pages - 1) + 1

namespace Allocator

variable (pmm : Allocator)

def pmmAlloc (cpu : Cpu) (pages : Nat) : Option Nat × Allocator :=
  if pages = 0 then (none, pmm)
  else
    let order := orderForPages pages
    if order > pmmMaxOrder then (none, pmm)
    else if order = 0 then pmm.pmmAllocCached cpu
    else if pages > pmm.freePages then (none, pmm)
    else
      match pmm.buddyAlloc order with
      | none => (none, pmm)
      | some (page, next) => (some (page * pageSize), { next with freePages := next.freePages - 2 ^ order })

def pmmPageManaged (page : Nat) : Bool :=
  pmm.regions.any fun region => decide (region.base / pageSize ≤ page ∧ page < region.base / pageSize + region.pages)

/-- The end of `pmm_free`, for a page whose byte tells a used block of this order. -/
def freeBlock (cpu : Cpu) (start order : Nat) : Allocator :=
  if order = 0 then pmm.pmmFreeCached cpu start
  else
    let base := blockStart order start
    if pmm.state base = pmmStateUsed order then
      let freed := pmm.buddyFree base order
      { freed with freePages := freed.freePages + 2 ^ order }
    else pmm

def pmmFree (cpu : Cpu) (addr pages : Nat) : Allocator :=
  if pages = 0 then pmm
  else if addr % pageSize ≠ 0 then pmm
  else
    let start := addr / pageSize
    if start ≥ pmm.totalPages ∨ pages > pmm.totalPages - start then pmm
    else if !pmm.pmmPageManaged start then pmm
    else
      let state := pmm.state start
      if state &&& 0x80 = 0 then pmm
      else
        let order := (state &&& 0x7F).toNat
        if order > pmmMaxOrder then pmm else pmm.freeBlock cpu start order

end Allocator

/-! Start. -/

/-- `struct limine_memmap_entry`, with `usable` for the type `LIMINE_MEMMAP_USABLE`. -/
structure MemmapEntry where
  base : Nat
  length : Nat
  usable : Bool
deriving DecidableEq

def memmapCarve (size : Nat) : List MemmapEntry → Nat × List MemmapEntry
  | [] => (0, [])
  | entry :: rest =>
    if entry.usable = false ∨ entry.length < size then ((memmapCarve size rest).1, entry :: (memmapCarve size rest).2)
    else (entry.base, { entry with base := entry.base + size, length := entry.length - size } :: rest)

variable (memmap : List MemmapEntry)

/-- The highest address of usable memory. -/
def maxAddr : Nat :=
  memmap.foldl (fun highest entry => if entry.usable then max highest (entry.base + entry.length) else highest) 0

/-- The loop of `pmm_init` over the pages of an entry. -/
def addPages (pmm : Allocator) (start pages : Nat) : Allocator :=
  (List.range pages).foldl (fun pmm j => pmm.buddyFree (start + j) 0) pmm

/-- A region that is recorded while there is room. -/
def pushRegion (regions : List Region) (region : Region) : List Region :=
  if regions.length < maxRegions then regions ++ [region] else regions

/-- A round of the last loop of `pmm_init`. -/
def addEntry (pmm : Allocator) (entry : MemmapEntry) : Allocator :=
  if entry.usable = false ∨ entry.length < pageSize then pmm
  else
    let base := (entry.base + pageSize - 1) / pageSize * pageSize
    if base ≥ entry.base + entry.length then pmm
    else
      let pages := (entry.base + entry.length - base) / pageSize
      let filled := addPages { pmm with regions := pushRegion pmm.regions ⟨base, pages⟩ } (base / pageSize) pages
      { filled with freePages := filled.freePages + pages }

/-- The variables before the last loop of `pmm_init`. -/
def emptyAllocator (totalPages sharePhys statePhys : Nat) : Allocator where
  state := fun _ => pmmReserved
  freeLists := fun _ => []
  caches := fun _ => []
  totalPages := totalPages
  freePages := 0
  regions := []
  sharePhys := sharePhys
  statePhys := statePhys

/-- `pmm_init`; it does not come back where there is no space for the arrays. -/
def pmmInit : Option Allocator :=
  let totalPages := (maxAddr memmap + pageSize - 1) / pageSize
  let share := memmapCarve totalPages memmap
  let state := memmapCarve totalPages share.2
  if share.1 = 0 ∨ state.1 = 0 then none
  else some (state.2.foldl addEntry (emptyAllocator totalPages share.1 state.1))

end NyonOS.Pmm
