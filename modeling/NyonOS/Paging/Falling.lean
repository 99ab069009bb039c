import NyonOS.Paging.Bump

namespace NyonOS.Paging

/-! A physical allocator that hands out pages from the last one down. -/

structure Falling where
  bump : Bump

namespace Falling

open Bump (pages frame frame_aligned frame_toNat)

/-- Counts the pages from the other end. -/
def flip (address : PAddr) : PAddr := frame (pages - 1) - address

theorem flip_flip (address : PAddr) : flip (flip address) = address := by
  unfold flip
  generalize frame (pages - 1) = last
  bv_omega

theorem flip_eq {address other : PAddr} : flip address = other ↔ address = flip other := by
  constructor
  · rintro rfl
    exact (flip_flip address).symm
  · rintro rfl
    exact flip_flip other

theorem flip_frame {index : Nat} (bound : index < pages) : flip (frame index) = frame (pages - 1 - index) := by
  have here := frame_toNat bound
  have last := frame_toNat (show pages - 1 < pages by decide)
  have there := frame_toNat (show pages - 1 - index < pages by omega)
  refine BitVec.eq_of_toNat_eq ?_
  rw [flip, BitVec.toNat_sub, here, last, there]
  unfold pages pageSize at *
  omega

def alloc (falling : Falling) : Option (PAddr × Falling) :=
  falling.bump.alloc.map fun taken => (flip taken.1, ⟨taken.2⟩)

theorem alloc_some {before after : Falling} {address : PAddr} (answer : before.alloc = some (address, after)) :
    before.bump.alloc = some (flip address, after.bump) := by
  simp only [alloc, Option.map_eq_some_iff] at answer
  obtain ⟨⟨inner, next⟩, taken, same⟩ := answer
  obtain ⟨there, rfl⟩ := Prod.mk.injEq .. ▸ same
  rw [← there, flip_flip]
  exact taken

theorem live_place {bump : Bump} {address : PAddr} (live : FrameAllocator.live bump (flip address)) :
    ∃ index < pages, address = frame index := by
  obtain ⟨⟨index, -, bound, same⟩, -⟩ := live
  refine ⟨pages - 1 - index, by omega, ?_⟩
  rw [flip_eq.mp same, flip_frame bound]

instance : FrameAllocator Falling where
  alloc := alloc
  free falling address := ⟨falling.bump.free (flip address)⟩
  live falling address := FrameAllocator.live falling.bump (flip address)
  totalPages _ := pages
  alloc_fresh answer := FrameAllocator.alloc_fresh (alloc_some answer)
  alloc_live answer := by
    rw [FrameAllocator.alloc_live (alloc_some answer), flip_eq, flip_flip]
  free_live := by
    intro before address other
    rw [show FrameAllocator.live (before.bump.free (flip address)) (flip other) ↔ _ from FrameAllocator.free_live, ne_eq, flip_eq,
      flip_flip]
  live_aligned live := by
    obtain ⟨index, bound, rfl⟩ := live_place live
    exact frame_aligned bound
  live_inRange live := by
    obtain ⟨index, bound, rfl⟩ := live_place live
    rw [frame_toNat bound, Nat.mul_div_cancel _ (by decide)]
    exact bound
  alloc_totalPages _ := rfl
  free_totalPages := rfl

/-- A four-level machine with one empty address space, whose memory holds what was there
when it was switched on. -/
def bare : Machine Falling 3 where
  frames := { pmm := ⟨{ next := 1, freed := [] }⟩, taken := [frame (pages - 1)], freed := [] }
  share := fun _ => 0
  bytes := fun _ _ => 0xFF
  spaces := Function.update (fun _ => .absent) (frame (pages - 1)) (.node ⟨frame (pages - 1), true⟩ fun _ => blank 3)
  kernelPml4 := fun _ => .absent
  cpuHasNx := true
  cowOn := true
  cowSharedTotal := 0

end Falling

end NyonOS.Paging
