import NyonOS.Paging.Machine

namespace NyonOS.Paging

/-! A physical allocator that hands out pages in order, the simplest one the virtual
memory manager can run on. -/

structure Bump where
  next : Nat
  freed : List PAddr

namespace Bump

def pages : Nat := 2 ^ 20

def frame (index : Nat) : PAddr := BitVec.ofNat 64 (index * pageSize)

theorem frame_toNat {index : Nat} (bound : index < pages) : (frame index).toNat = index * pageSize := by
  rw [frame, BitVec.toNat_ofNat, Nat.mod_eq_of_lt]
  simp only [pages, pageSize] at bound ⊢
  omega

theorem frame_injective {first second : Nat} (firstBound : first < pages) (secondBound : second < pages)
    (same : frame first = frame second) : first = second := by
  have equal := congrArg BitVec.toNat same
  rw [frame_toNat firstBound, frame_toNat secondBound] at equal
  exact Nat.eq_of_mul_eq_mul_right (by decide) equal

theorem frame_aligned {index : Nat} (bound : index < pages) : Aligned (frame index) := by
  have inside : ∀ bit : Fin 64, 12 ≤ bit.val → bit.val < 52 → vmmPtAddrMask.getLsbD bit.val = true := by
    decide
  have number : index * pageSize = 2 ^ 12 * index := Nat.mul_comm index pageSize
  have small : index < 2 ^ 20 := bound
  refine BitVec.eq_of_getLsbD_eq fun bit inWord => ?_
  rw [frameOf, BitVec.getLsbD_and]
  cases set : (frame index).getLsbD bit with
  | false => rfl
  | true =>
    rw [frame, BitVec.getLsbD_ofNat, number, Nat.testBit_two_pow_mul] at set
    simp only [Bool.and_eq_true, decide_eq_true_eq] at set
    obtain ⟨-, above, tested⟩ := set
    have below : bit - 12 < 20 := by
      by_contra high
      have wide : index < 2 ^ (bit - 12) :=
        Nat.lt_of_lt_of_le small (Nat.pow_le_pow_right Nat.two_pos (Nat.not_lt.mp high))
      rw [Nat.testBit_lt_two_pow wide] at tested
      contradiction
    exact inside ⟨bit, inWord⟩ above (show bit < 52 by omega)

def alloc (bump : Bump) : Option (PAddr × Bump) :=
  if bump.next < pages then
    some (frame bump.next, ⟨bump.next + 1, bump.freed.filter (· ≠ frame bump.next)⟩)
  else none

def free (bump : Bump) (frame : PAddr) : Bump := { bump with freed := frame :: bump.freed }

def Live (bump : Bump) (address : PAddr) : Prop :=
  (∃ index, index < bump.next ∧ index < pages ∧ address = frame index) ∧ address ∉ bump.freed

theorem alloc_some {before after : Bump} {address : PAddr} (answer : before.alloc = some (address, after)) :
    before.next < pages ∧ address = frame before.next ∧
      after = ⟨before.next + 1, before.freed.filter (· ≠ frame before.next)⟩ := by
  unfold alloc at answer
  split at answer
  · rename_i bound
    cases answer
    exact ⟨bound, rfl, rfl⟩
  · contradiction

instance : FrameAllocator Bump where
  alloc := alloc
  free := free
  live := Live
  totalPages _ := pages
  alloc_fresh := by
    intro before after address answer live
    obtain ⟨bound, rfl, rfl⟩ := alloc_some answer
    obtain ⟨⟨index, earlier, inRange, same⟩, -⟩ := live
    exact Nat.ne_of_gt earlier (frame_injective bound inRange same)
  alloc_live := by
    intro before after address other answer
    obtain ⟨bound, rfl, rfl⟩ := alloc_some answer
    constructor
    · rintro ⟨⟨index, earlier, inRange, rfl⟩, unfreed⟩
      by_cases same : frame index = frame before.next
      · exact .inl same
      · refine .inr ⟨⟨index, ?_, inRange, rfl⟩, fun freed => unfreed ?_⟩
        · have different : index ≠ before.next := fun equal => same (by rw [equal])
          exact Nat.lt_of_le_of_ne (Nat.le_of_lt_succ earlier) different
        · exact List.mem_filter.mpr ⟨freed, by simpa using same⟩
    · rintro (rfl | ⟨⟨index, earlier, inRange, rfl⟩, unfreed⟩)
      · exact ⟨⟨before.next, Nat.lt_succ_self _, bound, rfl⟩, by simp⟩
      · exact ⟨⟨index, Nat.lt_succ_of_lt earlier, inRange, rfl⟩, fun freed => unfreed (List.mem_filter.mp freed).1⟩
  free_live := by
    intro before address other
    simp only [Live, free, List.mem_cons, not_or]
    tauto
  live_aligned := by
    rintro now address ⟨⟨index, -, inRange, rfl⟩, -⟩
    exact frame_aligned inRange
  live_inRange := by
    rintro now address ⟨⟨index, -, inRange, rfl⟩, -⟩
    rw [frame_toNat inRange, Nat.mul_div_cancel index (by decide)]
    exact inRange
  alloc_totalPages _ := rfl
  free_totalPages := rfl

/-- A four-level machine with no address space but an empty kernel. -/
def bare : Machine Bump 3 where
  frames := { pmm := { next := 1, freed := [] }, taken := [], freed := [] }
  share := fun _ => 0
  bytes := fun _ _ => 0
  spaces := fun _ => .absent
  kernelPml4 := fun _ => .absent
  cpuHasNx := true
  cowOn := true
  cowSharedTotal := 0

end Bump

end NyonOS.Paging
