import NyonOS.Paging.Word

namespace NyonOS.Memory

open List

open Paging (pageSize)

/-! What the kernel's other allocators rely on from the physical one. -/

/-- Two ranges of addresses that do not meet. -/
def Apart (first firstBytes second secondBytes : Nat) : Prop :=
  first + firstBytes ≤ second ∨ second + secondBytes ≤ first

/-- `alloc` is `pmm_alloc(&out, pages)`, `free` is `pmm_free(addr, pages)` and `live`
are the blocks handed out and not yet given back. -/
class BlockAllocator (σ : Type) where
  alloc : σ → (pages : Nat) → Option (Nat × σ)
  free : σ → (addr pages : Nat) → σ
  live : σ → (addr pages : Nat) → Prop
  alloc_live {before after : σ} {pages addr other count : Nat} : alloc before pages = some (addr, after) →
      (live after other count ↔ other = addr ∧ count = pages ∨ live before other count)
  alloc_apart {before after : σ} {pages addr other count : Nat} :
    alloc before pages = some (addr, after) → live before other count →
      Apart addr (pages * pageSize) other (count * pageSize)
  free_live {before : σ} {addr pages other count : Nat} : live before addr pages →
    (live (free before addr pages) other count ↔ ¬ (other = addr ∧ count = pages) ∧ live before other count)
  alloc_aligned {before after : σ} {order addr : Nat} :
    alloc before (2 ^ order) = some (addr, after) → 2 ^ order * pageSize ∣ addr
  alloc_bound {before after : σ} {pages addr : Nat} :
    alloc before pages = some (addr, after) → 0 < pages ∧ pages ≤ 2 ^ 14

/-- An allocator that never uses an address twice: blocks lie one after the other, each
on a multiple of its own size. -/
structure Pool where
  top : Nat
  blocks : List (Nat × Nat)
  below : ∀ block ∈ blocks, block.1 + block.2 * pageSize ≤ top

namespace Pool

def empty : Pool := ⟨0, [], fun _ member => absurd member not_mem_nil⟩

/-- The next address for a block. -/
def place (pool : Pool) (pages : Nat) : Nat := (pool.top / (pages * pageSize) + 1) * (pages * pageSize)

theorem top_lt_place (pool : Pool) {pages : Nat} (positive : 0 < pages) : pool.top < pool.place pages := by
  have bytes : 0 < pages * pageSize := Nat.mul_pos positive (by decide)
  have remainder := Nat.mod_lt pool.top bytes
  have parts := Nat.div_add_mod' pool.top (pages * pageSize)
  rw [place, Nat.succ_mul]
  omega

def alloc (pool : Pool) (pages : Nat) : Option (Nat × Pool) :=
  if bound : 0 < pages ∧ pages ≤ 2 ^ 14 then
    some (pool.place pages, {
      top := pool.place pages + pages * pageSize
      blocks := (pool.place pages, pages) :: pool.blocks
      below := fun block member => by
        have above := pool.top_lt_place bound.1
        rcases mem_cons.mp member with rfl | old
        · exact Nat.le_refl _
        · have low := pool.below block old
          omega })
  else none

def free (pool : Pool) (addr pages : Nat) : Pool where
  top := pool.top
  blocks := pool.blocks.filter (· ≠ (addr, pages))
  below := fun block member => pool.below block (mem_filter.mp member).1

theorem alloc_cases {before after : Pool} {pages addr : Nat} (taken : before.alloc pages = some (addr, after)) :
    (0 < pages ∧ pages ≤ 2 ^ 14) ∧ addr = before.place pages ∧
      after.blocks = (before.place pages, pages) :: before.blocks := by
  unfold alloc at taken
  split at taken
  · rename_i bound
    cases taken
    exact ⟨bound, rfl, rfl⟩
  · contradiction

instance blockAllocator : BlockAllocator Pool where
  alloc := alloc
  free := free
  live pool addr pages := (addr, pages) ∈ pool.blocks
  alloc_live taken := by
    obtain ⟨-, rfl, blocks⟩ := alloc_cases taken
    rw [blocks, mem_cons, Prod.mk.injEq]
  alloc_apart taken held := by
    obtain ⟨bound, rfl, -⟩ := alloc_cases taken
    exact .inr (Nat.le_trans (Pool.below _ _ held) (Nat.le_of_lt (top_lt_place _ bound.1)))
  free_live _ := by
    simp only [free, mem_filter, ne_eq, Prod.mk.injEq, decide_eq_true_eq]
    exact and_comm
  alloc_aligned taken := by
    obtain ⟨-, rfl, -⟩ := alloc_cases taken
    exact Nat.dvd_mul_left _ _
  alloc_bound taken := (alloc_cases taken).1

end Pool

end NyonOS.Memory
