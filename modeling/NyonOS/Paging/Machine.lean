import NyonOS.Data.Radix
import NyonOS.Paging.Word

namespace NyonOS.Paging

open Data List

/-! The state the virtual memory manager works on. -/

/-- What the manager relies on from the physical allocator for single pages:
`alloc` is `pmm_alloc(&out, 1)`, `free` is `pmm_free(addr, 1)` and `live` are the
pages handed out and not yet given back. -/
class FrameAllocator (σ : Type) where
  alloc : σ → Option (PAddr × σ)
  free : σ → PAddr → σ
  live : σ → PAddr → Prop
  totalPages : σ → Nat
  alloc_fresh {before after : σ} {frame : PAddr} : alloc before = some (frame, after) → ¬ live before frame
  alloc_live {before after : σ} {frame other : PAddr} :
    alloc before = some (frame, after) → (live after other ↔ other = frame ∨ live before other)
  free_live {before : σ} {frame other : PAddr} : live (free before frame) other ↔ other ≠ frame ∧ live before other
  live_aligned {now : σ} {frame : PAddr} : live now frame → Aligned frame
  live_inRange {now : σ} {frame : PAddr} : live now frame → frame.toNat / pageSize < totalPages now
  alloc_totalPages {before after : σ} {frame : PAddr} :
    alloc before = some (frame, after) → totalPages after = totalPages before
  free_totalPages {before : σ} {frame : PAddr} : totalPages (free before frame) = totalPages before

/-- The allocator with the log of its calls, latest first. -/
structure Frames (σ : Type) where
  pmm : σ
  taken : List PAddr
  freed : List PAddr

namespace Frames

variable {σ : Type} [FrameAllocator σ]

def Live (frames : Frames σ) (frame : PAddr) : Prop := FrameAllocator.live frames.pmm frame

def totalPages (frames : Frames σ) : Nat := FrameAllocator.totalPages frames.pmm

def pmmAlloc (frames : Frames σ) : Option (PAddr × Frames σ) :=
  match FrameAllocator.alloc frames.pmm with
  | none => none
  | some (frame, pmm) => some (frame, { frames with pmm, taken := frame :: frames.taken })

def pmmFree (frames : Frames σ) (frame : PAddr) : Frames σ :=
  { frames with pmm := FrameAllocator.free frames.pmm frame, freed := frame :: frames.freed }

variable {before after : Frames σ} {frame other : PAddr}

section

variable (taken : before.pmmAlloc = some (frame, after))
include taken

theorem pmmAlloc_some : FrameAllocator.alloc before.pmm = some (frame, after.pmm) ∧
      after.taken = frame :: before.taken ∧ after.freed = before.freed := by
  unfold pmmAlloc at taken
  split at taken
  · contradiction
  · rename_i found pmm answered
    cases taken
    exact ⟨answered, rfl, rfl⟩

theorem pmmAlloc_fresh : ¬ before.Live frame :=
  FrameAllocator.alloc_fresh (pmmAlloc_some taken).1

theorem pmmAlloc_live : after.Live other ↔ other = frame ∨ before.Live other :=
  FrameAllocator.alloc_live (pmmAlloc_some taken).1

theorem pmmAlloc_totalPages : after.totalPages = before.totalPages :=
  FrameAllocator.alloc_totalPages (pmmAlloc_some taken).1

end

@[simp] theorem pmmFree_live : (before.pmmFree frame).Live other ↔ other ≠ frame ∧ before.Live other :=
  FrameAllocator.free_live

@[simp] theorem pmmFree_totalPages : (before.pmmFree frame).totalPages = before.totalPages :=
  FrameAllocator.free_totalPages

open Classical in
/-- Since `start` every frame was given back exactly as often as it was handed out,
counting the one that is live now and the one that was live at the start. A
`pmm_free` of a frame that is not live breaks the balance. -/
def Balanced (start frames : Frames σ) : Prop :=
  ∀ frame, frames.freed.count frame + start.taken.count frame + (if frames.Live frame then 1 else 0) =
    frames.taken.count frame + start.freed.count frame + if start.Live frame then 1 else 0

theorem Balanced.alloc {start : Frames σ} (balanced : start.Balanced before)
    (taken : before.pmmAlloc = some (frame, after)) : start.Balanced after := by
  classical
  obtain ⟨-, logged, freed⟩ := pmmAlloc_some taken
  have fresh := pmmAlloc_fresh taken
  intro other
  have old := balanced other
  rw [logged, freed, count_cons]
  by_cases same : other = frame
  · subst same
    simp only [pmmAlloc_live taken, fresh, if_false, true_or, if_true, beq_self_eq_true] at old ⊢
    omega
  · have reversed : ¬ frame = other := fun equal => same equal.symm
    simp only [pmmAlloc_live taken, same, reversed, false_or, beq_iff_eq, if_false] at old ⊢
    omega

theorem Balanced.free {start : Frames σ} (balanced : start.Balanced before)
    (live : before.Live frame) : start.Balanced (before.pmmFree frame) := by
  classical
  intro other
  have old := balanced other
  simp only [pmmFree_live]
  rw [pmmFree, count_cons]
  by_cases same : other = frame
  · subst same
    simp only [live, if_true, beq_self_eq_true, ne_eq, not_true, false_and, if_false] at old ⊢
    omega
  · have reversed : ¬ frame = other := fun equal => same equal.symm
    simp only [same, reversed, ne_eq, not_false_eq_true, true_and, beq_iff_eq, if_false] at old ⊢
    omega

/-- Any number of allocations and of frees of live frames outside `kept`. -/
inductive Uses (kept : PAddr → Prop) (start : Frames σ) : Frames σ → Prop
  | refl : Uses kept start start
  | alloc {now next : Frames σ} {frame : PAddr} (earlier : Uses kept start now)
      (taken : now.pmmAlloc = some (frame, next)) : Uses kept start next
  | free {now : Frames σ} {frame : PAddr} (earlier : Uses kept start now)
      (live : now.Live frame) (spare : ¬ kept frame) : Uses kept start (now.pmmFree frame)

namespace Uses

variable {kept : PAddr → Prop} {middle : Frames σ}

theorem trans (first : Uses kept before middle) (second : Uses kept middle after) : Uses kept before after := by
  induction second with
  | refl => exact first
  | alloc _ taken ih => exact .alloc ih taken
  | free _ live spare ih => exact .free ih live spare

section

variable (uses : Uses kept before after)
include uses

theorem mono {fewer : PAddr → Prop} (less : ∀ frame, fewer frame → kept frame) : Uses fewer before after := by
  induction uses with
  | refl => exact .refl
  | alloc _ taken ih => exact .alloc ih taken
  | free _ live spare ih => exact .free ih live (fun claimed => spare (less _ claimed))

theorem balanced {start : Frames σ} (balanced : start.Balanced before) : start.Balanced after := by
  induction uses with
  | refl => exact balanced
  | alloc _ taken ih => exact ih.alloc taken
  | free _ live _ ih => exact ih.free live

theorem freed : ∃ new, after.freed = new ++ before.freed ∧ (∀ frame ∈ new, ¬ kept frame) ∧
      ∀ frame, before.Live frame → frame ∉ new → after.Live frame := by
  induction uses with
  | refl => exact ⟨[], rfl, by simp, fun _ live _ => live⟩
  | alloc _ taken ih =>
    obtain ⟨new, logged, spare, stays⟩ := ih
    exact ⟨new, (pmmAlloc_some taken).2.2.trans logged, spare,
      fun other live unfreed => (pmmAlloc_live taken).mpr (.inr (stays other live unfreed))⟩
  | @free now frame _ live unkept ih =>
    obtain ⟨new, logged, spare, stays⟩ := ih
    refine ⟨frame :: new, by simp [pmmFree, logged], ?_, ?_⟩
    · intro other member
      rcases mem_cons.mp member with same | earlier
      · rw [same]; exact unkept
      · exact spare other earlier
    · intro other live unfreed
      obtain ⟨different, unfreed⟩ := not_or.mp (mt mem_cons.mpr unfreed)
      exact pmmFree_live.mpr ⟨different, stays other live unfreed⟩

theorem totalPages : after.totalPages = before.totalPages := by
  induction uses with
  | refl => rfl
  | alloc _ taken ih => exact (pmmAlloc_totalPages taken).trans ih
  | free _ _ _ ih => exact pmmFree_totalPages.trans ih

end

end Uses

end Frames

/-- An entry above the last level: the code only ever tests its `PAGE_PRESENT`
and `PAGE_USER` bits and follows its address. -/
structure Link where
  frame : PAddr
  user : Bool

/-- `VMM_PT_ENTRIES`. -/
instance vmmPtEntries : NeZero 512 := ⟨by decide⟩

/-- An entry of a table of level `depth + 1`, with all tables below it. -/
abbrev Tree (depth : Nat) := Radix 512 Link Word depth

/-- `struct page_table`, at level `depth + 1`. -/
abbrev Table (depth : Nat) := Fin 512 → Tree depth

/-- The contents of a frame. -/
abbrev Page := Fin 4096 → UInt8

/-- `spaces` holds the page tables of every live address space under the
physical address of its top-level table; `depth` is 3 or 4. -/
structure Machine (σ : Type) (depth : Nat) where
  frames : Frames σ
  share : PAddr → Nat
  bytes : PAddr → Page
  spaces : PAddr → Tree (depth + 1)
  kernelPml4 : Table depth
  cpuHasNx : Bool
  cowOn : Bool
  cowSharedTotal : Nat

/-- The zero entry. -/
def blank : (depth : Nat) → Tree depth
  | 0 => .leaf 0#64
  | _ + 1 => .absent

def Tree.isBlank : {depth : Nat} → Tree depth → Bool
  | 0, .leaf word => word == 0#64
  | _ + 1, .absent => true
  | _ + 1, .node _ _ => false

theorem Tree.isBlank_iff {depth : Nat} (tree : Tree depth) : tree.isBlank = true ↔ tree = blank depth := by
  cases tree <;> simp [Tree.isBlank, blank]

def tableIsEmpty {depth : Nat} (table : Table depth) : Bool :=
  (List.finRange 512).all fun index => Tree.isBlank (table index)

theorem tableIsEmpty_iff {depth : Nat} {table : Table depth} :
    tableIsEmpty table = true ↔ table = fun _ => blank depth := by
  simp only [tableIsEmpty, all_eq_true, mem_finRange, true_implies, Tree.isBlank_iff, funext_iff]

def Tree.word : {depth : Nat} → Tree depth → Word
  | 0, .leaf word => word
  | _ + 1, .absent => 0#64
  | _ + 1, .node link _ =>
    link.frame ||| pagePresent ||| pageWrite ||| if link.user then pageUser else 0#64

end NyonOS.Paging
