import NyonOS.Paging.Destroy

namespace NyonOS.Paging

open Data Machine Function

/-! New address spaces. -/

variable {σ : Type} [FrameAllocator σ] {depth : Nat} {machine after : Machine σ depth}
  {outside : PAddr → Prop} {root : PAddr}

/-- The top-level table of a new address space. -/
def createdTable (kernelPml4 : Table depth) : Table depth :=
  fun index => if 256 ≤ index.val then kernelPml4 index else blank depth

theorem createdTable_low (kernelPml4 : Table depth) {index : Fin 512} (low : index.val < 256) :
    createdTable kernelPml4 index = blank depth := if_neg (by omega)

theorem createdTable_root {kernelPml4 : Table depth} (kernel : KernelHalf kernelPml4) :
    UserRoot (createdTable kernelPml4) := by
  refine ⟨fun index low => ?_, fun page high => ?_⟩
  · rw [createdTable_low kernelPml4 low]
    exact all_blank _
  · have upper : 256 ≤ (Radix.digit 512 depth page).val := Nat.not_lt.mp high
    rw [Table.query, createdTable, if_pos upper]
    exact kernel page high

theorem createdTable_query (kernelPml4 : Table depth) {page : Nat} (user : UserPage depth page) :
    (createdTable kernelPml4).query page = 0#64 := by
  rw [Table.query, createdTable_low kernelPml4 user.2]
  exact blank_query page

/-- What `vmm_create_address_space` adds. -/
structure Created (machine : Machine σ depth) (root : PAddr) (after : Machine σ depth) : Prop where
  taken : machine.frames.pmmAlloc = some (root, after.frames)
  spaces : after.spaces = update machine.spaces root (.node ⟨root, true⟩ (createdTable machine.kernelPml4))
  share : after.share = machine.share
  bytes : after.bytes = machine.bytes
  kernelPml4 : after.kernelPml4 = machine.kernelPml4
  cpuHasNx : after.cpuHasNx = machine.cpuHasNx

theorem vmmCreateAddressSpace_created (created : vmmCreateAddressSpace machine = some (root, after)) :
    Created machine root after := by
  unfold vmmCreateAddressSpace at created
  split at created
  · contradiction
  · rename_i frame frames taken
    cases created
    exact ⟨taken, rfl, rfl, rfl, rfl, rfl⟩

namespace Created

section

variable (created : Created machine root after)
include created

theorem absent (tables : machine.Tables) : machine.spaces root = .absent := by
  cases space : machine.spaces root with
  | absent => rfl
  | node link table =>
    have used : 0 < machine.tableCount root root := by
      rw [tableCount_node space, tables.link space, if_pos rfl]
      omega
    exact absurd (tables.live used) (Frames.pmmAlloc_fresh created.taken)

theorem alive : after.alive root = true := by
  rw [Machine.alive, created.spaces, update_self]
  rfl

theorem entry_new {page : Nat} (user : UserPage depth page) : after.entry root page = 0#64 := by
  rw [entry_node (by rw [created.spaces, update_self]), createdTable_query _ user]

theorem entry_old {other : PAddr} (different : other ≠ root)
    (page : Nat) : after.entry other page = machine.entry other page := by
  rw [entry, entry, created.spaces, update_of_ne different]

theorem entries (tables : machine.Tables) (place : PAddr)
    {page : Nat} (user : UserPage depth page) : after.entry place page = machine.entry place page := by
  by_cases same : place = root
  · rw [same, created.entry_new user, entry, created.absent tables]
    rfl
  · exact created.entry_old same page

theorem tables (kernel : KernelHalf machine.kernelPml4)
    (tables : machine.Tables) : after.Tables ∧ ∀ frame, after.Loose frame ↔ machine.Loose frame := by
  have fresh := Frames.pmmAlloc_fresh created.taken
  have countBefore : ∀ frame, machine.tableCount root frame = 0 := by
    intro frame
    simp only [tableCount, created.absent tables]
  have countAfter : ∀ frame, after.tableCount root frame = if root = frame then 1 else 0 := by
    intro frame
    rw [tableCount_node (by rw [created.spaces, update_self]), userCount_clear fun index low => createdTable_low _ low]
    rfl
  have owned : Owned (after.tableCount root) after.frames (machine.besides root) := by
    refine ⟨fun frame => ?_, fun frame => ?_, fun frame one claimed => ?_⟩
    · rw [countAfter]
      split <;> simp
    · rw [Frames.pmmAlloc_live created.taken, countAfter, besides, countBefore]
      simp [eq_comm]
    · rw [countAfter] at one
      have same : root = frame := by
        by_contra different
        simp [different] at one
      exact fresh (same ▸ claimed.1)
  refine ⟨tables.put created.spaces ?_ owned, loose_put created.spaces owned⟩
  rintro _ _ ⟨⟩
  exact ⟨rfl, createdTable_root kernel⟩

theorem family (kernel : KernelHalf machine.kernelPml4) (family : machine.Family outside) : after.Family outside := by
  obtain ⟨tables, loose⟩ := created.tables kernel family.tables
  have sameEntries : ∀ place {page}, UserPage depth page → after.entry place page = machine.entry place page :=
    fun place _ user => created.entries family.tables place user
  refine family.retable tables loose ?_ fun place page user => ?_
  · exact ledger_entries sameEntries created.share
  · rw [sameEntries place user]
    exact family.entries place user

end

end Created

end NyonOS.Paging
