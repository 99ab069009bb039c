import NyonOS.Data.Run
import NyonOS.Paging.Bump
import NyonOS.Paging.Create

namespace NyonOS.Paging

open Data Machine Function List Set Finset Nat

/-! Where the memory of an address space comes from and goes. -/

variable {σ : Type} [FrameAllocator σ] {depth : Nat}

/-! A list of frames is given back. -/

namespace Frames

variable {frames : Frames σ} {given : List PAddr} {frame : PAddr}

section

variable (frames : Frames σ) (given : List PAddr)

def freeAll : Frames σ := given.foldl pmmFree frames

theorem freeAll_append (first second : List PAddr) :
    frames.freeAll (first ++ second) = (frames.freeAll first).freeAll second := foldl_append

theorem freeAll_live (frame : PAddr) : (frames.freeAll given).Live frame ↔ frame ∉ given ∧ frames.Live frame := by
  induction given generalizing frames with
  | nil => simp [freeAll]
  | cons first rest ih =>
    change ((frames.pmmFree first).freeAll rest).Live frame ↔ _
    rw [ih, pmmFree_live, List.mem_cons, not_or]
    tauto

theorem freeAll_log :
    (frames.freeAll given).freed = given.reverse ++ frames.freed ∧ (frames.freeAll given).taken = frames.taken := by
  induction given generalizing frames with
  | nil => exact ⟨rfl, rfl⟩
  | cons first rest ih =>
    obtain ⟨freed, taken⟩ := ih (frames.pmmFree first)
    exact ⟨by rw [reverse_cons, append_assoc]; exact freed, taken⟩

end

theorem freeAll_uses (nodup : given.Nodup) (live : ∀ frame ∈ given, frames.Live frame) :
    frames.Uses (fun _ => False) (frames.freeAll given) := by
  induction given generalizing frames with
  | nil => exact .refl
  | cons first rest ih =>
    obtain ⟨fresh, nodup⟩ := nodup_cons.mp nodup
    refine (Uses.free .refl (live first (by simp)) id).trans (ih nodup fun frame member => ?_)
    exact pmmFree_live.mpr ⟨fun same => fresh (same ▸ member), live frame (by simp [member])⟩

end Frames

/-! The two passes over a subtree that shares nothing. -/

/-- The frame `reclaim_owned_frames` gives back for an entry. -/
def ownedFrame (word : Word) : Option PAddr :=
  if has word pagePresent && !has word pageCow && has word pageOwned then some (frameOf word) else none

variable {base : Nat}

theorem release_idle (tree : Tree depth) (aligned : 512 ^ depth ∣ base) (frames : Frames σ) (share : PAddr → Nat)
    (plain : ∀ key word, tree.get key = some word → has word pagePresent = true → has word pageSharedRef = false) :
    tree.traverse (fun _ => true) releasePage base (frames, share) = (true, tree, (frames, share)) := by
  rw [Radix.traverse_eq tree aligned]
  refine forUntil_idle fun key _ => ?_
  unfold Radix.visitStep
  rw [Radix.visit_eq_get (Radix.all_true tree)]
  cases found : tree.get key with
  | none => rfl
  | some word =>
    cases present : has word pagePresent with
    | false => simp [releasePage, present, Radix.set_of_get found]
    | true => simp [releasePage, present, releaseShared, plain key word found present, Radix.set_of_get found]

def subtreeFrames (tree : Tree depth) (base : Nat) : List PAddr :=
  (List.range (512 ^ depth)).filterMap fun offset => (tree.get (base + offset)).bind ownedFrame

/-- `reclaim_owned_frames` gives back the frames of the owned pages, in the order of the
pages, clears every page and touches no table. -/
theorem reclaim_pass (tree : Tree depth) (aligned : 512 ^ depth ∣ base) (frames : Frames σ) :
    let done := tree.traverse (fun _ => true) reclaimPage base frames
    done.2.2 = frames.freeAll (subtreeFrames tree base) ∧ (∀ key, done.2.1.get key = (tree.get key).map fun word =>
        if has word pagePresent then 0#64 else word) ∧
      ∀ measure, done.2.1.weight measure = tree.weight measure := by
  have positive : 0 < 512 ^ depth := by positivity
  have place : ∀ {offset}, offset < 512 ^ depth → (base + offset) % 512 ^ depth = offset := by
    intro offset bound
    rw [add_mod, mod_eq_zero_of_dvd aligned, Nat.zero_add, mod_mod, mod_eq_of_lt bound]
  have reached := Radix.traverse_total reclaimPage tree aligned frames (fun offset now context =>
      context = frames.freeAll ((List.range offset).filterMap fun offset =>
        (tree.get (base + offset)).bind ownedFrame) ∧
      (∀ key, now.get key = (tree.get key).map fun word =>
        if key % 512 ^ depth < offset ∧ has word pagePresent = true then 0#64 else word) ∧
      ∀ measure, now.weight measure = tree.weight measure)
    ⟨rfl, fun key => by simp, fun _ => rfl⟩ ?_ ?_
  · obtain ⟨given, leaves, weight⟩ := reached
    refine ⟨given, fun key => ?_, weight⟩
    simp only [leaves, mod_lt key positive, true_and]
  · rintro offset bound now context ⟨given, leaves, weight⟩ missing
    have nothing : tree.get (base + offset) = none := by
      simpa only [leaves, Option.map_eq_none_iff] using missing
    refine ⟨?_, fun key => ?_, weight⟩
    · rw [given, range_succ, filterMap_append]
      simp [nothing]
    · rw [leaves key]
      by_cases here : key % 512 ^ depth = offset
      · have same : Radix.SameKey 512 depth key (base + offset) := here.trans (place bound).symm
        rw [Radix.get_congr tree same, nothing]
        rfl
      · have unchanged : key % 512 ^ depth < offset + 1 ↔ key % 512 ^ depth < offset := by omega
        simp only [unchanged]
  · rintro offset bound now context word ⟨given, leaves, weight⟩ found
    have before : tree.get (base + offset) = some word := by
      rw [leaves, place bound] at found
      simpa using found
    have body : reclaimPage (base + offset) word context = (true, if has word pagePresent then 0#64 else word,
          context.freeAll ((some word).bind ownedFrame).toList) := by
      rw [Option.bind_some]
      unfold reclaimPage ownedFrame
      cases has word pagePresent <;> cases has word pageCow <;> cases has word pageOwned <;> rfl
    rw [body]
    refine ⟨rfl, ?_, fun key => ?_, fun measure => (Radix.weight_set measure now _ _).trans (weight measure)⟩
    · rw [given, range_succ, filterMap_append, Frames.freeAll_append, ← before]
      rfl
    · rw [Radix.get_set, leaves key]
      by_cases here : Radix.SameKey 512 depth (base + offset) key
      · have number : key % 512 ^ depth = offset := here.symm.trans (place bound)
        rw [if_pos here, ← Radix.get_congr tree here, before, number]
        simp
      · have other : ¬ key % 512 ^ depth = offset := fun equal => here ((place bound).trans equal.symm)
        have unchanged : key % 512 ^ depth < offset + 1 ↔ key % 512 ^ depth < offset := by omega
        simp only [if_neg here, unchanged]

/-! The tables of a subtree. -/

/-- The frames of a table and of all tables below it, in the order of `table_free`. -/
def tableFrames : {depth : Nat} → PAddr → Table depth → List PAddr
  | 0, frame, _ => [frame]
  | _ + 1, frame, table => ((List.finRange 512).flatMap fun index =>
    match table index with
    | .absent => []
    | .node link child => tableFrames link.frame child) ++ [frame]

theorem tableFree_eq (frame : PAddr) (table : Table depth) (frames : Frames σ) :
    tableFree frame table frames = frames.freeAll (tableFrames frame table) := by
  induction depth generalizing frame frames with
  | zero => rfl
  | succ depth ih =>
    have loop : ∀ (indices : List (Fin 512)) (now : Frames σ), indices.foldl (fun now index =>
          match table index with
          | .absent => now
          | .node link child => tableFree link.frame child now) now =
        now.freeAll (indices.flatMap fun index =>
          match table index with
          | .absent => []
          | .node link child => tableFrames link.frame child) := by
      intro indices
      induction indices with
      | nil => intro now; rfl
      | cons index rest step =>
        intro now
        rw [List.foldl_cons, flatMap_cons, Frames.freeAll_append, step]
        cases table index with
        | absent => rfl
        | node link child => exact congrArg (Frames.freeAll · _) (ih link.frame child now)
    rw [tableFrames, Frames.freeAll_append]
    exact congrArg (Frames.pmmFree · frame) (loop (List.finRange 512) frames)

theorem count_tableFrames (frame : PAddr) (table : Table depth) (other : PAddr) :
    (tableFrames frame table).count other = (if frame = other then 1 else 0) + table.count other := by
  induction depth generalizing frame with
  | zero =>
    rw [count_leaves, tableFrames, count_singleton]
    simp
  | succ depth ih =>
    have below : ∀ index, List.count other (match table index with
        | .absent => []
        | .node link child => tableFrames link.frame child) =
          (table index).weight fun link => if link.frame = other then 1 else 0 := by
      intro index
      cases table index with
      | absent => rfl
      | node link child => exact (ih link.frame child).trans (node_weight link child other).symm
    have here : List.count other [frame] = if frame = other then 1 else 0 := by
      simp [count_singleton]
    rw [tableFrames, count_append, here, Nat.add_comm, count_flatMap]
    unfold Table.count
    rw [Fin.sum_univ_def]
    exact congrArg (fun (each : Fin 512 → Nat) => _ + ((List.finRange 512).map each).sum) (funext below)

/-! All of an address space. -/

/-- An empty entry, or one of a page that nobody shares. -/
structure PlainWord (word : Word) : Prop where
  clear : has word pagePresent = false → word = 0#64
  sole : has word pagePresent = true → has word pageCow = false ∧ has word pageSharedRef = false

theorem destroySlot_frees (tree : Tree (depth + 1)) (aligned : 512 ^ (depth + 1) ∣ base)
    (plain : ∀ key word, tree.get key = some word → PlainWord word) (frames : Frames σ)
    (share : PAddr → Nat) :
    ∃ given, destroySlot tree base frames share = (true, .absent, frames.freeAll given, share) ∧
      ∀ frame, given.count frame = (subtreeFrames tree base).count frame +
        tree.weight fun link => if link.frame = frame then 1 else 0 := by
  cases tree with
  | absent => exact ⟨[], rfl, fun frame => by simp [subtreeFrames, Radix.get, Radix.weight]⟩
  | node link table =>
    obtain ⟨given, leaves, weight⟩ := reclaim_pass (.node link table : Tree (depth + 1)) aligned frames
    obtain ⟨after, isNode⟩ : ∃ after, ((.node link table : Tree (depth + 1)).traverse (fun _ => true)
        reclaimPage base frames).2.1 = .node link after := Radix.traverse_node link table base frames
    have idle := release_idle (.node link table) aligned frames share fun key word found present =>
      ((plain key word found).sole present).2
    have cleared : ∀ page, Table.query after page = 0#64 := by
      intro page
      rw [← node_get link, ← isNode, leaves]
      cases found : (Radix.node link table : Tree (depth + 1)).get page with
      | none => rfl
      | some word =>
        cases present : has word pagePresent with
        | false => simp [(plain page word found).clear present]
        | true => simp [present]
    refine ⟨subtreeFrames (.node link table : Tree (depth + 1)) base ++ tableFrames link.frame after, ?_, fun frame => ?_⟩
    · simp only [destroySlot, idle, isNode, given, tableFreeable_of_clear cleared, tableFree_eq,
        Frames.freeAll_append, Bool.not_true, Bool.false_eq_true, if_false]
    · rw [count_append, count_tableFrames, ← node_weight, ← isNode, weight]

def ownedFrames (table : Table depth) : List PAddr :=
  (List.range (256 * 512 ^ depth)).filterMap fun page => ownedFrame (table.query page)

def slotCount (table : Table depth) (frame : PAddr) (index : Fin 256) : Nat :=
  (subtreeFrames (table (lowIndex index)) (firstPage depth index)).count frame +
    (table (lowIndex index)).weight fun link => if link.frame = frame then 1 else 0

theorem lowIndex_injective {first second : Fin 256} (same : lowIndex first = lowIndex second) :
    first = second := Fin.castLE_injective _ same

variable {table : Table (depth + 1)}

theorem destroy_steps (plain : ∀ index key word, (table (lowIndex index)).get key = some word → PlainWord word)
    {indices : List (Fin 256)} (nodup : indices.Nodup) (now : Teardown σ (depth + 1))
    (same : ∀ index ∈ indices, now.table (lowIndex index) = table (lowIndex index)) :
    ∃ given, (indices.foldl destroyStep now).frames = now.frames.freeAll given ∧
      (indices.foldl destroyStep now).share = now.share ∧
      (indices.foldl destroyStep now).stranded = now.stranded ∧
      ∀ frame, given.count frame = (indices.map (slotCount table frame)).sum := by
  induction indices generalizing now with
  | nil => exact ⟨[], rfl, rfl, rfl, fun _ => rfl⟩
  | cons index rest ih =>
    obtain ⟨fresh, nodup⟩ := nodup_cons.mp nodup
    have aligned : 512 ^ (depth + 1) ∣ firstPage (depth + 1) index := Nat.dvd_mul_left _ _
    obtain ⟨first, slot, countFirst⟩ :=
      destroySlot_frees (table (lowIndex index)) aligned (plain index) now.frames now.share
    have step : destroyStep now index = ⟨update now.table (lowIndex index) .absent,
        now.frames.freeAll first, now.share, now.stranded⟩ := by
      rw [destroyStep, same index (by simp), slot]
      rfl
    obtain ⟨later, frames, share, stranded, countLater⟩ := ih nodup (destroyStep now index) fun other member => by
        have different : lowIndex other ≠ lowIndex index := fun equal =>
          fresh (lowIndex_injective equal ▸ member)
        rw [step]
        exact (update_of_ne different _ _).trans (same other (by simp [member]))
    rw [List.foldl_cons]
    refine ⟨first ++ later, ?_, ?_, ?_, fun frame => ?_⟩
    · rw [frames, step, Frames.freeAll_append]
    · rw [share, step]
    · rw [stranded, step]
    · rw [count_append, countFirst, countLater, List.map_cons, List.sum_cons]
      rfl

section

variable (table : Table depth)

theorem subtreeFrames_slot (index : Fin 256) : subtreeFrames (table (lowIndex index)) (firstPage depth index) =
      ((List.range (512 ^ depth)).map (firstPage depth index + ·)).filterMap fun page =>
        ownedFrame (table.query page) := by
  rw [subtreeFrames, filterMap_map]
  refine filterMap_congr fun offset member => ?_
  rw [Function.comp, Table.query, (slot_page index (List.mem_range.mp member)).2]
  cases (table (lowIndex index)).get (firstPage depth index + offset) with
  | none => simp [ownedFrame]
  | some word => rfl

theorem userCount_eq_sum (frame : PAddr) : table.userCount frame = ∑ index : Fin 256,
      (table (lowIndex index)).weight fun link => if link.frame = frame then 1 else 0 := by
  unfold Table.userCount Table.count
  have halves := Fin.sum_univ_add fun index : Fin (256 + 256) =>
    (table.userHalf index).weight fun link => if link.frame = frame then 1 else 0
  refine halves.trans ?_
  have upper : ∀ index : Fin 256, table.userHalf (Fin.natAdd 256 index) = blank depth := fun index =>
    if_neg (by simp)
  have lower : ∀ index : Fin 256, table.userHalf (Fin.castAdd 256 index) = table (lowIndex index) :=
    fun index => if_pos index.isLt
  simp only [upper, lower, blank_weight, sum_const_zero, Nat.add_zero]

theorem sum_slotCount (frame : PAddr) : ((List.finRange 256).map (slotCount table frame)).sum =
      table.userCount frame + (ownedFrames table).count frame := by
  have pages : (ownedFrames table).count frame = ∑ index : Fin 256,
      (subtreeFrames (table (lowIndex index)) (firstPage depth index)).count frame := by
    have rows : List.range (256 * 512 ^ depth) = (List.finRange 256).flatMap fun index =>
        (List.range (512 ^ depth)).map (firstPage depth index + ·) := by
      rw [range_mul, ← Radix.map_finRange 256, flatMap_map]
      rfl
    rw [ownedFrames, rows, filterMap_flatMap, count_flatMap, Fin.sum_univ_def]
    exact congrArg (fun each : Fin 256 → Nat => ((List.finRange 256).map each).sum)
      (funext fun index => congrArg (List.count frame) (subtreeFrames_slot table index).symm)
  rw [← Fin.sum_univ_def, pages, userCount_eq_sum, Nat.add_comm, ← sum_add_distrib]
  rfl

end

/-- `vmm_destroy_address_space` gives back a list of frames and nothing else happens. -/
theorem vmmDestroyAddressSpace_frees {machine : Machine σ (depth + 1)} {root : PAddr} {link : Link} (space : machine.spaces root = .node link table)
    (plain : ∀ page, UserPage (depth + 1) page → PlainWord (table.query page)) :
    ∃ given, vmmDestroyAddressSpace root machine = { machine with
        spaces := update machine.spaces root .absent
        frames := machine.frames.freeAll given } ∧
      ∀ frame, given.count frame =
        (if root = frame then 1 else 0) + table.userCount frame + (ownedFrames table).count frame := by
  have plainSlots : ∀ index key word, (table (lowIndex index)).get key = some word → PlainWord word := by
    intro index key word found
    have bound : key % 512 ^ (depth + 1) < 512 ^ (depth + 1) := mod_lt _ (by positivity)
    obtain ⟨user, digit⟩ := slot_page index bound
    have same : Radix.SameKey 512 (depth + 1) key (firstPage (depth + 1) index + key % 512 ^ (depth + 1)) := by
      simp [Radix.SameKey, firstPage]
    have here := plain _ user
    rwa [Table.query, digit, ← Radix.get_congr _ same, found] at here
  obtain ⟨given, frames, share, stranded, count⟩ := destroy_steps plainSlots (nodup_finRange 256)
    { table, frames := machine.frames, share := machine.share, stranded := 0 } fun _ _ => rfl
  refine ⟨given ++ [root], ?_, fun frame => ?_⟩
  · simp only [vmmDestroyAddressSpace, space]
    rw [if_neg (not_not_intro stranded), frames, share, Frames.freeAll_append]
    rfl
  · have last : List.count frame [root] = if root = frame then 1 else 0 := by
      simp [count_singleton]
    rw [count_append, last, count, sum_slotCount]
    omega

/-! Calls on one address space. -/

/-- An allocator with `pmm_free_pages`. -/
class CountedAllocator (σ : Type) extends FrameAllocator σ where
  freePages : σ → Nat
  alloc_freePages {before after : σ} {frame : PAddr} :
    alloc before = some (frame, after) → freePages after + 1 = freePages before
  free_freePages {before : σ} {frame : PAddr} : live before frame → freePages (free before frame) = freePages before + 1

def Frames.freePages {τ : Type} [CountedAllocator τ] (frames : Frames τ) : Nat :=
  CountedAllocator.freePages frames.pmm

inductive SpaceCall
  | map (vaddr : Nat) (paddr : PAddr) (pages : Nat) (flags : Word)
  | unmap (vaddr pages : Nat)

/-- `vmm_map_in` and `vmm_unmap_in` on an address space of its own, whatever they answer. -/
inductive SpaceStep (root : PAddr) : SpaceCall → Machine σ depth → Machine σ depth → Prop
  | map {vaddr : Nat} {paddr : PAddr} {pages : Nat} {flags : Word} {machine : Machine σ depth} :
      SpaceStep root (.map vaddr paddr pages flags) machine
        (machine.onTable root (vmmMapIn false vaddr paddr pages flags)).2
  | unmap {vaddr pages : Nat} {machine : Machine σ depth} :
      SpaceStep root (.unmap vaddr pages) machine (machine.onTable root (vmmUnmapIn false vaddr pages)).2

/-- A frame that may be mapped: a single page in use for nothing else, or, if it is not
handed over, perhaps memory that the allocator does not manage. -/
structure Spare (machine : Machine σ depth) (root frame : PAddr) (owned : Bool) : Prop where
  backed : machine.frames.Live frame ∨
    owned = false ∧ Aligned frame ∧ machine.frames.totalPages ≤ frame.toNat / pageSize
  noTable : machine.tableCount root frame = 0
  noKernel : (createdTable machine.kernelPml4).count frame = 0
  unmapped : ∀ page, UserPage depth page → has (machine.entry root page) pagePresent = true →
    frameOf (machine.entry root page) ≠ frame

/-- Frame `index` of a range of frames. -/
def rangeFrame (paddr : PAddr) (index : Nat) : PAddr := paddr + BitVec.ofNat 64 (index * pageSize)

/-- The calls concern the user half, and mappings take distinct frames without sharing bits. -/
def UserCall (root : PAddr) : SpaceCall → Machine σ depth → Prop
  | .map vaddr paddr pages flags, machine =>
    vaddr / pageSize + pages ≤ 256 * 512 ^ depth ∧
    frameOf flags = 0#64 ∧ has flags pageCow = false ∧ has flags pageSharedRef = false ∧
    (∀ first < pages, ∀ second < pages, rangeFrame paddr first = rangeFrame paddr second → first = second) ∧
    ∀ index < pages, Spare machine root (rangeFrame paddr index) (has flags pageOwned)
  | .unmap vaddr pages, _ => vaddr / pageSize + pages ≤ 256 * 512 ^ depth

theorem userPage_iff {page : Nat} : UserPage depth page ↔ page < 256 * 512 ^ depth := by
  have positive : 0 < 512 ^ depth := by positivity
  have digit : (Radix.digit 512 depth page).val = page / 512 ^ depth % 512 := by
    rw [Radix.digit, Fin.val_ofNat]
  rw [UserPage, LowPage, digit, pow_succ, Nat.mul_comm (512 ^ depth), ← Nat.div_lt_iff_lt_mul positive,
    ← Nat.div_lt_iff_lt_mul positive]
  generalize page / 512 ^ depth = row
  omega

/-- What a run of such calls keeps, relative to the state before the address space was made. -/
structure Conserved (start : Machine σ depth) (root : PAddr) (machine : Machine σ depth) : Prop where
  space : ∃ table, machine.spaces root = .node ⟨root, true⟩ table
  tables : Owned (machine.tableCount root) machine.frames start.frames.Live
  plain : ∀ page, UserPage depth page → PlainWord (machine.entry root page)
  backed : ∀ page, UserPage depth page → has (machine.entry root page) pagePresent = true →
    start.frames.Live (frameOf (machine.entry root page)) ∨ has (machine.entry root page) pageOwned = false ∧
        start.frames.totalPages ≤ (frameOf (machine.entry root page)).toNat / pageSize
  noKernel : ∀ page, UserPage depth page → has (machine.entry root page) pagePresent = true →
    (createdTable start.kernelPml4).count (frameOf (machine.entry root page)) = 0
  distinct : ∀ first second, UserPage depth first → UserPage depth second →
    has (machine.entry root first) pagePresent = true → has (machine.entry root second) pagePresent = true →
    frameOf (machine.entry root first) = frameOf (machine.entry root second) → first = second
  uses : start.frames.Uses (fun _ => False) machine.frames
  others : ∀ other, other ≠ root → machine.spaces other = start.spaces other
  kernelPml4 : machine.kernelPml4 = start.kernelPml4

section Conserved

variable {start machine after : Machine σ depth} {root : PAddr}

theorem Created.conserved (created : Created start root after) : Conserved start root after := by
  have space : after.spaces root = .node ⟨root, true⟩ (createdTable start.kernelPml4) := by
    rw [created.spaces, update_self]
  have empty : ∀ page, UserPage depth page → after.entry root page = 0#64 := fun page user =>
    created.entry_new user
  have noPage : ∀ page, UserPage depth page → has (after.entry root page) pagePresent ≠ true := by
    intro page user
    simp [empty page user]
  have count : ∀ frame, after.tableCount root frame = if root = frame then 1 else 0 := by
    intro frame
    rw [tableCount_node space, userCount_clear fun index low => createdTable_low _ low]
    rfl
  refine ⟨⟨_, space⟩, ⟨fun frame => ?_, fun frame => ?_, fun frame one live => ?_⟩, fun page user => ?_,
    fun page user present => (noPage page user present).elim, fun page user present => (noPage page user present).elim,
    fun first _ user _ present => (noPage first user present).elim, .alloc .refl created.taken, fun other different => ?_,
    created.kernelPml4⟩
  · rw [count]
    split <;> simp
  · rw [Frames.pmmAlloc_live created.taken, count]
    by_cases same : root = frame
    · simp [same]
    · simp [same, Ne.symm same]
  · rw [count] at one
    have same : root = frame := by
      by_contra different
      simp [different] at one
    exact Frames.pmmAlloc_fresh created.taken (same ▸ live)
  · rw [empty page user]
    exact ⟨fun _ => rfl, by simp⟩
  · rw [created.spaces, update_of_ne different]

variable {flags : Word}

/-- A call takes frames for tables from the allocator and gives them back to it, and the
pages it changes are empty then or have a spare frame each. -/
theorem Conserved.edit (conserved : Conserved start root machine) {table : Table depth}
    (space : machine.spaces root = .node ⟨root, true⟩ table) {changed : Table depth × Frames σ}
    (edits : Edits flags (LowPage depth) (table, machine.frames) changed)
    (words : ∀ page, UserPage depth page → changed.1.query page = table.query page ∨
      PlainWord (changed.1.query page) ∧ (has (changed.1.query page) pagePresent = true →
        Spare machine root (frameOf (changed.1.query page)) (has (changed.1.query page) pageOwned)))
    (injective : ∀ first second, UserPage depth first → UserPage depth second →
      changed.1.query first ≠ table.query first → changed.1.query second ≠ table.query second →
      has (changed.1.query first) pagePresent = true → has (changed.1.query second) pagePresent = true →
      frameOf (changed.1.query first) = frameOf (changed.1.query second) → first = second) :
    Conserved start root { machine with
      spaces := update machine.spaces root (.node ⟨root, true⟩ changed.1)
      frames := changed.2 } := by
  have spaceAfter := update_self root (.node ⟨root, true⟩ changed.1) machine.spaces
  have before := conserved.tables
  rw [show machine.tableCount root = _ from funext (tableCount_node space)] at before
  obtain ⟨owned, uses⟩ := edits.owned (fun _ => id) before
  have entries : machine.entry root = table.query := funext (entry_node space)
  have plain := conserved.plain
  have backed := conserved.backed
  have noKernel := conserved.noKernel
  have distinct := conserved.distinct
  rw [entries] at plain backed noKernel distinct
  refine ⟨⟨changed.1, spaceAfter⟩, ?_, ?_, ?_, ?_, ?_, conserved.uses.trans (uses.mono fun _ => False.elim),
    fun other different => (update_of_ne different _ _).trans (conserved.others other different),
    conserved.kernelPml4⟩
  · rw [show Machine.tableCount _ root = _ from funext (tableCount_node spaceAfter)]
    exact owned
  all_goals rw [show Machine.entry _ root = _ from funext (entry_node spaceAfter)]
  · intro page user
    rcases words page user with same | ⟨new, -⟩
    · rw [same]
      exact plain page user
    · exact new
  · intro page user present
    rcases words page user with same | ⟨-, new⟩
    · rw [same] at present ⊢
      exact backed page user present
    · obtain ⟨live | unmanaged, noTable, -, -⟩ := new present
      · refine .inl (((conserved.tables.live _).mp live).resolve_left ?_)
        rw [noTable]
        exact Nat.zero_ne_one
      · exact .inr ⟨unmanaged.1, conserved.uses.totalPages ▸ unmanaged.2.2⟩
  · intro page user present
    rcases words page user with same | ⟨-, new⟩
    · rw [same] at present ⊢
      exact noKernel page user present
    · rw [← conserved.kernelPml4]
      exact (new present).noKernel
  · intro first second userFirst userSecond presentFirst presentSecond same
    by_cases oldFirst : changed.1.query first = table.query first
    · by_cases oldSecond : changed.1.query second = table.query second
      · rw [oldFirst] at presentFirst same
        rw [oldSecond] at presentSecond same
        exact distinct first second userFirst userSecond presentFirst presentSecond same
      · obtain ⟨-, new⟩ := (words second userSecond).resolve_left oldSecond
        rw [oldFirst, ← entries] at presentFirst same
        exact ((new presentSecond).unmapped first userFirst presentFirst same).elim
    · by_cases oldSecond : changed.1.query second = table.query second
      · obtain ⟨-, new⟩ := (words first userFirst).resolve_left oldFirst
        rw [oldSecond, ← entries] at presentSecond same
        exact ((new presentFirst).unmapped second userSecond presentSecond same.symm).elim
      · exact injective first second userFirst userSecond oldFirst oldSecond presentFirst presentSecond same

theorem mappedWord_plain {paddr : PAddr} {index : Nat} (aligned : Aligned (rangeFrame paddr index))
    (noAddress : frameOf flags = 0#64) (noCow : has flags pageCow = false)
    (noShare : has flags pageSharedRef = false) :
    frameOf (mappedWord paddr flags index) = rangeFrame paddr index ∧
      has (mappedWord paddr flags index) pagePresent = true ∧
      has (mappedWord paddr flags index) pageOwned = has flags pageOwned ∧
      PlainWord (mappedWord paddr flags index) := by
  change Aligned (paddr + BitVec.ofNat 64 (index * pageSize)) at aligned
  have whole : frameOf (paddr + BitVec.ofNat 64 (index * pageSize)) =
    paddr + BitVec.ofNat 64 (index * pageSize) := aligned
  refine ⟨?_, ?_, ?_, fun absent => ?_, fun _ => ⟨?_, ?_⟩⟩
  · simp [mappedWord, noAddress, whole, rangeFrame]
  · simp [mappedWord]
  · simp [mappedWord, aligned.has_false pageOwned]
  · simp [mappedWord] at absent
  · simp [mappedWord, aligned.has_false pageCow, noCow]
  · simp [mappedWord, aligned.has_false pageSharedRef, noShare]

theorem find_user {page pages other : Nat} (inside : page + pages ≤ 256 * 512 ^ depth) (user : UserPage depth other) :
    ((List.range pages).reverse.find? fun index => SamePage depth (page + index) other) =
      if page ≤ other ∧ other < page + pages then some (other - page) else none :=
  find_range fun _ bound same => (UserPage.samePage (userPage_iff.mpr (by omega)) user).mp same

theorem Conserved.map (conserved : Conserved start root machine) {vaddr : Nat} {paddr : PAddr} {pages : Nat} (allowed : UserCall root (.map vaddr paddr pages flags) machine) :
    Conserved start root (machine.onTable root (vmmMapIn false vaddr paddr pages flags)).2 := by
  obtain ⟨inside, noAddress, noCow, noShare, injective, spare⟩ := allowed
  obtain ⟨table, space⟩ := conserved.space
  have low : ∀ index < pages, LowPage depth (vaddr / pageSize + index) := fun index bound =>
    (userPage_iff.mpr (by omega)).2
  have edits := vmmMapIn_edits false flags paddr low table machine.frames
  obtain ⟨failed, mapped⟩ := vmmMapIn_query false flags vaddr paddr pages table machine.frames
  simp only [onTable, space]
  cases done : (vmmMapIn false vaddr paddr pages flags table machine.frames).1 with
  | false =>
    exact conserved.edit space edits (fun page _ => .inl (failed done page)) fun first _ _ _ changed =>
      (changed (failed done first)).elim
  | true =>
    obtain ⟨-, queries⟩ := mapped done
    have words : ∀ page, UserPage depth page →
        (vmmMapIn false vaddr paddr pages flags table machine.frames).2.1.query page =
          if vaddr / pageSize ≤ page ∧ page < vaddr / pageSize + pages then
            mappedWord paddr flags (page - vaddr / pageSize)
          else Table.query table page := by
      intro page user
      rw [queries, find_user inside user]
      split <;> simp_all
    have aligned : ∀ index < pages, Aligned (rangeFrame paddr index) := by
      intro index bound
      rcases (spare index bound).backed with live | unmanaged
      · exact FrameAllocator.live_aligned live
      · exact unmanaged.2.1
    have new (index : Nat) (bound : index < pages) :=
      mappedWord_plain (aligned index bound) noAddress noCow noShare
    refine conserved.edit space edits (fun page user => ?_) fun first second userFirst userSecond changedFirst
      changedSecond _ _ same => ?_
    · rw [words page user]
      split
      · obtain ⟨frame, -, owned, plain⟩ := new (page - vaddr / pageSize) (by omega)
        refine .inr ⟨plain, fun _ => ?_⟩
        rw [frame, owned]
        exact spare _ (by omega)
      · exact .inl rfl
    · rw [words first userFirst] at changedFirst same
      rw [words second userSecond] at changedSecond same
      split at changedFirst
      · split at changedSecond
        · rename_i hereFirst hereSecond
          rw [if_pos hereFirst, if_pos hereSecond, (new (first - vaddr / pageSize) (by omega)).1,
            (new (second - vaddr / pageSize) (by omega)).1] at same
          have equal := injective _ (by omega) _ (by omega) same
          omega
        · contradiction
      · contradiction

theorem Conserved.unmap (conserved : Conserved start root machine) {vaddr pages : Nat}
    (allowed : UserCall root (.unmap vaddr pages) machine) :
    Conserved start root (machine.onTable root (vmmUnmapIn false vaddr pages)).2 := by
  have inside : vaddr / pageSize + pages ≤ 256 * 512 ^ depth := allowed
  obtain ⟨table, space⟩ := conserved.space
  have low : ∀ index < pages, LowPage depth (vaddr / pageSize + index) := fun index bound =>
    (userPage_iff.mpr (by omega)).2
  have edits := vmmUnmapIn_edits false 0#64 low table machine.frames
  obtain ⟨failed, cleared⟩ := vmmUnmapIn_query false vaddr pages table machine.frames
  have words : ∀ page, UserPage depth page →
      (vmmUnmapIn false vaddr pages table machine.frames).2.1.query page = Table.query table page ∨
        (vmmUnmapIn false vaddr pages table machine.frames).2.1.query page = 0#64 := by
    intro page user
    cases done : (vmmUnmapIn false vaddr pages table machine.frames).1 with
    | false => exact .inl (by rw [failed done])
    | true =>
      rw [(cleared done).2]
      split
      · exact .inr rfl
      · exact .inl rfl
  simp only [onTable, space]
  refine conserved.edit space edits (fun page user => ?_) fun first _ userFirst _ changed _ present => ?_
  · rcases words page user with same | zero
    · exact .inl same
    · rw [zero]
      exact .inr ⟨⟨fun _ => rfl, by simp⟩, by simp⟩
  · rw [(words first userFirst).resolve_left changed] at present
    simp at present

theorem Conserved.run {created : Machine σ depth} (conserved : Conserved start root created)
    (run : Run (SpaceStep root) (UserCall root) created machine) : Conserved start root machine := by
  refine run.invariant conserved fun call before after kept meets taken => ?_
  cases taken with
  | map => exact kept.map meets
  | unmap => exact kept.unmap meets

end Conserved

/-! The balance. -/

/-- A page of the address space owns this frame. -/
def Machine.HandedOver (machine : Machine σ depth) (root frame : PAddr) : Prop :=
  ∃ page, UserPage depth page ∧ has (machine.entry root page) pagePresent = true ∧
    has (machine.entry root page) pageOwned = true ∧ frameOf (machine.entry root page) = frame

section Balance

theorem Frames.Uses.freePages {τ : Type} [CountedAllocator τ] {kept : PAddr → Prop} {before after : Frames τ}
    (uses : before.Uses kept after) :
    after.freePages + {frame | after.Live frame}.ncard = before.freePages + {frame | before.Live frame}.ncard := by
  induction uses with
  | refl => rfl
  | @alloc now next frame _ taken ih =>
    have fresh : frame ∉ {frame | now.Live frame} := pmmAlloc_fresh taken
    have live : {frame | next.Live frame} = insert frame {frame | now.Live frame} :=
      Set.ext fun other => pmmAlloc_live taken
    have pages : next.freePages + 1 = now.freePages :=
      CountedAllocator.alloc_freePages (pmmAlloc_some taken).1
    rw [live, ncard_insert_of_notMem fresh (toFinite _)]
    omega
  | @free now frame _ isLive _ ih =>
    have member : frame ∈ {frame | now.Live frame} := isLive
    have live : {other | (now.pmmFree frame).Live other} = {other | now.Live other} \ {frame} :=
      Set.ext fun other => pmmFree_live.trans and_comm
    have pages : (now.pmmFree frame).freePages = now.freePages + 1 :=
      CountedAllocator.free_freePages isLive
    have removed := ncard_diff_singleton_add_one member (toFinite _)
    rw [live, pages]
    omega

variable {start machine : Machine σ depth} {root frame : PAddr} {table : Table depth}

section

variable (space : machine.spaces root = .node ⟨root, true⟩ table)
include space

theorem mem_ownedFrames
    (conserved : Conserved start root machine) : frame ∈ ownedFrames table ↔ machine.HandedOver root frame := by
  simp only [ownedFrames, List.mem_filterMap, List.mem_range, ← userPage_iff, HandedOver, entry_node space]
  refine exists_congr fun page => and_congr_right fun user => ?_
  have plain := conserved.plain page user
  rw [entry_node space] at plain
  cases present : has (table.query page) pagePresent with
  | false => simp [ownedFrame, present]
  | true => simp [ownedFrame, present, (plain.sole present).1]

theorem nodup_ownedFrames (conserved : Conserved start root machine) : (ownedFrames table).Nodup := by
  have pages : (List.range (256 * 512 ^ depth)).Pairwise fun first second =>
      UserPage depth first ∧ UserPage depth second ∧ first ≠ second :=
    List.Pairwise.imp_of_mem (fun first second different =>
      ⟨userPage_iff.mpr (List.mem_range.mp first), userPage_iff.mpr (List.mem_range.mp second), different⟩)
      nodup_range
  refine List.Pairwise.filterMap _ (fun first second both frame isFirst other isSecond same => ?_) pages
  obtain ⟨userFirst, userSecond, different⟩ := both
  have distinct := conserved.distinct first second userFirst userSecond
  simp only [entry_node space] at distinct
  unfold ownedFrame at isFirst isSecond
  split at isFirst
  · split at isSecond
    · rename_i ownsFirst ownsSecond
      simp only [Bool.and_eq_true] at ownsFirst ownsSecond
      refine different (distinct ownsFirst.1.1 ownsSecond.1.1 ?_)
      rw [Option.some.inj isFirst, Option.some.inj isSecond, same]
    · contradiction
  · contradiction

end

theorem Conserved.handedOver_live (conserved : Conserved start root machine)
    (handed : machine.HandedOver root frame) : start.frames.Live frame := by
  obtain ⟨page, user, present, owned, rfl⟩ := handed
  rcases conserved.backed page user present with live | ⟨unowned, -⟩
  · exact live
  · rw [owned] at unowned
    contradiction

theorem Conserved.tableCount_zero (conserved : Conserved start root machine)
    (used : start.frames.Live frame ∨ start.frames.totalPages ≤ frame.toNat / pageSize) :
    machine.tableCount root frame = 0 := by
  have bound := conserved.tables.atMostOne frame
  have one : ¬ machine.tableCount root frame = 1 := by
    intro one
    rcases used with live | unmanaged
    · exact conserved.tables.apart frame one live
    · have inRange := FrameAllocator.live_inRange ((conserved.tables.live frame).mpr (.inl one))
      have total := conserved.uses.totalPages
      change frame.toNat / pageSize < machine.frames.totalPages at inRange
      omega
  omega

theorem Conserved.teardown {start machine : Machine σ (depth + 1)} (conserved : Conserved start root machine) :
    ∃ given, vmmDestroyAddressSpace root machine = { machine with
        spaces := update machine.spaces root .absent
        frames := machine.frames.freeAll given } ∧
      given.Nodup ∧ (∀ frame ∈ given, machine.frames.Live frame) ∧
      ∀ frame, frame ∈ given ↔ 0 < machine.tableCount root frame ∨ machine.HandedOver root frame := by
  obtain ⟨table, space⟩ := conserved.space
  have plain := conserved.plain
  rw [show machine.entry root = Table.query table from funext (entry_node space)] at plain
  obtain ⟨given, result, counts⟩ := vmmDestroyAddressSpace_frees space plain
  have tables := conserved.tables
  have count : ∀ frame, given.count frame = machine.tableCount root frame + (ownedFrames table).count frame := by
    intro frame
    rw [counts, tableCount_node space]
  have member : ∀ frame, frame ∈ given ↔ 0 < machine.tableCount root frame ∨ machine.HandedOver root frame := by
    intro frame
    rw [← mem_ownedFrames space conserved, ← count_pos_iff, ← count_pos_iff, count]
    omega
  refine ⟨given, result, nodup_iff_count_le_one.mpr fun frame => ?_, fun frame inside => ?_, member⟩
  · have bound := tables.atMostOne frame
    have once := nodup_iff_count_le_one.mp (nodup_ownedFrames space conserved) frame
    by_cases handed : machine.HandedOver root frame
    · rw [count, conserved.tableCount_zero (.inl (conserved.handedOver_live handed))]
      omega
    · rw [← mem_ownedFrames space conserved, ← count_eq_zero] at handed
      rw [count, handed]
      omega
  · have bound := tables.atMostOne frame
    rcases (member frame).mp inside with table | handed
    · exact (tables.live frame).mpr (.inl (by omega))
    · exact (tables.live frame).mpr (.inr (conserved.handedOver_live handed))

theorem Conserved.live_after (conserved : Conserved start root machine) {given : List PAddr}
    (member : ∀ frame, frame ∈ given ↔ 0 < machine.tableCount root frame ∨ machine.HandedOver root frame)
    (frame : PAddr) :
    (machine.frames.freeAll given).Live frame ↔ start.frames.Live frame ∧ ¬ machine.HandedOver root frame := by
  rw [Frames.freeAll_live, member, conserved.tables.live]
  constructor
  · rintro ⟨spared, one | live⟩
    · exact (spared (.inl (by omega))).elim
    · exact ⟨live, fun handed => spared (.inr handed)⟩
  · rintro ⟨live, kept⟩
    have zero := conserved.tableCount_zero (.inl live)
    exact ⟨fun gone => gone.elim (by omega) kept, .inr live⟩

end Balance

/-- Tearing an address space down gives back its tables and the frames it was handed,
each once, and nothing else. -/
theorem teardown_conserves {τ : Type} [CountedAllocator τ] {start created now : Machine τ (depth + 1)}
    {root : PAddr} (made : vmmCreateAddressSpace start = some (root, created))
    (kernelTables : ∀ frame, 0 < (createdTable start.kernelPml4).count frame →
      start.frames.Live frame ∨ start.frames.totalPages ≤ frame.toNat / pageSize)
    (run : Run (SpaceStep root) (UserCall root) created now) :
    let after := vmmDestroyAddressSpace root now
    (∃ given, after.frames.freed = given ++ now.frames.freed ∧ after.frames.taken = now.frames.taken ∧
      given.Nodup ∧ (∀ frame ∈ given, now.frames.Live frame) ∧
      (∀ frame, frame ∈ given ↔ 0 < now.tableCount root frame ∨ now.HandedOver root frame) ∧
      (∀ page, UserPage (depth + 1) page → has (now.entry root page) pagePresent = true →
        has (now.entry root page) pageOwned = false → frameOf (now.entry root page) ∉ given) ∧
      ∀ frame, 0 < (createdTable start.kernelPml4).count frame → frame ∉ given) ∧
    after.kernelPml4 = start.kernelPml4 ∧ after.spaces = update start.spaces root .absent ∧
    after.frames.freePages = start.frames.freePages + {frame | now.HandedOver root frame}.ncard := by
  have conserved := (vmmCreateAddressSpace_created made).conserved.run run
  obtain ⟨given, result, nodup, live, member⟩ := conserved.teardown
  have spared : ∀ frame, (start.frames.Live frame ∨ start.frames.totalPages ≤ frame.toNat / pageSize) →
      ¬ now.HandedOver root frame → frame ∉ given := by
    intro frame used kept inside
    rcases (member frame).mp inside with table | handed
    · rw [conserved.tableCount_zero used] at table
      exact Nat.lt_irrefl 0 table
    · exact kept handed
  simp only [result]
  obtain ⟨freed, taken⟩ := Frames.freeAll_log now.frames given
  refine ⟨⟨given.reverse, freed, taken, nodup_reverse.mpr nodup, ?_, ?_, ?_, ?_⟩, conserved.kernelPml4, ?_, ?_⟩
  · exact fun frame inside => live frame (mem_reverse.mp inside)
  · exact fun frame => mem_reverse.trans (member frame)
  · intro page user present unowned inside
    refine spared _ ((conserved.backed page user present).imp_right And.right) ?_ (mem_reverse.mp inside)
    rintro ⟨other, otherUser, otherPresent, owned, same⟩
    rw [← conserved.distinct other page otherUser user otherPresent present same, owned] at unowned
    contradiction
  · intro frame table inside
    refine spared frame (kernelTables frame table) ?_ (mem_reverse.mp inside)
    rintro ⟨page, user, present, -, rfl⟩
    rw [conserved.noKernel page user present] at table
    exact Nat.lt_irrefl 0 table
  · funext other
    by_cases same : other = root
    · rw [same, update_self, update_self]
    · rw [update_of_ne same, update_of_ne same, conserved.others other same]
  · have balance := (conserved.uses.trans (Frames.freeAll_uses nodup live)).freePages
    have after : {frame | (now.frames.freeAll given).Live frame} =
        {frame | start.frames.Live frame} \ {frame | now.HandedOver root frame} :=
      Set.ext (conserved.live_after member)
    have inside : {frame | now.HandedOver root frame} ⊆ {frame | start.frames.Live frame} :=
      fun frame handed => conserved.handedOver_live handed
    have fewer := ncard_le_ncard inside (toFinite _)
    rw [after, ncard_diff inside (toFinite _)] at balance
    change (now.frames.freeAll given).freePages = _
    omega

namespace Bump

theorem live_finite (bump : Bump) : {frame | bump.Live frame}.ncard ≤ pages := by
  have inside : {frame | bump.Live frame} ⊆ (Finset.range pages).image frame := by
    rintro address ⟨⟨index, -, inRange, rfl⟩, -⟩
    exact mem_coe.mpr (Finset.mem_image_of_mem frame (Finset.mem_range.mpr inRange))
  have bound := ncard_le_ncard inside (toFinite _)
  rw [ncard_coe_finset] at bound
  exact bound.trans (card_image_le.trans (card_range pages).le)

noncomputable instance bumpCounted : CountedAllocator Bump where
  freePages bump := pages - {frame | bump.Live frame}.ncard
  alloc_freePages {before after address} answer := by
    have live : {frame | after.Live frame} = insert address {frame | before.Live frame} :=
      Set.ext fun other => FrameAllocator.alloc_live answer
    have fresh : address ∉ {frame | before.Live frame} := FrameAllocator.alloc_fresh answer
    have bound := live_finite after
    rw [live, ncard_insert_of_notMem fresh (toFinite _)] at bound ⊢
    omega
  free_freePages {before address} isLive := by
    have live : {frame | (before.free address).Live frame} = {frame | before.Live frame} \ {address} :=
      Set.ext fun other => (FrameAllocator.free_live (σ := Bump)).trans and_comm
    have removed := ncard_diff_singleton_add_one (show address ∈ {frame | before.Live frame} from isLive) (toFinite _)
    have bound := live_finite before
    change pages - {frame | (before.free address).Live frame}.ncard = _
    rw [live]
    omega

/-- A machine on which one page is in use. -/
def lender : Machine Bump 3 := { bare with frames := { pmm := { next := 2, freed := [] }, taken := [], freed := [] } }

/-- The same with an address space. -/
def lent : Machine Bump 3 :=
  { lender with
    frames := { pmm := { next := 3, freed := [] }, taken := [frame 2], freed := [] }
    spaces := update (fun _ => .absent) (frame 2) (.node ⟨frame 2, true⟩ (createdTable lender.kernelPml4)) }

theorem lender_creates : vmmCreateAddressSpace lender = some (frame 2, lent) := rfl

end Bump

/-- An address space is made, gets a page to own and goes: one page more is free than before. -/
theorem teardown_conserves_one :
    let call : SpaceCall := .map 0x400000 (Bump.frame 1) 1 (pageUser ||| pageWrite ||| pageOwned)
    let now := (Bump.lent.onTable (Bump.frame 2)
      (vmmMapIn false 0x400000 (Bump.frame 1) 1 (pageUser ||| pageWrite ||| pageOwned))).2
    vmmCreateAddressSpace Bump.lender = some (Bump.frame 2, Bump.lent) ∧
      UserCall (Bump.frame 2) call Bump.lent ∧ now.HandedOver (Bump.frame 2) (Bump.frame 1) ∧
      (vmmDestroyAddressSpace (Bump.frame 2) now).frames.freePages =
        Bump.lender.frames.freePages + {frame | now.HandedOver (Bump.frame 2) frame}.ncard := by
  have created := vmmCreateAddressSpace_created Bump.lender_creates
  have live : Bump.lender.frames.Live (Bump.frame 1) := ⟨⟨1, by decide, by decide, rfl⟩, by simp [Bump.lender]⟩
  have noKernel : createdTable Bump.lender.kernelPml4 = fun _ => blank 3 := by
    funext index
    unfold createdTable
    split <;> rfl
  have allowed : UserCall (Bump.frame 2)
      (.map 0x400000 (Bump.frame 1) 1 (pageUser ||| pageWrite ||| pageOwned)) Bump.lent := by
    refine ⟨by decide, by decide, by decide, by decide, fun first _ second _ _ => by omega, ?_⟩
    intro index only
    obtain rfl : index = 0 := by omega
    refine ⟨.inl ((Frames.pmmAlloc_live created.taken).mpr (.inr live)),
      created.conserved.tableCount_zero (.inl live), ?_, fun page user present => ?_⟩
    · rw [created.kernelPml4, noKernel, blank_count]
    · rw [created.entry_new user] at present
      simp at present
  refine ⟨Bump.lender_creates, allowed, ⟨0x400, userPage_iff.mpr (by decide), by decide +kernel,
    by decide +kernel, by decide +kernel⟩, ?_⟩
  have run := Run.next .start allowed (SpaceStep.map : SpaceStep (Bump.frame 2) _ Bump.lent _)
  refine (teardown_conserves Bump.lender_creates (fun frame table => ?_) run).2.2.2
  rw [noKernel, blank_count] at table
  exact (Nat.lt_irrefl 0 table).elim

end NyonOS.Paging
