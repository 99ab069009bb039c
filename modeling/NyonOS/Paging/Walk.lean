import NyonOS.Data.Loop
import NyonOS.Paging.Machine

namespace NyonOS.Paging

open Data Function
open Radix (digit)

/-! Walking, growing and pruning one tree of page tables.

Addresses are page numbers (`vaddr / PAGE_SIZE`): `level_shift` only ever selects
the base-512 digits of the page number, and neither a carry past bit 63 nor an
offset inside the page reaches those digits. -/

def levelShift (vmm5level : Bool) (level : Nat) : Nat :=
  if vmm5level then [48, 39, 30, 21, 12].getD (5 - level) 0 else [39, 30, 21, 12].getD (4 - level) 0

variable {σ : Type} [FrameAllocator σ] {depth : Nat}

/-- `walk_page_table` with `alloc` set, below the given table. -/
def walkPageTable (flags : Word) : {depth : Nat} → Table depth → Nat → Frames σ → Bool × Table depth × Frames σ
  | 0, table, _, frames => (true, table, frames)
  | depth + 1, table, page, frames =>
    let index := digit 512 (depth + 1) page
    match table index with
    | .node link next =>
      if has flags pageUser && !link.user && !tableIsEmpty next then (false, table, frames)
      else
        let below := walkPageTable flags next page frames
        (below.1, update table index (.node { link with user := link.user || has flags pageUser } below.2.1), below.2.2)
    | .absent =>
      match frames.pmmAlloc with
      | none => (false, table, frames)
      | some (frame, taken) =>
        let below := walkPageTable flags (fun _ => blank depth) page taken
        (below.1, update table index (.node { frame, user := has flags pageUser } below.2.1), below.2.2)

/-- `reclaim_ancestors`; `kernel` is `table == kernel_pml4`, which can only hold
at the top. -/
def reclaimAncestors : {depth : Nat} → (kernel : Bool) → Table depth → Nat → Frames σ → Table depth × Frames σ
  | 0, _, table, _, frames => (table, frames)
  | depth + 1, kernel, table, page, frames =>
    let index := digit 512 (depth + 1) page
    match table index with
    | .absent => (table, frames)
    | .node link child =>
      let below := reclaimAncestors false child page frames
      if kernel || !tableIsEmpty below.1 then
        (update table index (.node link below.1), below.2)
      else (update table index .absent, below.2.pmmFree link.frame)

section

variable (table : Table depth)

/-- What `vmm_query_in` reads: the last-level entry, or 0 where a table is missing. -/
def Table.query (page : Nat) : Word :=
  ((table (digit 512 depth page)).get page).getD 0#64

def Table.Reaches (page : Nat) : Prop :=
  ((table (digit 512 depth page)).get page).isSome = true

/-- The number of tables below this one that live in a frame. -/
def Table.count (frame : PAddr) : Nat :=
  ∑ index, (table index).weight fun link => if link.frame = frame then 1 else 0

@[simp] theorem blank_query (page : Nat) : Table.query (fun _ => blank depth) page = 0#64 := by
  cases depth <;> rfl

@[simp] theorem blank_count (frame : PAddr) : Table.count (fun _ => blank depth) frame = 0 := by
  cases depth <;> simp [Table.count, blank, Radix.weight]

theorem all_blank (holds : Link → Prop) : Radix.All holds (blank depth) := by
  cases depth <;> trivial

theorem query_update (index : Fin 512) (slot : Tree depth) (page : Nat) :
    Table.query (update table index slot) page = if digit 512 depth page = index then (slot.get page).getD 0#64
      else table.query page := by
  by_cases same : digit 512 depth page = index
  · simp [Table.query, same]
  · simp [Table.query, same]

end

theorem node_get (link : Link) (table : Table depth) (page : Nat) :
    (Radix.get (.node link table : Tree (depth + 1)) page).getD 0#64 = table.query page := rfl

variable {page : Nat}

theorem query_of_node {table : Table (depth + 1)} {link : Link} {next : Table depth}
    (entry : table (digit 512 (depth + 1) page) = .node link next) :
    table.query page = next.query page := by
  rw [Table.query, entry, node_get]

theorem query_of_absent {table : Table (depth + 1)}
    (entry : table (digit 512 (depth + 1) page) = .absent) : table.query page = 0#64 := by
  rw [Table.query, entry]
  rfl

theorem count_update (table : Table depth) (index : Fin 512) (slot : Tree depth) (frame : PAddr) :
    Table.count (update table index slot) frame +
        (table index).weight (fun link => if link.frame = frame then 1 else 0) =
      table.count frame + slot.weight fun link => if link.frame = frame then 1 else 0 := by
  have total := Radix.weight_update (fun link : Link => if link.frame = frame then 1 else 0)
    { frame := frame, user := true } table index slot
  simp only [Radix.weight] at total
  simp only [Table.count]
  omega

theorem node_weight (link : Link) (table : Table depth) (frame : PAddr) :
    Radix.weight (fun link => if link.frame = frame then 1 else 0) (.node link table : Tree (depth + 1)) =
      (if link.frame = frame then 1 else 0) + table.count frame := rfl

attribute [irreducible] Table.count

section

variable (table : Table depth) (index : Fin 512)

def Table.countExcept (frame : PAddr) : Nat :=
  Table.count (update table index (blank depth)) frame

theorem blank_weight (frame : PAddr) :
    Radix.weight (fun link : Link => if link.frame = frame then 1 else 0) (blank depth) = 0 := by
  cases depth <;> rfl

theorem count_split (frame : PAddr) : table.count frame = table.countExcept index frame +
      (table index).weight fun link => if link.frame = frame then 1 else 0 := by
  have total := count_update table index (blank depth) frame
  rw [blank_weight] at total
  unfold Table.countExcept
  omega

theorem count_update_split (slot : Tree depth) (frame : PAddr) :
    Table.count (update table index slot) frame = table.countExcept index frame +
      slot.weight fun link => if link.frame = frame then 1 else 0 := by
  have replaced := count_update table index slot frame
  rw [count_split table index frame] at replaced
  omega

end

/-- One level of the walk: it gives up, or continues in the table the entry
points to, or in a fresh empty table. -/
theorem walkPageTable_cases (flags : Word) (table : Table (depth + 1)) (page : Nat) (frames : Frames σ) :
    (walkPageTable flags table page frames = (false, table, frames)) ∨
    (∃ link next, table (digit 512 (depth + 1) page) = .node link next ∧ walkPageTable flags table page frames =
        ((walkPageTable flags next page frames).1, update table (digit 512 (depth + 1) page)
            (.node { link with user := link.user || has flags pageUser } (walkPageTable flags next page frames).2.1),
          (walkPageTable flags next page frames).2.2)) ∨
    (∃ frame taken, table (digit 512 (depth + 1) page) = .absent ∧ frames.pmmAlloc = some (frame, taken) ∧
      walkPageTable flags table page frames = ((walkPageTable flags (fun _ => blank depth) page taken).1,
          update table (digit 512 (depth + 1) page) (.node { frame, user := has flags pageUser }
              (walkPageTable flags (fun _ => blank depth) page taken).2.1),
          (walkPageTable flags (fun _ => blank depth) page taken).2.2)) := by
  cases entry : table (digit 512 (depth + 1) page) with
  | node link next =>
    simp only [walkPageTable, entry]
    split
    · exact .inl rfl
    · exact .inr (.inl ⟨link, next, rfl, rfl⟩)
  | absent =>
    simp only [walkPageTable, entry]
    cases answer : frames.pmmAlloc with
    | none => exact .inl rfl
    | some taken => exact .inr (.inr ⟨taken.1, taken.2, trivial, rfl, rfl⟩)

theorem walkPageTable_query (flags : Word) (table : Table depth) (page other : Nat) (frames : Frames σ) :
    (walkPageTable flags table page frames).2.1.query other = table.query other := by
  induction depth generalizing frames with
  | zero => rfl
  | succ depth ih =>
    rcases walkPageTable_cases flags table page frames with
      stuck | ⟨link, next, entry, step⟩ | ⟨frame, taken, entry, answer, step⟩
    · rw [stuck]
    · rw [step, query_update]
      split
      · rename_i same
        rw [node_get, ih, query_of_node (same ▸ entry)]
      · rfl
    · rw [step, query_update]
      split
      · rename_i same
        rw [node_get, ih, blank_query, query_of_absent (same ▸ entry)]
      · rfl

variable {table : Table depth} {frames : Frames σ}

theorem walkPageTable_reaches {flags : Word} (found : (walkPageTable flags table page frames).1 = true) :
    (walkPageTable flags table page frames).2.1.Reaches page := by
  induction depth generalizing frames with
  | zero =>
    simp only [walkPageTable, Table.Reaches]
    cases table (digit 512 0 page)
    rfl
  | succ depth ih =>
    rcases walkPageTable_cases flags table page frames with
      stuck | ⟨link, next, entry, step⟩ | ⟨frame, taken, entry, answer, step⟩
    · simp [stuck] at found
    · rw [step] at found ⊢
      simp only [Table.Reaches, update_self]
      exact ih found
    · rw [step] at found ⊢
      simp only [Table.Reaches, update_self]
      exact ih found

variable {index : Fin 512}

theorem walkPageTable_elsewhere (flags : Word) (table : Table depth)
    (frames : Frames σ) (other : index ≠ digit 512 depth page) :
    (walkPageTable flags table page frames).2.1 index = table index := by
  cases depth with
  | zero => rfl
  | succ depth =>
    rcases walkPageTable_cases flags table page frames with
      stuck | ⟨link, next, entry, step⟩ | ⟨frame, taken, entry, answer, step⟩
    · rw [stuck]
    · rw [step]
      exact update_of_ne other _ _
    · rw [step]
      exact update_of_ne other _ _

theorem walkPageTable_user {flags : Word} (page : Nat) (frames : Frames σ) (user : has flags pageUser = true)
    (before : (table (digit 512 depth page)).All (·.user = true)) :
    ((walkPageTable flags table page frames).2.1 (digit 512 depth page)).All (·.user = true) := by
  induction depth generalizing frames with
  | zero => exact before
  | succ depth ih =>
    rcases walkPageTable_cases flags table page frames with
      stuck | ⟨link, next, entry, step⟩ | ⟨frame, taken, entry, answer, step⟩
    · rw [stuck]
      exact before
    · rw [step]
      rw [entry] at before
      obtain ⟨-, below⟩ := before
      dsimp only
      rw [update_self]
      refine ⟨by simp [user], fun index => ?_⟩
      by_cases here : index = digit 512 depth page
      · rw [here]
        exact ih frames (below _)
      · rw [walkPageTable_elsewhere flags next frames here]
        exact below index
    · rw [step]
      dsimp only
      rw [update_self]
      refine ⟨user, fun index => ?_⟩
      by_cases here : index = digit 512 depth page
      · rw [here]
        exact ih taken (all_blank _)
      · rw [walkPageTable_elsewhere flags _ taken here]
        exact all_blank _

/-- The frames of a family of tables are exactly the live frames that `rest` does
not claim, each used by one table. -/
structure Owned (count : PAddr → Nat) (frames : Frames σ) (rest : PAddr → Prop) : Prop where
  atMostOne : ∀ frame, count frame ≤ 1
  live : ∀ frame, frames.Live frame ↔ count frame = 1 ∨ rest frame
  apart : ∀ frame, count frame = 1 → ¬ rest frame

theorem Owned.alloc {count : PAddr → Nat} {frames taken : Frames σ} {rest : PAddr → Prop}
    {frame : PAddr} (owned : Owned count frames rest)
    (answer : frames.pmmAlloc = some (frame, taken)) :
    Owned (fun other => count other + if frame = other then 1 else 0) taken rest := by
  have fresh := Frames.pmmAlloc_fresh answer
  rw [owned.live] at fresh
  have unused : count frame = 0 := by
    have bound := owned.atMostOne frame
    have : ¬ count frame = 1 := fun used => fresh (.inl used)
    omega
  refine ⟨?_, ?_, ?_⟩
  · intro other
    by_cases same : frame = other
    · subst same; simp [unused]
    · simpa [same] using owned.atMostOne other
  · intro other
    rw [Frames.pmmAlloc_live answer, owned.live]
    by_cases same : frame = other
    · subst same; simp [unused]
    · simp [same, Ne.symm same]
  · intro other used
    by_cases same : frame = other
    · subst same; exact fun claimed => fresh (.inr claimed)
    · exact owned.apart other (by simpa [same] using used)

theorem Owned.free {count : PAddr → Nat} {frames : Frames σ} {rest : PAddr → Prop} {frame : PAddr}
    (owned : Owned (fun other => count other + if frame = other then 1 else 0) frames rest) :
    frames.Live frame ∧ ¬ rest frame ∧ Owned count (frames.pmmFree frame) rest := by
  have bound := owned.atMostOne frame
  simp only [if_true] at bound
  have unused : count frame = 0 := by omega
  have unclaimed : ¬ rest frame := owned.apart frame (by simp [unused])
  refine ⟨(owned.live frame).mpr (.inl (by simp [unused])), unclaimed, ?_, ?_, ?_⟩
  · intro other
    have := owned.atMostOne other
    omega
  · intro other
    rw [Frames.pmmFree_live, owned.live]
    by_cases same : frame = other
    · subst same; simp [unused, unclaimed]
    · simp [same, Ne.symm same]
  · intro other used
    by_cases same : frame = other
    · subst same; exact unclaimed
    · exact owned.apart other (by simpa [same] using used)

variable {extra : PAddr → Nat} {rest : PAddr → Prop}

theorem walkPageTable_owned (flags : Word) (page : Nat)
    (owned : Owned (fun frame => extra frame + table.count frame) frames rest) :
    Owned (fun frame => extra frame + (walkPageTable flags table page frames).2.1.count frame)
        (walkPageTable flags table page frames).2.2 rest ∧
      frames.Uses rest (walkPageTable flags table page frames).2.2 := by
  induction depth generalizing frames extra with
  | zero => exact ⟨owned, .refl⟩
  | succ depth ih =>
    rcases walkPageTable_cases flags table page frames with
      stuck | ⟨link, next, entry, step⟩ | ⟨frame, taken, entry, answer, step⟩
    · rw [stuck]
      exact ⟨owned, .refl⟩
    · rw [step]
      have split : (fun frame => extra frame + table.count frame) = fun frame =>
          extra frame + table.countExcept (digit 512 (depth + 1) page) frame +
            (if link.frame = frame then 1 else 0) + Table.count next frame := by
        funext frame
        rw [count_split table (digit 512 (depth + 1) page), entry, node_weight]
        omega
      rw [split] at owned
      obtain ⟨ownedBelow, uses⟩ := ih owned
      refine ⟨?_, uses⟩
      convert ownedBelow using 2 with frame
      rw [count_update_split, node_weight]
      dsimp only
      omega
    · rw [step]
      have ownedTaken := owned.alloc answer
      have split : (fun other => extra other + table.count other + if frame = other then 1 else 0) =
          fun other => extra other + table.countExcept (digit 512 (depth + 1) page) other +
            (if frame = other then 1 else 0) + Table.count (fun _ => blank depth) other := by
        funext other
        rw [count_split table (digit 512 (depth + 1) page), entry, blank_count]
        simp only [Radix.weight]
        omega
      rw [split] at ownedTaken
      obtain ⟨ownedBelow, uses⟩ := ih ownedTaken
      refine ⟨?_, (Frames.Uses.alloc .refl answer).trans uses⟩
      convert ownedBelow using 2 with other
      rw [count_update_split, node_weight]
      dsimp only
      omega

section

variable (kernel : Bool)

theorem reclaimAncestors_cases (table : Table (depth + 1)) (page : Nat) (frames : Frames σ) :
    (table (digit 512 (depth + 1) page) = .absent ∧ reclaimAncestors kernel table page frames = (table, frames)) ∨
    (∃ link child, table (digit 512 (depth + 1) page) = .node link child ∧
      (kernel || !tableIsEmpty (reclaimAncestors false child page frames).1) = true ∧
      reclaimAncestors kernel table page frames = (update table (digit 512 (depth + 1) page)
          (.node link (reclaimAncestors false child page frames).1),
          (reclaimAncestors false child page frames).2)) ∨
    (∃ link child, table (digit 512 (depth + 1) page) = .node link child ∧
      (reclaimAncestors false child page frames).1 = (fun _ => blank depth) ∧
      reclaimAncestors kernel table page frames = (update table (digit 512 (depth + 1) page) .absent,
          (reclaimAncestors false child page frames).2.pmmFree link.frame)) := by
  cases entry : table (digit 512 (depth + 1) page) with
  | absent =>
    simp only [reclaimAncestors, entry]
    exact .inl ⟨trivial, trivial⟩
  | node link child =>
    simp only [reclaimAncestors, entry]
    split
    · rename_i stays
      exact .inr (.inl ⟨link, child, rfl, stays, rfl⟩)
    · rename_i emptied
      simp only [Bool.or_eq_true, Bool.not_eq_true', not_or, Bool.not_eq_false] at emptied
      exact .inr (.inr ⟨link, child, rfl, tableIsEmpty_iff.mp emptied.2, rfl⟩)

theorem reclaimAncestors_elsewhere (table : Table depth) (frames : Frames σ) (other : index ≠ digit 512 depth page) :
    (reclaimAncestors kernel table page frames).1 index = table index := by
  cases depth with
  | zero => rfl
  | succ depth =>
    rcases reclaimAncestors_cases kernel table page frames with
      ⟨-, stuck⟩ | ⟨link, child, entry, -, step⟩ | ⟨link, child, entry, emptied, step⟩
    · rw [stuck]
    · rw [step]
      exact update_of_ne other _ _
    · rw [step]
      exact update_of_ne other _ _

theorem reclaimAncestors_user (page : Nat) (frames : Frames σ)
    (before : (table (digit 512 depth page)).All (·.user = true)) :
    ((reclaimAncestors kernel table page frames).1 (digit 512 depth page)).All (·.user = true) := by
  induction depth generalizing kernel frames with
  | zero => exact before
  | succ depth ih =>
    rcases reclaimAncestors_cases kernel table page frames with
      ⟨-, stuck⟩ | ⟨link, child, entry, -, step⟩ | ⟨link, child, entry, emptied, step⟩
    · rw [stuck]
      exact before
    · rw [step]
      rw [entry] at before
      obtain ⟨user, below⟩ := before
      dsimp only
      rw [update_self]
      refine ⟨user, fun index => ?_⟩
      by_cases here : index = digit 512 depth page
      · rw [here]
        exact ih false frames (below _)
      · rw [reclaimAncestors_elsewhere false child frames here]
        exact below index
    · rw [step]
      dsimp only
      rw [update_self]
      trivial

theorem reclaimAncestors_query (table : Table depth) (page other : Nat) (frames : Frames σ) :
    (reclaimAncestors kernel table page frames).1.query other = table.query other := by
  induction depth generalizing kernel frames with
  | zero => rfl
  | succ depth ih =>
    rcases reclaimAncestors_cases kernel table page frames with
      ⟨-, stuck⟩ | ⟨link, child, entry, -, step⟩ | ⟨link, child, entry, emptied, step⟩
    · rw [stuck]
    · rw [step, query_update]
      split
      · rename_i same
        rw [node_get, ih, query_of_node (same ▸ entry)]
      · rfl
    · rw [step, query_update]
      split
      · rename_i same
        have below := ih false child frames
        rw [emptied, blank_query] at below
        rw [query_of_node (same ▸ entry), ← below]
        rfl
      · rfl

theorem reclaimAncestors_owned (page : Nat) (owned : Owned (fun frame => extra frame + table.count frame) frames rest) :
    Owned (fun frame => extra frame + (reclaimAncestors kernel table page frames).1.count frame)
        (reclaimAncestors kernel table page frames).2 rest ∧
      frames.Uses rest (reclaimAncestors kernel table page frames).2 := by
  induction depth generalizing kernel frames extra with
  | zero => exact ⟨owned, .refl⟩
  | succ depth ih =>
    have below : ∀ {link : Link} {child : Table depth}, table (digit 512 (depth + 1) page) = .node link child →
        Owned (fun frame => extra frame + table.countExcept (digit 512 (depth + 1) page) frame +
            (if link.frame = frame then 1 else 0) +
            (reclaimAncestors false child page frames).1.count frame)
          (reclaimAncestors false child page frames).2 rest ∧
        frames.Uses rest (reclaimAncestors false child page frames).2 := by
      intro link child entry
      apply ih false
      convert owned using 2 with frame
      rw [count_split table (digit 512 (depth + 1) page), entry, node_weight]
      omega
    rcases reclaimAncestors_cases kernel table page frames with
      ⟨-, stuck⟩ | ⟨link, child, entry, -, step⟩ | ⟨link, child, entry, emptied, step⟩
    · rw [stuck]
      exact ⟨owned, .refl⟩
    · rw [step]
      obtain ⟨ownedBelow, uses⟩ := below entry
      refine ⟨?_, uses⟩
      convert ownedBelow using 2 with frame
      rw [count_update_split, node_weight]
      omega
    · rw [step]
      obtain ⟨ownedBelow, uses⟩ := below entry
      rw [emptied] at ownedBelow
      simp only [blank_count, Nat.add_zero] at ownedBelow
      obtain ⟨live, spare, ownedAfter⟩ := ownedBelow.free
      refine ⟨?_, uses.trans (.free .refl live spare)⟩
      convert ownedAfter using 2 with frame
      rw [count_update_split]
      simp only [Radix.weight]
      omega

end

/-! A top-level table: its upper half belongs to the kernel. -/

section

variable (table : Table depth)

def Table.userHalf : Table depth := fun index =>
  if index.val < 256 then table index else blank depth

/-- A page number below the kernel half. -/
def LowPage (depth page : Nat) : Prop := (digit 512 depth page).val < 256

/-- The number of user tables below a top-level table that live in a frame. -/
def Table.userCount (frame : PAddr) : Nat := table.userHalf.count frame

theorem userHalf_update (low : index.val < 256) (slot : Tree depth) :
    Table.userHalf (update table index slot) = update table.userHalf index slot := by
  funext other
  by_cases here : other = index
  · rw [here, update_self, Table.userHalf, if_pos low, update_self]
  · rw [update_of_ne here, Table.userHalf, Table.userHalf, update_of_ne here]

theorem userHalf_low (low : index.val < 256) : table.userHalf index = table index := if_pos low

end

theorem userCount_clear (cleared : ∀ index : Fin 512, index.val < 256 → table index = blank depth) (frame : PAddr) :
    table.userCount frame = 0 := by
  have half : table.userHalf = fun _ => blank depth := by
    funext index
    by_cases low : index.val < 256
    · rw [userHalf_low table low, cleared index low]
    · exact if_neg low
  rw [Table.userCount, half, blank_count]

theorem walkPageTable_userHalf (flags : Word) (table : Table depth) (frames : Frames σ) (low : LowPage depth page) :
    walkPageTable flags table.userHalf page frames = ((walkPageTable flags table page frames).1,
        (walkPageTable flags table page frames).2.1.userHalf,
        (walkPageTable flags table page frames).2.2) := by
  cases depth with
  | zero => rfl
  | succ depth =>
    have here := userHalf_low table low
    cases entry : table (digit 512 (depth + 1) page) with
    | node link next =>
      simp only [walkPageTable, here, entry]
      split
      · rfl
      · simp only [userHalf_update table low]
    | absent =>
      simp only [walkPageTable, here, entry]
      cases answer : frames.pmmAlloc with
      | none => rfl
      | some taken => simp only [userHalf_update table low]

theorem reclaimAncestors_userHalf (kernel : Bool) (table : Table depth) (frames : Frames σ) (low : LowPage depth page) :
    reclaimAncestors kernel table.userHalf page frames = ((reclaimAncestors kernel table page frames).1.userHalf,
        (reclaimAncestors kernel table page frames).2) := by
  cases depth with
  | zero => rfl
  | succ depth =>
    have here := userHalf_low table low
    cases entry : table (digit 512 (depth + 1) page) with
    | absent => simp only [reclaimAncestors, here, entry]
    | node link child =>
      simp only [reclaimAncestors, here, entry]
      split
      · simp only [userHalf_update table low]
      · simp only [userHalf_update table low]

/-- Pages of the upper half are the kernel's own. -/
def KernelHalf (table : Table depth) : Prop :=
  ∀ page, ¬ LowPage depth page → has (table.query page) pageUser = false ∧ has (table.query page) pageCow = false

/-- What the user part of an address space relies on and leaves behind: tables
of the lower half are user tables, pages of the upper half are not user pages. -/
structure UserRoot (table : Table depth) : Prop where
  user : ∀ index : Fin 512, index.val < 256 → (table index).All (·.user = true)
  kernel : KernelHalf table

theorem UserRoot.replace {changed : Table depth} (root : UserRoot table) (low : LowPage depth page)
    (elsewhere : ∀ index, index ≠ digit 512 depth page → changed index = table index)
    (user : (changed (digit 512 depth page)).All (·.user = true)) : UserRoot changed := by
  refine ⟨fun index bound => ?_, fun high upper => ?_⟩
  · by_cases here : index = digit 512 depth page
    · rw [here]
      exact user
    · rw [elsewhere index here]
      exact root.user index bound
  · have other : digit 512 depth high ≠ digit 512 depth page := by
      intro same
      exact upper (by rw [LowPage, same]; exact low)
    rw [Table.query, elsewhere _ other]
    exact root.kernel high upper

end NyonOS.Paging
