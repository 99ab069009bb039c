import NyonOS.Paging.Bump
import NyonOS.Paging.Map

namespace NyonOS.Paging

open Data Function List Nat
open Radix (digit)

/-! Page tables as a finite map from page numbers to entries. -/

variable {σ : Type} [FrameAllocator σ] {depth : Nat}

/-- Where the processor finds a page, if it is mapped. -/
def Table.translation (table : Table depth) (page : Nat) : Option Word :=
  if has (table.query page) pagePresent then some (table.query page) else none

/-- The pages with a canonical address. -/
def Canonical (depth page : Nat) : Prop :=
  page < 256 * 512 ^ depth ∨ 2 ^ 52 - 256 * 512 ^ depth ≤ page ∧ page < 2 ^ 52

/-- A range of pages in one canonical half. -/
def InHalf (depth page pages : Nat) : Prop :=
  page + pages ≤ 256 * 512 ^ depth ∨ 2 ^ 52 - 256 * 512 ^ depth ≤ page ∧ page + pages ≤ 2 ^ 52

/-- A map from pages with one range of it replaced. -/
def setRange {α : Type} (map : Nat → α) (page pages : Nat) (inside : Nat → α) : Nat → α := fun other =>
  if page ≤ other ∧ other < page + pages then inside (other - page) else map other

theorem InHalf.canonical {page pages index : Nat} (half : InHalf depth page pages) (inside : index < pages) :
    Canonical depth (page + index) := by
  rcases half with low | ⟨from_, high⟩
  · exact .inl (by omega)
  · exact .inr ⟨by omega, by omega⟩

theorem Canonical.samePage {page other : Nat} (levels : depth = 3 ∨ depth = 4)
    (here : Canonical depth page) (there : Canonical depth other) :
    SamePage depth page other ↔ page = other := by
  constructor
  · intro same
    rcases levels with rfl | rfl <;> simp only [Canonical, Radix.SameKey] at here there same <;> omega
  · rintro rfl
    rfl

theorem find_canonical {page pages other : Nat} (levels : depth = 3 ∨ depth = 4)
    (half : InHalf depth page pages) (canonical : Canonical depth other) :
    ((List.range pages).reverse.find? fun index => SamePage depth (page + index) other) =
      if page ≤ other ∧ other < page + pages then some (other - page) else none :=
  find_range fun _ inside => (Canonical.samePage levels (half.canonical inside) canonical).mp

/-! Which tables exist. -/

def Table.Hollow (table : Table depth) : Prop := ∀ page, table.query page = 0#64

/-- No table below this one is empty. -/
def Table.NonEmpty : {depth : Nat} → Table depth → Prop
  | 0, _ => True
  | _ + 1, table => ∀ index,
      match table index with
      | .absent => True
      | .node _ child => tableIsEmpty child = false ∧ Table.NonEmpty child

/-- Tables that hold nothing are only on the way to pages of `pending`. -/
def Table.Tidy : {depth : Nat} → (pending : Nat → Prop) → Table depth → Prop
  | 0, _, _ => True
  | depth + 1, pending, table => ∀ index,
      match table index with
      | .absent => True
      | .node _ (child : Table depth) =>
        (child.Hollow → ∃ page, pending page ∧ digit 512 (depth + 1) page = index) ∧
          Table.Tidy (fun page => pending page ∧ digit 512 (depth + 1) page = index) child

/-- `after` has the tables of `before` in the same frames, and perhaps empty ones besides. -/
def Table.Grows : {depth : Nat} → (before after : Table depth) → Prop
  | 0, before, after => before = after
  | _ + 1, before, after => ∀ index,
      match before index, after index with
      | .absent, .absent => True
      | .absent, .node _ child => Table.Hollow child
      | .node _ _, .absent => False
      | .node link old, .node now new => now.frame = link.frame ∧ Table.Grows old new

section Shape

variable {pending : Nat → Prop} {table : Table depth} {index : Fin 512} {link : Link} {child : Table depth}

theorem query_below {table : Table (depth + 1)} (entry : table index = .node link child) (page : Nat) :
    ∃ other, digit 512 (depth + 1) other = index ∧ table.query other = child.query page := by
  have positive : 0 < 512 ^ (depth + 1) := Nat.pow_pos (by decide)
  have digit : digit 512 (depth + 1) (index.val * 512 ^ (depth + 1) + page % 512 ^ (depth + 1)) = index := by
    rw [digit, Fin.ext_iff, Fin.val_ofNat, Nat.add_comm, add_mul_div_right _ _ positive,
      div_eq_of_lt (mod_lt _ positive), Nat.zero_add, mod_eq_of_lt index.isLt]
  have same : SamePage depth page (index.val * 512 ^ (depth + 1) + page % 512 ^ (depth + 1)) := by
    simp [Radix.SameKey]
  refine ⟨_, digit, ?_⟩
  rw [query_of_node (digit ▸ entry), query_congr child same]

theorem Table.Hollow.below {table : Table (depth + 1)} (hollow : table.Hollow) (entry : table index = .node link child) :
    child.Hollow := by
  intro page
  obtain ⟨other, -, same⟩ := query_below entry page
  rw [← same, hollow other]

theorem exists_entry (full : tableIsEmpty table = false) : ∃ index, table index ≠ blank depth := by
  by_contra none
  push Not at none
  rw [tableIsEmpty_iff.mpr (funext none)] at full
  contradiction

theorem not_hollow_zero {table : Table 0} (full : tableIsEmpty table = false) : ¬ table.Hollow := by
  intro hollow
  obtain ⟨index, written⟩ := exists_entry full
  have digit : digit 512 0 index.val = index := by
    simp [digit]
  have word := hollow index.val
  rw [Table.query, digit] at word
  cases entry : table index with
  | leaf value =>
    rw [entry] at word written
    exact written (congrArg _ word)

theorem Table.Tidy.pending_of_hollow (tidy : table.Tidy pending) (full : tableIsEmpty table = false)
    (hollow : table.Hollow) : ∃ page, pending page := by
  cases depth with
  | zero => exact (not_hollow_zero full hollow).elim
  | succ depth =>
    obtain ⟨index, written⟩ := exists_entry full
    have here := tidy index
    cases entry : table index with
    | absent => exact (written entry).elim
    | node link child =>
      rw [entry] at here
      obtain ⟨page, isPending, -⟩ := here.1 (hollow.below entry)
      exact ⟨page, isPending⟩

theorem Table.Tidy.mono {more : Nat → Prop} (tidy : table.Tidy pending)
    (wider : ∀ page, pending page → more page) : table.Tidy more := by
  induction depth generalizing pending more with
  | zero => trivial
  | succ depth ih =>
    intro index
    have here := tidy index
    cases entry : table index with
    | absent => trivial
    | node link child =>
      rw [entry] at here
      obtain ⟨hollow, below⟩ := here
      refine ⟨fun empty => ?_, ih below fun page both => ⟨wider page both.1, both.2⟩⟩
      obtain ⟨page, isPending, digit⟩ := hollow empty
      exact ⟨page, wider page isPending, digit⟩

theorem tidy_blank (pending : Nat → Prop) : Table.Tidy pending (fun _ => blank depth : Table depth) := by
  cases depth with
  | zero => trivial
  | succ depth => exact fun _ => trivial

theorem not_hollow_of_nonEmpty (nonEmpty : table.NonEmpty) (full : tableIsEmpty table = false) : ¬ table.Hollow := by
  induction depth with
  | zero => exact not_hollow_zero full
  | succ depth ih =>
    intro hollow
    obtain ⟨index, written⟩ := exists_entry full
    have here := nonEmpty index
    cases entry : table index with
    | absent => exact written entry
    | node link child =>
      rw [entry] at here
      exact ih here.2 here.1 (hollow.below entry)

theorem Table.NonEmpty.tidy (nonEmpty : table.NonEmpty) (pending : Nat → Prop) : table.Tidy pending := by
  induction depth generalizing pending with
  | zero => trivial
  | succ depth ih =>
    intro index
    have here := nonEmpty index
    cases entry : table index with
    | absent => trivial
    | node link child =>
      rw [entry] at here
      exact ⟨fun hollow => (not_hollow_of_nonEmpty here.2 here.1 hollow).elim, ih here.2 _⟩

theorem Table.Tidy.walk (tidy : table.Tidy pending) (flags : Word) (page : Nat) (frames : Frames σ) :
    (walkPageTable flags table page frames).2.1.Tidy fun other => pending other ∨ other = page := by
  induction depth generalizing pending frames with
  | zero => trivial
  | succ depth ih =>
    have wide : table.Tidy fun other => pending other ∨ other = page := tidy.mono fun _ => .inl
    rcases walkPageTable_cases flags table page frames with
      stuck | ⟨link, next, entry, step⟩ | ⟨frame, taken, entry, answer, step⟩
    · rw [stuck]
      exact wide
    · rw [step]
      intro index
      by_cases here : index = digit 512 (depth + 1) page
      · have below := tidy index
        rw [here, entry] at below
        subst here
        simp only [update_self]
        refine ⟨fun _ => ⟨page, .inr rfl, rfl⟩, (ih below.2 frames).mono ?_⟩
        rintro other (⟨isPending, digit⟩ | rfl)
        · exact ⟨.inl isPending, digit⟩
        · exact ⟨.inr rfl, rfl⟩
      · simp only [update_of_ne here]
        exact wide index
    · rw [step]
      intro index
      by_cases here : index = digit 512 (depth + 1) page
      · subst here
        simp only [update_self]
        refine ⟨fun _ => ⟨page, .inr rfl, rfl⟩, (ih (tidy_blank fun _ => False) taken).mono ?_⟩
        rintro other (impossible | rfl)
        · exact impossible.elim
        · exact ⟨.inr rfl, rfl⟩
      · simp only [update_of_ne here]
        exact wide index

theorem Table.Tidy.entry_elsewhere {table : Table (depth + 1)} {page : Nat}
    (tidy : table.Tidy fun other => pending other ∨ other = page) (entry : table index = .node link child)
    (elsewhere : index ≠ digit 512 (depth + 1) page) :
    (child.Hollow → ∃ other, pending other ∧ digit 512 (depth + 1) other = index) ∧
      child.Tidy fun other => pending other ∧ digit 512 (depth + 1) other = index := by
  have drop : ∀ other, (pending other ∨ other = page) ∧ digit 512 (depth + 1) other = index →
      pending other ∧ digit 512 (depth + 1) other = index := by
    rintro other ⟨isPending | rfl, digit⟩
    · exact ⟨isPending, digit⟩
    · exact (elsewhere digit.symm).elim
  have here := tidy index
  rw [entry] at here
  obtain ⟨hollow, below⟩ := here
  refine ⟨fun empty => ?_, below.mono drop⟩
  obtain ⟨other, both⟩ := hollow empty
  exact ⟨other, drop other both⟩

theorem Table.Tidy.reclaim {page : Nat} (tidy : table.Tidy fun other => pending other ∨ other = page)
    (frames : Frames σ) : (reclaimAncestors false table page frames).1.Tidy pending := by
  induction depth generalizing pending frames with
  | zero => trivial
  | succ depth ih =>
    have elsewhere : ∀ index ≠ digit 512 (depth + 1) page, match table index with
        | .absent => True
        | .node _ (child : Table depth) =>
          (child.Hollow → ∃ other, pending other ∧ digit 512 (depth + 1) other = index) ∧
            child.Tidy fun other => pending other ∧ digit 512 (depth + 1) other = index := by
      intro index other
      cases entry : table index with
      | absent => trivial
      | node link child => exact tidy.entry_elsewhere entry other
    rcases reclaimAncestors_cases false table page frames with
      ⟨absent, stuck⟩ | ⟨link, child, entry, stays, step⟩ | ⟨link, child, entry, emptied, step⟩
    · rw [stuck]
      intro index
      by_cases here : index = digit 512 (depth + 1) page
      · subst here
        simp only [absent]
      · exact elsewhere index here
    · rw [step]
      intro index
      by_cases here : index = digit 512 (depth + 1) page
      · subst here
        have below := tidy (digit 512 (depth + 1) page)
        rw [entry] at below
        have cleaned : (reclaimAncestors false child page frames).1.Tidy fun other =>
            pending other ∧ digit 512 (depth + 1) other = digit 512 (depth + 1) page := by
          refine ih (below.2.mono ?_) frames
          rintro other ⟨isPending | rfl, digit⟩
          · exact .inl ⟨isPending, digit⟩
          · exact .inr rfl
        simp only [update_self]
        simp only [Bool.false_or, Bool.not_eq_true'] at stays
        exact ⟨cleaned.pending_of_hollow stays, cleaned⟩
      · simp only [update_of_ne here]
        exact elsewhere index here
    · rw [step]
      intro index
      by_cases here : index = digit 512 (depth + 1) page
      · subst here
        simp only [update_self]
      · simp only [update_of_ne here]
        exact elsewhere index here

theorem Table.Grows.refl (table : Table depth) : table.Grows table := by
  induction depth with
  | zero => rfl
  | succ depth ih =>
    intro index
    cases table index with
    | absent => trivial
    | node link child => exact ⟨rfl, ih child⟩

variable {before : Table depth}

theorem Table.Grows.blank (grows : before.Grows fun _ => blank depth) : before = fun _ => Paging.blank depth := by
  cases depth with
  | zero => exact grows
  | succ depth =>
    funext index
    have here := grows index
    cases entry : before index with
    | absent => rfl
    | node link child =>
      rw [entry] at here
      exact here.elim

theorem Table.Grows.walk {before : Table depth} (grows : before.Grows table) (flags : Word) (page : Nat)
    (frames : Frames σ) : before.Grows (walkPageTable flags table page frames).2.1 := by
  induction depth generalizing frames with
  | zero => exact grows
  | succ depth ih =>
    rcases walkPageTable_cases flags table page frames with
      stuck | ⟨link, next, entry, step⟩ | ⟨frame, taken, entry, answer, step⟩
    · rw [stuck]
      exact grows
    · rw [step]
      intro index
      have here := grows index
      by_cases same : index = digit 512 (depth + 1) page
      · subst same
        simp only [update_self]
        rw [entry] at here
        cases old : before (digit 512 (depth + 1) page) with
        | absent =>
          rw [old] at here
          exact fun other => (walkPageTable_query flags next page other frames).trans (here other)
        | node link child =>
          rw [old] at here
          exact ⟨here.1, ih here.2 frames⟩
      · simp only [update_of_ne same]
        exact here
    · rw [step]
      intro index
      have here := grows index
      by_cases same : index = digit 512 (depth + 1) page
      · subst same
        simp only [update_self]
        rw [entry] at here
        cases old : before (digit 512 (depth + 1) page) with
        | absent => exact fun other => (walkPageTable_query flags _ page other taken).trans (blank_query other)
        | node link child =>
          rw [old] at here
          exact here.elim
      · simp only [update_of_ne same]
        exact here

theorem Table.Grows.reclaim {before : Table depth} (grows : before.Grows table)
    (nonEmpty : before.NonEmpty) (page : Nat) (frames : Frames σ) :
    before.Grows (reclaimAncestors false table page frames).1 := by
  induction depth generalizing frames with
  | zero => exact grows
  | succ depth ih =>
    rcases reclaimAncestors_cases false table page frames with
      ⟨absent, stuck⟩ | ⟨link, child, entry, stays, step⟩ | ⟨link, child, entry, emptied, step⟩
    · rw [stuck]
      exact grows
    · rw [step]
      intro index
      have here := grows index
      by_cases same : index = digit 512 (depth + 1) page
      · subst same
        simp only [update_self]
        rw [entry] at here
        cases old : before (digit 512 (depth + 1) page) with
        | absent =>
          rw [old] at here
          exact fun other => (reclaimAncestors_query false child page other frames).trans (here other)
        | node link former =>
          have filled := nonEmpty (digit 512 (depth + 1) page)
          rw [old] at here filled
          exact ⟨here.1, ih here.2 filled.2 frames⟩
      · simp only [update_of_ne same]
        exact here
    · rw [step]
      intro index
      have here := grows index
      by_cases same : index = digit 512 (depth + 1) page
      · subst same
        simp only [update_self]
        rw [entry] at here
        cases old : before (digit 512 (depth + 1) page) with
        | absent => trivial
        | node link former =>
          -- The child was there before and had an entry, so it cannot have become empty.
          have filled := nonEmpty (digit 512 (depth + 1) page)
          rw [old] at here filled
          have kept := ih here.2 filled.2 frames
          rw [emptied] at kept
          exact Bool.noConfusion (filled.1.symm.trans (tableIsEmpty_iff.mpr kept.blank))
      · simp only [update_of_ne same]
        exact here

theorem Table.Grows.count (grows : before.Grows table)
    (tidy : table.Tidy fun _ => False) (frame : PAddr) : table.count frame = before.count frame := by
  induction depth with
  | zero => rw [show before = table from grows]
  | succ depth ih =>
    unfold Table.count
    refine Finset.sum_congr rfl fun index _ => ?_
    have here := grows index
    have clean := tidy index
    cases new : table index with
    | absent =>
      cases old : before index with
      | absent => rfl
      | node link child =>
        rw [new, old] at here
        exact here.elim
    | node now next =>
      rw [new] at clean
      cases old : before index with
      | absent =>
        rw [new, old] at here
        obtain ⟨page, impossible, -⟩ := clean.1 here
        exact impossible.elim
      | node link child =>
        rw [new, old] at here
        rw [node_weight, node_weight, here.1, ih here.2 (clean.2.mono fun _ both => both.1)]

theorem Table.Tidy.reclaimRange {page pages : Nat}
    (tidy : table.Tidy fun other => ∃ index < pages, other = page + index) (frames : Frames σ) :
    (reclaimRange false table page pages frames).1.Tidy fun _ => False := by
  have loop : ∀ done ≤ pages, (Paging.reclaimRange false table page done frames).1.Tidy fun other =>
      ∃ index < pages, done ≤ index ∧ other = page + index := by
    intro done bound
    induction done with
    | zero =>
      refine tidy.mono ?_
      rintro other ⟨index, inside, rfl⟩
      exact ⟨index, inside, Nat.zero_le index, rfl⟩
    | succ done ih =>
      rw [Paging.reclaimRange, range_succ, foldl_append]
      refine Table.Tidy.reclaim ((ih (by omega)).mono ?_) _
      rintro other ⟨index, inside, from_, rfl⟩
      by_cases last : index = done
      · exact .inr (by rw [last])
      · exact .inl ⟨index, inside, by omega, rfl⟩
  refine (loop pages le_rfl).mono ?_
  rintro other ⟨index, inside, from_, -⟩
  omega

theorem Table.Grows.reclaimRange (grows : before.Grows table)
    (nonEmpty : before.NonEmpty) (page pages : Nat) (frames : Frames σ) :
    before.Grows (reclaimRange false table page pages frames).1 := by
  unfold Paging.reclaimRange
  induction pages with
  | zero => exact grows
  | succ pages ih =>
    rw [range_succ, foldl_append]
    exact ih.reclaim nonEmpty _ _

theorem probeRange_count {flags : Word} {page pages : Nat} {frames : Frames σ} (nonEmpty : table.NonEmpty)
    (failed : (probeRange false flags page pages table frames).1 = false) (frame : PAddr) :
    (probeRange false flags page pages table frames).2.1.count frame = table.count frame := by
  have loop := forUntil_range (fun index (now : Table depth × Frames σ) =>
      let walked := walkPageTable flags now.1 (page + index) now.2
      if walked.1 && !has (walked.2.1.query (page + index)) pagePresent then (true, walked.2)
      else (false, reclaimRange false walked.2.1 page (index + 1) walked.2.2))
    (table, frames) pages
    (fun count now => table.Grows now.1 ∧ now.1.Tidy fun other => ∃ index < count, other = page + index)
    (fun _ now => table.Grows now.1 ∧ now.1.Tidy fun _ => False)
    ⟨.refl table, nonEmpty.tidy _⟩ ?_ ?_
  · change ((probeRange false flags page pages table frames).1 = true ∧ _) ∨
      (probeRange false flags page pages table frames).1 = false ∧ _ at loop
    rcases loop with ⟨done, -⟩ | ⟨-, _, _, grows, tidy⟩
    · rw [failed] at done
      contradiction
    · exact grows.count tidy frame
  · rintro index bound now ⟨grows, tidy⟩ go
    dsimp only at go ⊢
    split at go
    · rename_i free
      rw [if_pos free]
      refine ⟨grows.walk flags _ now.2, (tidy.walk flags (page + index) now.2).mono ?_⟩
      rintro other (⟨earlier, before, rfl⟩ | rfl)
      · exact ⟨earlier, by omega, rfl⟩
      · exact ⟨index, by omega, rfl⟩
    · contradiction
  · rintro index bound now ⟨grows, tidy⟩ stop
    dsimp only at stop ⊢
    split at stop
    · contradiction
    · rename_i taken
      rw [if_neg taken]
      refine ⟨(grows.walk flags _ now.2).reclaimRange nonEmpty _ _ _, Table.Tidy.reclaimRange ?_ _⟩
      refine (tidy.walk flags (page + index) now.2).mono ?_
      rintro other (⟨earlier, before, rfl⟩ | rfl)
      · exact ⟨earlier, by omega, rfl⟩
      · exact ⟨index, by omega, rfl⟩

end Shape

/-! The two operations on the map. -/

section Operations

variable {table : Table depth} {frames : Frames σ} {kernel : Bool} {vaddr pages : Nat} {paddr : PAddr}
  {flags : Word}

theorem vmmMapIn_translation (levels : depth = 3 ∨ depth = 4) (half : InHalf depth (vaddr / pageSize) pages)
    (done : (vmmMapIn kernel vaddr paddr pages flags table frames).1 = true) {page : Nat}
    (canonical : Canonical depth page) :
    (vmmMapIn kernel vaddr paddr pages flags table frames).2.1.translation page =
      setRange table.translation (vaddr / pageSize) pages (fun index => some (mappedWord paddr flags index)) page := by
  obtain ⟨-, queries⟩ := (vmmMapIn_query kernel flags vaddr paddr pages table frames).2 done
  rw [Table.translation, queries, find_canonical levels half canonical, setRange]
  by_cases inside : vaddr / pageSize ≤ page ∧ page < vaddr / pageSize + pages
  · simp [inside, mappedWord]
  · simp only [if_neg inside, Table.translation]

theorem vmmUnmapIn_translation (levels : depth = 3 ∨ depth = 4) (half : InHalf depth (vaddr / pageSize) pages)
    (done : (vmmUnmapIn kernel vaddr pages table frames).1 = true) {page : Nat}
    (canonical : Canonical depth page) :
    (vmmUnmapIn kernel vaddr pages table frames).2.1.translation page =
      setRange table.translation (vaddr / pageSize) pages (fun _ => none) page := by
  obtain ⟨-, queries⟩ := (vmmUnmapIn_query kernel vaddr pages table frames).2 done
  rw [Table.translation, queries, find_canonical levels half canonical, setRange]
  by_cases inside : vaddr / pageSize ≤ page ∧ page < vaddr / pageSize + pages
  · simp [inside]
  · simp only [if_neg inside, Table.translation]

theorem vmmMapIn_count (nonEmpty : table.NonEmpty)
    (refused : (vmmMapIn false vaddr paddr pages flags table frames).1 = false) (frame : PAddr) :
    (vmmMapIn false vaddr paddr pages flags table frames).2.1.count frame = table.count frame := by
  unfold vmmMapIn at refused ⊢
  split
  · rfl
  split
  · rfl
  rename_i some_ aligned
  rw [if_neg some_, if_neg aligned] at refused
  dsimp only at refused ⊢
  cases free : (probeRange false flags (vaddr / pageSize) pages table frames).1 with
  | true => simp [free] at refused
  | false =>
    rw [if_neg Bool.false_ne_true]
    exact probeRange_count nonEmpty free frame

end Operations

/-- Mapping and unmapping are updates of a finite map from canonical pages to entries,
and a refused call is no update. The tables hold no large pages: one off the walked
paths stands as the table of the small pages it covers. -/
theorem tables_refine_map (levels : depth = 3 ∨ depth = 4) (kernel : Bool) (vaddr : Nat) (paddr : PAddr)
    (pages : Nat) (flags : Word) (half : InHalf depth (vaddr / pageSize) pages) (table : Table depth)
    (frames : Frames σ) :
    let mapped := vmmMapIn kernel vaddr paddr pages flags table frames
    let unmapped := vmmUnmapIn kernel vaddr pages table frames
    (mapped.1 = true → ∀ page, Canonical depth page → mapped.2.1.translation page =
      setRange table.translation (vaddr / pageSize) pages (fun index => some (mappedWord paddr flags index)) page) ∧
    (unmapped.1 = true → ∀ page, Canonical depth page → unmapped.2.1.translation page =
      setRange table.translation (vaddr / pageSize) pages (fun _ => none) page) ∧
    (mapped.1 = false → ∀ page, mapped.2.1.translation page = table.translation page) ∧
    (unmapped.1 = false → ∀ page, unmapped.2.1.translation page = table.translation page) ∧
    (kernel = false → table.NonEmpty → ∀ frame, (mapped.1 = false → mapped.2.1.count frame = table.count frame) ∧
        (unmapped.1 = false → unmapped.2.1.count frame = table.count frame)) := by
  have refusedMap := (vmmMapIn_query kernel flags vaddr paddr pages table frames).1
  have refusedUnmap := (vmmUnmapIn_query kernel vaddr pages table frames).1
  refine ⟨fun done _ => vmmMapIn_translation levels half done,
    fun done _ => vmmUnmapIn_translation levels half done, fun refused page => ?_, fun refused page => ?_, ?_⟩
  · rw [Table.translation, refusedMap refused, Table.translation]
  · rw [refusedUnmap refused]
  · rintro rfl nonEmpty frame
    refine ⟨fun refused => vmmMapIn_count nonEmpty refused frame, fun refused => ?_⟩
    rw [refusedUnmap refused]

/-- Two user pages on both sides of a last-level table's border are mapped in an empty
table, and then only they are. -/
theorem tables_refine_map_border :
    let table : Table 3 := fun _ => .absent
    let frames : Frames Bump := ⟨⟨1, []⟩, [], []⟩
    let mapped := vmmMapIn false 0x5FF000 0x800000#64 2 (pageUser ||| pageWrite) table frames
    InHalf 3 (0x5FF000 / pageSize) 2 ∧ mapped.1 = true ∧ mapped.2.1.translation 0x600 = some 0x801007#64 ∧
      mapped.2.1.translation 0x601 = none := by
  have half : InHalf 3 (0x5FF000 / pageSize) 2 := .inl (by decide)
  have done : (vmmMapIn false 0x5FF000 0x800000#64 2 (pageUser ||| pageWrite) (fun _ => .absent : Table 3)
      (⟨⟨1, []⟩, [], []⟩ : Frames Bump)).1 = true := by decide +kernel
  have refined := (tables_refine_map (.inl rfl) false 0x5FF000 0x800000#64 2 (pageUser ||| pageWrite) half
    (fun _ => .absent) (⟨⟨1, []⟩, [], []⟩ : Frames Bump)).1 done
  refine ⟨half, done, ?_, ?_⟩
  · rw [refined 0x600 (.inl (by decide))]
    decide
  · rw [refined 0x601 (.inl (by decide))]
    decide

end NyonOS.Paging
