import NyonOS.Paging.Walk

namespace NyonOS.Paging

open Data Function List
open Radix (digit)

variable {σ : Type} [FrameAllocator σ] {depth : Nat}

/-- `*entry = word` for the last-level entry of a page. -/
def Table.write (table : Table depth) (page : Nat) (word : Word) : Table depth :=
  update table (digit 512 depth page) ((table (digit 512 depth page)).set page word)

/-- Two page numbers that select the same last-level entry. -/
abbrev SamePage (depth first second : Nat) : Prop := Radix.SameKey 512 (depth + 1) first second

theorem reaches_update (table : Table depth) (index : Fin 512) (slot : Tree depth) (page : Nat) :
    Table.Reaches (update table index slot) page ↔ if digit 512 depth page = index then (slot.get page).isSome = true
      else table.Reaches page := by
  by_cases same : digit 512 depth page = index
  · simp [Table.Reaches, same]
  · simp [Table.Reaches, same]

variable {page other : Nat}

theorem reaches_congr {table : Table depth} (same : SamePage depth page other) :
    table.Reaches page ↔ table.Reaches other := by
  obtain ⟨high, low⟩ := Radix.sameKey_succ.mp same
  rw [Table.Reaches, Table.Reaches, high, Radix.get_congr _ low]

section

variable (table : Table depth)

theorem query_congr (same : SamePage depth page other) : table.query page = table.query other := by
  obtain ⟨high, low⟩ := Radix.sameKey_succ.mp same
  rw [Table.query, Table.query, high, Radix.get_congr _ low]

theorem query_write (word : Word) (reached : table.Reaches page) (other : Nat) :
    (table.write page word).query other = if SamePage depth page other then word else table.query other := by
  rw [Table.write, query_update, Radix.get_set]
  simp only [SamePage, Radix.sameKey_succ]
  by_cases high : digit 512 depth page = digit 512 depth other
  · by_cases low : Radix.SameKey 512 depth page other
    · have found := (reaches_congr (Radix.sameKey_succ.mpr ⟨high, low⟩)).mp reached
      rw [Table.Reaches, ← high, Option.isSome_iff_exists] at found
      obtain ⟨old, found⟩ := found
      rw [if_pos high.symm, if_pos low, if_pos ⟨high, low⟩, found]
      rfl
    · simp [high, low, Table.query]
  · have reversed := Ne.symm high
    simp [high, reversed]

theorem reaches_write (page : Nat) (word : Word) (other : Nat) :
    (table.write page word).Reaches other ↔ table.Reaches other := by
  rw [Table.write, reaches_update, Radix.get_set]
  split
  · rename_i high
    rw [Table.Reaches, high]
    split <;> simp
  · exact Iff.rfl

theorem count_write (page : Nat) (word : Word) (frame : PAddr) :
    (table.write page word).count frame = table.count frame := by
  rw [Table.write, count_update_split, Radix.weight_set, ← count_split]

end

theorem walkPageTable_keeps_reach (flags : Word) {table : Table depth} (page : Nat)
    (frames : Frames σ) (reached : table.Reaches other) :
    (walkPageTable flags table page frames).2.1.Reaches other := by
  induction depth generalizing frames with
  | zero => exact reached
  | succ depth ih =>
    rcases walkPageTable_cases flags table page frames with
      stuck | ⟨link, next, entry, step⟩ | ⟨frame, taken, entry, answer, step⟩
    · rw [stuck]
      exact reached
    · rw [step, reaches_update]
      split
      · rename_i high
        rw [Table.Reaches, high, entry] at reached
        exact ih frames reached
      · exact reached
    · rw [step, reaches_update]
      split
      · rename_i high
        rw [Table.Reaches, high, entry] at reached
        simp [Radix.get] at reached
      · exact reached

section

variable (kernel : Bool)

def reclaimRange (table : Table depth) (page pages : Nat) (frames : Frames σ) : Table depth × Frames σ :=
  (List.range pages).foldl (fun now index => reclaimAncestors kernel now.1 (page + index) now.2) (table, frames)

/-- The first loop of `vmm_map_in`: every page of the range gets its last-level
table, and the range must be free. -/
def probeRange (flags : Word) (page pages : Nat) (table : Table depth)
    (frames : Frames σ) : Bool × Table depth × Frames σ :=
  forUntil (fun index now =>
    let walked := walkPageTable flags now.1 (page + index) now.2
    if walked.1 && !has (walked.2.1.query (page + index)) pagePresent then (true, walked.2)
    else (false, reclaimRange kernel walked.2.1 page (index + 1) walked.2.2))
    (List.range pages) (table, frames)

/-- The second loop of `vmm_map_in`. -/
def fillRange (flags : Word) (page : Nat) (paddr : PAddr) (pages : Nat) (table : Table depth)
    (frames : Frames σ) : Table depth × Frames σ :=
  (List.range pages).foldl (fun now index =>
    let walked := walkPageTable flags now.1 (page + index) now.2
    (walked.2.1.write (page + index)
      (paddr + BitVec.ofNat 64 (index * pageSize) ||| flags ||| pagePresent), walked.2.2))
    (table, frames)

def vmmMapIn (vaddr : Nat) (paddr : PAddr) (pages : Nat) (flags : Word)
    (table : Table depth) (frames : Frames σ) : Bool × Table depth × Frames σ :=
  if pages = 0 then (false, table, frames)
  else if vaddr % pageSize ≠ 0 ∨ paddr.toNat % pageSize ≠ 0 then (false, table, frames)
  else
    let probed := probeRange kernel flags (vaddr / pageSize) pages table frames
    if probed.1 then
      (true, fillRange flags (vaddr / pageSize) paddr pages probed.2.1 probed.2.2)
    else probed

/-- The first loop of `vmm_unmap_in` and `vmm_unmap_keep`, then their second:
all pages present, or nothing happens. -/
def vmmUnmapIn (vaddr pages : Nat) (table : Table depth) (frames : Frames σ) : Bool × Table depth × Frames σ :=
  if pages = 0 then (false, table, frames)
  else if vaddr % pageSize ≠ 0 then (false, table, frames)
  else if (List.range pages).all fun index =>
      has (table.query (vaddr / pageSize + index)) pagePresent then
    let cleared := (List.range pages).foldl
      (fun now index => Table.write now (vaddr / pageSize + index) 0#64) table
    (true, reclaimRange kernel cleared (vaddr / pageSize) pages frames)
  else (false, table, frames)

end

/-- The word the second loop of `vmm_map_in` writes for page `index` of the range. -/
def mappedWord (paddr : PAddr) (flags : Word) (index : Nat) : Word :=
  paddr + BitVec.ofNat 64 (index * pageSize) ||| flags ||| pagePresent

/-! The three loops and translations. -/

section Queries

variable {table : Table depth} {frames : Frames σ}

theorem reclaimRange_query (kernel : Bool) (table : Table depth) (page pages : Nat) (frames : Frames σ)
    (other : Nat) : (reclaimRange kernel table page pages frames).1.query other = table.query other := by
  unfold reclaimRange
  induction pages with
  | zero => rfl
  | succ pages ih =>
    rw [range_succ, foldl_append]
    exact (reclaimAncestors_query kernel _ _ other _).trans ih

theorem probeRange_query (kernel : Bool) (flags : Word) (page pages : Nat) (table : Table depth) (frames : Frames σ) :
    (∀ other, (probeRange kernel flags page pages table frames).2.1.query other = table.query other) ∧
      ((probeRange kernel flags page pages table frames).1 = true → ∀ index < pages,
        (probeRange kernel flags page pages table frames).2.1.Reaches (page + index) ∧
        has (table.query (page + index)) pagePresent = false) := by
  have loop := forUntil_range (fun index (now : Table depth × Frames σ) =>
      let walked := walkPageTable flags now.1 (page + index) now.2
      if walked.1 && !has (walked.2.1.query (page + index)) pagePresent then (true, walked.2)
      else (false, reclaimRange kernel walked.2.1 page (index + 1) walked.2.2))
    (table, frames) pages
    (fun count now => (∀ other, now.1.query other = table.query other) ∧ ∀ index < count, now.1.Reaches (page + index) ∧
        has (table.query (page + index)) pagePresent = false)
    (fun _ now => ∀ other, now.1.query other = table.query other)
    ⟨fun _ => rfl, by simp⟩ ?_ ?_
  · change ((probeRange kernel flags page pages table frames).1 = true ∧ _) ∨
      (probeRange kernel flags page pages table frames).1 = false ∧ _ at loop
    rcases loop with ⟨done, same, reached⟩ | ⟨stopped, _, _, same⟩
    · exact ⟨same, fun _ => reached⟩
    · exact ⟨same, fun done => by simp [stopped] at done⟩
  · rintro index bound now ⟨same, reached⟩ go
    dsimp only at go ⊢
    split at go
    · rename_i free
      rw [if_pos free]
      have query (other : Nat) := (walkPageTable_query flags now.1 (page + index) other now.2).trans (same other)
      simp only [Bool.and_eq_true, Bool.not_eq_true', query] at free
      refine ⟨query, fun earlier before => ?_⟩
      rcases Nat.lt_succ_iff_lt_or_eq.mp before with before | same
      · obtain ⟨reach, absent⟩ := reached earlier before
        exact ⟨walkPageTable_keeps_reach flags (page + index) now.2 reach, absent⟩
      · subst same
        exact ⟨walkPageTable_reaches free.1, free.2⟩
    · contradiction
  · rintro index bound now ⟨same, reached⟩ stop other
    dsimp only at stop ⊢
    split at stop
    · contradiction
    · rename_i taken
      rw [if_neg taken, reclaimRange_query, walkPageTable_query, same]

theorem fillRange_query (flags : Word) (page : Nat) (paddr : PAddr) (pages : Nat) (table : Table depth)
    (frames : Frames σ) (reached : ∀ index < pages, table.Reaches (page + index)) :
    (∀ other, table.Reaches other → (fillRange flags page paddr pages table frames).1.Reaches other) ∧
      ∀ other, (fillRange flags page paddr pages table frames).1.query other =
        match (List.range pages).reverse.find? fun index => SamePage depth (page + index) other with
        | some index => mappedWord paddr flags index
        | none => table.query other := by
  unfold fillRange
  induction pages with
  | zero => exact ⟨fun _ => id, fun _ => rfl⟩
  | succ pages ih =>
    obtain ⟨kept, queries⟩ := ih fun index bound => reached index (by omega)
    rw [range_succ, foldl_append, reverse_append]
    generalize (List.range pages).foldl (fun (now : Table depth × Frames σ) index =>
      let walked := walkPageTable flags now.1 (page + index) now.2
      (walked.2.1.write (page + index)
        (paddr + BitVec.ofNat 64 (index * pageSize) ||| flags ||| pagePresent), walked.2.2))
      (table, frames) = now at kept queries ⊢
    have there := walkPageTable_keeps_reach flags (page + pages) now.2 (kept _ (reached pages (by omega)))
    refine ⟨fun other reach => ?_, fun other => ?_⟩
    · exact (reaches_write _ _ _ _).mpr (walkPageTable_keeps_reach flags (page + pages) now.2 (kept other reach))
    · simp only [List.foldl_cons, foldl_nil, reverse_singleton, singleton_append, find?_cons]
      rw [query_write _ _ there, walkPageTable_query, queries other]
      by_cases same : SamePage depth (page + pages) other
      · simp [same, mappedWord]
      · simp [same]

theorem reaches_of_query {page : Nat} (present : has (table.query page) pagePresent = true) : table.Reaches page := by
  unfold Table.query at present
  unfold Table.Reaches
  cases entry : (table (digit 512 depth page)).get page with
  | some word => rfl
  | none => simp [entry] at present

theorem clearRange_query (table : Table depth) (page pages other : Nat)
    (reached : ∀ index < pages, table.Reaches (page + index)) :
    ((List.range pages).foldl (fun now index => Table.write now (page + index) 0#64) table).query other =
      match (List.range pages).reverse.find? fun index => SamePage depth (page + index) other with
      | some _ => 0#64
      | none => table.query other := by
  have loop : ∀ done ≤ pages,
      let now := (List.range done).foldl (fun now index => Table.write now (page + index) 0#64) table
      (∀ place, now.Reaches place ↔ table.Reaches place) ∧ now.query other =
        match (List.range done).reverse.find? fun index => SamePage depth (page + index) other with
        | some _ => 0#64
        | none => table.query other := by
    intro done bound
    induction done with
    | zero => exact ⟨fun _ => Iff.rfl, rfl⟩
    | succ done ih =>
      obtain ⟨same, query⟩ := ih (by omega)
      simp only [range_succ, foldl_append, reverse_append, List.foldl_cons, foldl_nil,
        reverse_singleton, singleton_append, find?_cons]
      refine ⟨fun place => (reaches_write _ _ _ _).trans (same place), ?_⟩
      rw [query_write _ _ ((same _).mpr (reached done (by omega))), query]
      by_cases here : SamePage depth (page + done) other
      · simp [here]
      · simp [here]
  exact (loop pages le_rfl).2

end Queries

theorem find_range {pages : Nat} (apart : ∀ index < pages, SamePage depth (page + index) other → page + index = other) :
    ((List.range pages).reverse.find? fun index => SamePage depth (page + index) other) =
      if page ≤ other ∧ other < page + pages then some (other - page) else none := by
  cases found : (List.range pages).reverse.find? fun index => SamePage depth (page + index) other with
  | some index =>
    have inside : index < pages := by simpa using mem_of_find?_eq_some found
    have selected := find?_some found
    have same := apart index inside (of_decide_eq_true selected)
    rw [if_pos (by omega), ← same, Nat.add_sub_cancel_left]
  | none =>
    refine (if_neg ?_).symm
    rintro ⟨lower, upper⟩
    have missed := find?_eq_none.mp found (other - page) (by simp; omega)
    simp [Nat.add_sub_cancel' lower, Radix.SameKey] at missed

theorem userCount_write (table : Table depth) (low : LowPage depth page) (word : Word)
    (frame : PAddr) : (table.write page word).userCount frame = table.userCount frame := by
  rw [Table.userCount, Table.userCount, Table.write, userHalf_update table low, ← userHalf_low table low]
  exact count_write table.userHalf page word frame

theorem UserRoot.write {table : Table depth} (root : UserRoot table)
    (low : LowPage depth page) (word : Word) : UserRoot (table.write page word) := by
  apply root.replace low
  · intro index other
    exact update_of_ne other _ _
  · rw [Table.write, update_self]
    exact Radix.all_set page word (root.user _ low)

/-! What the loops do to the tables themselves. -/

/-- Walks towards, reclaims from and writes to pages of a set. -/
inductive Edits (flags : Word) (pages : Nat → Prop) (start : Table depth × Frames σ) :
    Table depth × Frames σ → Prop
  | refl : Edits flags pages start start
  | walk {now : Table depth × Frames σ} {page : Nat} (earlier : Edits flags pages start now)
      (inside : pages page) : Edits flags pages start (walkPageTable flags now.1 page now.2).2
  | reclaim {now : Table depth × Frames σ} {page : Nat} (kernel : Bool)
      (earlier : Edits flags pages start now) (inside : pages page) :
      Edits flags pages start (reclaimAncestors kernel now.1 page now.2)
  | write {now : Table depth × Frames σ} {page : Nat} (word : Word)
      (earlier : Edits flags pages start now) (inside : pages page) :
      Edits flags pages start (now.1.write page word, now.2)

namespace Edits

variable {flags : Word} {pages : Nat → Prop} {start now : Table depth × Frames σ}
  {extra : PAddr → Nat} {rest : PAddr → Prop}

section

variable (edits : Edits flags pages start now)
include edits

section

variable (low : ∀ page, pages page → LowPage depth page)
include low

theorem owned (before : Owned (fun frame => extra frame + start.1.userCount frame) start.2 rest) :
    Owned (fun frame => extra frame + now.1.userCount frame) now.2 rest ∧ start.2.Uses rest now.2 := by
  induction edits with
  | refl => exact ⟨before, .refl⟩
  | @walk now page _ inside ih =>
    obtain ⟨ownedNow, usesNow⟩ := ih
    obtain ⟨owned, uses⟩ := walkPageTable_owned flags page ownedNow
    rw [walkPageTable_userHalf flags now.1 now.2 (low page inside)] at owned uses
    exact ⟨owned, usesNow.trans uses⟩
  | @reclaim now page kernel _ inside ih =>
    obtain ⟨ownedNow, usesNow⟩ := ih
    obtain ⟨owned, uses⟩ := reclaimAncestors_owned kernel page ownedNow
    rw [reclaimAncestors_userHalf kernel now.1 now.2 (low page inside)] at owned uses
    exact ⟨owned, usesNow.trans uses⟩
  | write word _ inside ih =>
    simpa only [userCount_write _ (low _ inside)] using ih

theorem root (user : has flags pageUser = true) (before : UserRoot start.1) : UserRoot now.1 := by
  induction edits with
  | refl => exact before
  | @walk now page _ inside ih =>
    exact ih.replace (low page inside) (fun _ other => walkPageTable_elsewhere flags now.1 now.2 other)
      (walkPageTable_user page now.2 user (ih.user _ (low page inside)))
  | @reclaim now page kernel _ inside ih =>
    exact ih.replace (low page inside) (fun _ other => reclaimAncestors_elsewhere kernel now.1 now.2 other)
      (reclaimAncestors_user kernel page now.2 (ih.user _ (low page inside)))
  | write word _ inside ih => exact ih.write (low _ inside) word

end

theorem reclaimRange (kernel : Bool) {page count : Nat} (inside : ∀ index < count, pages (page + index)) :
    Edits flags pages start (reclaimRange kernel now.1 page count now.2) := by
  unfold Paging.reclaimRange
  induction count with
  | zero => exact edits
  | succ count ih =>
    rw [range_succ, foldl_append]
    exact (ih fun index bound => inside index (by omega)).reclaim kernel (inside count (by omega))

theorem probeRange (kernel : Bool) {page count : Nat} (inside : ∀ index < count, pages (page + index)) :
    Edits flags pages start (probeRange kernel flags page count now.1 now.2).2 := by
  refine forUntil_keeps (Edits flags pages start) (fun index member next earlier => ?_) edits
  have bound := mem_range.mp member
  dsimp only
  split
  · exact earlier.walk (inside index bound)
  · exact (earlier.walk (inside index bound)).reclaimRange kernel fun before less => inside before (by omega)

theorem fillRange {page count : Nat} (paddr : PAddr) (inside : ∀ index < count, pages (page + index)) :
    Edits flags pages start (fillRange flags page paddr count now.1 now.2) := by
  unfold Paging.fillRange
  induction count with
  | zero => exact edits
  | succ count ih =>
    rw [range_succ, foldl_append]
    exact ((ih fun index bound => inside index (by omega)).walk (inside count (by omega))).write _
      (inside count (by omega))

theorem clearRange {page count : Nat} (inside : ∀ index < count, pages (page + index)) :
    Edits flags pages start ((List.range count).foldl
      (fun now index => Table.write now (page + index) 0#64) now.1, now.2) := by
  induction count with
  | zero => exact edits
  | succ count ih =>
    rw [range_succ, foldl_append]
    exact (ih fun index bound => inside index (by omega)).write _ (inside count (by omega))

end

end Edits

section Edited

variable {vaddr count : Nat} {pages : Nat → Prop} (kernel : Bool)
include kernel

theorem vmmMapIn_edits (flags : Word) (paddr : PAddr)
    (inside : ∀ index < count, pages (vaddr / pageSize + index)) (table : Table depth) (frames : Frames σ) :
    Edits flags pages (table, frames) (vmmMapIn kernel vaddr paddr count flags table frames).2 := by
  unfold vmmMapIn
  split
  · exact .refl
  split
  · exact .refl
  have probed := (Edits.refl : Edits flags pages (table, frames) _).probeRange kernel inside
  dsimp only
  split
  · exact probed.fillRange paddr inside
  · exact probed

theorem vmmUnmapIn_edits (flags : Word)
    (inside : ∀ index < count, pages (vaddr / pageSize + index)) (table : Table depth) (frames : Frames σ) :
    Edits flags pages (table, frames) (vmmUnmapIn kernel vaddr count table frames).2 := by
  unfold vmmUnmapIn
  split
  · exact .refl
  split
  · exact .refl
  split
  · exact ((Edits.refl : Edits flags pages (table, frames) _).clearRange inside).reclaimRange kernel inside
  · exact .refl

theorem vmmMapIn_query (flags : Word) (vaddr : Nat) (paddr : PAddr) (count : Nat)
    (table : Table depth) (frames : Frames σ) :
    let mapped := vmmMapIn kernel vaddr paddr count flags table frames
    (mapped.1 = false → ∀ page, mapped.2.1.query page = table.query page) ∧ (mapped.1 = true →
        (∀ index < count, has (table.query (vaddr / pageSize + index)) pagePresent = false) ∧
        ∀ page, mapped.2.1.query page = match (List.range count).reverse.find? fun index =>
            SamePage depth (vaddr / pageSize + index) page with
          | some index => mappedWord paddr flags index
          | none => table.query page) := by
  unfold vmmMapIn
  split
  · exact ⟨fun _ _ => rfl, by simp⟩
  split
  · exact ⟨fun _ _ => rfl, by simp⟩
  obtain ⟨same, probed⟩ := probeRange_query kernel flags (vaddr / pageSize) count table frames
  dsimp only
  split
  · rename_i free
    have reached := probed free
    obtain ⟨-, queries⟩ := fillRange_query flags (vaddr / pageSize) paddr count _
      (probeRange kernel flags (vaddr / pageSize) count table frames).2.2
      fun index bound => (reached index bound).1
    refine ⟨by simp, fun _ => ⟨fun index bound => (reached index bound).2, fun page => ?_⟩⟩
    rw [queries page]
    split
    · rfl
    · exact same page
  · rename_i refused
    exact ⟨fun _ => same, fun done => absurd done refused⟩

theorem vmmUnmapIn_query (vaddr count : Nat) (table : Table depth) (frames : Frames σ) :
    let unmapped := vmmUnmapIn kernel vaddr count table frames
    (unmapped.1 = false → unmapped.2 = (table, frames)) ∧ (unmapped.1 = true →
        (∀ index < count, has (table.query (vaddr / pageSize + index)) pagePresent = true) ∧
        ∀ page, unmapped.2.1.query page = match (List.range count).reverse.find? fun index =>
            SamePage depth (vaddr / pageSize + index) page with
          | some _ => 0#64
          | none => table.query page) := by
  unfold vmmUnmapIn
  split
  · exact ⟨fun _ => rfl, by simp⟩
  split
  · exact ⟨fun _ => rfl, by simp⟩
  split
  · rename_i present
    simp only [all_eq_true, mem_range] at present
    refine ⟨by simp, fun _ => ⟨present, fun page => ?_⟩⟩
    rw [reclaimRange_query, clearRange_query _ _ _ _ fun index bound => reaches_of_query (present index bound)]
  · exact ⟨fun _ => rfl, by simp⟩

end Edited

variable {extra : PAddr → Nat} {rest : PAddr → Prop} {table : Table depth} {frames : Frames σ}

/-- What `vmm_map_in` does to a user range. On failure every translation is as
before; on success exactly the pages of the range are new. -/
theorem vmmMapIn_spec (kernel : Bool) {flags : Word} {vaddr : Nat} (paddr : PAddr) {pages : Nat}
    (owned : Owned (fun frame => extra frame + table.userCount frame) frames rest)
    (root : UserRoot table) (user : has flags pageUser = true)
    (low : ∀ index < pages, LowPage depth (vaddr / pageSize + index)) :
    let mapped := vmmMapIn kernel vaddr paddr pages flags table frames
    Owned (fun frame => extra frame + mapped.2.1.userCount frame) mapped.2.2 rest ∧
      frames.Uses rest mapped.2.2 ∧ UserRoot mapped.2.1 ∧
      (mapped.1 = false → ∀ page, mapped.2.1.query page = table.query page) ∧
      (mapped.1 = true → (∀ index < pages, has (table.query (vaddr / pageSize + index)) pagePresent = false) ∧
        ∀ page, mapped.2.1.query page = match (List.range pages).reverse.find? fun index =>
            SamePage depth (vaddr / pageSize + index) page with
          | some index => mappedWord paddr flags index
          | none => table.query page) := by
  have edits := vmmMapIn_edits kernel flags paddr low table frames
  obtain ⟨ownedAfter, uses⟩ := edits.owned (fun _ => id) owned
  obtain ⟨failed, mapped⟩ := vmmMapIn_query kernel flags vaddr paddr pages table frames
  exact ⟨ownedAfter, uses, edits.root (fun _ => id) user root, failed, mapped⟩

theorem vmmMapIn_page {flags : Word} (phys : PAddr)
    (owned : Owned (fun frame => extra frame + table.userCount frame) frames rest)
    (root : UserRoot table) (user : has flags pageUser = true) (low : LowPage depth page) :
    let mapped := vmmMapIn false (page * pageSize) phys 1 flags table frames
    Owned (fun frame => extra frame + mapped.2.1.userCount frame) mapped.2.2 rest ∧
      frames.Uses rest mapped.2.2 ∧ UserRoot mapped.2.1 ∧
      (mapped.1 = false → ∀ other, mapped.2.1.query other = table.query other) ∧
      (mapped.1 = true → has (table.query page) pagePresent = false ∧ ∀ other, mapped.2.1.query other =
          if SamePage depth page other then phys ||| flags ||| pagePresent else table.query other) := by
  have number : page * pageSize / pageSize = page := Nat.mul_div_cancel page (by decide)
  have lowRange : ∀ index < 1, LowPage depth (page * pageSize / pageSize + index) := by
    intro index bound
    rw [number, Nat.lt_one_iff.mp bound]
    exact low
  obtain ⟨ownedAfter, uses, rootAfter, failed, mapped⟩ :=
    vmmMapIn_spec false phys owned root user lowRange
  refine ⟨ownedAfter, uses, rootAfter, failed, fun done => ?_⟩
  obtain ⟨free, queries⟩ := mapped done
  rw [number] at free
  refine ⟨free 0 Nat.one_pos, fun other => ?_⟩
  rw [queries other, number]
  by_cases same : SamePage depth page other
  · simp [same, mappedWord]
  · simp [same]

end NyonOS.Paging
