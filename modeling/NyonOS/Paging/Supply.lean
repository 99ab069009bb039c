import NyonOS.Paging.Family

namespace NyonOS.Paging

open Data

/-! With enough free pages, mapping a page that is not mapped does not fail. -/

variable {σ : Type} [FrameAllocator σ] {depth : Nat}

namespace Frames

/-- The next allocations succeed. -/
def supplies (frames : Frames σ) : Nat → Bool
  | 0 => true
  | count + 1 =>
    match frames.pmmAlloc with
    | none => false
    | some (_, next) => next.supplies count

variable {frames next : Frames σ} {frame : PAddr} {count more : Nat}

theorem supplies_alloc (enough : frames.supplies (count + 1) = true) :
    ∃ frame next, frames.pmmAlloc = some (frame, next) ∧ next.supplies count = true := by
  rw [supplies] at enough
  cases answer : frames.pmmAlloc with
  | none => simp [answer] at enough
  | some pair => exact ⟨pair.1, pair.2, rfl, by simpa [answer] using enough⟩

theorem supplies_mono (enough : frames.supplies more = true) (fewer : count ≤ more) : frames.supplies count = true := by
  induction count generalizing frames more with
  | zero => rfl
  | succ count ih =>
    obtain ⟨more, rfl⟩ := Nat.exists_eq_add_of_le' (Nat.le_trans (Nat.succ_le_succ (Nat.zero_le count)) fewer)
    obtain ⟨frame, next, answer, rest⟩ := supplies_alloc enough
    simp only [supplies, answer]
    exact ih rest (Nat.le_of_succ_le_succ fewer)

end Frames

variable {table : Table depth} {page : Nat} {frames : Frames σ}

theorem walkPageTable_supply (flags : Word)
    (tables : (table (Radix.digit 512 depth page)).All (·.user = true)) {spare : Nat}
    (enough : frames.supplies (spare + depth) = true) :
    (walkPageTable flags table page frames).1 = true ∧
      (walkPageTable flags table page frames).2.2.supplies spare = true := by
  induction depth generalizing frames with
  | zero => exact ⟨rfl, enough⟩
  | succ depth ih =>
    cases entry : table (Radix.digit 512 (depth + 1) page) with
    | node link next =>
      rw [entry] at tables
      obtain ⟨user, below⟩ := tables
      have passes : (has flags pageUser && !link.user && !tableIsEmpty next) = false := by
        simp [show link.user = true from user]
      simp only [walkPageTable, entry, passes]
      exact ih (below _) (Frames.supplies_mono enough (by omega))
    | absent =>
      obtain ⟨frame, taken, answer, rest⟩ :=
        Frames.supplies_alloc (show frames.supplies (spare + depth + 1) = true from enough)
      simp only [walkPageTable, entry, answer]
      exact ih (all_blank _) rest

theorem walkPageTable_idle (flags : Word) (frames : Frames σ)
    (tables : (table (Radix.digit 512 depth page)).All (·.user = true)) (reached : table.Reaches page) :
    (walkPageTable flags table page frames).2.2 = frames := by
  induction depth with
  | zero => rfl
  | succ depth ih =>
    rw [Table.Reaches] at reached
    cases entry : table (Radix.digit 512 (depth + 1) page) with
    | node link next =>
      rw [entry] at tables reached
      obtain ⟨user, below⟩ := tables
      have passes : (has flags pageUser && !link.user && !tableIsEmpty next) = false := by
        simp [show link.user = true from user]
      simp only [walkPageTable, entry, passes]
      exact ih (below _) reached
    | absent =>
      rw [entry] at reached
      simp [Radix.get] at reached

theorem vmmMapIn_supply {flags : Word}
    {phys : PAddr} (aligned : Aligned phys) (root : UserRoot table) (user : has flags pageUser = true)
    (low : LowPage depth page) (free : has (table.query page) pagePresent = false) {spare : Nat}
    (enough : frames.supplies (spare + depth) = true) :
    (vmmMapIn false (page * pageSize) phys 1 flags table frames).1 = true ∧
      (vmmMapIn false (page * pageSize) phys 1 flags table frames).2.2.supplies spare = true := by
  obtain ⟨walked, rest⟩ := walkPageTable_supply flags (root.user _ low) enough
  have query := walkPageTable_query flags table page page frames
  have reached := walkPageTable_reaches walked
  have tables := walkPageTable_user page frames user (root.user _ low)
  have number : page * pageSize / pageSize = page := Nat.mul_div_cancel page (by decide)
  have whole : page * pageSize % pageSize = 0 := Nat.mul_mod_left page pageSize
  have idle := walkPageTable_idle flags (walkPageTable flags table page frames).2.2 tables reached
  have probed : probeRange false flags page 1 table frames = (true, (walkPageTable flags table page frames).2) := by
    simp [probeRange, forUntil_cons, forUntil_nil, List.range_one, walked, query, free]
  have mapped : vmmMapIn false (page * pageSize) phys 1 flags table frames =
      (true, fillRange flags page phys 1 (walkPageTable flags table page frames).2.1
        (walkPageTable flags table page frames).2.2) := by
    simp only [vmmMapIn, number, whole, aligned.toNat_mod, probed]
    simp
  rw [mapped]
  refine ⟨rfl, ?_⟩
  simp only [fillRange, List.range_one, List.foldl_cons, List.foldl_nil, Nat.add_zero]
  rw [idle]
  exact rest

end NyonOS.Paging
