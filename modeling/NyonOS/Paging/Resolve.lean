import NyonOS.Paging.Family

namespace NyonOS.Paging

open Data Machine Function

/-! Write faults on copy-on-write pages. -/

variable {σ : Type} [FrameAllocator σ] {depth : Nat} {machine : Machine σ depth}
  {outside : PAddr → Prop} {root frame : PAddr} {page : Nat}

theorem holding_some {word : Word} {counted : Bool} (held : holding word = some ⟨frame, counted⟩) :
    has word pagePresent = true ∧ frameOf word = frame ∧ has word pageSharedRef = counted ∧
      (counted = false → has word pageOwned = true) := by
  unfold holding at held
  split at held
  · rename_i present
    split at held
    · rename_i shared
      simp only [Option.some.injEq, Holding.mk.injEq] at held
      exact ⟨present, held.1, by rw [shared, held.2], by simp [← held.2]⟩
    · rename_i unshared
      split at held
      · rename_i owned
        simp only [Option.some.injEq, Holding.mk.injEq] at held
        exact ⟨present, held.1, by simpa [← held.2] using unshared, fun _ => owned⟩
      · contradiction
  · contradiction

theorem counter_guards {frames : Frames σ} (live : frames.Live frame) :
    frame.toNat % pageSize = 0 ∧ frame.toNat / pageSize < frames.totalPages :=
  ⟨(FrameAllocator.live_aligned live).toNat_mod, FrameAllocator.live_inRange live⟩

theorem releaseShared_release {ledger : Ledger (PAddr × Nat) PAddr} (sound : ledger.Sound)
    {place : PAddr × Nat} {word : Word} (shared : has word pageSharedRef = true)
    (held : ledger.slot place = some ⟨frameOf word, true⟩) {frames : Frames σ}
    (live : frames.Live (frameOf word)) :
    releaseShared word frames ledger.count =
      ((ledger.release place).1.elim frames frames.pmmFree, (ledger.release place).2.count) := by
  obtain ⟨aligned, inRange⟩ := counter_guards live
  have member : place ∈ ledger.holders (frameOf word) := Ledger.mem_holders.mpr ⟨true, held⟩
  have positive : 0 < ledger.count (frameOf word) := by
    rw [sound.counted held]
    exact (Set.ncard_pos (sound.finite _)).mpr ⟨place, member⟩
  have one : ledger.count (frameOf word) - 1 = 0 ↔ ledger.count (frameOf word) = 1 := by omega
  simp only [releaseShared, shared, if_true, pmmUnshareRef, aligned, ne_eq, not_true, if_false,
    Nat.not_le.mpr inRange, Nat.ne_of_gt positive, Ledger.release, held, one]
  by_cases last : ledger.count (frameOf word) = 1
  · simp [last]
  · simp [last]

theorem vmmCowResolve_cases (root : PAddr) (vaddr : Nat) (machine : Machine σ depth) :
    vmmCowResolve root vaddr machine = (false, machine) ∨
    ∃ np frames, resolvable (machine.entry root (vaddr / pageSize)) = true ∧
      machine.frames.pmmAlloc = some (np, frames) ∧
      let word := machine.entry root (vaddr / pageSize)
      vmmCowResolve root vaddr machine = (true,
        { machine with
          frames := (releaseShared word frames machine.share).1
          bytes := update machine.bytes np (machine.bytes (frameOf word))
          share := (releaseShared word frames machine.share).2 }.writeEntry root (vaddr / pageSize)
            (resolvedFlags word ||| np)) := by
  simp only [vmmCowResolve]
  split
  · exact .inl rfl
  split
  · exact .inl rfl
  split
  · exact .inl rfl
  split
  · exact .inl rfl
  rename_i present cow pinned write
  cases answer : machine.frames.pmmAlloc with
  | none => exact .inl rfl
  | some taken =>
    refine .inr ⟨taken.1, taken.2, ?_, rfl, rfl⟩
    simp only [Bool.not_eq_true', Bool.not_eq_false, Bool.not_eq_true] at present cow pinned write
    simp [resolvable, present, cow, pinned, write]

/-- A page of an address space has a private copy of what it mapped before. -/
structure Resolved (machine : Machine σ depth) (root : PAddr) (page : Nat) (np : PAddr)
    (after : Machine σ depth) : Prop where
  user : UserPage depth page
  resolves : resolvable (machine.entry root page) = true
  fresh : ¬ machine.frames.Live np
  aligned : Aligned np
  entries : ∀ place {number}, UserPage depth number → after.entry place number =
    if place = root ∧ number = page then resolvedFlags (machine.entry root page) ||| np
    else machine.entry place number
  bytes : after.bytes = update machine.bytes np (machine.bytes (frameOf (machine.entry root page)))
  tableCount : after.tableCount = machine.tableCount
  kernelPml4 : after.kernelPml4 = machine.kernelPml4
  cpuHasNx : after.cpuHasNx = machine.cpuHasNx

theorem vmmCowResolve_spec (tables : machine.Tables) (root : PAddr) (vaddr : Nat) :
    vmmCowResolve root vaddr machine = (false, machine) ∨
    (vmmCowResolve root vaddr machine).1 = true ∧ ∃ np,
      Resolved machine root (pageOf depth (vaddr / pageSize)) np (vmmCowResolve root vaddr machine).2 := by
  rcases vmmCowResolve_cases root vaddr machine with idle | ⟨np, frames, resolves, answer, resolved⟩
  · exact .inl idle
  have same := samePage_pageOf depth (vaddr / pageSize)
  dsimp only at resolved
  rw [entry_samePage same] at resolves resolved
  rw [writeEntry_samePage same] at resolved
  have flags := resolves
  simp only [resolvable, Bool.and_eq_true, Bool.not_eq_true'] at flags
  obtain ⟨⟨⟨present, cow⟩, -⟩, -⟩ := flags
  have user : UserPage depth (pageOf depth (vaddr / pageSize)) := by
    rw [← entry_samePage same] at present cow
    exact userPage_pageOf (tables.lowPage_of_cow present cow)
  refine .inr ⟨by rw [resolved], np, user, resolves, Frames.pmmAlloc_fresh answer,
    FrameAllocator.live_aligned ((Frames.pmmAlloc_live answer).mpr (.inl rfl)), fun place number low => ?_,
    by rw [resolved]; rfl, by rw [resolved]; exact tableCount_writeEntry user.2 _,
    by rw [resolved]; rfl, by rw [resolved]; rfl⟩
  rw [resolved]
  refine (entry_writeEntry ?_ _ place number).trans ?_
  · exact (reaches_of_present present : machine.Reaches root _)
  · simp only [user.samePage low, @eq_comm _ _ number]
    rfl

theorem resolvedFlags_frame {word np : Word} (aligned : Aligned np) : frameOf (resolvedFlags word ||| np) = np := by
  have same : frameOf np = np := aligned
  simp [resolvedFlags, same, BitVec.not_or]

theorem holding_resolved {word np : Word} (present : has word pagePresent = true)
    (aligned : Aligned np) : holding (resolvedFlags word ||| np) = some ⟨np, false⟩ := by
  have isPresent : has (resolvedFlags word ||| np) pagePresent = true := by
    simp [resolvedFlags, present]
  have unshared : has (resolvedFlags word ||| np) pageSharedRef = false := by
    simp [resolvedFlags, aligned.has_false pageSharedRef]
  have owned : has (resolvedFlags word ||| np) pageOwned = true := by
    simp [resolvedFlags]
  rw [holding, if_pos isPresent, resolvedFlags_frame aligned]
  simp [unshared, owned]

theorem resolved_ok {word np : Word} (present : has word pagePresent = true) (aligned : Aligned np) :
    EntryOk (resolvedFlags word ||| np) := by
  refine ⟨fun absent => ?_, fun _ shared => ?_, fun _ _ _ => ?_⟩
  · simp [resolvedFlags, present] at absent
  · simp [resolvedFlags, aligned.has_false pageSharedRef] at shared
  · simp [resolvedFlags, aligned.has_false pageCow]

variable (family : machine.Family outside)
include family

theorem releaseShared_eq (user : UserPage depth page) (present : has (machine.entry root page) pagePresent = true)
    (counted : has (machine.entry root page) pageSharedRef = false → has (machine.entry root page) pageOwned = false) :
    releaseShared (machine.entry root page) machine.frames machine.share =
      ((machine.ledger.release (root, page)).1.elim machine.frames machine.frames.pmmFree,
        (machine.ledger.release (root, page)).2.count) := by
  have slot := slot_user machine root user
  cases shared : has (machine.entry root page) pageSharedRef with
  | true =>
    have held : machine.ledger.slot (root, page) = some ⟨frameOf (machine.entry root page), true⟩ := by
      rw [slot, holding, if_pos present, if_pos shared]
    have inUse : machine.Held (frameOf (machine.entry root page)) :=
      ⟨_, Ledger.mem_holders.mpr ⟨true, held⟩⟩
    exact releaseShared_release family.sound shared held ((family.loose _).mpr (.inl inUse)).1
  | false =>
    have empty : machine.ledger.slot (root, page) = none := by
      rw [slot, holding, if_pos present]
      simp [shared, counted shared]
    simp only [releaseShared, shared, Ledger.release, empty]
    rfl

theorem cow_counted (user : UserPage depth page) (present : has (machine.entry root page) pagePresent = true)
    (cow : has (machine.entry root page) pageCow = true)
    (unshared : has (machine.entry root page) pageSharedRef = false) :
    has (machine.entry root page) pageOwned = false := by
  by_contra owned
  have plain := (family.entries root user).sole present (by simpa using owned) unshared
  rw [cow] at plain
  contradiction

theorem vmmCowResolve_family (root : PAddr) (vaddr : Nat) :
    (vmmCowResolve root vaddr machine).2.Family outside ∧ machine.frames.Uses (vmmCowResolve root vaddr machine).2.Held
        (vmmCowResolve root vaddr machine).2.frames := by
  rcases vmmCowResolve_cases root vaddr machine with idle | ⟨np, frames, resolves, answer, resolved⟩
  · rw [idle]
    exact ⟨family, .refl⟩
  simp only [resolvable, Bool.and_eq_true, Bool.not_eq_true'] at resolves
  obtain ⟨⟨⟨present, cow⟩, -⟩, -⟩ := resolves
  dsimp only at resolved
  have user := userPage_pageOf (family.tables.lowPage_of_cow present cow)
  have same := samePage_pageOf depth (vaddr / pageSize)
  rw [entry_samePage same] at present cow resolved
  rw [writeEntry_samePage same] at resolved
  generalize pageOf depth (vaddr / pageSize) = page at user present cow resolved
  have fresh := Frames.pmmAlloc_fresh answer
  have spare : ¬ outside np := fun other => fresh ((family.loose np).mpr (.inr other)).1
  have aligned : Aligned np :=
    FrameAllocator.live_aligned ((Frames.pmmAlloc_live answer).mpr (.inl rfl))
  let taken : Machine σ depth := { machine with
    frames
    bytes := update machine.bytes np (machine.bytes (frameOf (machine.entry root page))) }
  have familyTaken : taken.Family fun frame => frame = np ∨ outside frame := family.alloc rfl rfl answer
  have reached : taken.Reaches root page :=
    reaches_of_present (show has (taken.entry root page) pagePresent = true from present)
  have released : releaseShared (machine.entry root page) frames machine.share = _ :=
    releaseShared_eq familyTaken user present (cow_counted familyTaken user present cow)
  obtain ⟨final, held⟩ := familyTaken.exchange spare user reached
    (holding_resolved present aligned) (resolved_ok present aligned)
    (show (vmmCowResolve root vaddr machine).2.spaces = _ by rw [resolved]; rfl)
    (by rw [resolved]; exact congrArg Prod.snd released)
    (by rw [resolved]; exact congrArg Prod.fst released)
  refine ⟨final, ?_⟩
  have first : machine.frames.Uses (vmmCowResolve root vaddr machine).2.Held frames := .alloc .refl answer
  have framesAfter : (vmmCowResolve root vaddr machine).2.frames =
      (taken.ledger.release (root, page)).1.elim frames frames.pmmFree := by
    rw [resolved]
    exact congrArg Prod.fst released
  rw [framesAfter]
  cases freed : (taken.ledger.release (root, page)).1 with
  | none => exact first
  | some old =>
    obtain ⟨member, last⟩ := familyTaken.sound.release_freed freed
    have heldBefore : taken.Held old := ⟨_, member⟩
    refine first.free ((familyTaken.loose old).mpr (.inl heldBefore)).1 fun still => ?_
    rcases held old still with same | others
    · exact familyTaken.heldOutside heldBefore (.inl same)
    · rw [last] at others
      exact Set.not_nonempty_empty others

end NyonOS.Paging
