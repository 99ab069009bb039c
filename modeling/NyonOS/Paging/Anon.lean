import NyonOS.Paging.Family

namespace NyonOS.Paging

open Data Machine Function

/-! Anonymous user mappings: every page gets a frame of its own. -/

variable {σ : Type} [FrameAllocator σ] {depth : Nat}

def vmmUserExecFlags : Word := pagePresent ||| pageWrite

def vmFlagsFor (prot : Prot) : Word :=
  if !prot.has vmProtWrite then vmmUserExecFlags &&& ~~~pageWrite else vmmUserExecFlags

def vmCommit (root : PAddr) (vaddr : Nat) (phys : PAddr) (pages : Nat) (prot : Prot) (owned : Bool)
    (machine : Machine σ depth) : Bool × Machine σ depth :=
  if pages = 0 then (false, machine)
  else if vaddr % pageSize ≠ 0 ∨ phys.toNat % pageSize ≠ 0 then (false, machine)
  else vmmMapFrames root vaddr phys pages (vmFlagsFor prot) (prot.has vmProtExec) owned machine

/-- One iteration of `vm_map_anon_zeroed`. -/
def mapAnonPage (root : PAddr) (vaddr : Nat) (prot : Prot) (zero : Bool) (machine : Machine σ depth) :
    Bool × Machine σ depth :=
  match machine.frames.pmmAlloc with
  | none => (false, machine)
  | some (phys, frames) =>
    let bytes := if zero then update machine.bytes phys (fun _ => 0) else machine.bytes
    let mapped := vmCommit root vaddr phys 1 prot true { machine with frames, bytes }
    if !mapped.1 then (false, { mapped.2 with frames := mapped.2.frames.pmmFree phys }) else mapped

/-- Pages mapped before a failure stay mapped. -/
def vmMapAnonZeroed (root : PAddr) (vaddr pages : Nat) (prot : Prot) (zero : Bool)
    (machine : Machine σ depth) : Bool × Machine σ depth :=
  if pages = 0 then (false, machine)
  else forUntil (fun index => mapAnonPage root (vaddr + index * pageSize) prot zero) (List.range pages) machine

/-! Mapping one page. -/

variable {machine after : Machine σ depth} {root : PAddr} {page : Nat}

/-- The entry of one page is set and page tables changed hands. -/
structure PageSet (machine : Machine σ depth) (root : PAddr) (page : Nat) (word : Word)
    (after : Machine σ depth) : Prop where
  tables : after.Tables
  loose : ∀ frame, after.Loose frame ↔ machine.Loose frame
  uses : machine.frames.Uses (machine.besides root) after.frames
  entries : ∀ place number, after.entry place number =
    if place = root ∧ SamePage depth page number then word else machine.entry place number
  alive : after.alive = machine.alive
  share : after.share = machine.share
  bytes : after.bytes = machine.bytes
  kernelPml4 : after.kernelPml4 = machine.kernelPml4
  cpuHasNx : after.cpuHasNx = machine.cpuHasNx

theorem pageSet_of_table {link : Link} {table changed : Table depth} {frames : Frames σ} {word : Word}
    (tables : machine.Tables) (space : machine.spaces root = .node link table) (shape : UserRoot changed)
    (owned : Owned (fun frame => (if link.frame = frame then 1 else 0) + changed.userCount frame)
      frames (machine.besides root))
    (uses : machine.frames.Uses (machine.besides root) frames)
    (queries : ∀ number, changed.query number = if SamePage depth page number then word else table.query number)
    (afterIs : after = { machine with
      spaces := update machine.spaces root (.node link changed), frames }) :
    PageSet machine root page word after := by
  have spaces : after.spaces = update machine.spaces root (.node link changed) := by rw [afterIs]
  have framesAre : after.frames = frames := by rw [afterIs]
  rw [← framesAre] at owned
  obtain ⟨tablesAfter, loose⟩ := tables.replace space spaces shape owned
  subst afterIs
  refine ⟨tablesAfter, loose, uses, fun place number => ?_, funext fun place => ?_, rfl, rfl, rfl, rfl⟩
  · by_cases same : place = root
    · subst same
      rw [entry_node (update_self place _ _), queries, entry_node space]
      simp
    · simp [entry, same]
  · by_cases same : place = root
    · simp [Machine.alive, same, space]
    · simp [Machine.alive, same]

theorem mapPage_spec (tables : machine.Tables) (alive : machine.alive root = true)
    (low : LowPage depth page) (phys : PAddr) {flags : Word} (user : has flags pageUser = true) :
    let mapped := machine.onTable root (vmmMapIn false (page * pageSize) phys 1 flags)
    (mapped.1 = false → PageSet machine root page (machine.entry root page) mapped.2) ∧
      (mapped.1 = true → has (machine.entry root page) pagePresent = false ∧
        PageSet machine root page (phys ||| flags ||| pagePresent) mapped.2) := by
  obtain ⟨link, table, space⟩ := alive_node alive
  obtain ⟨owned, uses, shape, failed, mapped⟩ :=
    vmmMapIn_page phys (tables.owned space) (tables.shape space) user low
  simp only [onTable, space]
  refine ⟨fun refused => pageSet_of_table tables space shape owned uses (fun number => ?_) rfl, fun done => ?_⟩
  · rw [failed refused, entry_node space]
    split
    · rename_i same
      exact (query_congr table same).symm
    · rfl
  · obtain ⟨free, queries⟩ := mapped done
    rw [entry_node space]
    exact ⟨free, pageSet_of_table tables space shape owned uses queries rfl⟩

/-! A fresh frame for one page. -/

def anonWord (cpuHasNx : Bool) (prot : Prot) (phys : PAddr) : Word :=
  phys ||| mapFramesFlags cpuHasNx (vmFlagsFor prot) (prot.has vmProtExec) true ||| pagePresent

section Word

variable {phys : PAddr} (aligned : Aligned phys) (cpuHasNx : Bool) (prot : Prot)

include aligned

theorem anonWord_frame : frameOf (anonWord cpuHasNx prot phys) = phys := by
  have plain : frameOf (vmFlagsFor prot) = 0#64 := by
    simp only [vmFlagsFor, vmmUserExecFlags]
    split <;> simp
  have same : frameOf phys = phys := aligned
  simp [anonWord, frameOf_mapFramesFlags _ _ _ _ plain, same]

theorem has_anonWord (flag : Word) [FlagBit flag] : has (anonWord cpuHasNx prot phys) flag =
    (has (mapFramesFlags cpuHasNx (vmFlagsFor prot) (prot.has vmProtExec) true) flag || has pagePresent flag) := by
  simp only [anonWord, has_or, aligned.has_false flag, Bool.false_or]

theorem anonWord_flags :
    has (anonWord cpuHasNx prot phys) pagePresent = true ∧ has (anonWord cpuHasNx prot phys) pageUser = true ∧
      has (anonWord cpuHasNx prot phys) pageOwned = true ∧ has (anonWord cpuHasNx prot phys) pageCow = false ∧
      has (anonWord cpuHasNx prot phys) pageSharedRef = false ∧
      has (anonWord cpuHasNx prot phys) pagePinned = false ∧
      has (anonWord cpuHasNx prot phys) pageWrite = prot.has vmProtWrite := by
  simp only [has_anonWord aligned, has_mapFramesFlags, vmFlagsFor, vmmUserExecFlags]
  cases prot.has vmProtWrite <;> cases prot.has vmProtExec <;> cases cpuHasNx <;> simp

theorem anonWord_nx : has (anonWord cpuHasNx prot phys) pageNx = (cpuHasNx && !prot.has vmProtExec) := by
  simp only [has_anonWord aligned, has_mapFramesFlags, vmFlagsFor, vmmUserExecFlags]
  cases prot.has vmProtWrite <;> cases prot.has vmProtExec <;> cases cpuHasNx <;> simp

end Word

/-- A page was given a frame of its own, or the frame was given back and only page
tables may have changed hands. -/
structure AnonPage (machine : Machine σ depth) (root : PAddr) (page : Nat) (word : Word) (np : PAddr)
    (after : Machine σ depth) : Prop where
  fresh : ¬ machine.frames.Live np
  aligned : Aligned np
  uses : machine.frames.Uses machine.Loose after.frames
  entries : ∀ place number, after.entry place number =
    if place = root ∧ SamePage depth page number then word else machine.entry place number
  alive : after.alive = machine.alive
  share : after.share = machine.share
  bytes : ∀ frame, frame ≠ np → after.bytes frame = machine.bytes frame
  kernelPml4 : after.kernelPml4 = machine.kernelPml4
  cpuHasNx : after.cpuHasNx = machine.cpuHasNx
  tables : after.Tables
  family : ∀ outside, machine.Family outside → after.Family outside

section AnonSteps

variable {taken : Machine σ depth} {np : PAddr} {word : Word}

/-- The machine right after `pmm_alloc`. -/
structure Taken (machine : Machine σ depth) (np : PAddr) (taken : Machine σ depth) : Prop where
  answer : machine.frames.pmmAlloc = some (np, taken.frames)
  spaces : taken.spaces = machine.spaces
  share : taken.share = machine.share
  bytes : ∀ frame, frame ≠ np → taken.bytes frame = machine.bytes frame
  kernelPml4 : taken.kernelPml4 = machine.kernelPml4
  cpuHasNx : taken.cpuHasNx = machine.cpuHasNx

namespace Taken

section

variable (took : Taken machine np taken)
include took

theorem aligned : Aligned np :=
  FrameAllocator.live_aligned ((Frames.pmmAlloc_live took.answer).mpr (.inl rfl))

theorem spare {outside : PAddr → Prop} (family : machine.Family outside) : ¬ outside np :=
  fun other => Frames.pmmAlloc_fresh took.answer ((family.loose np).mpr (.inr other)).1

theorem uses (set : PageSet taken root page word after)
    (tables : machine.Tables) : machine.frames.Uses machine.Loose after.frames := by
  obtain ⟨-, loose⟩ := tables.alloc took.spaces took.answer
  refine Frames.Uses.trans (.alloc .refl took.answer) (set.uses.mono fun frame wasLoose => ?_)
  obtain ⟨live, noTable⟩ := (loose frame).mpr (.inr wasLoose)
  exact ⟨live, Nat.eq_zero_of_not_pos fun used => noTable ⟨root, used⟩⟩

theorem alive : taken.alive = machine.alive := by
  funext place
  rw [Machine.alive, Machine.alive, took.spaces]

variable (tables : machine.Tables)
include tables

theorem mapped (user : UserPage depth page) (free : has (machine.entry root page) pagePresent = false) {prot : Prot}
    (set : PageSet taken root page (anonWord machine.cpuHasNx prot np) after) :
    AnonPage machine root page (anonWord machine.cpuHasNx prot np) np after := by
  have sameEntries := entry_congr took.spaces
  refine ⟨Frames.pmmAlloc_fresh took.answer, took.aligned, took.uses set tables, fun place number => ?_,
    set.alive.trans took.alive, set.share.trans took.share, fun frame other => ?_,
    set.kernelPml4.trans took.kernelPml4, set.cpuHasNx.trans took.cpuHasNx, set.tables,
    fun outside family => ?_⟩
  · rw [set.entries, sameEntries]
  · rw [set.bytes, took.bytes frame other]
  obtain ⟨present, -, owned, plain, unshared, -⟩ := anonWord_flags took.aligned machine.cpuHasNx prot
  have familyTaken := family.alloc took.spaces took.share took.answer
  have empty : taken.ledger.slot (root, page) = none := by
    rw [slot_user taken root user, sameEntries, holding, free]
    rfl
  have slots : after.ledger.slot = update taken.ledger.slot (root, page) (some ⟨np, false⟩) := by
    have changed : after.ledger.slot = update taken.ledger.slot (root, page)
        (holding (after.entry root page)) := slots_update user fun place number low other => by
      rw [set.entries, if_neg]
      rwa [user.samePage low, @eq_comm _ page]
    rw [changed, set.entries, if_pos ⟨rfl, rfl⟩]
    simp [holding, present, unshared, owned, anonWord_frame took.aligned]
  refine familyTaken.adopt (took.spare family) set.tables set.loose set.share empty slots fun place number low => ?_
  rw [set.entries]
  split
  · exact ⟨by simp [present], by simp [unshared], fun _ _ _ => plain⟩
  · exact familyTaken.entries place low

theorem refused (set : PageSet taken root page (taken.entry root page) after) {given : Machine σ depth}
    (givenIs : given = { after with frames := after.frames.pmmFree np }) :
    AnonPage machine root page (machine.entry root page) np given := by
  have sameEntries := entry_congr took.spaces
  have fresh := Frames.pmmAlloc_fresh took.answer
  obtain ⟨-, loose⟩ := tables.alloc took.spaces took.answer
  have looseNew : after.Loose np := (set.loose np).mpr ((loose np).mpr (.inl rfl))
  have framesAre : given.frames = after.frames.pmmFree np := by rw [givenIs]
  have spaces : given.spaces = after.spaces := by rw [givenIs]
  have entriesGiven := entry_congr spaces
  have same : ∀ place number, after.entry place number = taken.entry place number := by
    intro place number
    rw [set.entries]
    split
    · rename_i here
      rw [here.1, entry_samePage here.2]
    · rfl
  refine ⟨fresh, took.aligned, ?_, fun place number => ?_, ?_, ?_, fun frame other => ?_, ?_, ?_, ?_,
    fun outside family => ?_⟩
  · rw [framesAre]
    exact (took.uses set tables).free looseNew.1 fun wasLoose => fresh wasLoose.1
  · rw [entriesGiven, set.entries, sameEntries]
  · rw [givenIs]
    exact set.alive.trans took.alive
  · rw [givenIs]
    exact set.share.trans took.share
  · rw [givenIs]
    exact (congrFun set.bytes frame).trans (took.bytes frame other)
  · rw [givenIs]
    exact set.kernelPml4.trans took.kernelPml4
  · rw [givenIs]
    exact set.cpuHasNx.trans took.cpuHasNx
  · exact (set.tables.free spaces looseNew framesAre).1
  · have familyTaken := family.alloc took.spaces took.share took.answer
    have familyAfter : after.Family fun frame => frame = np ∨ outside frame := by
      refine familyTaken.retable set.tables set.loose
        (ledger_entries (fun place number _ => same place number) set.share) fun place number low => ?_
      rw [same]
      exact familyTaken.entries place low
    exact familyAfter.free spaces (by rw [givenIs]) (took.spare family) framesAre

theorem commit (alive : machine.alive root = true) (user : UserPage depth page) (prot : Prot) :
    let mapped := vmCommit root (page * pageSize) np 1 prot true taken
    (mapped.1 = false → PageSet taken root page (taken.entry root page) mapped.2) ∧
      (mapped.1 = true → has (machine.entry root page) pagePresent = false ∧
        PageSet taken root page (anonWord machine.cpuHasNx prot np) mapped.2) := by
  have commit : vmCommit root (page * pageSize) np 1 prot true taken =
      taken.onTable root (vmmMapIn false (page * pageSize) np 1
        (mapFramesFlags machine.cpuHasNx (vmFlagsFor prot) (prot.has vmProtExec) true)) := by
    rw [vmCommit, if_neg Nat.one_ne_zero, if_neg, vmmMapFrames, took.cpuHasNx]
    simp [took.aligned.toNat_mod]
  obtain ⟨failed, mapped⟩ := mapPage_spec (tables.alloc took.spaces took.answer).1 (took.alive ▸ alive) user.2 np
    (mapFramesFlags_user machine.cpuHasNx (vmFlagsFor prot) (prot.has vmProtExec) true)
  rw [← commit] at failed mapped
  rw [entry_congr took.spaces] at mapped
  exact ⟨failed, mapped⟩

end

end Taken

/-- One iteration of `vm_map_anon_zeroed` gets no frame, or tries to map the one it gets. -/
theorem mapAnonPage_cases (root : PAddr) (vaddr : Nat) (prot : Prot) (zero : Bool) (machine : Machine σ depth) :
    mapAnonPage root vaddr prot zero machine = (false, machine) ∨ ∃ np taken, Taken machine np taken ∧
      (taken.bytes np = if zero then fun _ => 0 else machine.bytes np) ∧
      mapAnonPage root vaddr prot zero machine =
        let mapped := vmCommit root vaddr np 1 prot true taken
        if !mapped.1 then (false, { mapped.2 with frames := mapped.2.frames.pmmFree np }) else mapped := by
  cases answer : machine.frames.pmmAlloc with
  | none =>
    left
    simp only [mapAnonPage, answer]
  | some pair =>
    obtain ⟨np, frames⟩ := pair
    right
    refine ⟨np, { machine with
      frames
      bytes := if zero then update machine.bytes np (fun _ => 0) else machine.bytes },
      ⟨answer, rfl, rfl, fun frame other => ?_, rfl, rfl⟩, ?_, by simp only [mapAnonPage, answer]⟩
    · cases zero with
      | true => exact update_of_ne other _ _
      | false => rfl
    · cases zero with
      | true => exact update_self np _ _
      | false => rfl

theorem mapAnonPage_spec (tables : machine.Tables) (alive : machine.alive root = true)
    (user : UserPage depth page) (prot : Prot) (zero : Bool) :
    let mapped := mapAnonPage root (page * pageSize) prot zero machine
    (mapped.1 = false ∧ (mapped.2 = machine ∨ ∃ np, AnonPage machine root page (machine.entry root page) np mapped.2)) ∨
    (mapped.1 = true ∧ has (machine.entry root page) pagePresent = false ∧ ∃ np,
      AnonPage machine root page (anonWord machine.cpuHasNx prot np) np mapped.2 ∧
      mapped.2.bytes np = if zero then fun _ => 0 else machine.bytes np) := by
  rcases mapAnonPage_cases root (page * pageSize) prot zero machine with none | ⟨np, taken, took, bytesNew, result⟩
  · rw [none]
    exact .inl ⟨rfl, .inl rfl⟩
  · rw [result]
    obtain ⟨failed, mapped⟩ := took.commit tables alive user prot
    dsimp only
    cases ok : (vmCommit root (page * pageSize) np 1 prot true taken).1 with
    | false => exact .inl ⟨rfl, .inr ⟨np, took.refused tables (failed ok) rfl⟩⟩
    | true =>
      obtain ⟨free, set⟩ := mapped ok
      exact .inr ⟨ok, free, np, took.mapped tables user free set, (congrFun set.bytes np).trans bytesNew⟩

end AnonSteps

end NyonOS.Paging
