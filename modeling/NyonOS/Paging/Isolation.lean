import NyonOS.Data.Run
import NyonOS.Paging.Generation
import NyonOS.Paging.Protect

namespace NyonOS.Paging

open Data Machine Function

/-! Isolation: no address space can write to a page that another one maps. -/

variable {σ : Type} [FrameAllocator σ] {depth : Nat}

namespace Machine

/-- Some live address space has the frame pinned. -/
def Pinned (machine : Machine σ depth) (frame : PAddr) : Prop :=
  ∃ root page, machine.Maps root page frame ∧ has (machine.entry root page) pagePinned = true

/-- A store of a user program: it needs a present, writable user page. -/
def store (root : PAddr) (page : Nat) (offset : Fin 4096) (value : UInt8) (machine : Machine σ depth) :
    Option (Machine σ depth) :=
  let word := machine.entry root page
  if has word pagePresent && has word pageUser && has word pageWrite then
    some { machine with
      bytes := update machine.bytes (frameOf word) (update (machine.bytes (frameOf word)) offset value) }
  else none

/-- A frame that two address spaces map is read-only in both unless it is pinned,
and no store changes what another address space reads. -/
structure Isolated (machine : Machine σ depth) : Prop where
  readOnly : ∀ {root other page number frame}, root ≠ other → machine.Maps root page frame →
    machine.Maps other number frame → ¬ machine.Pinned frame →
    has (machine.entry root page) pageWrite = false
  unseen : ∀ {root page offset value after}, UserPage depth page →
    machine.store root page offset value = some after → ∀ {other number frame}, other ≠ root →
    machine.Maps other number frame → ¬ machine.Pinned frame → after.bytes frame = machine.bytes frame

end Machine

/-! The calls of a run. -/

inductive FlagCall
  | fork (src : PAddr)
  | resolve (root : PAddr) (vaddr : Nat)
  | protect (root : PAddr) (addr pages : Nat) (prot : Prot)

/-- A call that changes page-table flags. A fork may run out of memory halfway. -/
inductive FlagStep : FlagCall → Machine σ depth → Machine σ depth → Prop
  | fork {src dst : PAddr} {before created : Machine σ depth} (alive : before.alive src = true)
      (creates : vmmCreateAddressSpace before = some (dst, created)) :
      FlagStep (.fork src) before (vmmShareUserSpace src dst created).2
  | resolve {root : PAddr} {vaddr : Nat} {before : Machine σ depth} (alive : before.alive root = true) :
      FlagStep (.resolve root vaddr) before (vmmCowResolve root vaddr before).2
  | protect {root : PAddr} {addr pages : Nat} {prot : Prot} {before : Machine σ depth}
      (alive : before.alive root = true)
      (user : ∀ index < pages, UserPage depth (addr / pageSize + index)) :
      FlagStep (.protect root addr pages prot) before (vmmProtect root addr pages prot before).2

/-- `vmm_protect` with `VM_PROT_WRITE` covers no copy-on-write page whose frame another
address space maps too. -/
def WritesAlone (root : PAddr) (addr pages : Nat) (machine : Machine σ depth) : Prop :=
  ∀ index < pages, ∀ {frame}, machine.Maps root (addr / pageSize + index) frame →
    has (machine.entry root (addr / pageSize + index)) pageCow = true →
    ∀ other number, machine.Maps other number frame → other = root

/-- A fork is of an address space that owns its pages, has enough memory and does not
overflow a share counter; and write permission is given only where nobody shares. -/
def KeepsApart : FlagCall → Machine σ depth → Prop
  | .fork src, machine =>
    (∀ page frame, machine.Maps src page frame → has (machine.entry src page) pageOwned = true ∨ machine.Pinned frame) ∧
    (∀ page frame, machine.Maps src page frame → (machine.mappers frame).ncard + 1 < 256) ∧
    machine.frames.supplies (machine.forkDemand src) = true
  | .resolve _ _, _ => True
  | .protect root addr pages prot, machine =>
    prot.has vmProtWrite = true → WritesAlone root addr pages machine

/-! What holds between the calls. -/

/-- Only pinned frames are mapped without being accounted for, and who can write a
frame is the only one to hold it. -/
structure Apart (outside : PAddr → Prop) (machine : Machine σ depth) : Prop where
  family : machine.Family outside
  kernel : KernelHalf machine.kernelPml4
  lent : ∀ {root page frame}, machine.Maps root page frame →
    (root, page) ∉ machine.ledger.holders frame → machine.Pinned frame
  sole : ∀ {root page frame}, (root, page) ∈ machine.ledger.holders frame →
    has (machine.entry root page) pageWrite = true →
    ∀ place ∈ machine.ledger.holders frame, place = (root, page)

section Holders

variable {machine after : Machine σ depth} {outside : PAddr → Prop} {root frame : PAddr} {page : Nat}

omit [FrameAllocator σ]

theorem holder_iff : (root, page) ∈ machine.ledger.holders frame ↔
    UserPage depth page ∧ ∃ counted, holding (machine.entry root page) = some ⟨frame, counted⟩ := by
  constructor
  · rintro ⟨counted, slot⟩
    obtain ⟨user, held⟩ := slot_some slot
    exact ⟨user, counted, held⟩
  · rintro ⟨user, counted, held⟩
    exact ⟨counted, (slot_user machine root user).trans held⟩

theorem maps_of_holder (member : (root, page) ∈ machine.ledger.holders frame) : machine.Maps root page frame := by
  obtain ⟨user, counted, held⟩ := holder_iff.mp member
  obtain ⟨present, frameIs, -⟩ := holding_some held
  exact ⟨user, present, frameIs⟩

end Holders

theorem Apart.isolated {machine : Machine σ depth} {outside : PAddr → Prop} (apart : Apart outside machine) :
    machine.Isolated := by
  have readOnly : ∀ {root other page number frame}, root ≠ other → machine.Maps root page frame →
      machine.Maps other number frame → ¬ machine.Pinned frame →
      has (machine.entry root page) pageWrite = false := by
    intro root other page number frame different maps mapsToo unpinned
    have holds : (root, page) ∈ machine.ledger.holders frame := by
      by_contra lent
      exact unpinned (apart.lent maps lent)
    have holdsToo : (other, number) ∈ machine.ledger.holders frame := by
      by_contra lent
      exact unpinned (apart.lent mapsToo lent)
    rw [Bool.eq_false_iff]
    intro write
    exact different (congrArg Prod.fst (apart.sole holds write _ holdsToo)).symm
  refine ⟨readOnly, fun {root page offset value after} user stored {other number frame} different maps unpinned => ?_⟩
  unfold store at stored
  simp only [Option.ite_none_right_eq_some, Option.some.injEq, Bool.and_eq_true] at stored
  obtain ⟨⟨⟨present, -⟩, write⟩, rfl⟩ := stored
  refine update_of_ne (fun same => ?_) _ _
  have readable := readOnly (Ne.symm different) ⟨user, present, same.symm⟩ maps unpinned
  rw [write] at readable
  contradiction

section Steps

variable {before after : Machine σ depth} {outside : PAddr → Prop} {src dst root : PAddr}

section

variable (forked : Forked before src dst after)
include forked

theorem Forked.holder {place frame : PAddr} {page : Nat} (member : (place, page) ∈ after.ledger.holders frame) :
    (place, page) ∈ before.ledger.holders frame ∨ place = dst ∧ (src, page) ∈ before.ledger.holders frame ∧
        userPage (before.entry src page) = true ∧ has (before.entry src page) pagePinned = false := by
  obtain ⟨user, counted, held⟩ := holder_iff.mp member
  rw [forked.entries place user] at held
  split at held
  · rename_i visited
    have present : has (before.entry src page) pagePresent = true := by
      simp only [userPage, Bool.and_eq_true] at visited
      exact visited.1
    cases owned : has (before.entry src page) pageOwned with
    | false =>
      obtain ⟨parent, child⟩ := holding_uncounted before.cpuHasNx (before.entry src page) (.inl owned)
      split at held
      · rename_i same
        rw [parent, ← same] at held
        exact .inl (holder_iff.mpr ⟨user, counted, held⟩)
      split at held
      · rw [child] at held
        contradiction
      · exact .inl (holder_iff.mpr ⟨user, counted, held⟩)
    | true =>
      have holds : holding (before.entry src page) = _ := holding_owned present owned
      split at held
      · rename_i same
        obtain ⟨-, frameIs, -⟩ := holding_some held
        rw [sharedParent_frame] at frameIs
        exact .inl (holder_iff.mpr ⟨user, _, by rw [same, holds, frameIs]⟩)
      split at held
      · rename_i same
        cases pinned : has (before.entry src page) pagePinned with
        | true =>
          rw [(holding_uncounted before.cpuHasNx _ (.inr pinned)).2] at held
          contradiction
        | false =>
          obtain ⟨-, frameIs, -⟩ := holding_some held
          rw [sharedChild_frame] at frameIs
          exact .inr ⟨same, holder_iff.mpr ⟨user, _, by rw [holds, frameIs]⟩, visited, rfl⟩
      · exact .inl (holder_iff.mpr ⟨user, counted, held⟩)
  · exact .inl (holder_iff.mpr ⟨user, counted, held⟩)

theorem Forked.pinned {frame : PAddr} (pinned : before.Pinned frame) : after.Pinned frame := by
  obtain ⟨place, page, ⟨user, present, frameIs⟩, isPinned⟩ := pinned
  have same : after.entry place page = before.entry place page := by
    rw [forked.entries place user]
    split
    · split
      · rename_i isSrc
        rw [← isSrc, sharedParent, if_pos isPinned]
      split
      · rename_i isDst
        rw [isDst, entry_absent forked.absent, has_zero] at present
        contradiction
      · rfl
    · rfl
  exact ⟨place, page, ⟨user, by rw [same]; exact present, by rw [same]; exact frameIs⟩, by rw [same]; exact isPinned⟩

theorem Forked.lent (owns : ∀ page frame, before.Maps src page frame →
      has (before.entry src page) pageOwned = true ∨ before.Pinned frame)
    (apart : Apart outside before) {place frame : PAddr} {page : Nat} (maps : after.Maps place page frame)
    (lent : (place, page) ∉ after.ledger.holders frame) : before.Pinned frame := by
  obtain ⟨user, present, frameIs⟩ := maps
  have unheld : ∀ counted, holding (after.entry place page) ≠ some ⟨frame, counted⟩ :=
    fun counted held => lent (holder_iff.mpr ⟨user, counted, held⟩)
  rw [forked.entries place user] at present frameIs unheld
  by_cases visited : userPage (before.entry src page) = true
  · simp only [visited, if_true] at present frameIs unheld
    have presentSrc : has (before.entry src page) pagePresent = true := by
      simp only [userPage, Bool.and_eq_true] at visited
      exact visited.1
    by_cases isSrc : place = src
    · simp only [isSrc, if_true, sharedParent_frame] at frameIs unheld
      refine apart.lent ⟨user, presentSrc, frameIs⟩ fun held => ?_
      obtain ⟨-, counted, held⟩ := holder_iff.mp held
      rcases counted_or_lent (before.entry src page) with ⟨owned, unpinned⟩ | lentOut
      · refine unheld true ?_
        rw [(holding_counted before.cpuHasNx _ presentSrc owned unpinned).1, frameIs]
      · refine unheld counted ?_
        rw [(holding_uncounted before.cpuHasNx _ lentOut).1, held]
    by_cases isDst : place = dst
    · subst isDst
      simp only [isSrc, if_false, if_true, sharedChild_frame] at frameIs unheld
      have mapsSrc : before.Maps src page frame := ⟨user, presentSrc, frameIs⟩
      rcases counted_or_lent (before.entry src page) with ⟨owned, unpinned⟩ | unowned | pinned
      · refine absurd ?_ (unheld true)
        rw [(holding_counted before.cpuHasNx _ presentSrc owned unpinned).2, frameIs]
      · exact (owns page frame mapsSrc).resolve_left (by simp [unowned])
      · exact ⟨src, page, mapsSrc, pinned⟩
    · simp only [isSrc, isDst, if_false] at present frameIs unheld
      exact apart.lent ⟨user, present, frameIs⟩ fun held => by
        obtain ⟨-, counted, held⟩ := holder_iff.mp held
        exact unheld counted held
  · simp only [visited] at present frameIs unheld
    exact apart.lent ⟨user, present, frameIs⟩ fun held => by
      obtain ⟨-, counted, held⟩ := holder_iff.mp held
      exact unheld counted held

theorem Forked.apart (alive : before.alive src = true) (owns : ∀ page frame, before.Maps src page frame →
      has (before.entry src page) pageOwned = true ∨ before.Pinned frame)
    (room : ∀ page frame, before.Maps src page frame → (before.mappers frame).ncard + 1 < 256)
    (apart : Apart outside before) : Apart outside after := by
  have different : src ≠ dst := by
    rintro rfl
    exact alive_iff.mp alive forked.absent
  refine ⟨forked.family outside apart.family room, forked.kernelPml4 ▸ apart.kernel,
    fun maps lent => forked.pinned (forked.lent owns apart maps lent),
    fun {place page frame} holds write other holdsToo => ?_⟩
  have user := (maps_of_holder holds).1
  have absentDst : (dst, page) ∉ before.ledger.holders frame := by
    intro member
    have present := (maps_of_holder member).2.1
    rw [entry_absent forked.absent, has_zero] at present
    contradiction
  -- a writable entry is not one that the fork has just shared
  obtain ⟨heldBefore, writeBefore, unshared⟩ : (place, page) ∈ before.ledger.holders frame ∧
      has (before.entry place page) pageWrite = true ∧
      ¬ (place = src ∧ userPage (before.entry src page) = true ∧ has (before.entry src page) pagePinned = false) := by
    rw [forked.entries place user] at write
    rcases forked.holder holds with heldBefore | ⟨rfl, -, visited, unpinned⟩
    · refine ⟨heldBefore, ?_⟩
      have notDst : place ≠ dst := by
        rintro rfl
        exact absentDst heldBefore
      by_cases shared : userPage (before.entry src page) = true ∧ place = src
      · obtain ⟨visited, rfl⟩ := shared
        simp only [visited, if_true, has_sharedParent] at write
        cases pinned : has (before.entry place page) pagePinned with
        | true => simpa [pinned] using write
        | false => simp [pinned] at write
      · refine ⟨?_, fun both => shared ⟨both.2.1, both.1⟩⟩
        split at write
        · rename_i visited
          rwa [if_neg fun same => shared ⟨visited, same⟩] at write
        · exact write
    · simp [visited, Ne.symm different, unpinned] at write
  obtain ⟨otherPlace, number⟩ := other
  rcases forked.holder holdsToo with heldToo | ⟨rfl, heldSrc, visited, unpinned⟩
  · exact apart.sole heldBefore writeBefore _ heldToo
  · obtain ⟨rfl, rfl⟩ := Prod.mk.inj (apart.sole heldBefore writeBefore _ heldSrc)
    exact absurd ⟨rfl, visited, unpinned⟩ unshared

end

theorem Resolved.apart {page : Nat} {np : PAddr} (resolved : Resolved before root page np after)
    (familyAfter : after.Family outside) (apart : Apart outside before) : Apart outside after := by
  obtain ⟨⟨⟨present, -⟩, unpinned⟩, -⟩ : ((_ ∧ _) ∧ has (before.entry root page) pagePinned = false) ∧ _ := by
    simpa only [resolvable, Bool.and_eq_true, Bool.not_eq_true'] using resolved.resolves
  have unheld : ∀ place, place ∉ before.ledger.holders np := fun place held =>
    resolved.fresh ((apart.family.loose np).mpr (.inl ⟨place, held⟩)).1
  have unchanged : ∀ {place number}, ¬ (place = root ∧ number = page) → UserPage depth number →
      after.entry place number = before.entry place number :=
    fun other low => (resolved.entries _ low).trans (if_neg other)
  have here : after.entry root page = resolvedFlags (before.entry root page) ||| np :=
    (resolved.entries root resolved.user).trans (if_pos ⟨rfl, rfl⟩)
  have holdsNew : holding (after.entry root page) = some ⟨np, false⟩ := by
    rw [here, holding_resolved present resolved.aligned]
  have holder : ∀ {place number frame}, (place, number) ∈ after.ledger.holders frame →
      place = root ∧ number = page ∧ frame = np ∨
        ¬ (place = root ∧ number = page) ∧ (place, number) ∈ before.ledger.holders frame := by
    intro place number frame member
    obtain ⟨low, counted, held⟩ := holder_iff.mp member
    by_cases same : place = root ∧ number = page
    · rw [same.1, same.2, holdsNew] at held
      exact .inl ⟨same.1, same.2, by simpa using (congrArg (Option.map Holding.resource) held).symm⟩
    · rw [unchanged same low] at held
      exact .inr ⟨same, holder_iff.mpr ⟨low, counted, held⟩⟩
  have pinnedAfter : ∀ {frame}, before.Pinned frame → after.Pinned frame := by
    rintro frame ⟨place, number, ⟨low, isPresent, frameIs⟩, isPinned⟩
    have elsewhere : ¬ (place = root ∧ number = page) := by
      rintro ⟨rfl, rfl⟩
      rw [unpinned] at isPinned
      contradiction
    rw [← unchanged elsewhere low] at isPresent frameIs isPinned
    exact ⟨place, number, ⟨low, isPresent, frameIs⟩, isPinned⟩
  refine ⟨familyAfter, resolved.kernelPml4 ▸ apart.kernel, fun {place number frame} maps lent => ?_,
    fun {place number frame} holds write other holdsToo => ?_⟩
  · by_cases same : place = root ∧ number = page
    · obtain ⟨rfl, rfl⟩ := same
      refine absurd (holder_iff.mpr ⟨resolved.user, false, ?_⟩) lent
      rw [holdsNew, ← maps.2.2, here, resolvedFlags_frame resolved.aligned]
    · obtain ⟨low, isPresent, frameIs⟩ := maps
      rw [unchanged same low] at isPresent frameIs
      refine pinnedAfter (apart.lent ⟨low, isPresent, frameIs⟩ fun member => lent ?_)
      obtain ⟨-, counted, held⟩ := holder_iff.mp member
      exact holder_iff.mpr ⟨low, counted, by rw [unchanged same low, held]⟩
  · obtain ⟨otherPlace, otherNumber⟩ := other
    rcases holder holds with ⟨rfl, rfl, rfl⟩ | ⟨notHere, heldBefore⟩
    · rcases holder holdsToo with ⟨rfl, rfl, -⟩ | ⟨-, heldToo⟩
      · rfl
      · exact absurd heldToo (unheld _)
    · rcases holder holdsToo with ⟨-, -, rfl⟩ | ⟨-, heldToo⟩
      · exact absurd heldBefore (unheld _)
      · rw [unchanged notHere (maps_of_holder heldBefore).1] at write
        exact apart.sole heldBefore write _ heldToo

theorem Apart.reflag {page : Nat} {word : Word} (apart : Apart outside before) (user : UserPage depth page)
    (present : has (before.entry root page) pagePresent = true)
    (same : SameAccount (before.entry root page) word)
    (alone : has word pageWrite = true → ∀ {frame}, (root, page) ∈ before.ledger.holders frame →
      ∀ place ∈ before.ledger.holders frame, place = (root, page)) :
    Apart outside (before.writeEntry root page word) := by
  have sameAll := same_reflag user present same
  have ledgerIs : (before.writeEntry root page word).ledger = before.ledger := ledger_same sameAll rfl
  have maps : ∀ {place number frame}, (before.writeEntry root page word).Maps place number frame ↔
      before.Maps place number frame := by
    intro place number frame
    by_cases low : UserPage depth number
    · rw [Maps, Maps, (sameAll place low).present, (sameAll place low).frame]
    · exact iff_of_false (fun maps => low maps.1) fun maps => low maps.1
  refine ⟨apart.family.reflag user present same, apart.kernel, fun {place number frame} mapsThere lent => ?_,
    fun {place number frame} holds write => ?_⟩
  · rw [ledgerIs] at lent
    obtain ⟨other, otherNumber, mapsPinned, pinned⟩ := apart.lent (maps.mp mapsThere) lent
    refine ⟨other, otherNumber, maps.mpr mapsPinned, ?_⟩
    rw [(sameAll other mapsPinned.1).pinned]
    exact pinned
  · rw [ledgerIs] at holds ⊢
    rw [entry_reflag user present word place (maps_of_holder holds).1] at write
    split at write
    · rename_i here
      rw [here.1, here.2] at holds ⊢
      exact alone write holds
    · exact apart.sole holds write

theorem Apart.protect {addr pages : Nat} {prot : Prot} (apart : Apart outside before)
    (user : ∀ index < pages, UserPage depth (addr / pageSize + index))
    (alone : prot.has vmProtWrite = true → WritesAlone root addr pages before) :
    Apart outside (vmmProtect root addr pages prot before).2 := by
  let kept (now : Machine σ depth) : Prop :=
    Apart outside now ∧ (prot.has vmProtWrite = true → WritesAlone root addr pages now)
  have loop : kept (vmmProtect root addr pages prot before).2 := by
    refine vmmProtect_keeps (show kept before from ⟨apart, alone⟩) fun _ index bound now kept present => ?_
    obtain ⟨apartNow, aloneNow⟩ := kept
    have low := user index bound
    have same := protectWord_same now.cpuHasNx prot (now.entry root (addr / pageSize + index))
    have sameAll := same_reflag low present same
    have mapsNow : ∀ {place number frame}, (now.writeEntry root (addr / pageSize + index)
        (protectWord now.cpuHasNx prot (now.entry root (addr / pageSize + index)))).Maps place number frame →
        now.Maps place number frame := by
      rintro place number frame ⟨lowThere, presentThere, frameThere⟩
      rw [(sameAll place lowThere).present] at presentThere
      rw [(sameAll place lowThere).frame] at frameThere
      exact ⟨lowThere, presentThere, frameThere⟩
    refine ⟨apartNow.reflag low present same fun write frame holds place holdsToo => ?_,
      fun write later within frame maps cow other number mapsToo => ?_⟩
    · rw [protectWord_write] at write
      obtain ⟨-, counted, held⟩ := holder_iff.mp holds
      cases counted with
      | false =>
        have slot : now.ledger.slot (root, addr / pageSize + index) = some ⟨frame, false⟩ :=
          (slot_user now root low).trans held
        rw [apartNow.family.sound.sole slot, Set.mem_singleton_iff] at holdsToo
        exact holdsToo
      | true =>
        obtain ⟨otherPlace, number⟩ := place
        obtain ⟨-, -, shared, -⟩ := holding_some held
        have cow := ((apartNow.family.entries root low).shared present shared).1
        have only := aloneNow write index bound (maps_of_holder holds) cow otherPlace number (maps_of_holder holdsToo)
        exact Prod.ext only (apartNow.family.home holdsToo holds)
    · rw [(sameAll root maps.1).cow] at cow
      exact aloneNow write later within (mapsNow maps) cow other number (mapsNow mapsToo)
  exact loop.1

end Steps

/-! Whole runs. -/

section Runs

variable {start before after : Machine σ depth} {outside : PAddr → Prop} {root : PAddr} {call : FlagCall}

theorem SingleSpace.apart (single : SingleSpace root start) : Apart start.Elsewhere start := by
  have tracked := single.tracked
  refine ⟨single.family, single.kernel, fun {place page frame} maps lent => ?_,
    fun {place page frame} holds _ other holdsToo => ?_⟩
  · obtain ⟨user, present, rfl⟩ := maps
    exact absurd (holder_iff.mpr ⟨user, _, tracked place user present⟩) lent
  · obtain ⟨otherPlace, number⟩ := other
    have maps := maps_of_holder holds
    have mapsToo := maps_of_holder holdsToo
    obtain rfl := single.maps maps
    obtain rfl := single.maps mapsToo
    rw [single.distinct maps mapsToo]

theorem FlagStep.apart (step : FlagStep call before after) (keeps : KeepsApart call before)
    (apart : Apart outside before) : Apart outside after := by
  cases step with
  | @fork src dst _ created alive creates =>
    obtain ⟨owns, room, enough⟩ := keeps
    obtain ⟨_, _, done, createsToo, shares⟩ :=
      fork_succeeds apart.family.tables apart.kernel alive enough
    obtain ⟨rfl, rfl⟩ := Prod.mk.inj (Option.some.inj (creates.symm.trans createsToo))
    rw [shares]
    exact (fork_spec apart.family.tables apart.kernel alive creates shares).apart alive owns room apart
  | @resolve place vaddr _ alive =>
    obtain ⟨familyAfter, -⟩ := vmmCowResolve_family apart.family place vaddr
    rcases vmmCowResolve_spec apart.family.tables place vaddr with idle | ⟨-, np, resolved⟩
    · rw [idle]
      exact apart
    · exact resolved.apart familyAfter apart
  | protect alive user => exact apart.protect user keeps

/-- Along every run whose calls keep the address spaces apart, no address space can
write to a frame that another one maps. -/
theorem run_isolated (single : SingleSpace root start) (run : Run FlagStep KeepsApart start after) :
    after.Isolated := by
  have apart : Apart start.Elsewhere after :=
    run.invariant single.apart fun _ _ _ apart keeps step => step.apart keeps apart
  exact apart.isolated

end Runs

theorem Bump.one_keepsApart : KeepsApart (.fork Bump.parent) Bump.one :=
  ⟨fun _ _ maps => .inl (Bump.one_single.1.owned maps).2.2.1, Bump.one_room, Bump.one_supplies⟩

theorem Bump.one_flagStep : FlagStep (.fork Bump.parent) Bump.one Bump.forkedOnce := by
  have step : FlagStep (.fork Bump.parent) Bump.one (vmmShareUserSpace Bump.parent Bump.child Bump.one.created).2 :=
    .fork Bump.one_alive Bump.one_creates
  rw [Bump.one_shares] at step
  exact step

/-- A parent and its child right after the fork. -/
theorem run_isolated_fork : Bump.forkedOnce.Isolated :=
  run_isolated Bump.one_single.1 (.next .start Bump.one_keepsApart Bump.one_flagStep)

/-- `mprotect` makes a copy-on-write page writable for a parent whose child shares it. -/
theorem protect_shared_writable :
    let after := (vmmProtect Bump.parent (0 * pageSize) 1 (vmProtRead ||| vmProtWrite) Bump.forkedOnce).2
    SingleSpace Bump.parent Bump.one ∧ Run FlagStep (fun _ _ => True) Bump.one after ∧
      (∃ frame, after.Maps Bump.parent 0 frame ∧ after.Maps Bump.child 0 frame ∧
        ¬ after.Pinned frame ∧ has (after.entry Bump.parent 0) pageWrite = true) ∧
      ¬ after.Isolated := by
  intro after
  obtain ⟨frame, mapsParent, mapsChild, unpinned⟩ := Bump.forkedOnce_page
  have user := mapsParent.1
  have protect := vmmProtect_page (show protAccepted (vmProtRead ||| vmProtWrite) = true by decide) mapsParent.2.1
  have same := same_reflag user mapsParent.2.1 (protectWord_same Bump.forkedOnce.cpuHasNx
    (vmProtRead ||| vmProtWrite) (Bump.forkedOnce.entry Bump.parent 0))
  have afterIs : after = Bump.forkedOnce.writeEntry Bump.parent 0 (protectWord Bump.forkedOnce.cpuHasNx
      (vmProtRead ||| vmProtWrite) (Bump.forkedOnce.entry Bump.parent 0)) := congrArg Prod.snd protect
  rw [← afterIs] at same
  have maps : ∀ {place number other}, Bump.forkedOnce.Maps place number other ↔ after.Maps place number other := by
    intro place number other
    by_cases low : UserPage 3 number
    · rw [Maps, Maps, (same place low).present, (same place low).frame]
    · exact iff_of_false (fun maps => low maps.1) fun maps => low maps.1
  have notPinned : ¬ after.Pinned frame := by
    rintro ⟨place, number, mapsPinned, pinned⟩
    rw [(same place mapsPinned.1).pinned, unpinned (maps.mpr mapsPinned)] at pinned
    exact Bool.noConfusion pinned
  have write : has (after.entry Bump.parent 0) pageWrite = true := by
    rw [afterIs, entry_reflag user mapsParent.2.1 _ _ user, if_pos ⟨rfl, rfl⟩, protectWord_write]
    rfl
  refine ⟨Bump.one_single.1, ?_, ⟨frame, maps.mp mapsParent, maps.mp mapsChild, notPinned, write⟩, fun isolated => ?_⟩
  · exact .next (.next .start trivial Bump.one_flagStep) trivial
      (.protect (alive_of_present mapsParent.2.1) fun index bound => by
        rw [Nat.lt_one_iff.mp bound]
        exact user)
  · have readOnly := isolated.readOnly (show Bump.parent ≠ Bump.child by decide) (maps.mp mapsParent)
      (maps.mp mapsChild) notPinned
    rw [write] at readOnly
    exact Bool.noConfusion readOnly

end NyonOS.Paging
