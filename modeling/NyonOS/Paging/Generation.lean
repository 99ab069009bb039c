import NyonOS.Paging.Anon
import NyonOS.Paging.Bump
import NyonOS.Paging.Create
import NyonOS.Paging.Share

namespace NyonOS.Paging

open Data Machine Set Finset

/-! Generations of address spaces: the first one, and a fork as a whole. -/

variable {σ : Type} [FrameAllocator σ] {depth : Nat}

namespace Machine

variable (machine : Machine σ depth)

/-- A present entry of a user page. -/
def Maps (root : PAddr) (page : Nat) (frame : PAddr) : Prop :=
  UserPage depth page ∧ has (machine.entry root page) pagePresent = true ∧ frameOf (machine.entry root page) = frame

/-- Some live address space maps a frame. -/
def Mapped (frame : PAddr) : Prop := ∃ root page, machine.Maps root page frame

/-- The address spaces that map a frame. -/
def mappers (frame : PAddr) : Set PAddr := { root | ∃ page, machine.Maps root page frame }

end Machine

theorem holding_owned {word : Word} (present : has word pagePresent = true) (owned : has word pageOwned = true) :
    holding word = some ⟨frameOf word, has word pageSharedRef⟩ := by
  cases shared : has word pageSharedRef with
  | true => simp [holding, present, shared]
  | false => simp [holding, present, shared, owned]

theorem holding_shared {word : Word} (present : has word pagePresent = true) (shared : has word pageSharedRef = true) :
    holding word = some ⟨frameOf word, has word pageSharedRef⟩ := by
  simp [holding, present, shared]

/-! What a fork as a whole does. -/

/-- The address space `dst` is new and shares the pages of `src`. -/
structure Forked (machine : Machine σ depth) (src dst : PAddr) (after : Machine σ depth) : Prop where
  absent : machine.spaces dst = .absent
  tables : after.Tables
  loose : ∀ frame, after.Loose frame ↔ machine.Loose frame
  uses : machine.frames.Uses machine.Loose after.frames
  entries : ∀ place {page}, UserPage depth page → after.entry place page =
    if userPage (machine.entry src page) = true then
      if place = src then sharedParent (machine.entry src page)
      else if place = dst then sharedChild machine.cpuHasNx (machine.entry src page)
      else machine.entry place page
    else machine.entry place page
  bytes : after.bytes = machine.bytes
  kernelPml4 : after.kernelPml4 = machine.kernelPml4
  cpuHasNx : after.cpuHasNx = machine.cpuHasNx
  alive : ∀ place, after.alive place = true ↔ place = dst ∨ machine.alive place = true
  family : ∀ outside, machine.Family outside →
    (∀ page frame, machine.Maps src page frame → (machine.mappers frame).ncard + 1 < 256) →
    after.Family outside

variable {machine : Machine σ depth}

theorem holders_le_mappers {outside : PAddr → Prop} (family : machine.Family outside) (frame : PAddr) :
    (machine.ledger.holders frame).ncard ≤ (machine.mappers frame).ncard := by
  have injective : Set.InjOn Prod.fst (machine.ledger.holders frame) := by
    rintro ⟨first, page⟩ holds ⟨second, other⟩ holdsToo same
    exact Prod.ext same (family.home holds holdsToo)
  rw [← injective.ncard_image]
  refine ncard_le_ncard ?_ (toFinite _)
  rintro root ⟨⟨_, page⟩, ⟨counted, held⟩, rfl⟩
  obtain ⟨user, held⟩ := slot_some held
  obtain ⟨present, frameIs, -⟩ := holding_some held
  exact ⟨page, user, present, frameIs⟩

section Fork

variable {machine created after : Machine σ depth} {src dst : PAddr}

theorem Created.share_spec (new : Created machine dst created) (tables : machine.Tables)
    (kernel : KernelHalf machine.kernelPml4) (alive : machine.alive src = true) :
    ((vmmShareUserSpace src dst created).1 = true ∧
        Shared created src dst (512 ^ (depth + 1)) (vmmShareUserSpace src dst created).2) ∨
      ((vmmShareUserSpace src dst created).1 = false ∧
        ∃ page, ShareFailed created src dst page (vmmShareUserSpace src dst created).2) := by
  have apart : src ≠ dst := by
    rintro rfl
    exact alive_iff.mp alive (new.absent tables)
  have aliveNew : created.alive src = true := by
    rw [alive_iff, new.spaces, Function.update_of_ne apart, ← alive_iff]
    exact alive
  refine vmmShareUserSpace_spec apart (new.tables kernel tables).1 aliveNew new.alive fun page user => ?_
  rw [new.entry_new user, has_zero]

theorem fork_spec (tables : machine.Tables) (kernel : KernelHalf machine.kernelPml4)
    (alive : machine.alive src = true) (creates : vmmCreateAddressSpace machine = some (dst, created))
    (shares : vmmShareUserSpace src dst created = (true, after)) : Forked machine src dst after := by
  have new := vmmCreateAddressSpace_created creates
  obtain ⟨-, looseNew⟩ := new.tables kernel tables
  have keeps := vmmShareUserSpace_keeps src dst created
  have spec := new.share_spec tables kernel alive
  rw [shares] at spec keeps
  obtain ⟨-, shared⟩ : _ ∧ Shared created src dst (512 ^ (depth + 1)) after := spec.resolve_right (by simp)
  have source : ∀ {page}, UserPage depth page → created.entry src page = machine.entry src page :=
    fun user => new.entries tables src user
  refine ⟨new.absent tables, shared.retabled.tables,
    fun frame => (shared.retabled.loose frame).trans (looseNew frame), ?_, fun place page user => ?_,
    shared.bytes.trans new.bytes, keeps.kernelPml4.trans new.kernelPml4,
    keeps.cpuHasNx.trans new.cpuHasNx, fun place => ?_, fun outside family room => ?_⟩
  · refine Frames.Uses.trans (.alloc .refl new.taken) (shared.retabled.uses.mono fun frame loose => ?_)
    obtain ⟨live, noTable⟩ := (looseNew frame).mpr loose
    exact ⟨live, Nat.eq_zero_of_not_pos fun used => noTable ⟨dst, used⟩⟩
  · rw [shared.entries place page user, source user, new.entries tables place user, new.cpuHasNx]
    simp [user.1]
  · rw [keeps.alive, alive_iff, new.spaces, alive_iff]
    by_cases isNew : place = dst
    · simp [isNew]
    · simp [isNew]
  · refine (shared.family outside (new.family kernel family) ?_).1
    intro page _ user visited owned
    rw [source user] at visited ⊢
    simp only [userPage, Bool.and_eq_true] at visited
    have bound := room page _ ⟨user, visited.1, rfl⟩
    have fewer := holders_le_mappers family (frameOf (machine.entry src page))
    rw [ledger_entries (fun place _ user => new.entries tables place user) new.share]
    omega

/-- The free pages a fork may need: a top-level table, and for each page the tables
on its way. -/
def Machine.forkDemand (machine : Machine σ depth) (src : PAddr) : Nat :=
  depth * machine.userPages src (512 ^ (depth + 1)) + 1

theorem fork_succeeds (tables : machine.Tables) (kernel : KernelHalf machine.kernelPml4)
    (alive : machine.alive src = true) (enough : machine.frames.supplies (machine.forkDemand src) = true) :
    ∃ dst created after, vmmCreateAddressSpace machine = some (dst, created) ∧
      vmmShareUserSpace src dst created = (true, after) := by
  obtain ⟨dst, frames, answer, rest⟩ := Frames.supplies_alloc enough
  have creates : ∃ created, vmmCreateAddressSpace machine = some (dst, created) ∧ created.frames = frames := by
    simp only [vmmCreateAddressSpace, answer]
    exact ⟨_, rfl, rfl⟩
  obtain ⟨created, creates, framesAre⟩ := creates
  have new := vmmCreateAddressSpace_created creates
  refine ⟨dst, created, _, creates, Prod.ext ?_ rfl⟩
  rcases new.share_spec tables kernel alive with ⟨done, -⟩ | ⟨-, page, failed⟩
  · exact done
  · have same : created.userPages src = machine.userPages src := by
      funext count
      simp only [Machine.userPages]
      congr 1
      funext number
      by_cases user : UserPage depth number
      · rw [new.entries tables src user]
      · simp [user]
    have bound : created.userPages src (page + 1) ≤ machine.userPages src (512 ^ (depth + 1)) := by
      rw [same]
      exact Nat.count_monotone _ failed.failing.1.1
    have supplied := Frames.supplies_mono rest (Nat.mul_le_mul_left depth bound)
    rw [← framesAre, failed.short] at supplied
    contradiction

end Fork

/-! The first address space. -/

variable {root : PAddr}

/-- One address space whose user pages are frames of their own, and nothing is
shared yet. -/
structure SingleSpace (root : PAddr) (machine : Machine σ depth) : Prop where
  tables : machine.Tables
  alone : ∀ {other}, machine.alive other = true → other = root
  kernel : KernelHalf machine.kernelPml4
  clear : ∀ {page}, UserPage depth page → has (machine.entry root page) pagePresent = false →
    machine.entry root page = 0#64
  owned : ∀ {page frame}, machine.Maps root page frame →
    machine.Loose frame ∧ has (machine.entry root page) pageUser = true ∧
      has (machine.entry root page) pageOwned = true ∧ has (machine.entry root page) pageCow = false ∧
      has (machine.entry root page) pageSharedRef = false
  distinct : ∀ {first second frame}, machine.Maps root first frame → machine.Maps root second frame → first = second
  unshared : machine.share = fun _ => 0

def Machine.Elsewhere (machine : Machine σ depth) (frame : PAddr) : Prop :=
  machine.Loose frame ∧ ¬ machine.Mapped frame

theorem SingleSpace.maps (single : SingleSpace root machine) {place : PAddr}
    {page : Nat} {frame : PAddr} (maps : machine.Maps place page frame) : place = root := by
  exact single.alone (alive_of_present maps.2.1)

def Machine.Tracked (machine : Machine σ depth) : Prop :=
  ∀ root {page}, UserPage depth page → has (machine.entry root page) pagePresent = true →
    holding (machine.entry root page) = some ⟨frameOf (machine.entry root page),
      has (machine.entry root page) pageSharedRef⟩

omit [FrameAllocator σ] in
theorem Machine.Tracked.mapped (tracked : machine.Tracked) (frame : PAddr) :
    machine.Mapped frame ↔ machine.Held frame := by
  constructor
  · rintro ⟨root, page, user, present, rfl⟩
    exact ⟨(root, page), _, (slot_user machine root user).trans (tracked root user present)⟩
  · rintro ⟨⟨root, page⟩, counted, slot⟩
    obtain ⟨user, held⟩ := slot_some slot
    obtain ⟨present, frameIs, -⟩ := holding_some held
    exact ⟨root, page, user, present, frameIs⟩

section Single

variable {start : Machine σ depth}

theorem SingleSpace.tracked (single : SingleSpace root start) : start.Tracked := by
  intro place page user present
  obtain rfl := single.maps ⟨user, present, rfl⟩
  obtain ⟨-, -, owned, -⟩ := single.owned ⟨user, present, rfl⟩
  exact holding_owned present owned

theorem SingleSpace.family (single : SingleSpace root start) : start.Family start.Elsewhere := by
  have tracked := single.tracked
  have sole : ∀ {place frame counted}, start.ledger.slot place = some ⟨frame, counted⟩ →
      counted = false ∧ start.Maps root place.2 frame ∧ place.1 = root := by
    rintro ⟨place, page⟩ frame counted slot
    obtain ⟨user, held⟩ := slot_some slot
    obtain ⟨present, frameIs, sharedRef, -⟩ := holding_some held
    have maps : start.Maps place page frame := ⟨user, present, frameIs⟩
    obtain rfl := single.maps maps
    obtain ⟨-, -, -, -, unshared⟩ := single.owned maps
    exact ⟨sharedRef.symm.trans unshared, maps, rfl⟩
  have holders : ∀ {place frame}, place ∈ start.ledger.holders frame → start.ledger.holders frame = {place} := by
    rintro ⟨place, page⟩ frame ⟨counted, slot⟩
    obtain ⟨-, maps, isRoot⟩ := sole slot
    ext ⟨other, number⟩
    constructor
    · rintro ⟨counted, slot⟩
      obtain ⟨-, mapsToo, isRootToo⟩ := sole slot
      exact Prod.ext (isRootToo.trans isRoot.symm) (single.distinct mapsToo maps)
    · rintro ⟨⟩
      exact ⟨counted, slot⟩
  have sound : start.ledger.Sound := by
    refine ⟨fun frame => ?_, fun slot => ?_, fun slot => holders ⟨false, slot⟩, fun _ => ?_⟩
    · rcases (start.ledger.holders frame).eq_empty_or_nonempty with empty | ⟨place, member⟩
      · rw [empty]
        exact finite_empty
      · rw [holders member]
        exact finite_singleton place
    · exact absurd (sole slot).1 (by simp)
    · rw [ledger_count, single.unshared]
  refine ⟨single.tables, ⟨sound, fun frame => ?_, fun {frame} held => ?_⟩, fun place page user => ?_,
    fun {frame first second} member also => ?_⟩
  · rw [← Held, ← tracked.mapped, Elsewhere]
    by_cases mapped : start.Mapped frame
    · obtain ⟨place, page, maps⟩ := mapped
      obtain rfl := single.maps maps
      exact iff_of_true (single.owned maps).1 (.inl ⟨place, page, maps⟩)
    · simp [mapped]
  · exact fun elsewhere => elsewhere.2 ((tracked.mapped frame).mpr held)
  · cases present : has (start.entry place page) pagePresent with
    | false =>
      refine ⟨fun _ => ?_, by simp [present], by simp [present]⟩
      cases alive : start.alive place with
      | false => exact entry_dead alive page
      | true =>
        obtain rfl := single.alone alive
        exact single.clear user present
    | true =>
      obtain rfl := single.maps ⟨user, present, rfl⟩
      obtain ⟨-, -, -, plain, unshared⟩ := single.owned ⟨user, present, rfl⟩
      exact ⟨by simp [present], by simp [unshared], fun _ _ _ => plain⟩
  · rw [holders member] at also
    rw [also]

end Single

section First

variable {empty created machine after : Machine σ depth} {page : Nat} {prot : Prot} {zero : Bool}

section

variable (absent : ∀ place, empty.spaces place = .absent)
include absent

theorem tables_of_absent : empty.Tables := by
  have none : ∀ place frame, empty.tableCount place frame = 0 := by
    intro place frame
    simp only [tableCount, absent]
  refine ⟨fun space => ?_, fun space => ?_, by simp [none], by simp [none], by simp [none]⟩
  · simp [absent] at space
  · simp [absent] at space

theorem family_of_absent (unshared : empty.share = fun _ => 0) : empty.Family empty.Loose := by
  have noSlot : ∀ place, empty.ledger.slot place = none := by
    rintro ⟨place, page⟩
    simp [ledger, entry, absent, Radix.get, holding]
  have noHolder : ∀ frame, empty.ledger.holders frame = ∅ := by
    intro frame
    ext place
    simp [Ledger.holders, noSlot]
  refine ⟨tables_of_absent absent, ⟨⟨?_, ?_, ?_, ?_⟩, ?_, ?_⟩, fun place page _ => ?_, ?_⟩
  · simp [noHolder]
  · simp [noSlot]
  · simp [noSlot]
  · simp [unshared]
  · simp [noHolder]
  · simp [noHolder]
  · rw [entry, absent]
    exact entryOk_zero
  · simp [noHolder]

theorem singleSpace_of_anon (kernel : KernelHalf empty.kernelPml4) (unshared : empty.share = fun _ => 0)
    (creates : vmmCreateAddressSpace empty = some (root, created)) (user : UserPage depth page)
    (maps : mapAnonPage root (page * pageSize) prot zero created = (true, after)) :
    SingleSpace root after ∧ ∃ np, Aligned np ∧ ∀ {number}, UserPage depth number →
      after.entry root number = if number = page then anonWord after.cpuHasNx prot np else 0#64 := by
  have new := vmmCreateAddressSpace_created creates
  have family := new.family kernel (family_of_absent absent unshared)
  have anon := mapAnonPage_spec family.tables new.alive user prot zero
  rw [maps] at anon
  obtain ⟨-, -, np, anon, -⟩ := anon.resolve_left (by simp)
  have familyAfter := anon.family _ family
  have aligned := anon.aligned
  have blankBefore : ∀ place {number}, UserPage depth number → created.entry place number = 0#64 := by
    intro place number low
    rw [new.entries (tables_of_absent absent) place low, entry, absent]
    rfl
  have entryHere : after.entry root page = anonWord after.cpuHasNx prot np := by
    rw [anon.entries, if_pos ⟨rfl, rfl⟩, anon.cpuHasNx]
  have elsewhere : ∀ {number}, UserPage depth number → number ≠ page → after.entry root number = 0#64 := by
    intro number low other
    rw [anon.entries, if_neg, blankBefore root low]
    rw [user.samePage low]
    exact fun same => other same.2.symm
  obtain ⟨present, userFlag, owned, plain, unsharedRef, -⟩ := anonWord_flags aligned after.cpuHasNx prot
  have only : ∀ {number frame}, after.Maps root number frame → number = page := by
    rintro number frame ⟨low, presentThere, -⟩
    by_contra other
    rw [elsewhere low other, has_zero] at presentThere
    contradiction
  have held : after.Held np := by
    refine ⟨(root, page), false, ?_⟩
    rw [slot_user after root user, entryHere, holding_owned present owned, unsharedRef, anonWord_frame aligned]
  refine ⟨⟨anon.tables, fun {other} alive => ?_, ?_, fun {number} low absentThere => ?_, ?_, ?_, ?_⟩,
    np, aligned, fun {number} low => ?_⟩
  · by_contra different
    rw [anon.alive, Machine.alive, new.spaces, Function.update_of_ne different, absent] at alive
    contradiction
  · rw [anon.kernelPml4, new.kernelPml4]
    exact kernel
  · by_cases here : number = page
    · rw [here, entryHere, present] at absentThere
      contradiction
    · exact elsewhere low here
  · intro number frame mapsThere
    obtain rfl := only mapsThere
    have frameIs : frame = np := by
      rw [← mapsThere.2.2, entryHere, anonWord_frame aligned]
    rw [frameIs, entryHere]
    exact ⟨(familyAfter.loose np).mpr (.inl held), userFlag, owned, plain, unsharedRef⟩
  · intro first second frame mapsFirst mapsSecond
    rw [only mapsFirst, only mapsSecond]
  · rw [anon.share, new.share, unshared]
  · split
    · rename_i here
      rw [here, entryHere]
    · rename_i other
      exact elsewhere low other

end

end First

/-! A parent, its child and its grandchild on the simplest allocator. -/

/-- The machine with one more address space. -/
def Machine.created (machine : Machine σ depth) : Machine σ depth :=
  match vmmCreateAddressSpace machine with
  | none => machine
  | some (_, created) => created

theorem created_eq {root : PAddr} (answer : (vmmCreateAddressSpace machine).map Prod.fst = some root) :
    vmmCreateAddressSpace machine = some (root, machine.created) := by
  unfold Machine.created
  cases creates : vmmCreateAddressSpace machine with
  | none => simp [creates] at answer
  | some pair =>
    simp only [creates, Option.map_some, Option.some.injEq] at answer
    simp [← answer]

omit [FrameAllocator σ] in
theorem mappers_le (places : Finset PAddr)
    (alive : ∀ place, machine.alive place = true → place ∈ places) (frame : PAddr) :
    (machine.mappers frame).ncard ≤ places.card := by
  rw [← ncard_coe_finset]
  refine ncard_le_ncard ?_ (toFinite _)
  rintro place ⟨page, -, present, -⟩
  exact alive place (alive_of_present present)

namespace Bump

def parent : PAddr := 0x1000#64
def child : PAddr := 0x6000#64
def grandchild : PAddr := 0xA000#64

/-- One address space with one writable page. -/
def one : Machine Bump 3 := (mapAnonPage parent 0 (vmProtRead ||| vmProtWrite) true bare.created).2

def forkedOnce : Machine Bump 3 := (vmmShareUserSpace parent child one.created).2

def forkedTwice : Machine Bump 3 := (vmmShareUserSpace child grandchild forkedOnce.created).2

theorem one_single : SingleSpace parent one ∧ ∃ np, Aligned np ∧ ∀ {number}, UserPage 3 number →
    one.entry parent number = if number = 0 then anonWord one.cpuHasNx (vmProtRead ||| vmProtWrite) np else 0#64 := by
  have mapped : (mapAnonPage parent (0 * pageSize) (vmProtRead ||| vmProtWrite) true bare.created).1 = true := by
    decide +kernel
  refine singleSpace_of_anon (fun _ => rfl) (fun page _ => ?_) rfl (created_eq (by decide +kernel))
    (by decide) (Prod.ext mapped rfl)
  exact ⟨by simp [Table.query, bare, Radix.get], by simp [Table.query, bare, Radix.get]⟩

theorem one_page : ∃ frame, one.Maps parent 0 frame ∧ ∀ {number other}, one.Maps parent number other →
    number = 0 ∧ other = frame ∧ has (one.entry parent number) pagePinned = false ∧
      has (one.entry parent number) pageWrite = true := by
  obtain ⟨-, np, aligned, entries⟩ := one_single
  obtain ⟨present, -, -, -, -, unpinned, write⟩ :=
    anonWord_flags aligned one.cpuHasNx (vmProtRead ||| vmProtWrite)
  have user : UserPage 3 0 := by decide
  have here : one.entry parent 0 = _ := (entries user).trans (if_pos rfl)
  refine ⟨np, ⟨user, by rw [here, present], by rw [here, anonWord_frame aligned]⟩, ?_⟩
  rintro number other ⟨low, presentThere, rfl⟩
  have only : number = 0 := by
    by_contra different
    rw [entries low, if_neg different, has_zero] at presentThere
    contradiction
  subst only
  rw [here, unpinned, write, anonWord_frame aligned]
  exact ⟨rfl, rfl, rfl, rfl⟩

theorem one_alive : one.alive parent = true := by
  obtain ⟨frame, maps, -⟩ := one_page
  exact alive_of_present maps.2.1

theorem one_room (page : Nat) (frame : PAddr) (_ : one.Maps parent page frame) :
    (one.mappers frame).ncard + 1 < 256 := by
  have few := mappers_le {parent} (fun place alive => Finset.mem_singleton.mpr (one_single.1.alone alive)) frame
  rw [Finset.card_singleton] at few
  omega

theorem one_supplies : one.frames.supplies (one.forkDemand parent) = true := by
  obtain ⟨_, -, only⟩ := one_page
  have few : one.userPages parent (512 ^ (3 + 1)) ≤ 1 := by
    rw [Machine.userPages, Nat.count_eq_card_filter_range, card_le_one]
    have isZero : ∀ {page}, page ∈ (Finset.range (512 ^ (3 + 1))).filter
        (fun page => UserPage 3 page ∧ userPage (one.entry parent page) = true) → page = 0 := by
      intro page member
      obtain ⟨-, user, visited⟩ := mem_filter.mp member
      simp only [userPage, Bool.and_eq_true] at visited
      exact (only ⟨user, visited.1, rfl⟩).1
    intro first firstIn second secondIn
    rw [isZero firstIn, isZero secondIn]
  have four : one.frames.supplies 4 = true := by decide +kernel
  refine Frames.supplies_mono four ?_
  rw [Machine.forkDemand]
  omega

theorem one_creates : vmmCreateAddressSpace one = some (child, one.created) := created_eq (by decide +kernel)

theorem one_shares : vmmShareUserSpace parent child one.created = (true, forkedOnce) :=
  Prod.ext (by decide +kernel) rfl

theorem one_forked : Forked one parent child forkedOnce :=
  fork_spec one_single.1.tables one_single.1.kernel one_alive one_creates one_shares

theorem forkedOnce_alive {place : PAddr} : forkedOnce.alive place = true ↔ place = child ∨ place = parent := by
  rw [one_forked.alive]
  constructor
  · exact Or.imp id one_single.1.alone
  · exact Or.imp id fun same => same ▸ one_alive

theorem forkedOnce_page : ∃ frame, forkedOnce.Maps parent 0 frame ∧ forkedOnce.Maps child 0 frame ∧
    ∀ {place number other}, forkedOnce.Maps place number other →
      has (forkedOnce.entry place number) pagePinned = false := by
  obtain ⟨frame, ⟨user, present, frameIs⟩, only⟩ := one_page
  obtain ⟨-, userFlag, -⟩ := one_single.1.owned ⟨user, present, frameIs⟩
  have visited : userPage (one.entry parent 0) = true := by simp [userPage, present, userFlag]
  have different : child ≠ parent := by decide
  have parentEntry : forkedOnce.entry parent 0 = sharedParent (one.entry parent 0) := by
    rw [one_forked.entries _ user, if_pos visited, if_pos rfl]
  have childEntry : forkedOnce.entry child 0 = sharedChild one.cpuHasNx (one.entry parent 0) := by
    rw [one_forked.entries _ user, if_pos visited, if_neg different, if_pos rfl]
  refine ⟨frame, ⟨user, by simp [parentEntry, present], by rw [parentEntry, sharedParent_frame, frameIs]⟩,
    ⟨user, by rw [childEntry, sharedChild_present], by rw [childEntry, sharedChild_frame, frameIs]⟩, ?_⟩
  rintro place number other ⟨low, presentThere, -⟩
  rw [one_forked.entries place low] at presentThere ⊢
  split at presentThere
  · rename_i visitedThere
    rw [if_pos visitedThere]
    simp only [userPage, Bool.and_eq_true] at visitedThere
    have unpinned := (only ⟨low, visitedThere.1, rfl⟩).2.2.1
    split
    · simp [unpinned]
    split
    · exact sharedChild_pinned _ _
    · rename_i notParent notChild
      rw [if_neg notParent, if_neg notChild] at presentThere
      exact absurd (one_single.1.alone (alive_of_present presentThere)) notParent
  · rename_i unvisited
    rw [if_neg unvisited]
    obtain rfl := one_single.1.alone (alive_of_present presentThere)
    exact (only ⟨low, presentThere, rfl⟩).2.2.1

theorem forkedOnce_creates : vmmCreateAddressSpace forkedOnce = some (grandchild, forkedOnce.created) :=
  created_eq (by decide +kernel)

theorem forkedOnce_shares : vmmShareUserSpace child grandchild forkedOnce.created = (true, forkedTwice) :=
  Prod.ext (by decide +kernel) rfl

theorem forkedOnce_forked : Forked forkedOnce child grandchild forkedTwice :=
  fork_spec one_forked.tables (one_forked.kernelPml4 ▸ one_single.1.kernel)
    (forkedOnce_alive.mpr (.inl rfl)) forkedOnce_creates forkedOnce_shares

end Bump

end NyonOS.Paging
