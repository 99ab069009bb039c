import NyonOS.Data.Ledger
import NyonOS.Paging.Space

namespace NyonOS.Paging

open Data Function

/-! A family of address spaces and the frames it accounts for. -/

variable {σ : Type} [FrameAllocator σ] {depth : Nat}

instance (page : Nat) : Decidable (LowPage depth page) := inferInstanceAs (Decidable (_ < _))

/-- The number of a page of the lower half. -/
def UserPage (depth page : Nat) : Prop := page < 512 ^ (depth + 1) ∧ LowPage depth page

instance (page : Nat) : Decidable (UserPage depth page) := inferInstanceAs (Decidable (_ ∧ _))

theorem UserPage.samePage {page other : Nat} (here : UserPage depth page) (there : UserPage depth other) :
    SamePage depth page other ↔ page = other :=
  Radix.sameKey_of_bounds here.1 there.1

/-- The page that the bits which `walk_page_table` looks at stand for. -/
def pageOf (depth number : Nat) : Nat := number % 512 ^ (depth + 1)

theorem samePage_pageOf (depth number : Nat) : SamePage depth number (pageOf depth number) :=
  (Nat.mod_mod number _).symm

theorem userPage_pageOf {number : Nat} (low : LowPage depth number) : UserPage depth (pageOf depth number) := by
  refine ⟨Nat.mod_lt _ (by positivity), ?_⟩
  obtain ⟨digit, -⟩ := Radix.sameKey_succ.mp (samePage_pageOf depth number)
  rw [LowPage, ← digit]
  exact low

theorem Aligned.toNat_mod {address : PAddr} (aligned : Aligned address) : address.toNat % pageSize = 0 := by
  have low : address &&& 0xFFF#64 = 0#64 := by
    rw [← aligned, frameOf, BitVec.and_assoc]
    exact BitVec.and_zero
  have mask := congrArg BitVec.toNat low
  rw [BitVec.toNat_and, show (0xFFF#64).toNat = 2 ^ 12 - 1 from rfl, Nat.and_two_pow_sub_one_eq_mod] at mask
  exact mask

/-! The page tables of all address spaces. -/

namespace Machine

variable {machine after : Machine σ depth} {root other frame : PAddr} {link : Link}
  {table : Table depth}

/-- How many tables of the lower half of an address space live in a frame. -/
def tableCount (machine : Machine σ depth) (root frame : PAddr) : Nat :=
  match machine.spaces root with
  | .absent => 0
  | .node link table => (if link.frame = frame then 1 else 0) + Table.userCount table frame

def IsTable (machine : Machine σ depth) (frame : PAddr) : Prop :=
  ∃ root, 0 < machine.tableCount root frame

section

omit [FrameAllocator σ]

theorem tableCount_node (space : machine.spaces root = .node link table) (frame : PAddr) :
    machine.tableCount root frame = (if link.frame = frame then 1 else 0) + table.userCount frame := by
  simp only [tableCount, space]

theorem entry_node (space : machine.spaces root = .node link table) (page : Nat) :
    machine.entry root page = table.query page := by
  rw [entry, space, node_get]

theorem alive_node (alive : machine.alive root = true) :
    ∃ link, ∃ table : Table depth, machine.spaces root = .node link table := by
  rw [Machine.alive] at alive
  split at alive
  · contradiction
  · rename_i link table space
    exact ⟨link, table, space⟩

end

structure Tables (machine : Machine σ depth) : Prop where
  link : ∀ {root link table}, machine.spaces root = .node link table → link = ⟨root, true⟩
  shape : ∀ {root link table}, machine.spaces root = .node link table → UserRoot table
  atMostOne : ∀ root frame, machine.tableCount root frame ≤ 1
  apart : ∀ {root other frame}, root ≠ other → 0 < machine.tableCount root frame → machine.tableCount other frame = 0
  live : ∀ {root frame}, 0 < machine.tableCount root frame → machine.frames.Live frame

def besides (machine : Machine σ depth) (root frame : PAddr) : Prop :=
  machine.frames.Live frame ∧ machine.tableCount root frame = 0

theorem Tables.owned (tables : machine.Tables) (space : machine.spaces root = .node link table) :
    Owned (fun frame => (if link.frame = frame then 1 else 0) + table.userCount frame)
      machine.frames (machine.besides root) := by
  refine ⟨fun frame => ?_, fun frame => ?_, fun frame one claimed => ?_⟩
  · rw [← tableCount_node space]
    exact tables.atMostOne root frame
  · rw [← tableCount_node space]
    have bound := tables.atMostOne root frame
    constructor
    · intro live
      by_cases zero : machine.tableCount root frame = 0
      · exact .inr ⟨live, zero⟩
      · exact .inl (by omega)
    · rintro (one | ⟨live, _⟩)
      · exact tables.live (show 0 < machine.tableCount root frame by omega)
      · exact live
  · rw [← tableCount_node space] at one
    have zero := claimed.2
    omega

theorem besides_eq {rest : PAddr → Prop} (space : machine.spaces root = .node link table)
    (owned : Owned (fun frame => (if link.frame = frame then 1 else 0) + table.userCount frame)
      machine.frames rest) : machine.besides root = rest := by
  funext frame
  have bound := owned.atMostOne frame
  have live := owned.live frame
  have apart := owned.apart frame
  rw [← tableCount_node space] at bound live apart
  rw [besides, live]
  refine propext ⟨?_, fun claimed => ⟨.inr claimed, ?_⟩⟩
  · rintro ⟨one | claimed, zero⟩
    · omega
    · exact claimed
  · by_contra used
    exact apart (by omega) claimed

variable {tree : Tree (depth + 1)}

/-- The page tables of one address space change, appear or go away, and everything
else that was live stays. -/
theorem Tables.put (tables : machine.Tables) (spaces : after.spaces = update machine.spaces root tree)
    (shape : ∀ {link table}, tree = .node link table → link = ⟨root, true⟩ ∧ UserRoot table)
    (owned : Owned (after.tableCount root) after.frames (machine.besides root)) : after.Tables := by
  have here : after.spaces root = tree := by rw [spaces, update_self]
  have elsewhere : ∀ {other}, other ≠ root → after.spaces other = machine.spaces other := by
    intro other different
    rw [spaces, update_of_ne different]
  have there : ∀ {other}, other ≠ root → ∀ frame, after.tableCount other frame = machine.tableCount other frame := by
    intro other different frame
    rw [tableCount, tableCount, elsewhere different]
  have kept : ∀ {other frame}, other ≠ root → 0 < machine.tableCount other frame → machine.besides root frame :=
    fun different used => ⟨tables.live used, tables.apart different used⟩
  have clear : ∀ {frame}, machine.besides root frame → after.tableCount root frame = 0 := by
    intro frame claimed
    have bound := owned.atMostOne frame
    have apart := mt (owned.apart frame) (not_not_intro claimed)
    omega
  refine ⟨fun {other link table} space => ?_, fun {other link table} space => ?_, fun other frame => ?_,
    fun {first second frame} different used => ?_, fun {other frame} used => ?_⟩
  · by_cases same : other = root
    · subst same
      exact (shape (here.symm.trans space)).1
    · exact tables.link (elsewhere same ▸ space)
  · by_cases same : other = root
    · subst same
      exact (shape (here.symm.trans space)).2
    · exact tables.shape (elsewhere same ▸ space)
  · by_cases same : other = root
    · rw [same]
      exact owned.atMostOne frame
    · rw [there same]
      exact tables.atMostOne other frame
  · by_cases isFirst : first = root
    · subst isFirst
      rw [there (Ne.symm different)]
      by_contra also
      rw [clear (kept (Ne.symm different) (Nat.pos_of_ne_zero also))] at used
      exact Nat.lt_irrefl 0 used
    · rw [there isFirst] at used
      by_cases isSecond : second = root
      · rw [isSecond]
        exact clear (kept isFirst used)
      · rw [there isSecond]
        exact tables.apart different used
  · by_cases same : other = root
    · rw [same] at used
      have bound := owned.atMostOne frame
      exact (owned.live frame).mpr (.inl (by omega))
    · rw [there same] at used
      exact (owned.live frame).mpr (.inr (kept same used))

/-- A live frame that is no page table. -/
def Loose (machine : Machine σ depth) (frame : PAddr) : Prop :=
  machine.frames.Live frame ∧ ¬ machine.IsTable frame

theorem loose_put (spaces : after.spaces = update machine.spaces root tree)
    (owned : Owned (after.tableCount root) after.frames (machine.besides root)) (frame : PAddr) :
    after.Loose frame ↔ machine.Loose frame := by
  have there : ∀ {other}, other ≠ root → after.tableCount other frame = machine.tableCount other frame := by
    intro other different
    rw [tableCount, spaces, update_of_ne different]
    rfl
  have bound := owned.atMostOne frame
  have live := owned.live frame
  have apart := owned.apart frame
  constructor
  · rintro ⟨isLive, noTable⟩
    have zero : after.tableCount root frame = 0 := by
      by_contra used
      exact noTable ⟨root, Nat.pos_of_ne_zero used⟩
    obtain ⟨wasLive, none⟩ := (live.mp isLive).resolve_left (by omega)
    refine ⟨wasLive, ?_⟩
    rintro ⟨other, used⟩
    have different : other ≠ root := by
      rintro rfl
      omega
    exact noTable ⟨other, by rw [there different]; exact used⟩
  · rintro ⟨wasLive, noTable⟩
    have claimed : machine.besides root frame :=
      ⟨wasLive, Nat.eq_zero_of_not_pos fun used => noTable ⟨root, used⟩⟩
    refine ⟨live.mpr (.inr claimed), ?_⟩
    rintro ⟨other, used⟩
    by_cases same : other = root
    · subst same
      exact apart (by omega) claimed
    · rw [there same] at used
      exact noTable ⟨other, used⟩

theorem Tables.replace (tables : machine.Tables) (space : machine.spaces root = .node link table)
    {changed : Table depth}
    (spaces : after.spaces = update machine.spaces root (.node link changed))
    (shape : UserRoot changed)
    (owned : Owned (fun frame => (if link.frame = frame then 1 else 0) + changed.userCount frame)
      after.frames (machine.besides root)) :
    after.Tables ∧ ∀ frame, after.Loose frame ↔ machine.Loose frame := by
  have count : after.tableCount root = fun frame => (if link.frame = frame then 1 else 0) + changed.userCount frame :=
    funext (tableCount_node (by rw [spaces, update_self]))
  rw [← count] at owned
  refine ⟨tables.put spaces ?_ owned, loose_put spaces owned⟩
  rintro _ _ ⟨⟩
  exact ⟨tables.link space, shape⟩

section

omit [FrameAllocator σ]

section

variable (spaces : after.spaces = machine.spaces)
include spaces

theorem tableCount_congr : after.tableCount = machine.tableCount := by
  funext root frame
  rw [tableCount, tableCount, spaces]

theorem isTable_congr : after.IsTable frame ↔ machine.IsTable frame := by
  rw [IsTable, IsTable, tableCount_congr spaces]

theorem entry_congr : after.entry = machine.entry := by
  funext root page
  rw [entry, entry, spaces]

end

end

/-- `walk_page_table` finds the last-level entry of a page. -/
def Reaches (machine : Machine σ depth) (root : PAddr) (page : Nat) : Prop :=
  ((machine.spaces root).get page).isSome = true

variable {page : Nat}

section

omit [FrameAllocator σ]

theorem reaches_of_present (present : has (machine.entry root page) pagePresent = true) :
    machine.Reaches root page := by
  rw [Reaches]
  cases found : (machine.spaces root).get page with
  | none => simp [entry, found] at present
  | some word => rfl

theorem Reaches.node {page : Nat} (reached : machine.Reaches root page) :
    ∃ link, ∃ table : Table depth, machine.spaces root = .node link table := by
  rw [Reaches] at reached
  cases space : machine.spaces root with
  | absent => simp [space, Radix.get] at reached
  | node link table => exact ⟨link, table, rfl⟩

theorem alive_of_present (present : has (machine.entry root page) pagePresent = true) : machine.alive root = true := by
  obtain ⟨link, table, space⟩ := (reaches_of_present present).node
  rw [alive, space]
  rfl

theorem entry_absent (absent : machine.spaces root = .absent) (page : Nat) : machine.entry root page = 0#64 := by
  rw [entry, absent]
  rfl

theorem entry_dead (dead : machine.alive root = false) (page : Nat) : machine.entry root page = 0#64 := by
  refine entry_absent ?_ page
  by_contra space
  rw [alive_iff.mpr space] at dead
  contradiction

theorem entry_writeEntry (reached : machine.Reaches root page) (word : Word) (other : PAddr) (number : Nat) :
    (machine.writeEntry root page word).entry other number =
      if other = root ∧ SamePage depth page number then word else machine.entry other number := by
  by_cases same : other = root
  · subst same
    simp only [entry, writeEntry, update_self, Radix.get_set, true_and]
    by_cases here : SamePage depth page number
    · rw [Reaches, Radix.get_congr _ here, Option.isSome_iff_exists] at reached
      obtain ⟨old, found⟩ := reached
      simp [here, found]
    · simp [here]
  · simp [entry, writeEntry, same]

end

variable {number : Nat}

section

omit [FrameAllocator σ]

theorem reaches_writeEntry (word : Word) {place : PAddr} :
    (machine.writeEntry root page word).Reaches place number ↔ machine.Reaches place number := by
  by_cases same : place = root
  · subst same
    simp only [Reaches, Machine.writeEntry, update_self, Radix.get_set]
    split
    · rw [Option.isSome_map]
    · rfl
  · simp [Reaches, Machine.writeEntry, same]

theorem entry_samePage (same : SamePage depth page number) : machine.entry root page = machine.entry root number := by
  rw [entry, entry, Radix.get_congr _ same]

theorem writeEntry_samePage (same : SamePage depth page number) (word : Word) :
    machine.writeEntry root page word = machine.writeEntry root number word := by
  rw [Machine.writeEntry, Machine.writeEntry, Radix.set_congr _ same]

end

theorem Tables.lowPage_of_cow (tables : machine.Tables) (present : has (machine.entry root page) pagePresent = true)
    (cow : has (machine.entry root page) pageCow = true) : LowPage depth page := by
  by_contra high
  obtain ⟨link, table, space⟩ := (reaches_of_present present).node
  have plain := ((tables.shape space).kernel page high).2
  rw [← entry_node space, cow] at plain
  contradiction

omit [FrameAllocator σ] in
theorem tableCount_writeEntry (low : LowPage depth page) (word : Word) :
    (machine.writeEntry root page word).tableCount = machine.tableCount := by
  funext place frame
  by_cases same : place = root
  · subst same
    simp only [tableCount, Machine.writeEntry, update_self]
    cases space : machine.spaces place with
    | absent => rfl
    | node link table =>
      simp only [Radix.set]
      exact congrArg _ (userCount_write table low word frame)
  · simp only [tableCount, Machine.writeEntry, update_of_ne same]

section

variable (tables : machine.Tables)
include tables

theorem Tables.writeEntry (low : LowPage depth page) (reached : machine.Reaches root page) (word : Word) :
    (machine.writeEntry root page word).Tables ∧
      ∀ frame, (machine.writeEntry root page word).Loose frame ↔ machine.Loose frame := by
  obtain ⟨link, table, space⟩ := reached.node
  have spaces : (machine.writeEntry root page word).spaces =
      update machine.spaces root (.node link (table.write page word)) := by
    rw [Machine.writeEntry, space]
    rfl
  have owned := tables.owned space
  simp only [← userCount_write table low word] at owned
  exact tables.replace space spaces ((tables.shape space).write low word) owned

section

variable (spaces : after.spaces = machine.spaces)
include spaces

theorem Tables.frames (live : ∀ frame, machine.IsTable frame → after.frames.Live frame) : after.Tables := by
  have count := tableCount_congr spaces
  refine ⟨?_, ?_, ?_, ?_, ?_⟩
  · rw [spaces]
    exact tables.link
  · rw [spaces]
    exact tables.shape
  · rw [count]
    exact tables.atMostOne
  · rw [count]
    exact tables.apart
  · rw [count]
    exact fun {root frame} used => live frame ⟨root, used⟩

theorem Tables.congr (frames : after.frames = machine.frames) :
    after.Tables ∧ ∀ frame, after.Loose frame ↔ machine.Loose frame := by
  refine ⟨tables.frames spaces ?_, fun frame => ?_⟩
  · rintro frame ⟨root, used⟩
    rw [frames]
    exact tables.live used
  · rw [Loose, Loose, frames, isTable_congr spaces]

theorem Tables.alloc (taken : machine.frames.pmmAlloc = some (frame, after.frames)) :
    after.Tables ∧ ∀ other, after.Loose other ↔ other = frame ∨ machine.Loose other := by
  have fresh := Frames.pmmAlloc_fresh taken
  refine ⟨tables.frames spaces ?_, fun other => ?_⟩
  · rintro other ⟨root, used⟩
    exact (Frames.pmmAlloc_live taken).mpr (.inr (tables.live used))
  · rw [Loose, Loose, Frames.pmmAlloc_live taken, isTable_congr spaces]
    constructor
    · rintro ⟨same | live, noTable⟩
      · exact .inl same
      · exact .inr ⟨live, noTable⟩
    · rintro (rfl | ⟨live, noTable⟩)
      · exact ⟨.inl rfl, fun ⟨root, used⟩ => fresh (tables.live used)⟩
      · exact ⟨.inr live, noTable⟩

theorem Tables.free (loose : machine.Loose frame) (freed : after.frames = machine.frames.pmmFree frame) :
    after.Tables ∧ ∀ other, after.Loose other ↔ other ≠ frame ∧ machine.Loose other := by
  refine ⟨tables.frames spaces ?_, fun other => ?_⟩
  · rintro other ⟨root, used⟩
    rw [freed, Frames.pmmFree_live]
    refine ⟨?_, tables.live used⟩
    rintro rfl
    exact loose.2 ⟨root, used⟩
  · rw [Loose, Loose, freed, Frames.pmmFree_live, isTable_congr spaces, and_assoc]

end

end

/-! The ledger of user frames: a slot is a page of an address space. -/

/-- What an entry says about the frame it maps. An entry with neither bit maps a
frame that it does not account for. -/
def holding (word : Word) : Option (Holding PAddr) :=
  if has word pagePresent then
    if has word pageSharedRef then some ⟨frameOf word, true⟩
    else if has word pageOwned then some ⟨frameOf word, false⟩
    else none
  else none

def ledger (machine : Machine σ depth) : Ledger (PAddr × Nat) PAddr where
  slot place := if UserPage depth place.2 then holding (machine.entry place.1 place.2) else none
  count := machine.share

section

omit [FrameAllocator σ]

@[simp] theorem ledger_count : machine.ledger.count = machine.share := rfl

def Held (machine : Machine σ depth) (frame : PAddr) : Prop := (machine.ledger.holders frame).Nonempty

theorem slot_user (machine : Machine σ depth) (root : PAddr) (user : UserPage depth page) :
    machine.ledger.slot (root, page) = holding (machine.entry root page) := if_pos user

theorem slot_some {held : Holding PAddr} (slot : machine.ledger.slot (root, page) = some held) :
    UserPage depth page ∧ holding (machine.entry root page) = some held := by
  by_cases user : UserPage depth page
  · exact ⟨user, by rwa [slot_user machine root user] at slot⟩
  · simp [ledger, user] at slot

theorem ledger_entries (entries : ∀ place {page}, UserPage depth page →
    after.entry place page = machine.entry place page) (share : after.share = machine.share) :
    after.ledger = machine.ledger := by
  have slots : after.ledger.slot = machine.ledger.slot := by
    funext ⟨place, page⟩
    by_cases user : UserPage depth page
    · rw [slot_user after place user, slot_user machine place user, entries place user]
    · exact (if_neg user).trans (if_neg user).symm
  rw [show after.ledger = ⟨after.ledger.slot, after.share⟩ from rfl, slots, share]
  rfl

theorem slots_update (user : UserPage depth page)
    (elsewhere : ∀ place number, UserPage depth number → ¬ (place = root ∧ number = page) →
      after.entry place number = machine.entry place number) :
    after.ledger.slot = update machine.ledger.slot (root, page) (holding (after.entry root page)) := by
  funext ⟨place, number⟩
  by_cases here : place = root ∧ number = page
  · obtain ⟨rfl, rfl⟩ := here
    rw [update_self, slot_user after place user]
  · rw [update_of_ne (by simpa using here)]
    by_cases low : UserPage depth number
    · rw [slot_user after place low, slot_user machine place low, elsewhere place number low here]
    · simp only [ledger, low, if_false]

theorem slots_writeEntry (user : UserPage depth page) (reached : machine.Reaches root page)
    (word : Word) : (machine.writeEntry root page word).ledger.slot =
      update machine.ledger.slot (root, page) (holding word) := by
  have written := entry_writeEntry reached word
  have changed : (machine.writeEntry root page word).ledger.slot = update machine.ledger.slot
      (root, page) (holding ((machine.writeEntry root page word).entry root page)) :=
    slots_update user fun place number low other => by
      rw [written, if_neg]
      rwa [user.samePage low, @eq_comm _ page]
  rw [changed, written, if_pos ⟨rfl, rfl⟩]

end

/-- What the flags of an entry say about how it accounts for its frame. -/
structure EntryOk (word : Word) : Prop where
  clear : has word pagePresent = false → word = 0#64
  shared : has word pagePresent = true → has word pageSharedRef = true →
    has word pageCow = true ∧ has word pagePinned = false
  sole : has word pagePresent = true → has word pageOwned = true → has word pageSharedRef = false →
    has word pageCow = false

theorem entryOk_zero : EntryOk 0#64 := ⟨by simp, by simp, by simp⟩

theorem holding_zero : holding 0#64 = none := by simp [holding]

omit [FrameAllocator σ] in
theorem entries_writeEntry (reached : machine.Reaches root page) {word : Word} (ok : EntryOk word)
    (before : ∀ root {page}, UserPage depth page → EntryOk (machine.entry root page)) (place : PAddr) {number : Nat} (user : UserPage depth number) :
    EntryOk ((machine.writeEntry root page word).entry place number) := by
  rw [entry_writeEntry reached]
  split
  · exact ok
  · exact before place user

/-- All live frames are page tables, frames the family holds, or somebody else's,
and every count is right. A frame has the same page in every address space. -/
structure Family (outside : PAddr → Prop) (machine : Machine σ depth) : Prop where
  tables : machine.Tables
  accounts : machine.ledger.Accounts machine.Loose outside
  entries : ∀ root {page}, UserPage depth page → EntryOk (machine.entry root page)
  home : ∀ {frame first second}, first ∈ machine.ledger.holders frame →
    second ∈ machine.ledger.holders frame → first.2 = second.2

namespace Family

variable {outside : PAddr → Prop} {page : Nat} {np : PAddr}

section

variable (family : machine.Family outside)
include family

theorem sound : machine.ledger.Sound := family.accounts.sound

theorem loose (frame : PAddr) : machine.Loose frame ↔ machine.Held frame ∨ outside frame := family.accounts.live frame

theorem heldOutside (held : machine.Held frame) : ¬ outside frame :=
  family.accounts.apart held

end

omit [FrameAllocator σ] in
theorem ledger_congr (spaces : after.spaces = machine.spaces) (share : after.share = machine.share) :
    after.ledger = machine.ledger := by
  rw [ledger, ledger, entry_congr spaces, share]

theorem alloc (family : machine.Family outside) (spaces : after.spaces = machine.spaces)
    (share : after.share = machine.share)
    (taken : machine.frames.pmmAlloc = some (np, after.frames)) :
    after.Family fun frame => frame = np ∨ outside frame := by
  obtain ⟨tables, loose⟩ := family.tables.alloc spaces taken
  have ledger := ledger_congr spaces share
  refine ⟨tables, ?_, fun root page user => ?_, ?_⟩
  · rw [ledger]
    exact family.accounts.take (fun loose => Frames.pmmAlloc_fresh taken loose.1) loose
  · rw [entry_congr spaces]
    exact family.entries root user
  · rw [ledger]
    exact family.home

theorem free (family : machine.Family fun frame => frame = np ∨ outside frame)
    (spaces : after.spaces = machine.spaces) (share : after.share = machine.share)
    (spare : ¬ outside np) (freed : after.frames = machine.frames.pmmFree np) :
    after.Family outside := by
  obtain ⟨tables, loose⟩ := family.tables.free spaces ((family.loose np).mpr (.inr (.inl rfl))) freed
  have ledger := ledger_congr spaces share
  refine ⟨tables, ?_, fun root page user => ?_, ?_⟩
  · rw [ledger]
    exact family.accounts.give spare loose
  · rw [entry_congr spaces]
    exact family.entries root user
  · rw [ledger]
    exact family.home

theorem retable (family : machine.Family outside) (tables : after.Tables)
    (loose : ∀ frame, after.Loose frame ↔ machine.Loose frame) (ledger : after.ledger = machine.ledger)
    (entries : ∀ root {page}, UserPage depth page → EntryOk (after.entry root page)) :
    after.Family outside := by
  have same : after.Loose = machine.Loose := funext fun frame => propext (loose frame)
  refine ⟨tables, ?_, entries, ?_⟩
  · rw [ledger, same]
    exact family.accounts
  · rw [ledger]
    exact family.home

theorem congr (family : machine.Family outside) (spaces : after.spaces = machine.spaces)
    (frames : after.frames = machine.frames) (share : after.share = machine.share) :
    after.Family outside := by
  obtain ⟨tables, loose⟩ := family.tables.congr spaces frames
  refine family.retable tables loose (ledger_congr spaces share) fun root page user => ?_
  rw [entry_congr spaces]
  exact family.entries root user

theorem adopt (family : machine.Family fun frame => frame = np ∨ outside frame)
    (spare : ¬ outside np) (tables : after.Tables)
    (loose : ∀ frame, after.Loose frame ↔ machine.Loose frame) (share : after.share = machine.share)
    (empty : machine.ledger.slot (root, page) = none)
    (slots : after.ledger.slot = update machine.ledger.slot (root, page) (some ⟨np, false⟩))
    (entries : ∀ root {page}, UserPage depth page → EntryOk (after.entry root page)) :
    after.Family outside := by
  have ledger : after.ledger = machine.ledger.acquire (root, page) np := by
    rw [Ledger.acquire, ← slots, ← show after.ledger.count = machine.ledger.count from share]
  have same : after.Loose = machine.Loose := funext fun frame => propext (loose frame)
  obtain ⟨accounts, here, there⟩ := family.accounts.acquire spare empty
  refine ⟨tables, ?_, entries, fun {frame first second} => ?_⟩
  · rw [ledger, same]
    exact accounts
  · rw [ledger]
    by_cases isNew : frame = np
    · rw [isNew, here]
      rintro rfl rfl
      rfl
    · rw [there frame isNew]
      exact family.home

theorem share (family : machine.Family outside) {src dst : PAddr} {counted : Bool}
    (held : machine.ledger.slot (src, page) = some ⟨frame, counted⟩)
    (empty : machine.ledger.slot (dst, page) = none) (tables : after.Tables)
    (loose : ∀ frame, after.Loose frame ↔ machine.Loose frame)
    (ledger : after.ledger = machine.ledger.share (src, page) (dst, page))
    (entries : ∀ root {page}, UserPage depth page → EntryOk (after.entry root page)) :
    after.Family outside := by
  obtain ⟨here, there⟩ := Ledger.share_holders held empty
  have source : (src, page) ∈ machine.ledger.holders frame := Ledger.mem_holders.mpr ⟨counted, held⟩
  have same : after.Loose = machine.Loose := funext fun frame => propext (loose frame)
  refine ⟨tables, ?_, entries, fun {other first second} => ?_⟩
  · rw [ledger, same]
    exact family.accounts.share held empty
  · rw [ledger]
    by_cases isFrame : other = frame
    · rw [isFrame, here]
      rintro (rfl | first) (rfl | second)
      · rfl
      · exact (family.home source second : page = _)
      · exact (family.home first source : _ = page)
      · exact family.home first second
    · rw [there other isFrame]
      exact family.home

theorem loose_release (family : machine.Family outside) (place : PAddr × Nat) (spaces : after.spaces = machine.spaces)
    (frames : after.frames = (machine.ledger.release place).1.elim machine.frames machine.frames.pmmFree) :
    after.Tables ∧
      ∀ other, after.Loose other ↔ (machine.ledger.release place).1 ≠ some other ∧ machine.Loose other := by
  cases freed : (machine.ledger.release place).1 with
  | none =>
    rw [freed] at frames
    obtain ⟨tables, loose⟩ := family.tables.congr spaces frames
    exact ⟨tables, fun other => by simp [loose other]⟩
  | some old =>
    rw [freed] at frames
    obtain ⟨member, -⟩ := family.sound.release_freed freed
    obtain ⟨tables, loose⟩ := family.tables.free spaces ((family.loose old).mpr (.inl ⟨_, member⟩)) frames
    exact ⟨tables, fun other => by rw [loose other, ne_eq, ne_eq, Option.some.injEq, eq_comm]⟩

variable {word : Word}

theorem drop (family : machine.Family outside) (user : UserPage depth page)
    (reached : machine.Reaches root page) (nothing : holding word = none)
    (ok : EntryOk word) (spaces : after.spaces = (machine.writeEntry root page word).spaces)
    (count : after.share = (machine.ledger.release (root, page)).2.count)
    (frames : after.frames = ((machine.ledger.release (root, page)).1.elim machine.frames machine.frames.pmmFree)) :
    after.Family outside ∧ ∀ frame, after.ledger.holders frame = machine.ledger.holders frame \ {(root, page)} := by
  have slots : after.ledger.slot = update machine.ledger.slot (root, page) none := by
    rw [← nothing, ← slots_writeEntry user reached, ledger, ledger, entry_congr spaces]
  have ledger : after.ledger = (machine.ledger.release (root, page)).2 := by
    change (⟨after.ledger.slot, after.share⟩ : Ledger (PAddr × Nat) PAddr) = _
    rw [slots, count, ← Ledger.release_slot]
  have holders : ∀ frame, after.ledger.holders frame = machine.ledger.holders frame \ {(root, page)} :=
    fun frame => by rw [ledger, Ledger.release_holders]
  -- first the frame, then the entry
  let given : Machine σ depth := { machine with frames := after.frames, share := after.share }
  obtain ⟨tablesGiven, looseGiven⟩ : given.Tables ∧ ∀ other, given.Loose other ↔
      (machine.ledger.release (root, page)).1 ≠ some other ∧ machine.Loose other :=
    family.loose_release (root, page) rfl frames
  obtain ⟨tablesWritten, looseWritten⟩ := tablesGiven.writeEntry user.2 (show given.Reaches root page from reached) word
  obtain ⟨tables, loose⟩ := tablesWritten.congr spaces rfl
  refine ⟨⟨tables, ?_, fun place number low => ?_, fun {frame first second} => ?_⟩, holders⟩
  · rw [ledger]
    exact family.accounts.release (root, page) fun other =>
      (loose other).trans ((looseWritten other).trans (looseGiven other))
  · rw [entry_congr spaces]
    exact entries_writeEntry reached ok family.entries place low
  · rw [holders]
    exact fun first second => family.home first.1 second.1

theorem exchange (family : machine.Family fun frame => frame = np ∨ outside frame)
    (spare : ¬ outside np) (user : UserPage depth page) (reached : machine.Reaches root page) (holds : holding word = some ⟨np, false⟩) (ok : EntryOk word)
    (spaces : after.spaces = (machine.writeEntry root page word).spaces)
    (count : after.share = (machine.ledger.release (root, page)).2.count)
    (frames : after.frames = ((machine.ledger.release (root, page)).1.elim machine.frames machine.frames.pmmFree)) :
    after.Family outside ∧
      ∀ frame, after.Held frame → frame = np ∨ (machine.ledger.holders frame \ {(root, page)}).Nonempty := by
  let dropped : Machine σ depth := { after with spaces := (machine.writeEntry root page 0#64).spaces }
  obtain ⟨family, holders⟩ : dropped.Family (fun frame => frame = np ∨ outside frame) ∧
      ∀ frame, dropped.ledger.holders frame = machine.ledger.holders frame \ {(root, page)} :=
    family.drop user reached holding_zero entryOk_zero rfl count frames
  have reachedDropped : dropped.Reaches root page := (reaches_writeEntry (0#64)).mpr reached
  have again : dropped.writeEntry root page word = after := by
    have twice : (dropped.writeEntry root page word).spaces = after.spaces := by
      simp [dropped, Machine.writeEntry, spaces, Radix.set_set]
    change { after with spaces := (dropped.writeEntry root page word).spaces } = after
    rw [twice]
  have empty : dropped.ledger.slot (root, page) = none := by
    have zero : dropped.entry root page = 0#64 :=
      (entry_writeEntry reached 0#64 root page).trans (if_pos ⟨rfl, rfl⟩)
    rw [slot_user _ _ user, zero, holding_zero]
  have slots := slots_writeEntry user reachedDropped word
  obtain ⟨tables, loose⟩ := family.tables.writeEntry user.2 reachedDropped word
  have entries : ∀ place {number}, UserPage depth number →
      EntryOk ((dropped.writeEntry root page word).entry place number) :=
    entries_writeEntry reachedDropped ok family.entries
  rw [again] at slots tables loose entries
  rw [holds] at slots
  refine ⟨family.adopt spare tables loose rfl empty slots entries, ?_⟩
  rintro frame ⟨place, counted, held⟩
  rw [slots] at held
  by_cases same : place = (root, page)
  · subst same
    rw [update_self, Option.some.injEq, Holding.mk.injEq] at held
    exact .inl held.1.symm
  · rw [update_of_ne same] at held
    exact .inr ⟨place, holders frame ▸ Ledger.mem_holders.mpr ⟨counted, held⟩⟩

end Family

end Machine

end NyonOS.Paging
