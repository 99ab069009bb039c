import NyonOS.Data.Traverse
import NyonOS.Paging.Resolve

namespace NyonOS.Paging

open Data Machine Function List Nat

/-! Tearing an address space down. -/

variable {σ : Type} [FrameAllocator σ] {depth : Nat}

/-- The body of `release_shared_frames` at level 1. -/
def releasePage (_ : Nat) (entry : Word) (now : Frames σ × (PAddr → Nat)) : Bool × Word × (Frames σ × (PAddr → Nat)) :=
  if !has entry pagePresent then (true, entry, now)
  else (true, entry, releaseShared entry now.1 now.2)

/-- The body of `reclaim_owned_frames` at level 1. -/
def reclaimPage (_ : Nat) (entry : Word) (frames : Frames σ) : Bool × Word × Frames σ :=
  if !has entry pagePresent then (true, entry, frames)
  else if has entry pageCow then (true, 0#64, frames)
  else if has entry pageOwned then (true, 0#64, frames.pmmFree (frameOf entry))
  else (true, 0#64, frames)

def tableFreeable : {depth : Nat} → Table depth → Bool
  | 0, table => tableIsEmpty table
  | _ + 1, table => tableIsEmpty table || (List.finRange 512).all fun index =>
    match table index with
    | .absent => true
    | .node _ child => tableFreeable child

/-- `table_free` of the table in `frame`. -/
def tableFree : {depth : Nat} → PAddr → Table depth → Frames σ → Frames σ
  | 0, frame, _, frames => frames.pmmFree frame
  | _ + 1, frame, table, frames =>
    ((List.finRange 512).foldl (fun now index =>
      match table index with
      | .absent => now
      | .node link child => tableFree link.frame child now) frames).pmmFree frame

structure Teardown (σ : Type) (depth : Nat) where
  table : Table depth
  frames : Frames σ
  share : PAddr → Nat
  stranded : Nat

/-- One iteration of `vmm_destroy_address_space`; it answers whether the subtree is
gone. A top-level table is of level 4 or 5, so its entries are never pages. -/
def destroySlot : {depth : Nat} → Tree depth → Nat → Frames σ → (PAddr → Nat) →
    Bool × Tree depth × Frames σ × (PAddr → Nat)
  | 0, slot, _, frames, share => (true, slot, frames, share)
  | _ + 1, .absent, _, frames, share => (true, .absent, frames, share)
  | _ + 1, .node link table, base, frames, share =>
    let released := (Radix.node link table).traverse (fun _ => true) releasePage base (frames, share)
    let reclaimed := released.2.1.traverse (fun _ => true) reclaimPage base released.2.2.1
    match reclaimed.2.1 with
    | .absent => (true, .absent, reclaimed.2.2, released.2.2.2)
    | .node link table =>
      if !tableFreeable table then (false, .node link table, reclaimed.2.2, released.2.2.2)
      else (true, .absent, tableFree link.frame table reclaimed.2.2, released.2.2.2)

/-- The index of a slot of the lower half. -/
def lowIndex (index : Fin 256) : Fin 512 := index.castLE (by decide)

/-- The number of the first page below that slot. -/
def firstPage (depth : Nat) (index : Fin 256) : Nat := index.val * 512 ^ depth

def destroyStep (now : Teardown σ depth) (index : Fin 256) : Teardown σ depth :=
  let done := destroySlot (now.table (lowIndex index)) (firstPage depth index) now.frames now.share
  { table := update now.table (lowIndex index) done.2.1
    frames := done.2.2.1
    share := done.2.2.2
    stranded := if done.1 then now.stranded else now.stranded + 1 }

def vmmDestroyAddressSpace (root : PAddr) (machine : Machine σ depth) : Machine σ depth :=
  match machine.spaces root with
  | .absent => machine
  | .node link table =>
    let done := (List.finRange 256).foldl destroyStep
      { table, frames := machine.frames, share := machine.share, stranded := 0 }
    if done.stranded ≠ 0 then
      { machine with
        spaces := update machine.spaces root (.node link done.table)
        frames := done.frames
        share := done.share }
    else
      { machine with
        spaces := update machine.spaces root .absent
        frames := done.frames.pmmFree root
        share := done.share }

theorem vmmDestroyAddressSpace_kernelPml4 (root : PAddr) (machine : Machine σ depth) :
    (vmmDestroyAddressSpace root machine).kernelPml4 = machine.kernelPml4 := by
  unfold vmmDestroyAddressSpace
  split
  · rfl
  · dsimp only
    split <;> rfl

/-! Giving the tables back. -/

theorem count_leaves (table : Table 0) (frame : PAddr) : table.count frame = 0 := by
  unfold Table.count
  apply Finset.sum_eq_zero
  intro index _
  cases table index
  rfl

theorem tableFree_owned {extra : PAddr → Nat} {rest : PAddr → Prop} (frame : PAddr)
    (table : Table depth) {frames : Frames σ}
    (owned : Owned (fun other => extra other + ((if frame = other then 1 else 0) + table.count other)) frames rest) :
    Owned extra (tableFree frame table frames) rest ∧ frames.Uses rest (tableFree frame table frames) := by
  induction depth generalizing frame frames extra with
  | zero =>
    simp only [count_leaves, Nat.add_zero] at owned
    obtain ⟨live, spare, after⟩ := owned.free
    exact ⟨after, .free .refl live spare⟩
  | succ depth ih =>
    -- the loop over the entries, with the entries already visited blanked out
    have loop : ∀ (indices : List (Fin 512)) (left : Table (depth + 1)) (frames : Frames σ),
        indices.Nodup → (∀ index ∈ indices, left index = table index) →
        (∀ index, index ∉ indices → left index = blank (depth + 1)) →
        Owned (fun other => extra other + ((if frame = other then 1 else 0) + left.count other)) frames rest →
        let freed := indices.foldl (fun now index => match table index with
          | .absent => now
          | .node link child => tableFree link.frame child now) frames
        Owned (fun other => extra other + if frame = other then 1 else 0) freed rest ∧ frames.Uses rest freed := by
      intro indices
      induction indices with
      | nil =>
        intro left frames _ _ done owned
        have none : left = fun _ => blank (depth + 1) := funext fun index => done index (by simp)
        simp only [none, blank_count, Nat.add_zero] at owned
        exact ⟨owned, .refl⟩
      | cons index indices ihList =>
        intro left frames nodup pending done owned
        obtain ⟨fresh, nodup⟩ := nodup_cons.mp nodup
        have here := pending index (by simp)
        have later : ∀ other ∈ indices, update left index (blank (depth + 1)) other = table other := by
          intro other member
          have different : other ≠ index := fun same => fresh (same ▸ member)
          rw [update_of_ne different]
          exact pending other (by simp [member])
        have earlier : ∀ other, other ∉ indices → update left index (blank (depth + 1)) other = blank (depth + 1) := by
          intro other notLater
          by_cases same : other = index
          · rw [same, update_self]
          · rw [update_of_ne same]
            exact done other (by simp [same, notLater])
        have split : ∀ other, left.count other = Table.count (update left index (blank (depth + 1))) other +
              (table index).weight fun link => if link.frame = other then 1 else 0 := by
          intro other
          rw [count_split left index other, here]
          rfl
        cases entry : table index with
        | absent =>
          have same : update left index (blank (depth + 1)) = left := by
            rw [show blank (depth + 1) = left index from (here.trans entry).symm, update_eq_self]
          rw [same] at later earlier
          simpa only [List.foldl_cons, entry] using ihList left frames nodup later earlier owned
        | node link child =>
          simp only [split, entry, node_weight] at owned
          have regroup : (fun other => extra other + ((if frame = other then 1 else 0) +
              (Table.count (update left index (blank (depth + 1))) other +
                ((if link.frame = other then 1 else 0) + Table.count child other)))) =
              fun other => (extra other + ((if frame = other then 1 else 0) +
                Table.count (update left index (blank (depth + 1))) other)) +
                ((if link.frame = other then 1 else 0) + Table.count child other) := by
            funext other
            omega
          rw [regroup] at owned
          obtain ⟨ownedChild, usesChild⟩ := ih link.frame child owned
          obtain ⟨ownedRest, usesRest⟩ := ihList _ _ nodup later earlier ownedChild
          simp only [List.foldl_cons, entry]
          exact ⟨ownedRest, usesChild.trans usesRest⟩
    obtain ⟨ownedLoop, usesLoop⟩ := loop (List.finRange 512) table frames (nodup_finRange 512)
      (fun _ _ => rfl) (fun index absent => absurd (mem_finRange index) absent) owned
    obtain ⟨live, spare, after⟩ := ownedLoop.free
    exact ⟨after, .free usesLoop live spare⟩

theorem query_child {table : Table (depth + 1)} {index : Fin 512} {link : Link} {child : Table depth}
    (entry : table index = .node link child) (page : Nat) :
    ∃ number, table.query number = child.query page := by
  refine ⟨0 + (index.val * 512 ^ (depth + 1) + page % 512 ^ (depth + 1)), ?_⟩
  have bound : page % 512 ^ (depth + 1) < 512 ^ (depth + 1) := mod_lt _ (by positivity)
  have digit := Radix.digit_of_parts (Nat.dvd_zero _) index bound
  rw [query_of_node (digit ▸ entry)]
  apply query_congr
  simp [SamePage, Radix.SameKey]

theorem tableFreeable_of_clear {table : Table depth} (clear : ∀ page, table.query page = 0#64) :
    tableFreeable table = true := by
  induction depth with
  | zero =>
    rw [tableFreeable, tableIsEmpty_iff]
    funext index
    have zero := clear index.val
    have digit : Radix.digit 512 0 index.val = index :=
      Fin.ext (by simp [Radix.digit])
    rw [Table.query, digit] at zero
    cases slot : table index with
    | leaf word =>
      rw [slot] at zero
      exact congrArg Radix.leaf zero
  | succ depth ih =>
    rw [tableFreeable, Bool.or_eq_true]
    refine .inr (all_eq_true.mpr fun index _ => ?_)
    cases entry : table index with
    | absent => rfl
    | node link child =>
      refine ih fun page => ?_
      obtain ⟨number, same⟩ := query_child entry page
      rw [← same]
      exact clear number

/-! The frames of one subtree, page by page. -/

section Releasing

variable {machine : Machine σ depth} {outside : PAddr → Prop} {root : PAddr} {gone : Nat → Prop}
  {frames : Frames σ} {share : PAddr → Nat} {page : Nat}

def Machine.HeldElsewhere (machine : Machine σ depth) (root frame : PAddr) : Prop :=
  ∃ place ∈ machine.ledger.holders frame, place.1 ≠ root

/-- The accounts when some pages of an address space have let go of their frames,
although their entries are still there. -/
structure Releasing (machine : Machine σ depth) (outside : PAddr → Prop) (root : PAddr)
    (gone : Nat → Prop) (frames : Frames σ) (ledger : Ledger (PAddr × Nat) PAddr) : Prop where
  accounts : ledger.Accounts (fun frame => frames.Live frame ∧ ¬ machine.IsTable frame) outside
  released : ∀ {page}, gone page → ledger.slot (root, page) = none
  others : ∀ {place}, ¬ (place.1 = root ∧ gone place.2) → ledger.slot place = machine.ledger.slot place
  uses : machine.frames.Uses (machine.HeldElsewhere root) frames
  tables : ∀ frame, machine.IsTable frame → frames.Live frame

theorem Releasing.release {ledger : Ledger (PAddr × Nat) PAddr}
    (now : Releasing machine outside root gone frames ledger) (page : Nat) :
    Releasing machine outside root (fun number => number = page ∨ gone number)
      ((ledger.release (root, page)).1.elim frames frames.pmmFree) (ledger.release (root, page)).2 := by
  have slots : ∀ {place}, place ≠ (root, page) → (ledger.release (root, page)).2.slot place = ledger.slot place := by
    intro place different
    rw [Ledger.release_slot, update_of_ne different]
  have live : ∀ frame, ((ledger.release (root, page)).1.elim frames frames.pmmFree).Live frame ↔
      (ledger.release (root, page)).1 ≠ some frame ∧ frames.Live frame := by
    intro frame
    cases (ledger.release (root, page)).1 with
    | none => simp
    | some old => simp [eq_comm]
  refine ⟨?_, ?_, ?_, ?_, fun frame isTable => ?_⟩
  · refine now.accounts.release (root, page) fun frame => ?_
    rw [live, and_assoc]
  · rintro number (rfl | released)
    · rw [Ledger.release_slot, update_self]
    · by_cases same : number = page
      · rw [same, Ledger.release_slot, update_self]
      · rw [slots (by simp [same])]
        exact now.released released
  · intro place other
    have different : place ≠ (root, page) := by
      rintro rfl
      exact other ⟨rfl, .inl rfl⟩
    rw [slots different]
    exact now.others fun ⟨isRoot, released⟩ => other ⟨isRoot, .inr released⟩
  · cases freed : (ledger.release (root, page)).1 with
    | none => exact now.uses
    | some old =>
      obtain ⟨member, last⟩ := now.accounts.sound.release_freed freed
      refine now.uses.free ((now.accounts.live old).mpr (.inl ⟨_, member⟩)).1 ?_
      rintro ⟨place, ⟨counted, held⟩, elsewhere⟩
      have still : place ∈ ledger.holders old :=
        Ledger.mem_holders.mpr ⟨counted, by rw [now.others (fun both => elsewhere both.1)]; exact held⟩
      exact (Set.eq_empty_iff_forall_notMem.mp last place) ⟨still, fun same => elsewhere (congrArg Prod.fst same)⟩
  · rw [live]
    refine ⟨fun freed => ?_, now.tables frame isTable⟩
    obtain ⟨member, -⟩ := now.accounts.sound.release_freed freed
    exact ((now.accounts.live frame).mpr (.inl ⟨_, member⟩)).2 isTable

variable {ledger : Ledger (PAddr × Nat) PAddr}

section

variable (now : Releasing machine outside root gone frames ledger)
include now

theorem Releasing.congr {other : Nat → Prop} (same : ∀ page, other page ↔ gone page) :
    Releasing machine outside root other frames ledger := by
  have equal : other = gone := funext fun page => propext (same page)
  rw [equal]
  exact now

theorem Releasing.subset {frame : PAddr} {place : PAddr × Nat} (held : place ∈ ledger.holders frame) :
    place ∈ machine.ledger.holders frame := by
  obtain ⟨counted, slot⟩ := held
  by_cases released : place.1 = root ∧ gone place.2
  · have none := now.released released.2
    rw [← released.1] at none
    rw [none] at slot
    contradiction
  · exact ⟨counted, by rw [← now.others released]; exact slot⟩

theorem Releasing.releasePage
    (ok : EntryOk (machine.entry root page)) (user : UserPage depth page) (pending : ¬ gone page) :
    let done := releasePage page (machine.entry root page) (frames, ledger.count)
    done.1 = true ∧ done.2.1 = machine.entry root page ∧ ∃ after, Releasing machine outside root
        (fun number => number = page ∧ has (machine.entry root page) pageSharedRef = true ∨ gone number)
        done.2.2.1 after ∧ after.count = done.2.2.2 := by
  have idle : has (machine.entry root page) pageSharedRef = false → Releasing machine outside root
        (fun number => number = page ∧ has (machine.entry root page) pageSharedRef = true ∨ gone number)
        frames ledger := fun unshared => now.congr (by simp [unshared])
  cases present : has (machine.entry root page) pagePresent with
  | false =>
    have unshared : has (machine.entry root page) pageSharedRef = false := by
      rw [ok.clear present, has_zero]
    simp only [Paging.releasePage, present, Bool.not_false, if_true]
    exact ⟨trivial, trivial, ledger, idle unshared, rfl⟩
  | true =>
    simp only [Paging.releasePage, present, Bool.not_true, Bool.false_eq_true, if_false]
    refine ⟨trivial, trivial, ?_⟩
    cases shared : has (machine.entry root page) pageSharedRef with
    | false =>
      simp only [releaseShared, shared, Bool.false_eq_true, if_false]
      exact ⟨ledger, now.congr (by simp), rfl⟩
    | true =>
      have held : ledger.slot (root, page) = some ⟨frameOf (machine.entry root page), true⟩ := by
        rw [now.others (fun both => pending both.2), slot_user machine root user, holding,
          if_pos present, if_pos shared]
      have live := (now.accounts.live (frameOf (machine.entry root page))).mpr
        (.inl ⟨_, Ledger.mem_holders.mpr ⟨true, held⟩⟩)
      rw [releaseShared_release now.accounts.sound shared held live.1]
      exact ⟨_, (now.release page).congr (by simp), rfl⟩

/-- A page that `reclaim_owned_frames` visits after its counted frame is gone. -/
theorem Releasing.reclaimPage (ok : EntryOk (machine.entry root page)) (user : UserPage depth page)
    (released : gone page ↔ has (machine.entry root page) pageSharedRef = true) :
    let done := reclaimPage page (machine.entry root page) frames
    done.1 = true ∧ done.2.1 = 0#64 ∧ ∃ after,
      Releasing machine outside root (fun number => number = page ∨ gone number) done.2.2 after ∧
      after.count = ledger.count := by
  -- an entry without a frame of its own has nothing to give back
  have idle : ledger.slot (root, page) = none →
      Releasing machine outside root (fun number => number = page ∨ gone number) frames ledger := by
    intro empty
    have step := now.release page
    simpa only [Ledger.release, empty, Option.elim_none] using step
  have slot : has (machine.entry root page) pageSharedRef = false →
      ledger.slot (root, page) = holding (machine.entry root page) := by
    intro unshared
    rw [now.others, slot_user machine root user]
    rintro ⟨-, wrong⟩
    rw [released.mp wrong] at unshared
    contradiction
  cases present : has (machine.entry root page) pagePresent with
  | false =>
    have zero := ok.clear present
    simp only [Paging.reclaimPage, present, Bool.not_false, if_true]
    refine ⟨trivial, zero, ledger, idle ?_, rfl⟩
    rw [slot (by rw [zero, has_zero]), zero, holding_zero]
  | true =>
    cases shared : has (machine.entry root page) pageSharedRef with
    | true =>
      have cow := (ok.shared present shared).1
      simp only [Paging.reclaimPage, present, cow, Bool.not_true, Bool.false_eq_true, if_false, if_true]
      exact ⟨trivial, trivial, ledger, idle (now.released (released.mpr shared)), rfl⟩
    | false =>
      cases owned : has (machine.entry root page) pageOwned with
      | false =>
        have empty : ledger.slot (root, page) = none := by
          rw [slot shared, holding, if_pos present]
          simp [shared, owned]
        simp only [Paging.reclaimPage, present, owned, Bool.not_true, Bool.false_eq_true, if_false]
        split
        · exact ⟨rfl, rfl, ledger, idle empty, rfl⟩
        · exact ⟨rfl, rfl, ledger, idle empty, rfl⟩
      | true =>
        have plain := ok.sole present owned shared
        have held : ledger.slot (root, page) = some ⟨frameOf (machine.entry root page), false⟩ := by
          rw [slot shared, holding, if_pos present]
          simp [shared, owned]
        have step := now.release page
        simp only [Ledger.release, held, Option.elim_some] at step
        simp only [Paging.reclaimPage, present, plain, owned, Bool.not_true, Bool.false_eq_true, if_false, if_true]
        exact ⟨trivial, trivial, _, step, rfl⟩

end

end Releasing

/-! The pages below one entry of the top-level table. -/

section Slot

variable {machine : Machine σ depth} {outside : PAddr → Prop} {root : PAddr} {link : Link}
  {table : Table depth} {index : Fin 256}

variable {offset : Nat}

theorem slot_page (index : Fin 256) (bound : offset < 512 ^ depth) : UserPage depth (firstPage depth index + offset) ∧
      Radix.digit 512 depth (firstPage depth index + offset) = lowIndex index := by
  have digit := Radix.digit_of_parts (Nat.dvd_zero (512 ^ (depth + 1))) (lowIndex index) bound
  rw [Nat.zero_add] at digit
  change Radix.digit 512 depth (firstPage depth index + offset) = lowIndex index at digit
  refine ⟨⟨?_, ?_⟩, digit⟩
  · have small := index.isLt
    rw [pow_succ, firstPage]
    calc index.val * 512 ^ depth + offset < index.val * 512 ^ depth + 512 ^ depth := by omega
      _ = (index.val + 1) * 512 ^ depth := by ring
      _ ≤ 512 * 512 ^ depth := Nat.mul_le_mul_right _ (by omega)
      _ = 512 ^ depth * 512 := Nat.mul_comm _ _
  · rw [LowPage, digit]
    exact index.isLt

omit [FrameAllocator σ] in
theorem slot_entry (space : machine.spaces root = .node link table) (bound : offset < 512 ^ depth) :
    machine.entry root (firstPage depth index + offset) =
      ((table (lowIndex index)).get (firstPage depth index + offset)).getD 0#64 := by
  rw [entry_node space, Table.query, (slot_page index bound).2]

theorem sameKey_offset (index : Fin 256) {other : Nat} (bound : offset < 512 ^ depth)
    (otherBound : other < 512 ^ depth) :
    Radix.SameKey 512 depth (firstPage depth index + offset) (firstPage depth index + other) ↔ offset = other := by
  rw [Radix.SameKey, firstPage, mul_add_mod_self_right, mul_add_mod_self_right,
    mod_eq_of_lt bound, mod_eq_of_lt otherBound]

def InSlot (depth : Nat) (index : Fin 256) (page : Nat) : Prop :=
  firstPage depth index ≤ page ∧ page < firstPage depth index + 512 ^ depth

/-- `release_shared_frames` lets go of the counted frames of a subtree and leaves
its entries alone. -/
theorem release_slot (family : machine.Family outside)
    (space : machine.spaces root = .node link table) (index : Fin 256) :
    let done := (table (lowIndex index)).traverse (fun _ => true) releasePage (firstPage depth index)
      (machine.frames, machine.share)
    done.2.1 = table (lowIndex index) ∧ ∃ ledger, Releasing machine outside root (fun page => InSlot depth index page ∧
        has (machine.entry root page) pageSharedRef = true) done.2.2.1 ledger ∧
      ledger.count = done.2.2.2 := by
  have loop := Radix.traverse_total releasePage (table (lowIndex index))
    (show 512 ^ depth ∣ firstPage depth index from Nat.dvd_mul_left _ _) (machine.frames, machine.share)
    (fun offset now context => now = table (lowIndex index) ∧ ∃ ledger,
      Releasing machine outside root (fun page => InSlot depth index page ∧ page < firstPage depth index + offset ∧
        has (machine.entry root page) pageSharedRef = true) context.1 ledger ∧
      ledger.count = context.2) ⟨rfl, machine.ledger, ?_, rfl⟩ ?_ ?_
  · obtain ⟨same, ledger, releasing, count⟩ := loop
    exact ⟨same, ledger, releasing.congr fun page =>
      ⟨fun ⟨inSlot, shared⟩ => ⟨inSlot, inSlot.2, shared⟩, fun ⟨inSlot, _, shared⟩ => ⟨inSlot, shared⟩⟩,
      count⟩
  · refine ⟨family.accounts, ?_, fun _ => rfl, .refl, ?_⟩
    · rintro page ⟨⟨lower, -⟩, upper, -⟩
      omega
    · rintro frame ⟨place, used⟩
      exact family.tables.live used
  · rintro offset bound now context ⟨rfl, ledger, releasing, count⟩ missing
    have zero : machine.entry root (firstPage depth index + offset) = 0#64 := by
      rw [slot_entry space bound, missing]
      rfl
    refine ⟨rfl, ledger, releasing.congr fun page => ?_, count⟩
    constructor
    · rintro ⟨inSlot, upper, shared⟩
      have other : page ≠ firstPage depth index + offset := by
        rintro rfl
        simp [zero] at shared
      exact ⟨inSlot, by omega, shared⟩
    · exact fun ⟨inSlot, upper, shared⟩ => ⟨inSlot, by omega, shared⟩
  · rintro offset bound now ⟨frames, share⟩ word ⟨rfl, ledger, releasing, rfl⟩ found
    have user := (slot_page index bound).1
    have entry : machine.entry root (firstPage depth index + offset) = word := by
      rw [slot_entry space bound, found]
      rfl
    have step := releasing.releasePage (family.entries root user) user (by simp)
    rw [entry] at step
    obtain ⟨go, same, after, releasingAfter, count⟩ := step
    refine ⟨go, ?_, after, releasingAfter.congr fun page => ?_, count⟩
    · rw [same, Radix.set_of_get found]
    · constructor
      · rintro ⟨inSlot, upper, shared⟩
        by_cases here : page = firstPage depth index + offset
        · exact .inl ⟨here, by rw [← entry, ← here]; exact shared⟩
        · exact .inr ⟨inSlot, by omega, shared⟩
      · rintro (⟨rfl, shared⟩ | ⟨inSlot, upper, shared⟩)
        · exact ⟨⟨by omega, by omega⟩, by omega, by rw [entry]; exact shared⟩
        · exact ⟨inSlot, by omega, shared⟩

theorem reclaim_pending (bound : offset < 512 ^ depth) (shared : Prop) :
    InSlot depth index (firstPage depth index + offset) ∧
      (firstPage depth index + offset < firstPage depth index + offset ∨ shared) ↔ shared := by
  constructor
  · rintro ⟨-, wrong | holds⟩
    · omega
    · exact holds
  · exact fun holds => ⟨⟨by omega, by omega⟩, .inr holds⟩

theorem reclaim_next {page : Nat} (bound : offset < 512 ^ depth) {shared : Prop} :
    InSlot depth index page ∧ (page < firstPage depth index + (offset + 1) ∨ shared) ↔
      page = firstPage depth index + offset ∨
        InSlot depth index page ∧ (page < firstPage depth index + offset ∨ shared) := by
  constructor
  · rintro ⟨inSlot, upper | holds⟩
    · by_cases here : page = firstPage depth index + offset
      · exact .inl here
      · exact .inr ⟨inSlot, .inl (by omega)⟩
    · exact .inr ⟨inSlot, .inr holds⟩
  · rintro (rfl | ⟨inSlot, upper | holds⟩)
    · exact ⟨⟨by omega, by omega⟩, .inl (by omega)⟩
    · exact ⟨inSlot, .inl (by omega)⟩
    · exact ⟨inSlot, .inr holds⟩

/-- `reclaim_owned_frames` then lets go of the rest and clears the entries. -/
theorem reclaim_slot (family : machine.Family outside)
    (space : machine.spaces root = .node link table) (index : Fin 256) {frames : Frames σ}
    {ledger : Ledger (PAddr × Nat) PAddr}
    (releasing : Releasing machine outside root (fun page => InSlot depth index page ∧
      has (machine.entry root page) pageSharedRef = true) frames ledger) :
    let done := (table (lowIndex index)).traverse (fun _ => true) reclaimPage (firstPage depth index) frames
    (∀ offset < 512 ^ depth, (done.2.1.get (firstPage depth index + offset)).getD 0#64 = 0#64) ∧
      (∀ measure, done.2.1.weight measure = (table (lowIndex index)).weight measure) ∧ ∃ after,
      Releasing machine outside root (InSlot depth index) done.2.2 after ∧
      after.count = ledger.count := by
  have loop := Radix.traverse_total reclaimPage (table (lowIndex index))
    (show 512 ^ depth ∣ firstPage depth index from Nat.dvd_mul_left _ _) frames
    (fun offset now frames => (∀ other < 512 ^ depth, (now.get (firstPage depth index + other)).getD 0#64 =
        if other < offset then 0#64 else machine.entry root (firstPage depth index + other)) ∧
      (∀ measure, now.weight measure = (table (lowIndex index)).weight measure) ∧ ∃ after,
      Releasing machine outside root (fun page => InSlot depth index page ∧
        (page < firstPage depth index + offset ∨ has (machine.entry root page) pageSharedRef = true))
        frames after ∧ after.count = ledger.count) ?_ ?_ ?_
  · obtain ⟨entries, weights, after, releasingAfter, count⟩ := loop
    exact ⟨fun offset bound => by rw [entries offset bound, if_pos bound], weights, after,
      releasingAfter.congr fun page => ⟨fun inSlot => ⟨inSlot, .inl inSlot.2⟩, And.left⟩, count⟩
  · refine ⟨fun other bound => by rw [slot_entry space bound]; rfl, fun _ => rfl, ledger,
      releasing.congr fun page => ?_, rfl⟩
    constructor
    · rintro ⟨inSlot, upper | shared⟩
      · exact absurd inSlot.1 (by omega)
      · exact ⟨inSlot, shared⟩
    · exact fun ⟨inSlot, shared⟩ => ⟨inSlot, .inr shared⟩
  · rintro offset bound now frames ⟨entries, weights, after, releasingAfter, count⟩ missing
    have user := (slot_page index bound).1
    have entry := entries offset bound
    rw [missing, if_neg (Nat.lt_irrefl offset)] at entry
    have step := releasingAfter.reclaimPage (family.entries root user) user (reclaim_pending bound _)
    rw [← show (0#64 : Word) = _ from entry] at step
    obtain ⟨-, -, next, releasingNext, countNext⟩ := step
    refine ⟨fun other otherBound => ?_, weights, next,
      releasingNext.congr fun page => reclaim_next bound, countNext.trans count⟩
    rw [entries other otherBound]
    by_cases here : other = offset
    · subst here
      simp [← show (0#64 : Word) = _ from entry]
    · have before : other < offset + 1 ↔ other < offset := by omega
      simp only [before]
  · rintro offset bound now frames word ⟨entries, weights, after, releasingAfter, count⟩ found
    have user := (slot_page index bound).1
    have entry := entries offset bound
    rw [found, if_neg (Nat.lt_irrefl offset)] at entry
    have step := releasingAfter.reclaimPage (family.entries root user) user (reclaim_pending bound _)
    rw [← show word = _ from entry] at step
    obtain ⟨go, zero, next, releasingNext, countNext⟩ := step
    refine ⟨go, fun other otherBound => ?_, fun measure => (Radix.weight_set measure _ _ _).trans (weights measure),
      next, releasingNext.congr fun page => reclaim_next bound, countNext.trans count⟩
    rw [zero, Radix.get_set]
    simp only [sameKey_offset index bound otherBound]
    by_cases here : offset = other
    · subst here
      simp [found]
    · have before : other < offset + 1 ↔ other < offset := by omega
      simp only [here, if_false, before]
      exact entries other otherBound

theorem inSlot_iff {page : Nat} (user : UserPage depth page) :
    InSlot depth index page ↔ Radix.digit 512 depth page = lowIndex index := by
  have positive : 0 < 512 ^ depth := by positivity
  have small : page / 512 ^ depth < 512 := by
    rw [Nat.div_lt_iff_lt_mul positive]
    have bound := user.1
    rw [pow_succ, Nat.mul_comm] at bound
    exact bound
  have digit : Radix.digit 512 depth page = lowIndex index ↔ page / 512 ^ depth = index.val := by
    rw [Fin.ext_iff, Radix.digit, Fin.val_ofNat, mod_eq_of_lt small]
    rfl
  rw [digit, Nat.div_eq_iff positive, InSlot, firstPage]
  have comm : index.val * 512 ^ depth + 512 ^ depth = 512 ^ depth + index.val * 512 ^ depth := by omega
  constructor
  · rintro ⟨lower, upper⟩
    exact ⟨lower, by omega⟩
  · rintro ⟨lower, upper⟩
    exact ⟨lower, by omega⟩

theorem userCount_split (table : Table depth) (index : Fin 256) (frame : PAddr) : table.userCount frame =
      Table.userCount (update table (lowIndex index) (blank depth)) frame +
        (table (lowIndex index)).weight fun link => if link.frame = frame then 1 else 0 := by
  have low : (lowIndex index).val < 256 := index.isLt
  rw [Table.userCount, Table.userCount, userHalf_update table low, count_split _ (lowIndex index),
    userHalf_low table low]
  rfl

theorem UserRoot.blankSlot {table : Table depth} (root : UserRoot table) (index : Fin 256) :
    UserRoot (update table (lowIndex index) (blank depth)) := by
  have zero : 0 < 512 ^ depth := by positivity
  obtain ⟨user, digit⟩ := slot_page index zero
  refine root.replace user.2 (fun other different => ?_) ?_
  · exact update_of_ne (by rw [← digit]; exact different) _ _
  · rw [digit, update_self]
    exact all_blank _

end Slot

section Teardown

variable {machine after : Machine σ (depth + 1)} {outside : PAddr → Prop} {root : PAddr} {link : Link}
  {table : Table (depth + 1)}

variable {index : Fin 256}

theorem destroySlot_node (family : machine.Family outside)
    (space : machine.spaces root = .node link table) {slotLink : Link}
    {child : Table depth} (entry : table (lowIndex index) = .node slotLink child) :
    ∃ (cleared : Table depth) (frames : Frames σ) (share : PAddr → Nat),
      destroySlot (table (lowIndex index)) (firstPage (depth + 1) index) machine.frames machine.share =
        (true, .absent, tableFree slotLink.frame cleared frames, share) ∧
      (∀ frame, cleared.count frame = child.count frame) ∧ ∃ ledger,
      Releasing machine outside root (InSlot (depth + 1) index) frames ledger ∧ ledger.count = share := by
  obtain ⟨same, first, releasing, count⟩ := release_slot family space index
  obtain ⟨zero, weights, second, reclaiming, countAgain⟩ := reclaim_slot family space index releasing
  rw [entry] at same zero weights reclaiming count ⊢
  rw [destroySlot, same]
  generalize (Radix.node slotLink child : Tree (depth + 1)).traverse (fun _ => true) releasePage
    (firstPage (depth + 1) index) (machine.frames, machine.share) = released at zero weights reclaiming count
  have shape : ∃ cleared : Table depth, ((Radix.node slotLink child : Tree (depth + 1)).traverse
      (fun _ => true) reclaimPage (firstPage (depth + 1) index) released.2.2.1).2.1 =
      .node slotLink cleared := Radix.traverse_node _ _ _ _
  obtain ⟨cleared, shape⟩ := shape
  rw [shape] at zero weights
  have freeable : tableFreeable cleared = true := by
    refine tableFreeable_of_clear fun page => ?_
    have bound : page % 512 ^ (depth + 1) < 512 ^ (depth + 1) := mod_lt _ (by positivity)
    rw [← zero _ bound, node_get]
    apply query_congr
    rw [SamePage, Radix.SameKey, firstPage, mul_add_mod_self_right, mod_mod]
  refine ⟨cleared, _, released.2.2.2, ?_, fun frame => ?_, second, reclaiming, countAgain.trans count⟩
  · rw [shape]
    simp only [freeable, Bool.not_true, Bool.false_eq_true, if_false]
  · have total := weights fun link => if link.frame = frame then 1 else 0
    rw [node_weight, node_weight] at total
    omega

omit [FrameAllocator σ] in
theorem entry_blankSlot (space : machine.spaces root = .node link table)
    (spaces : after.spaces = update machine.spaces root
      (.node link (update table (lowIndex index) .absent))) (place : PAddr) (number : Nat) :
    after.entry place number = if place = root ∧ Radix.digit 512 (depth + 1) number = lowIndex index then 0#64
      else machine.entry place number := by
  by_cases isRoot : place = root
  · subst isRoot
    rw [entry_node (by rw [spaces, update_self]), query_update, entry_node space]
    simp only [true_and]
    rfl
  · rw [entry, spaces, update_of_ne isRoot]
    simp [isRoot, entry]

omit [FrameAllocator σ] in
theorem slot_released {ledger : Ledger (PAddr × Nat) PAddr} (entries : ∀ place number, after.entry place number =
      if place = root ∧ Radix.digit 512 (depth + 1) number = lowIndex index then 0#64
      else machine.entry place number)
    (released : ∀ {page}, InSlot (depth + 1) index page → ledger.slot (root, page) = none)
    (others : ∀ {place}, ¬ (place.1 = root ∧ InSlot (depth + 1) index place.2) →
      ledger.slot place = machine.ledger.slot place) (place : PAddr × Nat) :
    after.ledger.slot place = ledger.slot place := by
  obtain ⟨place, number⟩ := place
  by_cases user : UserPage (depth + 1) number
  · rw [slot_user after place user, entries]
    by_cases here : place = root ∧ Radix.digit 512 (depth + 1) number = lowIndex index
    · rw [if_pos here, here.1, holding_zero, released ((inSlot_iff user).mpr here.2)]
    · rw [if_neg here, others fun both => here ⟨both.1, (inSlot_iff user).mp both.2⟩, slot_user machine place user]
  · have nothing : after.ledger.slot (place, number) = none := if_neg user
    have nothingBefore : machine.ledger.slot (place, number) = none := if_neg user
    rw [nothing]
    by_cases here : place = root ∧ InSlot (depth + 1) index number
    · rw [here.1, released here.2]
    · rw [others here, nothingBefore]

theorem destroySlot_family (family : machine.Family outside)
    (space : machine.spaces root = .node link table) (index : Fin 256)
    (spaces : after.spaces = update machine.spaces root (.node link (update table (lowIndex index) .absent)))
    (frames : after.frames = (destroySlot (table (lowIndex index)) (firstPage (depth + 1) index)
      machine.frames machine.share).2.2.1)
    (share : after.share = (destroySlot (table (lowIndex index)) (firstPage (depth + 1) index)
      machine.frames machine.share).2.2.2) :
    (destroySlot (table (lowIndex index)) (firstPage (depth + 1) index) machine.frames machine.share).1 = true ∧
      (destroySlot (table (lowIndex index)) (firstPage (depth + 1) index) machine.frames machine.share).2.1 = .absent ∧
      after.Family outside ∧ machine.frames.Uses (machine.HeldElsewhere root) after.frames := by
  cases entry : table (lowIndex index) with
  | absent =>
    rw [entry, destroySlot] at frames share
    have same : after.spaces = machine.spaces := by
      rw [spaces, ← entry, update_eq_self, ← space, update_eq_self]
    exact ⟨rfl, rfl, family.congr same frames share, frames ▸ .refl⟩
  | node slotLink child =>
    obtain ⟨cleared, released, counts, done, weights, ledger, releasing, count⟩ :=
      destroySlot_node family space entry
    rw [done] at frames share
    rw [← entry, done]
    -- the frames are given back first, then the tables
    let mid : Machine σ (depth + 1) := { machine with frames := released, share := counts }
    have tablesMid : mid.Tables := family.tables.frames rfl releasing.tables
    have owned := tablesMid.owned space
    have split : (fun frame => (if link.frame = frame then 1 else 0) + table.userCount frame) =
        fun frame => ((if link.frame = frame then 1 else 0) +
          Table.userCount (update table (lowIndex index) .absent) frame) +
          ((if slotLink.frame = frame then 1 else 0) + cleared.count frame) := by
      funext frame
      have parts := userCount_split table index frame
      rw [entry, node_weight] at parts
      rw [weights, parts]
      exact (Nat.add_assoc _ _ _).symm
    rw [split] at owned
    obtain ⟨ownedAfter, usesTables⟩ := tableFree_owned slotLink.frame cleared owned
    rw [← show after.frames = tableFree slotLink.frame cleared mid.frames from frames] at ownedAfter usesTables
    obtain ⟨tablesAfter, looseAfter⟩ : after.Tables ∧ ∀ frame, after.Loose frame ↔ mid.Loose frame :=
      tablesMid.replace space spaces ((tablesMid.shape space).blankSlot index) ownedAfter
    have entries := entry_blankSlot space spaces
    have ledgerIs : after.ledger = ledger := by
      rw [show after.ledger = ⟨after.ledger.slot, after.share⟩ from rfl, share, ← count]
      have slots : after.ledger.slot = ledger.slot := funext fun place =>
        slot_released entries releasing.released releasing.others place
      rw [slots]
    have loose : after.Loose = fun frame => released.Live frame ∧ ¬ machine.IsTable frame :=
      funext fun frame => propext (looseAfter frame)
    refine ⟨rfl, rfl, ⟨tablesAfter, ?_, fun place number user => ?_, fun {frame first second} => ?_⟩, ?_⟩
    · rw [ledgerIs, loose]
      exact releasing.accounts
    · rw [entries]
      split
      · exact entryOk_zero
      · exact family.entries place user
    · rw [ledgerIs]
      intro inFirst inSecond
      exact family.home (releasing.subset inFirst) (releasing.subset inSecond)
    · refine releasing.uses.trans (usesTables.mono fun frame held => ?_)
      obtain ⟨place, ⟨counted, held⟩, elsewhere⟩ := held
      have still : place ∈ ledger.holders frame :=
        Ledger.mem_holders.mpr ⟨counted, by rw [releasing.others fun both => elsewhere both.1]; exact held⟩
      obtain ⟨live, noTable⟩ := (releasing.accounts.live frame).mpr (.inl ⟨place, still⟩)
      exact ⟨live, Nat.eq_zero_of_not_pos fun used => noTable ⟨root, used⟩⟩

def Machine.tearing (machine : Machine σ (depth + 1)) (root : PAddr) (link : Link)
    (now : Teardown σ (depth + 1)) : Machine σ (depth + 1) :=
  { machine with
    spaces := update machine.spaces root (.node link now.table)
    frames := now.frames
    share := now.share }

omit [FrameAllocator σ] in
theorem heldElsewhere_congr (entries : ∀ place number, place ≠ root →
    after.entry place number = machine.entry place number) (frame : PAddr) :
    after.HeldElsewhere root frame ↔ machine.HeldElsewhere root frame := by
  have same : ∀ place : PAddr × Nat, place.1 ≠ root → after.ledger.slot place = machine.ledger.slot place := by
    rintro ⟨place, number⟩ elsewhere
    simp only [ledger, entries place number elsewhere]
  constructor
  · rintro ⟨place, ⟨counted, held⟩, elsewhere⟩
    exact ⟨place, ⟨counted, by rw [← same place elsewhere]; exact held⟩, elsewhere⟩
  · rintro ⟨place, ⟨counted, held⟩, elsewhere⟩
    exact ⟨place, ⟨counted, by rw [same place elsewhere]; exact held⟩, elsewhere⟩

omit [FrameAllocator σ] in
theorem tearing_entry (machine : Machine σ (depth + 1)) (link : Link) (now : Teardown σ (depth + 1))
    {place : PAddr} (elsewhere : place ≠ root) (number : Nat) :
    (machine.tearing root link now).entry place number = machine.entry place number := by
  simp [entry, Machine.tearing, elsewhere]

theorem destroy_loop (indices : List (Fin 256)) (now : Teardown σ (depth + 1))
    (family : (machine.tearing root link now).Family outside)
    (uses : machine.frames.Uses (machine.HeldElsewhere root) now.frames) (none : now.stranded = 0) :
    let done := indices.foldl destroyStep now
    (machine.tearing root link done).Family outside ∧
      machine.frames.Uses (machine.HeldElsewhere root) done.frames ∧ done.stranded = 0 ∧
      ∀ index, index ∈ indices ∨ now.table (lowIndex index) = .absent → done.table (lowIndex index) = .absent := by
  induction indices generalizing now with
  | nil => exact ⟨family, uses, none, fun index cleared => cleared.resolve_left (by simp)⟩
  | cons index rest ih =>
    have space : (machine.tearing root link now).spaces root = .node link now.table :=
      update_self root _ _
    have spaces : (machine.tearing root link (destroyStep now index)).spaces =
        update (machine.tearing root link now).spaces root (.node link (destroyStep now index).table) := by
      simp [Machine.tearing]
    have gone : (destroySlot (now.table (lowIndex index)) (firstPage (depth + 1) index) now.frames
        now.share).2.1 = .absent := by
      cases entry : now.table (lowIndex index) with
      | absent => rfl
      | node slotLink child =>
        obtain ⟨cleared, released, counts, done, -⟩ := destroySlot_node family space entry
        rw [entry] at done
        exact congrArg (fun result => result.2.1) done
    have tableIs : (destroyStep now index).table = update now.table (lowIndex index) .absent := by
      rw [← gone]
      rfl
    rw [tableIs] at spaces
    obtain ⟨finished, -, familyNext, usesNext⟩ := destroySlot_family family space index spaces rfl rfl
    have strandedNext : (destroyStep now index).stranded = 0 := by
      exact (if_pos finished).trans none
    have kept : now.frames.Uses (machine.HeldElsewhere root) (destroyStep now index).frames :=
      usesNext.mono fun frame held =>
        (heldElsewhere_congr (fun place number elsewhere =>
          tearing_entry machine link now elsewhere number) frame).mpr held
    obtain ⟨familyDone, usesDone, strandedDone, clearedDone⟩ :=
      ih (destroyStep now index) familyNext (uses.trans kept) strandedNext
    refine ⟨familyDone, usesDone, strandedDone, fun other cleared => clearedDone other ?_⟩
    by_cases same : lowIndex other = lowIndex index
    · exact .inr (by rw [tableIs, same, update_self])
    · rw [tableIs, update_of_ne same]
      rcases cleared with member | cleared
      · rcases mem_cons.mp member with here | later
        · exact absurd (congrArg lowIndex here) same
        · exact .inl later
      · exact .inr cleared

theorem remove_root (family : machine.Family outside) (space : machine.spaces root = .node link table)
    (cleared : ∀ index : Fin 256, table (lowIndex index) = .absent)
    (spaces : after.spaces = update machine.spaces root .absent)
    (frames : after.frames = machine.frames.pmmFree root) (share : after.share = machine.share) :
    after.Family outside ∧ machine.frames.Uses (machine.HeldElsewhere root) after.frames := by
  have rootLink := family.tables.link space
  have countHere : ∀ frame, machine.tableCount root frame = if root = frame then 1 else 0 := by
    intro frame
    rw [tableCount_node space, userCount_clear fun index low => cleared ⟨index.val, low⟩, rootLink]
    rfl
  have used : 0 < machine.tableCount root root := by
    rw [countHere, if_pos rfl]
    exact Nat.one_pos
  have absent : after.spaces root = .absent := by rw [spaces, update_self]
  have countAfter : ∀ frame, after.tableCount root frame = 0 := by
    intro frame
    simp only [tableCount, absent]
  have owned : Owned (after.tableCount root) after.frames (machine.besides root) := by
    refine ⟨fun frame => by simp [countAfter], fun frame => ?_, fun frame one => ?_⟩
    · rw [frames, Frames.pmmFree_live, countAfter, besides, countHere]
      by_cases same : frame = root
      · simp [same]
      · simp [same, Ne.symm same]
    · rw [countAfter] at one
      contradiction
  have tables : after.Tables := family.tables.put spaces (fun node => by contradiction) owned
  have loose := loose_put spaces owned
  have entries : ∀ place {number}, UserPage (depth + 1) number →
      after.entry place number = machine.entry place number := by
    intro place number user
    by_cases same : place = root
    · have digit : table (Radix.digit 512 (depth + 1) number) = .absent :=
        cleared ⟨(Radix.digit 512 (depth + 1) number).val, user.2⟩
      rw [same, entry_node space, query_of_absent digit, entry, absent]
      rfl
    · rw [entry, entry, spaces, update_of_ne same]
  refine ⟨family.retable tables loose (ledger_entries entries share) fun place number user => ?_, ?_⟩
  · rw [entries place user]
    exact family.entries place user
  · rw [frames]
    refine .free .refl (family.tables.live used) ?_
    rintro ⟨place, held, -⟩
    exact ((family.loose root).mpr (.inl ⟨place, held⟩)).2 ⟨root, used⟩

/-- The machine with the address space of `root` given back. -/
def Machine.removed (machine : Machine σ depth) (root : PAddr) (done : Teardown σ depth) : Machine σ depth :=
  { machine with
    spaces := update machine.spaces root .absent
    frames := done.frames.pmmFree root
    share := done.share }

/-- `vmm_destroy_address_space` keeps every account, gives back only frames that no
other address space holds, and leaves nothing of the address space behind. -/
theorem vmmDestroyAddressSpace_family (family : machine.Family outside) (alive : machine.alive root = true) :
    (vmmDestroyAddressSpace root machine).Family outside ∧
      machine.frames.Uses (machine.HeldElsewhere root) (vmmDestroyAddressSpace root machine).frames ∧
      (vmmDestroyAddressSpace root machine).spaces = update machine.spaces root .absent := by
  obtain ⟨link, table, space⟩ := alive_node alive
  let start : Teardown σ (depth + 1) :=
    { table, frames := machine.frames, share := machine.share, stranded := 0 }
  have same : machine.tearing root link start = machine := by
    have spaces : update machine.spaces root (.node link table) = machine.spaces := by
      rw [← space, update_eq_self]
    simp only [Machine.tearing, start, spaces]
  obtain ⟨familyDone, usesDone, stranded, cleared⟩ := destroy_loop (List.finRange 256) start
    (show (machine.tearing root link start).Family outside by rw [same]; exact family)
    (.refl : machine.frames.Uses (machine.HeldElsewhere root) machine.frames) rfl
  have cleared (index) := cleared index (.inl (mem_finRange index))
  have result : vmmDestroyAddressSpace root machine =
      machine.removed root ((List.finRange 256).foldl destroyStep start) := by
    simp only [vmmDestroyAddressSpace, space]
    exact if_neg (not_not_intro stranded)
  rw [result]
  generalize (List.finRange 256).foldl destroyStep start = done at *
  have spaces : (machine.removed root done).spaces = update (machine.tearing root link done).spaces root .absent := by
    simp only [Machine.tearing, Machine.removed, update_idem]
  obtain ⟨familyAfter, usesAfter⟩ :=
    remove_root familyDone (update_self root _ _) cleared spaces rfl rfl
  refine ⟨familyAfter, usesDone.trans (usesAfter.mono fun frame held => ?_), rfl⟩
  exact (heldElsewhere_congr (fun place number elsewhere =>
    tearing_entry machine link done elsewhere number) frame).mpr held

end Teardown

end NyonOS.Paging
