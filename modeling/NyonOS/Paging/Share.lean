import NyonOS.Paging.Fork
import NyonOS.Paging.Resolve
import NyonOS.Paging.Supply

namespace NyonOS.Paging

open Data Machine Function Nat

/-! Forking by sharing pages. -/

variable {σ : Type} [FrameAllocator σ] {depth : Nat}

def sharedParent (e : Word) : Word :=
  if has e pagePinned then e
  else
    let se := e &&& ~~~pageWrite ||| pageCow
    if has e pageOwned then se ||| pageSharedRef else se

def sharedFlags (e : Word) : Word :=
  if has e pagePinned then e &&& copiedFlags
  else
    let nf := (e &&& ~~~pageWrite ||| pageCow) &&& copiedFlags ||| pageCow
    if has e pageOwned then nf ||| pageSharedRef else nf

def sharedChild (cpuHasNx : Bool) (e : Word) : Word :=
  frameOf e ||| mapFramesFlags cpuHasNx (sharedFlags e) (!has e pageNx) false ||| pagePresent

def countShared (totalPages : Nat) (share : PAddr → Nat) (e : Word) : PAddr → Nat :=
  if has e pageOwned && !has e pagePinned then
    pmmShareRef totalPages (if has e pageSharedRef then share else pmmShareRef totalPages share (frameOf e)) (frameOf e)
  else share

theorem sharePage_skip (cpuHasNx : Bool) (page : Nat) (e : Word) (fork : Fork σ depth)
    (other : userPage e = false) : sharePage cpuHasNx page e fork = (true, e, fork) := by
  unfold sharePage
  cases present : has e pagePresent with
  | false => rfl
  | true =>
    have user : has e pageUser = false := by simpa [userPage, present] using other
    simp [user]

theorem sharePage_user (cpuHasNx : Bool) (page : Nat) {e : Word} (fork : Fork σ depth) (user : userPage e = true) :
    let mapped := fork.mapPage cpuHasNx page (frameOf e) (sharedFlags e) (!has e pageNx) false
    sharePage cpuHasNx page e fork =
      if mapped.1 then (true, sharedParent e, { mapped.2 with
        share := countShared mapped.2.frames.totalPages mapped.2.share e
        done := mapped.2.done + 1 })
      else (false, sharedParent e, mapped.2) := by
  simp only [userPage, Bool.and_eq_true] at user
  have exec : has (e &&& ~~~pageWrite ||| pageCow) pageNx = has e pageNx := by simp
  have execShared : has (e &&& ~~~pageWrite ||| pageCow ||| pageSharedRef) pageNx = has e pageNx := by simp
  cases pinned : has e pagePinned with
  | true =>
    simp only [sharePage, sharedFlags, sharedParent, countShared, user.1, user.2, pinned]
    cases answer : (fork.mapPage cpuHasNx page (frameOf e) (e &&& copiedFlags) (!has e pageNx) false).1 with
    | false | true => simp [answer]
  | false =>
    cases owned : has e pageOwned with
    | true =>
      simp only [sharePage, sharedFlags, sharedParent, countShared, user.1, user.2, pinned, owned,
        Bool.not_true, Bool.false_eq_true, if_false, if_true, execShared, Bool.not_false, Bool.and_self]
      cases has e pageSharedRef <;> split <;> simp_all
    | false =>
      simp only [sharePage, sharedFlags, sharedParent, countShared, user.1, user.2, pinned, owned,
        Bool.not_true, Bool.false_eq_true, if_false, exec, Bool.not_false, Bool.false_and]
      split <;> simp_all

/-! What the two entries say. -/

section Words

variable (cpuHasNx : Bool) (e : Word)

@[simp] theorem sharedParent_frame : frameOf (sharedParent e) = frameOf e := by
  cases pinned : has e pagePinned <;> cases owned : has e pageOwned <;>
    simp [sharedParent, pinned, owned]

@[simp] theorem has_sharedParent (flag : Word) [FlagBit flag] : has (sharedParent e) flag =
    if has e pagePinned then has e flag
    else (has e flag && !has pageWrite flag) || has pageCow flag || (has e pageOwned && has pageSharedRef flag) := by
  cases pinned : has e pagePinned <;> cases owned : has e pageOwned <;>
    simp [sharedParent, pinned, owned]

theorem has_sharedFlags (flag : Word) [FlagBit flag] : has (sharedFlags e) flag =
    if has e pagePinned then has e flag && has copiedFlags flag
    else (has e flag && !has pageWrite flag && has copiedFlags flag) || has pageCow flag ||
      (has e pageOwned && has pageSharedRef flag) := by
  cases pinned : has e pagePinned <;> cases owned : has e pageOwned <;>
    simp only [sharedFlags, pinned, owned, if_true, if_false, Bool.false_eq_true, has_or, has_and, has_not] <;>
    cases has pageCow flag <;> simp

theorem sharedFlags_frame : frameOf (sharedFlags e) = 0#64 := by
  cases pinned : has e pagePinned <;> cases owned : has e pageOwned <;>
    simp [sharedFlags, copiedFlags, pinned, owned]

@[simp] theorem sharedChild_frame : frameOf (sharedChild cpuHasNx e) = frameOf e := by
  simp [sharedChild, frameOf_mapFramesFlags cpuHasNx _ _ _ (sharedFlags_frame e)]

/-- The child's entry keeps the copied flags, without ownership and without
`PAGE_WRITE` unless the page is pinned. -/
theorem has_sharedChild (flag : Word) [FlagBit flag] (notNx : has pageNx flag = false) :
    has (sharedChild cpuHasNx e) flag = (has (sharedFlags e) flag || has pageUser flag || has pagePresent flag) := by
  simp only [sharedChild, has_or, has_frameOf, has_mapFramesFlags, notNx, Bool.not_false, Bool.and_true,
    Bool.or_false, ite_self, Bool.false_or, Bool.false_and]

@[simp] theorem sharedChild_present : has (sharedChild cpuHasNx e) pagePresent = true := by
  simp [has_sharedChild]

@[simp] theorem sharedChild_user : has (sharedChild cpuHasNx e) pageUser = true := by
  simp [has_sharedChild]

@[simp] theorem sharedChild_owned : has (sharedChild cpuHasNx e) pageOwned = false := by
  simp [has_sharedChild, has_sharedFlags, copiedFlags]

@[simp] theorem sharedChild_pinned : has (sharedChild cpuHasNx e) pagePinned = false := by
  simp [has_sharedChild, has_sharedFlags, copiedFlags]

@[simp] theorem sharedChild_write : has (sharedChild cpuHasNx e) pageWrite = (has e pagePinned && has e pageWrite) := by
  cases pinned : has e pagePinned <;> simp [has_sharedChild, has_sharedFlags, copiedFlags, pinned]

@[simp] theorem sharedChild_cow : has (sharedChild cpuHasNx e) pageCow = !has e pagePinned := by
  cases pinned : has e pagePinned <;> simp [has_sharedChild, has_sharedFlags, copiedFlags, pinned]

@[simp] theorem sharedChild_sharedRef :
    has (sharedChild cpuHasNx e) pageSharedRef = (has e pageOwned && !has e pagePinned) := by
  cases pinned : has e pagePinned <;> simp [has_sharedChild, has_sharedFlags, copiedFlags, pinned]

theorem sharedParent_ok (ok : EntryOk e) (present : has e pagePresent = true) : EntryOk (sharedParent e) := by
  cases pinned : has e pagePinned with
  | true => simpa [sharedParent, pinned] using ok
  | false =>
    refine ⟨fun absent => by simp [present] at absent, fun _ _ => by simp [pinned], fun _ owned unshared => ?_⟩
    simp [pinned] at owned unshared
    simp [owned] at unshared

theorem sharedChild_ok : EntryOk (sharedChild cpuHasNx e) :=
  ⟨by simp, fun _ shared => by simpa using And.right (by simpa using shared), by simp⟩

theorem holding_counted (present : has e pagePresent = true) (owned : has e pageOwned = true)
    (unpinned : has e pagePinned = false) :
    holding (sharedParent e) = some ⟨frameOf e, true⟩ ∧ holding (sharedChild cpuHasNx e) = some ⟨frameOf e, true⟩ := by
  constructor
  · simp [holding, present, owned, unpinned]
  · simp [holding, owned, unpinned]

omit cpuHasNx in
theorem counted_or_lent : has e pageOwned = true ∧ has e pagePinned = false ∨
    (has e pageOwned = false ∨ has e pagePinned = true) := by
  cases has e pageOwned <;> cases has e pagePinned <;> simp

theorem holding_uncounted (lent : has e pageOwned = false ∨ has e pagePinned = true) :
    holding (sharedParent e) = holding e ∧ holding (sharedChild cpuHasNx e) = none := by
  cases pinned : has e pagePinned with
  | true => simp [holding, sharedParent, pinned]
  | false =>
    have owned : has e pageOwned = false := by simpa [pinned] using lent
    constructor
    · simp only [holding, has_sharedParent, sharedParent_frame, pinned, owned]
      simp
    · simp [holding, owned]

end Words

/-! One page: an entry of the parent is rewritten and the child's tables change. -/

section OnePage

variable {machine after : Machine σ depth} {outside : PAddr → Prop} {src dst : PAddr} {page : Nat}
  {link dlink : Link} {now child changed : Table depth} {word : Word}

omit [FrameAllocator σ] in
theorem entry_forked (apart : src ≠ dst) (source : machine.spaces src = .node link now)
    (target : machine.spaces dst = .node dlink child) (reached : now.Reaches page) {given : Word}
    (queries : ∀ number, changed.query number = if SamePage depth page number then given else child.query number)
    (spaces : after.spaces = update
      (update machine.spaces src (.node link (now.write page word))) dst (.node dlink changed))
    (place : PAddr) (number : Nat) :
    after.entry place number = if SamePage depth page number ∧ place = src then word
      else if SamePage depth page number ∧ place = dst then given
      else machine.entry place number := by
  by_cases isDst : place = dst
  · subst isDst
    have notSrc : ¬ place = src := Ne.symm apart
    rw [entry_node (by rw [spaces, update_self]), queries, entry_node target]
    simp [notSrc]
  by_cases isSrc : place = src
  · subst isSrc
    have written : after.spaces place = .node link (now.write page word) := by
      rw [spaces, update_of_ne isDst, update_self]
    rw [entry_node written, query_write now word reached, entry_node source]
    simp [isDst]
  · rw [entry, spaces, update_of_ne isDst, update_of_ne isSrc]
    simp [isDst, isSrc, entry]

theorem tables_forked (tables : machine.Tables) (apart : src ≠ dst)
    (source : machine.spaces src = .node link now) (target : machine.spaces dst = .node dlink child)
    (low : LowPage depth page) (reached : now.Reaches page) (shape : UserRoot changed)
    (owned : Owned (fun frame => (if dlink.frame = frame then 1 else 0) + changed.userCount frame)
      after.frames (machine.besides dst))
    (spaces : after.spaces = update
      (update machine.spaces src (.node link (now.write page word))) dst (.node dlink changed)) :
    after.Tables ∧ ∀ frame, after.Loose frame ↔ machine.Loose frame := by
  let mapped : Machine σ depth := { machine with
    spaces := update machine.spaces dst (.node dlink changed)
    frames := after.frames }
  obtain ⟨tablesMapped, looseMapped⟩ : mapped.Tables ∧
      ∀ frame, mapped.Loose frame ↔ machine.Loose frame := tables.replace target rfl shape owned
  have sourceMapped : mapped.spaces src = .node link now :=
    (update_of_ne apart _ _).trans source
  have reachedMapped : mapped.Reaches src page := by
    rw [Reaches, sourceMapped]
    exact reached
  obtain ⟨tablesWritten, looseWritten⟩ := tablesMapped.writeEntry low reachedMapped word
  have same : after.spaces = (mapped.writeEntry src page word).spaces := by
    rw [Machine.writeEntry, sourceMapped, spaces, update_comm (Ne.symm apart)]
    rfl
  obtain ⟨tablesAfter, looseAfter⟩ := tablesWritten.congr same rfl
  exact ⟨tablesAfter, fun frame =>
    (looseAfter frame).trans ((looseWritten frame).trans (looseMapped frame))⟩

omit [FrameAllocator σ] in
theorem slots_forked {given : Word} (apart : src ≠ dst) (user : UserPage depth page)
    (entries : ∀ place number, after.entry place number = if SamePage depth page number ∧ place = src then word
      else if SamePage depth page number ∧ place = dst then given
      else machine.entry place number) :
    after.ledger.slot = update (update machine.ledger.slot (src, page) (holding word)) (dst, page) (holding given) := by
  funext ⟨place, number⟩
  by_cases low : UserPage depth number
  · rw [slot_user after place low, entries]
    simp only [user.samePage low]
    by_cases here : page = number
    · subst here
      by_cases isDst : place = dst
      · subst isDst
        simp [Ne.symm apart]
      · by_cases isSrc : place = src
        · subst isSrc
          simp [isDst]
        · simp [isDst, isSrc, slot_user machine place low]
    · have notDst : ((place, number) : PAddr × Nat) ≠ (dst, page) := by simp [Ne.symm here]
      have notSrc : ((place, number) : PAddr × Nat) ≠ (src, page) := by simp [Ne.symm here]
      rw [update_of_ne notDst, update_of_ne notSrc, slot_user machine place low]
      simp [here]
  · have other : number ≠ page := fun same => low (same ▸ user)
    have notDst : ((place, number) : PAddr × Nat) ≠ (dst, page) := by simp [other]
    have notSrc : ((place, number) : PAddr × Nat) ≠ (src, page) := by simp [other]
    rw [update_of_ne notDst, update_of_ne notSrc]
    simp only [ledger, low, if_false]

theorem pmmShareRef_room {totalPages : Nat} (share : PAddr → Nat) {frame : PAddr}
    (aligned : frame.toNat % pageSize = 0) (inRange : frame.toNat / pageSize < totalPages)
    (room : share frame < 255) :
    pmmShareRef totalPages share frame = update share frame (share frame + 1) := by
  simp [pmmShareRef, aligned, Nat.not_le.mpr inRange, Nat.ne_of_lt room]

theorem countShared_eq (dst : PAddr) (family : machine.Family outside) (user : UserPage depth page)
    (present : has (machine.entry src page) pagePresent = true)
    (owned : has (machine.entry src page) pageOwned = true)
    (unpinned : has (machine.entry src page) pagePinned = false)
    (room : (machine.ledger.holders (frameOf (machine.entry src page))).ncard < 255) :
    machine.ledger.slot (src, page) = some ⟨frameOf (machine.entry src page),
        has (machine.entry src page) pageSharedRef⟩ ∧
      countShared machine.frames.totalPages machine.share (machine.entry src page) =
        (machine.ledger.share (src, page) (dst, page)).count := by
  generalize frameIs : frameOf (machine.entry src page) = frame at room
  have held : machine.ledger.slot (src, page) = some ⟨frame, has (machine.entry src page) pageSharedRef⟩ := by
    rw [slot_user machine src user, holding, if_pos present, frameIs]
    cases shared : has (machine.entry src page) pageSharedRef <;> simp [owned]
  refine ⟨held, ?_⟩
  have member : (src, page) ∈ machine.ledger.holders frame := Ledger.mem_holders.mpr ⟨_, held⟩
  obtain ⟨aligned, inRange⟩ := counter_guards ((family.loose frame).mpr (.inl ⟨_, member⟩)).1
  cases shared : has (machine.entry src page) pageSharedRef with
  | true =>
    rw [shared] at held
    have count : machine.share frame < 255 := by
      have total : machine.share frame = _ := family.sound.counted held
      omega
    simp [countShared, owned, unpinned, shared, frameIs, Ledger.share, held,
      pmmShareRef_room machine.share aligned inRange count]
  | false =>
    rw [shared] at held
    have count : machine.share frame = 0 := by
      refine family.sound.idle fun place counted => ?_
      have only : place ∈ machine.ledger.holders frame := Ledger.mem_holders.mpr ⟨true, counted⟩
      rw [family.sound.sole held, Set.mem_singleton_iff] at only
      rw [only, held] at counted
      simp at counted
    have first := pmmShareRef_room machine.share aligned inRange (by omega)
    have second := pmmShareRef_room (update machine.share frame 1) aligned inRange (by simp)
    simp [countShared, owned, unpinned, shared, frameIs, Ledger.share, held, first, second, count]

theorem shared_family (family : machine.Family outside) (apart : src ≠ dst) (user : UserPage depth page)
    (visited : userPage (machine.entry src page) = true)
    (free : has (machine.entry dst page) pagePresent = false)
    (room : has (machine.entry src page) pageOwned = true →
      (machine.ledger.holders (frameOf (machine.entry src page))).ncard < 255)
    (tables : after.Tables) (loose : ∀ frame, after.Loose frame ↔ machine.Loose frame)
    {cpuHasNx : Bool} (entries : ∀ place number, after.entry place number =
      if SamePage depth page number ∧ place = src then sharedParent (machine.entry src page)
      else if SamePage depth page number ∧ place = dst then sharedChild cpuHasNx (machine.entry src page)
      else machine.entry place number)
    (share : after.share = countShared machine.frames.totalPages machine.share (machine.entry src page)) :
    after.Family outside := by
  have slots := slots_forked apart user entries
  have present : has (machine.entry src page) pagePresent = true := by
    simp only [userPage, Bool.and_eq_true] at visited
    exact visited.1
  have empty : machine.ledger.slot (dst, page) = none := by
    rw [slot_user machine dst user, holding, free]
    rfl
  have ok : ∀ place {number}, UserPage depth number → EntryOk (after.entry place number) := by
    intro place number low
    rw [entries]
    split
    · exact sharedParent_ok _ (family.entries src user) present
    split
    · exact sharedChild_ok _ _
    · exact family.entries place low
  rcases counted_or_lent (machine.entry src page) with ⟨owned, unpinned⟩ | lent
  · obtain ⟨held, count⟩ := countShared_eq dst family user present owned unpinned (room owned)
    obtain ⟨parent, child⟩ := holding_counted cpuHasNx _ present owned unpinned
    rw [parent, child] at slots
    refine family.share held empty tables loose ?_ ok
    rw [show after.ledger = ⟨after.ledger.slot, after.share⟩ from rfl, slots, share, count]
    simp only [Ledger.share, held]
  · obtain ⟨parent, child⟩ := holding_uncounted cpuHasNx _ lent
    rw [parent, child, ← slot_user machine src user, update_eq_self, ← empty, update_eq_self] at slots
    have sameShare : after.share = machine.share := by
      rw [share, countShared]
      rcases lent with owned | pinned
      · simp [owned]
      · simp [pinned]
    refine family.retable tables loose ?_ ok
    rw [show after.ledger = ⟨after.ledger.slot, after.share⟩ from rfl, slots, sameShare]
    rfl

theorem holders_forked (family : machine.Family outside) (familyAfter : after.Family outside)
    {parent child : Option (Holding PAddr)}
    (slots : after.ledger.slot = update (update machine.ledger.slot (src, page) parent)
      (dst, page) child) {other : Nat} (later : other ≠ page) {frame : PAddr} {root : PAddr}
    (held : (root, other) ∈ machine.ledger.holders frame) :
    after.ledger.holders frame = machine.ledger.holders frame := by
  have same : ∀ place number, number ≠ page →
      after.ledger.slot (place, number) = machine.ledger.slot (place, number) := by
    intro place number different
    rw [slots, update_of_ne (by simp [different]), update_of_ne (by simp [different])]
  have heldAfter : (root, other) ∈ after.ledger.holders frame := by
    rw [Ledger.mem_holders, same root other later]
    exact held
  ext ⟨place, number⟩
  by_cases here : number = page
  · subst here
    constructor
    · exact fun member => absurd (familyAfter.home heldAfter member) later
    · exact fun member => absurd (family.home held member) later
  · rw [Ledger.mem_holders, Ledger.mem_holders, same place number here]

end OnePage

/-! The whole traversal. -/

/-- The counters after sharing the pages below `count`. -/
def Machine.sharedCounts (machine : Machine σ depth) (src : PAddr) : Nat → PAddr → Nat
  | 0 => machine.share
  | count + 1 =>
    if UserPage depth count ∧ userPage (machine.entry src count) = true then
      countShared machine.frames.totalPages (machine.sharedCounts src count) (machine.entry src count)
    else machine.sharedCounts src count

/-- How many pages below `count` a fork of `src` visits. -/
def Machine.userPages (machine : Machine σ depth) (src : PAddr) (count : Nat) : Nat :=
  Nat.count (fun page => UserPage depth page ∧ userPage (machine.entry src page) = true) count

/-- One more address space may map the frames of `src` without saturating a counter. -/
def Machine.Room (machine : Machine σ depth) (src : PAddr) (first : Nat) (now : Machine σ depth) : Prop :=
  ∀ page, first ≤ page → UserPage depth page → userPage (machine.entry src page) = true →
    has (machine.entry src page) pageOwned = true →
    (now.ledger.holders (frameOf (machine.entry src page))).ncard < 255

/-- Only tables of `dst` changed hands. -/
structure Retabled (machine : Machine σ depth) (dst : PAddr) (now : Machine σ depth) : Prop where
  tables : now.Tables
  besides : now.besides dst = machine.besides dst
  loose : ∀ frame, now.Loose frame ↔ machine.Loose frame
  uses : machine.frames.Uses (machine.besides dst) now.frames

/-- The state when the pages of `src` below `count` are shared with `dst`. -/
structure Shared (machine : Machine σ depth) (src dst : PAddr) (count : Nat) (now : Machine σ depth) :
    Prop where
  retabled : Retabled machine dst now
  entries : ∀ place number, UserPage depth number → now.entry place number =
    if number < count ∧ userPage (machine.entry src number) = true then
      if place = src then sharedParent (machine.entry src number)
      else if place = dst then sharedChild machine.cpuHasNx (machine.entry src number)
      else machine.entry place number
    else machine.entry place number
  share : now.share = machine.sharedCounts src count
  bytes : now.bytes = machine.bytes
  supply : ∀ {spare}, machine.frames.supplies (spare + depth * machine.userPages src count) = true →
    now.frames.supplies spare = true
  family : ∀ outside, machine.Family outside → machine.Room src 0 machine →
    now.Family outside ∧ machine.Room src count now

/-- The state when sharing gave up at page `count`: the parent's entry is already
rewritten, the child's is missing. -/
structure ShareFailed (machine : Machine σ depth) (src dst : PAddr) (count : Nat)
    (now : Machine σ depth) : Prop where
  retabled : Retabled machine dst now
  failing : UserPage depth count ∧ userPage (machine.entry src count) = true
  entries : ∀ place number, UserPage depth number → now.entry place number =
    if number < count ∧ userPage (machine.entry src number) = true then
      if place = src then sharedParent (machine.entry src number)
      else if place = dst then sharedChild machine.cpuHasNx (machine.entry src number)
      else machine.entry place number
    else if number = count ∧ place = src then sharedParent (machine.entry src number)
    else machine.entry place number
  share : now.share = machine.sharedCounts src count
  bytes : now.bytes = machine.bytes
  short : machine.frames.supplies (depth * machine.userPages src (count + 1)) = false
  family : ∀ outside, machine.Family outside → machine.Room src 0 machine →
    holding (sharedParent (machine.entry src count)) = holding (machine.entry src count) →
    now.Family outside

omit [FrameAllocator σ] in
theorem userPages_succ {machine : Machine σ depth} {src : PAddr} {page : Nat} (user : UserPage depth page)
    (visited : userPage (machine.entry src page) = true) :
    machine.userPages src (page + 1) = machine.userPages src page + 1 := by
  rw [Machine.userPages, count_succ, if_pos ⟨user, visited⟩]
  rfl

section Steps

variable {machine mid after : Machine σ depth} {src dst : PAddr} {page : Nat} {link dlink : Link}
  {now child : Table depth}

theorem Retabled.mapPage (retabled : Retabled machine dst mid) (apart : src ≠ dst)
    (source : mid.spaces src = .node link now) (target : mid.spaces dst = .node dlink child)
    (low : LowPage depth page) (reached : now.Reaches page) {flags word : Word} {phys : PAddr}
    (user : has flags pageUser = true)
    (spaces : after.spaces = update (update mid.spaces src (.node link (now.write page word))) dst
      (.node dlink (vmmMapIn false (page * pageSize) phys 1 flags child mid.frames).2.1))
    (frames : after.frames = (vmmMapIn false (page * pageSize) phys 1 flags child mid.frames).2.2) :
    Retabled machine dst after ∧ ((vmmMapIn false (page * pageSize) phys 1 flags child mid.frames).1 = false →
        ∀ place number, after.entry place number =
          if SamePage depth page number ∧ place = src then word else mid.entry place number) ∧
      ((vmmMapIn false (page * pageSize) phys 1 flags child mid.frames).1 = true →
        ∀ place number, after.entry place number = if SamePage depth page number ∧ place = src then word
          else if SamePage depth page number ∧ place = dst then phys ||| flags ||| pagePresent
          else mid.entry place number) := by
  obtain ⟨owned, uses, shape, failed, mapped⟩ := vmmMapIn_page phys
    (retabled.tables.owned target) (retabled.tables.shape target) user low
  generalize vmmMapIn false (page * pageSize) phys 1 flags child mid.frames = result
    at owned uses shape failed mapped spaces frames
  rw [← frames] at owned uses
  obtain ⟨tables, loose⟩ := tables_forked retabled.tables apart source target low reached shape owned spaces
  refine ⟨⟨tables, ?_, fun frame => (loose frame).trans (retabled.loose frame), ?_⟩, ?_, ?_⟩
  · rw [besides_eq (by rw [spaces, update_self]) owned, retabled.besides]
  · rw [retabled.besides] at uses
    exact retabled.uses.trans uses
  · intro refused place number
    have same : ∀ number, result.2.1.query number =
        if SamePage depth page number then child.query page else child.query number := by
      intro number
      rw [failed refused]
      split
      · rename_i here
        exact (query_congr child here).symm
      · rfl
    rw [entry_forked apart source target reached same spaces]
    by_cases here : SamePage depth page number ∧ place = src
    · rw [if_pos here, if_pos here]
    · rw [if_neg here, if_neg here]
      split
      · rename_i there
        rw [there.2, entry_node target, query_congr child there.1]
      · rfl
  · intro done
    exact entry_forked apart source target reached (mapped done).2 spaces

theorem Shared.step (shared : Shared machine src dst page mid) (apart : src ≠ dst)
    (empty : ∀ number, UserPage depth number → has (machine.entry dst number) pagePresent = false)
    (source : mid.spaces src = .node link now) (target : mid.spaces dst = .node dlink child)
    (user : UserPage depth page) (reached : now.Reaches page)
    (visited : userPage (machine.entry src page) = true)
    (spaces : after.spaces = update
      (update mid.spaces src (.node link (now.write page (sharedParent (machine.entry src page)))))
      dst (.node dlink (vmmMapIn false (page * pageSize) (frameOf (machine.entry src page)) 1
        (mapFramesFlags machine.cpuHasNx (sharedFlags (machine.entry src page))
          (!has (machine.entry src page) pageNx) false) child mid.frames).2.1))
    (frames : after.frames = (vmmMapIn false (page * pageSize) (frameOf (machine.entry src page)) 1
      (mapFramesFlags machine.cpuHasNx (sharedFlags (machine.entry src page))
        (!has (machine.entry src page) pageNx) false) child mid.frames).2.2)
    (bytes : after.bytes = mid.bytes)
    (done : (vmmMapIn false (page * pageSize) (frameOf (machine.entry src page)) 1
      (mapFramesFlags machine.cpuHasNx (sharedFlags (machine.entry src page))
        (!has (machine.entry src page) pageNx) false) child mid.frames).1 = true)
    (share : after.share = countShared after.frames.totalPages mid.share (machine.entry src page)) :
    Shared machine src dst (page + 1) after := by
  obtain ⟨retabled, -, mapped⟩ := shared.retabled.mapPage apart source target user.2 reached
    (mapFramesFlags_user _ _ _ _) spaces frames
  have entries : ∀ place number, after.entry place number =
      if SamePage depth page number ∧ place = src then sharedParent (machine.entry src page)
      else if SamePage depth page number ∧ place = dst then
        sharedChild machine.cpuHasNx (machine.entry src page)
      else mid.entry place number := mapped done
  have total : after.frames.totalPages = machine.frames.totalPages := retabled.uses.totalPages
  have totalMid : mid.frames.totalPages = machine.frames.totalPages := shared.retabled.uses.totalPages
  have sourceEntry : mid.entry src page = machine.entry src page := by
    rw [shared.entries src page user]
    simp
  have targetEntry : mid.entry dst page = machine.entry dst page := by
    rw [shared.entries dst page user]
    simp
  refine ⟨retabled, fun place number low => ?_, ?_, bytes.trans shared.bytes, fun {spare} enough => ?_,
    fun outside family room => ?_⟩
  · rw [entries, shared.entries place number low]
    simp only [user.samePage low]
    by_cases here : page = number
    · subst here
      simp [visited]
    · have before : number < page + 1 ↔ number < page := by omega
      simp [here, before]
  · rw [share, total, shared.share, sharedCounts, if_pos ⟨user, visited⟩]
  · rw [userPages_succ user visited, mul_succ, Nat.add_comm _ depth, ← Nat.add_assoc] at enough
    rw [frames]
    have free : has (child.query page) pagePresent = false := by
      rw [← entry_node target, targetEntry]
      exact empty page user
    exact (vmmMapIn_supply (aligned_frameOf _) (shared.retabled.tables.shape target)
      (mapFramesFlags_user _ _ _ _) user.2 free (shared.supply enough)).2
  · obtain ⟨familyMid, roomMid⟩ := shared.family outside family room
    have loose : ∀ frame, after.Loose frame ↔ mid.Loose frame :=
      fun frame => (retabled.loose frame).trans (shared.retabled.loose frame).symm
    rw [← sourceEntry] at entries visited share
    rw [total, ← totalMid] at share
    have familyAfter : after.Family outside := by
      refine shared_family familyMid apart user visited ?_ ?_ retabled.tables loose entries share
      · rw [targetEntry]
        exact empty page user
      · rw [sourceEntry] at visited ⊢
        exact roomMid page (Nat.le_refl page) user visited
    refine ⟨familyAfter, fun number later low visitedLater owned => ?_⟩
    have bound := roomMid number (by omega) low visitedLater owned
    have laterEntry : mid.entry src number = machine.entry src number := by
      rw [shared.entries src number low]
      have notBefore : ¬ number < page := by omega
      simp [notBefore]
    have held : (src, number) ∈ mid.ledger.holders (frameOf (machine.entry src number)) := by
      simp only [userPage, Bool.and_eq_true] at visitedLater
      rw [Ledger.mem_holders, slot_user mid src low, laterEntry, holding, if_pos visitedLater.1]
      cases has (machine.entry src number) pageSharedRef with
      | true => exact ⟨true, rfl⟩
      | false => exact ⟨false, by simp [owned]⟩
    rw [holders_forked familyMid familyAfter (slots_forked apart user entries) (show number ≠ page by omega) held]
    exact bound

theorem Shared.fail (shared : Shared machine src dst page mid) (apart : src ≠ dst)
    (empty : ∀ number, UserPage depth number → has (machine.entry dst number) pagePresent = false)
    (source : mid.spaces src = .node link now) (target : mid.spaces dst = .node dlink child)
    (user : UserPage depth page) (reached : now.Reaches page)
    (visited : userPage (machine.entry src page) = true) {flags : Word} {phys : PAddr}
    (aligned : Aligned phys) (userFlags : has flags pageUser = true)
    (spaces : after.spaces = update
      (update mid.spaces src (.node link (now.write page (sharedParent (machine.entry src page)))))
      dst (.node dlink (vmmMapIn false (page * pageSize) phys 1 flags child mid.frames).2.1))
    (frames : after.frames = (vmmMapIn false (page * pageSize) phys 1 flags child mid.frames).2.2)
    (bytes : after.bytes = mid.bytes)
    (refused : (vmmMapIn false (page * pageSize) phys 1 flags child mid.frames).1 = false)
    (share : after.share = mid.share) : ShareFailed machine src dst page after := by
  obtain ⟨retabled, failed, -⟩ := shared.retabled.mapPage apart source target user.2 reached userFlags spaces frames
  have entries := failed refused
  refine ⟨retabled, ⟨user, visited⟩, fun place number low => ?_, share.trans shared.share,
    bytes.trans shared.bytes, ?_, fun outside family room kept => ?_⟩
  · rw [entries, shared.entries place number low]
    simp only [user.samePage low]
    by_cases here : page = number
    · subst here
      simp
    · simp [here, Ne.symm here]
  · by_contra supplied
    rw [Bool.not_eq_false, userPages_succ user visited, mul_succ, Nat.add_comm _ depth] at supplied
    have free : has (child.query page) pagePresent = false := by
      have targetEntry := shared.entries dst page user
      simp only [Nat.lt_irrefl, false_and, if_false] at targetEntry
      rw [← entry_node target, targetEntry]
      exact empty page user
    have enough : mid.frames.supplies (0 + depth) = true :=
      Frames.supplies_mono (shared.supply supplied) (by omega)
    have done := (vmmMapIn_supply aligned (shared.retabled.tables.shape target) userFlags user.2 free enough).1
    rw [done] at refused
    contradiction
  · obtain ⟨familyMid, -⟩ := shared.family outside family room
    have sourceEntry : mid.entry src page = machine.entry src page := by
      rw [shared.entries src page user]
      simp
    have loose : ∀ frame, after.Loose frame ↔ mid.Loose frame :=
      fun frame => (retabled.loose frame).trans (shared.retabled.loose frame).symm
    have slots : after.ledger.slot = mid.ledger.slot := by
      have changed : after.ledger.slot = update mid.ledger.slot (src, page) (holding (after.entry src page)) := by
        refine slots_update user fun place number low other => ?_
        rw [entries, if_neg]
        rintro ⟨same, isSrc⟩
        exact other ⟨isSrc, ((user.samePage low).mp same).symm⟩
      rw [changed, entries, if_pos ⟨rfl, rfl⟩, kept, ← sourceEntry, ← slot_user mid src user, update_eq_self]
    refine familyMid.retable retabled.tables loose ?_ fun place number low => ?_
    · rw [show after.ledger = ⟨after.ledger.slot, after.share⟩ from rfl, slots, share]
      rfl
    · rw [entries]
      split
      · simp only [userPage, Bool.and_eq_true, ← sourceEntry] at visited
        rw [← sourceEntry]
        exact sharedParent_ok _ (familyMid.entries src user) visited.1
      · exact familyMid.entries place low

end Steps

/-- The machine in the middle of a traversal. -/
structure ForkState (machine : Machine σ depth) (src dst : PAddr) (link dlink : Link)
    (now : Table depth) (fork : Fork σ depth) (after : Machine σ depth) : Prop where
  spaces : after.spaces = update (update machine.spaces src (.node link now)) dst (.node dlink fork.dst)
  frames : after.frames = fork.frames
  share : after.share = fork.share
  bytes : after.bytes = fork.bytes

section State

variable {machine after : Machine σ depth} {src dst : PAddr} {link dlink : Link} {now table : Table depth}
  {fork next : Fork σ depth}

omit [FrameAllocator σ]

def Machine.forked (machine : Machine σ depth) (src dst : PAddr) (link dlink : Link)
    (now : Table depth) (fork : Fork σ depth) : Machine σ depth :=
  { machine with
    spaces := update (update machine.spaces src (.node link now)) dst (.node dlink fork.dst)
    frames := fork.frames
    share := fork.share
    bytes := fork.bytes }

theorem forked_state (machine : Machine σ depth) (src dst : PAddr) (link dlink : Link)
    (now : Table depth) (fork : Fork σ depth) :
    ForkState machine src dst link dlink now fork (machine.forked src dst link dlink now fork) :=
  ⟨rfl, rfl, rfl, rfl⟩

theorem ForkState.target (state : ForkState machine src dst link dlink now fork after) :
    after.spaces dst = .node dlink fork.dst := by
  rw [state.spaces, update_self]

theorem ForkState.source (state : ForkState machine src dst link dlink now fork after)
    (apart : src ≠ dst) : after.spaces src = .node link now := by
  rw [state.spaces, update_of_ne apart, update_self]

theorem ForkState.spaces_next (apart : src ≠ dst) {changed : Table depth}
    (state : ForkState machine src dst link dlink changed next after) :
    after.spaces = update (update (machine.forked src dst link dlink now fork).spaces src (.node link changed)) dst
      (.node dlink next.dst) := by
  rw [state.spaces]
  funext place
  by_cases isDst : place = dst
  · simp [isDst]
  · by_cases isSrc : place = src
    · simp [isSrc, apart]
    · simp [Machine.forked, isDst, isSrc]

end State

section Traversal

variable {machine after : Machine σ depth} {src dst : PAddr} {link dlink : Link}
  {now table dtable : Table depth} {fork : Fork σ depth} {page : Nat}

theorem Shared.start (tables : machine.Tables)
    (source : machine.spaces src = .node link table) (target : machine.spaces dst = .node dlink dtable)
    (state : ForkState machine src dst link dlink table
      { dst := dtable, frames := machine.frames, share := machine.share, bytes := machine.bytes
        done := 0 } after) : Shared machine src dst 0 after := by
  have spaces : after.spaces = machine.spaces := by
    rw [state.spaces, ← source, update_eq_self, ← target, update_eq_self]
  obtain ⟨tablesAfter, loose⟩ := tables.congr spaces state.frames
  refine ⟨⟨tablesAfter, ?_, loose, state.frames ▸ .refl⟩, fun place number _ => ?_, state.share,
    state.bytes, fun {spare} enough => ?_,
    fun outside family room => ⟨family.congr spaces state.frames state.share, ?_⟩⟩
  · funext frame
    rw [besides, besides, tableCount_congr spaces, state.frames]
  · simp [entry_congr spaces]
  · rw [state.frames]
    simpa [userPages] using enough
  · unfold Machine.Room
    rw [Family.ledger_congr spaces state.share]
    exact room

theorem Shared.idle (shared : Shared machine src dst page after)
    (other : UserPage depth page → userPage (machine.entry src page) = false) :
    Shared machine src dst (page + 1) after := by
  refine ⟨shared.retabled, fun place number low => ?_, ?_, shared.bytes, fun {spare} enough => ?_,
    fun outside family room => ?_⟩
  · rw [shared.entries place number low]
    by_cases here : number = page
    · subst here
      simp [other low]
    · have before : number < page + 1 ↔ number < page := by omega
      simp only [before]
  · rw [shared.share, sharedCounts, if_neg]
    rintro ⟨user, visited⟩
    rw [other user] at visited
    contradiction
  · refine shared.supply ?_
    rwa [userPages, count_succ, if_neg, Nat.add_zero] at enough
    rintro ⟨user, visited⟩
    rw [other user] at visited
    contradiction
  · obtain ⟨familyAfter, roomAfter⟩ := shared.family outside family room
    exact ⟨familyAfter, fun number later => roomAfter number (by omega)⟩

end Traversal

/-- What `vmm_share_user_space` does when it succeeds and when it does not. -/
theorem vmmShareUserSpace_spec {machine : Machine σ depth} {src dst : PAddr} (apart : src ≠ dst)
    (tables : machine.Tables) (source : machine.alive src = true) (target : machine.alive dst = true)
    (empty : ∀ number, UserPage depth number → has (machine.entry dst number) pagePresent = false) :
    ((vmmShareUserSpace src dst machine).1 = true ∧
        Shared machine src dst (512 ^ (depth + 1)) (vmmShareUserSpace src dst machine).2) ∨
      ((vmmShareUserSpace src dst machine).1 = false ∧
        ∃ page, ShareFailed machine src dst page (vmmShareUserSpace src dst machine).2) := by
  obtain ⟨link, table, source⟩ := alive_node source
  obtain ⟨dlink, dtable, target⟩ := alive_node target
  have entered : link.user = true := by rw [tables.link source]
  have walk := traverse_user entered (tables.shape source) (sharePage_skip machine.cpuHasNx)
    { dst := dtable, frames := machine.frames, share := machine.share, bytes := machine.bytes, done := 0 }
    (fun page now fork => ∀ after, ForkState machine src dst link dlink now fork after →
      Shared machine src dst page after)
    (fun page now fork => ∀ after, ForkState machine src dst link dlink now fork after →
      ShareFailed machine src dst page after)
    (fun after state => .start tables source target state) ?_ ?_
  · obtain ⟨ok, after, rest, walked, same, outcome⟩ := walk
    have result : vmmShareUserSpace src dst machine = (ok, { machine.forked src dst link dlink after rest with
        cowSharedTotal := machine.cowSharedTotal + rest.done }) := by
      simp only [vmmShareUserSpace, Machine.forkWith, target, source, walked]
      rfl
    rw [result]
    have state : ForkState machine src dst link dlink after rest
        { machine.forked src dst link dlink after rest with
          cowSharedTotal := machine.cowSharedTotal + rest.done } := ⟨rfl, rfl, rfl, rfl⟩
    rcases outcome with ⟨done, shared⟩ | ⟨refused, page, bound, failed⟩
    · exact .inl ⟨done, shared _ state⟩
    · exact .inr ⟨refused, page, failed _ state⟩
  · intro page now fork shared other after state
    refine (shared after state).idle fun user => ?_
    have here := (shared after state).entries src page user
    rw [entry_node (state.source apart)] at here
    simp only [Nat.lt_irrefl, false_and, if_false] at here
    rw [← here]
    exact other
  · intro page bound now fork sameNow low reached visited shared
    have state := forked_state machine src dst link dlink now fork
    have sharedMid := shared _ state
    have user : UserPage depth page := ⟨bound, low⟩
    have here : now.query page = machine.entry src page := by
      have entry := sharedMid.entries src page user
      rw [entry_node (state.source apart)] at entry
      simpa using entry
    rw [here] at visited ⊢
    rw [sharePage_user machine.cpuHasNx page fork visited]
    split
    · rename_i done
      refine ⟨fun _ after next => ?_, fun stop => by contradiction⟩
      exact sharedMid.step apart empty (state.source apart) state.target user reached visited
        (next.spaces_next apart) next.frames next.bytes done (by rw [next.share, next.frames]; rfl)
    · rename_i refused
      refine ⟨fun go => by contradiction, fun _ after next => ?_⟩
      exact sharedMid.fail apart empty (state.source apart) state.target user reached visited
        (aligned_frameOf _) (mapFramesFlags_user _ _ _ _) (next.spaces_next apart) next.frames next.bytes
        (Bool.eq_false_iff.mpr refused) next.share

end NyonOS.Paging
