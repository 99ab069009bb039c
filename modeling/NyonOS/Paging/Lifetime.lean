import NyonOS.Data.Run
import NyonOS.Paging.Generation

namespace NyonOS.Paging

open Data Machine Function

/-! When frames are given back: families of address spaces that fork, write and exit. -/

variable {σ : Type} [FrameAllocator σ] {depth : Nat}

/-! The calls of a run. -/

inductive Call
  | fork (src : PAddr)
  | resolve (root : PAddr) (vaddr : Nat)
  | destroy (root : PAddr)

/-- A call on a family of address spaces. A fork creates an address space and
shares all pages with it; it does not run out of memory, and afterwards fewer
than 256 address spaces map any of its frames. -/
inductive Step : Call → Machine σ (depth + 1) → Machine σ (depth + 1) → Prop
  | fork {src dst : PAddr} {before created after : Machine σ (depth + 1)}
      (alive : before.alive src = true)
      (room : ∀ page frame, before.Maps src page frame → (before.mappers frame).ncard + 1 < 256)
      (creates : vmmCreateAddressSpace before = some (dst, created))
      (shares : vmmShareUserSpace src dst created = (true, after)) : Step (.fork src) before after
  | resolve {root : PAddr} {vaddr : Nat} {before : Machine σ (depth + 1)}
      (alive : before.alive root = true) :
      Step (.resolve root vaddr) before (vmmCowResolve root vaddr before).2
  | destroy {root : PAddr} {before : Machine σ (depth + 1)} (alive : before.alive root = true) :
      Step (.destroy root) before (vmmDestroyAddressSpace root before)

/-- What frames handed to `pmm_free` during a call must satisfy: nobody maps them
any more, a frame goes with its last mapping, and over the whole run a frame is
given back once for each time it was handed out. -/
structure FreedOnce (start before after : Machine σ depth) : Prop where
  logged : ∃ new, after.frames.freed = new ++ before.frames.freed ∧ (∀ frame ∈ new, ¬ after.Mapped frame) ∧
    ∀ frame, before.Mapped frame → ¬ after.Mapped frame → frame ∈ new
  live : ∀ frame, after.Mapped frame → after.frames.Live frame
  balanced : start.frames.Balanced after.frames

/-- A fork is of an address space that owns all its pages: none is still inherited
from a parent, and none is pinned. -/
def OwnsForked : Call → Machine σ (depth + 1) → Prop
  | .fork src, machine => ∀ page frame, machine.Maps src page frame →
      has (machine.entry src page) pageOwned = true ∧ has (machine.entry src page) pagePinned = false
  | _, _ => True

/-! One call. -/

section Step

variable {before after : Machine σ (depth + 1)} {outside : PAddr → Prop} {call : Call}

theorem Step.family (step : Step call before after) (kernel : KernelHalf before.kernelPml4)
    (family : before.Family outside) :
    after.Family outside ∧ before.frames.Uses after.Held after.frames ∧ KernelHalf after.kernelPml4 := by
  cases step with
  | fork alive room creates shares =>
    have forked := fork_spec family.tables kernel alive creates shares
    have familyAfter := forked.family outside family room
    refine ⟨familyAfter, forked.uses.mono fun frame held => ?_, by rw [forked.kernelPml4]; exact kernel⟩
    exact (forked.loose frame).mp ((familyAfter.loose frame).mpr (.inl held))
  | @resolve root vaddr _ alive =>
    obtain ⟨familyAfter, uses⟩ := vmmCowResolve_family family root vaddr
    refine ⟨familyAfter, uses, ?_⟩
    rcases vmmCowResolve_spec family.tables root vaddr with idle | ⟨-, np, resolved⟩
    · rw [idle]
      exact kernel
    · rw [resolved.kernelPml4]
      exact kernel
  | @destroy root _ alive =>
    obtain ⟨familyAfter, uses, spaces⟩ := vmmDestroyAddressSpace_family family alive
    refine ⟨familyAfter, uses.mono fun frame held => ?_, by rw [vmmDestroyAddressSpace_kernelPml4]; exact kernel⟩
    obtain ⟨⟨place, page⟩, counted, slot⟩ := held
    obtain ⟨user, held⟩ := slot_some slot
    have elsewhere : place ≠ root := by
      rintro rfl
      rw [entry, spaces, update_self] at held
      simp [Radix.get, holding] at held
    rw [entry, spaces, update_of_ne elsewhere] at held
    exact ⟨(place, page), ⟨counted, (slot_user before place user).trans held⟩, elsewhere⟩

omit [FrameAllocator σ] in
theorem isTable_of_removed {machine after : Machine σ depth} {root frame : PAddr}
    (spaces : after.spaces = update machine.spaces root .absent) (used : after.IsTable frame) :
    machine.IsTable frame := by
  obtain ⟨place, used⟩ := used
  rw [tableCount, spaces] at used
  by_cases same : place = root
  · rw [same, update_self] at used
    exact absurd used (Nat.lt_irrefl 0)
  · rw [update_of_ne same] at used
    exact ⟨place, used⟩

theorem Step.isTable (step : Step call before after) (kernel : KernelHalf before.kernelPml4)
    (family : before.Family outside) {frame : PAddr} (loose : before.Loose frame) :
    ¬ after.IsTable frame := by
  cases step with
  | fork alive room creates shares =>
    have forked := fork_spec family.tables kernel alive creates shares
    exact ((forked.loose frame).mpr loose).2
  | @resolve root vaddr _ alive =>
    rcases vmmCowResolve_spec family.tables root vaddr with idle | ⟨-, np, resolved⟩
    · rw [idle]
      exact loose.2
    · rw [IsTable, resolved.tableCount]
      exact loose.2
  | @destroy root _ alive =>
    obtain ⟨-, -, spaces⟩ := vmmDestroyAddressSpace_family family alive
    exact fun used => loose.2 (isTable_of_removed spaces used)

end Step

/-! Whole runs. -/

section Runs

variable {start before after : Machine σ (depth + 1)} {outside : PAddr → Prop} {call : Call}
  {root : PAddr}

/-- What holds between the calls of a run. -/
structure Kept (start : Machine σ (depth + 1)) (machine : Machine σ (depth + 1)) : Prop where
  family : machine.Family start.Elsewhere
  kernel : KernelHalf machine.kernelPml4
  tracked : machine.Tracked
  balanced : start.frames.Balanced machine.frames

theorem SingleSpace.kept (single : SingleSpace root start) : Kept start start :=
  ⟨single.family, single.kernel, single.tracked, fun frame => by omega⟩

theorem Step.tracked (step : Step call before after) (owns : OwnsForked call before)
    (kernel : KernelHalf before.kernelPml4) (family : before.Family outside) (tracked : before.Tracked) :
    after.Tracked := by
  cases step with
  | @fork src dst _ _ _ alive room creates shares =>
    have forked := fork_spec family.tables kernel alive creates shares
    intro place page user
    rw [forked.entries place user]
    split
    · rename_i visited
      simp only [userPage, Bool.and_eq_true] at visited
      obtain ⟨owned, unpinned⟩ := owns page _ ⟨user, visited.1, rfl⟩
      split
      · exact fun present => holding_owned present (by simpa using owned)
      split
      · exact fun present => holding_shared present (by simp [owned, unpinned])
      · exact tracked place user
    · exact tracked place user
  | @resolve root vaddr _ alive =>
    rcases vmmCowResolve_spec family.tables root vaddr with idle | ⟨-, np, resolved⟩
    · rw [idle]
      exact tracked
    intro place page user
    rw [resolved.entries place user]
    split
    · exact fun present => holding_owned present (by simp [resolvedFlags])
    · exact tracked place user
  | @destroy root _ alive =>
    obtain ⟨-, -, spaces⟩ := vmmDestroyAddressSpace_family family alive
    intro place page user
    by_cases same : place = root
    · rw [same, entry, spaces, update_self]
      simp [Radix.get]
    · rw [entry, spaces, update_of_ne same]
      exact tracked place user

theorem Step.kept (step : Step call before after) (owns : OwnsForked call before)
    (kept : Kept start before) : Kept start after := by
  obtain ⟨family, uses, kernel⟩ := step.family kept.kernel kept.family
  exact ⟨family, kernel, step.tracked owns kept.kernel kept.family kept.tracked, uses.balanced kept.balanced⟩

/-- In a run that only forks address spaces which own all their pages, a frame is
given back exactly when its last mapping disappears. -/
theorem frames_freedOnce (single : SingleSpace root start) (run : Run Step OwnsForked start before)
    (owns : OwnsForked call before) (step : Step call before after) :
    FreedOnce start before after := by
  have kept : Kept start before :=
    run.invariant single.kept fun _ _ _ kept owns step => step.kept owns kept
  have keptAfter := step.kept owns kept
  obtain ⟨-, uses, -⟩ := step.family kept.kernel kept.family
  have mapped := keptAfter.tracked.mapped
  obtain ⟨new, logged, spare, stays⟩ := uses.freed
  refine ⟨⟨new, logged, fun frame member => ?_, fun frame mappedBefore gone => ?_⟩, fun frame => ?_, keptAfter.balanced⟩
  · rw [mapped]
    exact spare frame member
  · by_contra unfreed
    have held := (kept.tracked.mapped frame).mp mappedBefore
    have loose := (kept.family.loose frame).mpr (.inl held)
    have looseAfter : after.Loose frame :=
      ⟨stays frame loose.1 unfreed, step.isTable kept.kernel kept.family loose⟩
    rw [mapped] at gone
    exact kept.family.heldOutside held (((keptAfter.family.loose frame).mp looseAfter).resolve_left gone)
  · rw [mapped]
    exact fun held => ((keptAfter.family.loose frame).mpr (.inl held)).1

end Runs

namespace Bump

theorem one_step : Step (.fork parent) one forkedOnce := .fork one_alive one_room one_creates one_shares

theorem forkedOnce_step : Step (.fork child) forkedOnce forkedTwice := by
  refine .fork (forkedOnce_alive.mpr (.inl rfl)) (fun page frame _ => ?_) forkedOnce_creates forkedOnce_shares
  have few := mappers_le {child, parent} (fun place alive => by simpa using forkedOnce_alive.mp alive) frame
  have two : ({child, parent} : Finset PAddr).card ≤ 2 := Finset.card_le_two
  omega

theorem one_owns : OwnsForked (.fork parent) one := by
  obtain ⟨_, -, only⟩ := one_page
  intro page frame maps
  exact ⟨(one_single.1.owned maps).2.2.1, (only maps).2.2.1⟩

end Bump

/-- A parent forks and exits. -/
theorem frames_freedOnce_exit :
    FreedOnce Bump.one Bump.forkedOnce (vmmDestroyAddressSpace Bump.parent Bump.forkedOnce) :=
  frames_freedOnce Bump.one_single.1 (.next .start Bump.one_owns Bump.one_step)
    (show OwnsForked (.destroy Bump.parent) Bump.forkedOnce from trivial)
    (.destroy (Bump.forkedOnce_alive.mpr (.inr rfl)))

/-! What goes wrong when a page is inherited twice. -/

section Inherited

variable {root : PAddr}

def Machine.Inherits (machine : Machine σ depth) (root : PAddr) : Prop :=
  ∀ {page}, UserPage depth page → holding (machine.entry root page) = none

theorem Forked.inherits {first second third : Machine σ depth} {src child grandchild : PAddr}
    (forked : Forked first src child second) (again : Forked second child grandchild third)
    (apart : child ≠ src) : third.Inherits grandchild := by
  intro page user
  have different : grandchild ≠ child := by
    rintro rfl
    exact alive_iff.mp ((forked.alive grandchild).mpr (.inl rfl)) again.absent
  have unowned : has (second.entry child page) pageOwned = false := by
    rw [forked.entries child user]
    split
    · rw [if_pos rfl, sharedChild_owned]
    · rw [entry_absent forked.absent, has_zero]
  rw [again.entries grandchild user]
  split
  · rw [if_pos rfl]
    exact (holding_uncounted _ _ (.inl unowned)).2
  · rw [entry_absent again.absent, holding_zero]

/-- Two generations inherit a page, then both older address spaces exit: the frame
is given back while the youngest one still maps it. -/
theorem inherited_twice_dangles {start second third : Machine σ (depth + 1)} {child grandchild : PAddr}
    {page : Nat} {frame : PAddr} (single : SingleSpace root start) (maps : start.Maps root page frame)
    (unpinned : has (start.entry root page) pagePinned = false)
    (forked : Forked start root child second) (again : Forked second child grandchild third)
    (family : third.Family start.Elsewhere) :
    let fourth := vmmDestroyAddressSpace root third
    let fifth := vmmDestroyAddressSpace child fourth
    fourth.alive child = true ∧ fourth.frames.Live frame ∧ fifth.Mapped frame ∧ ¬ fifth.frames.Live frame := by
  intro fourth fifth
  obtain ⟨user, present, frameIs⟩ := maps
  obtain ⟨-, userFlag, owned, -⟩ := single.owned ⟨user, present, rfl⟩
  have aliveRoot : start.alive root = true := alive_of_present present
  have childApart : child ≠ root := fun same => alive_iff.mp aliveRoot (same ▸ forked.absent)
  have aliveSecond : ∀ place, second.alive place = true → place = child ∨ place = root :=
    fun place alive => ((forked.alive place).mp alive).imp id single.alone
  have grandchildDead : second.alive grandchild ≠ true := fun alive => alive_iff.mp alive again.absent
  have apart : grandchild ≠ child ∧ grandchild ≠ root := by
    constructor
    · rintro rfl
      exact grandchildDead ((forked.alive grandchild).mpr (.inl rfl))
    · rintro rfl
      exact grandchildDead ((forked.alive grandchild).mpr (.inr aliveRoot))
  have aliveThird : third.alive root = true ∧ third.alive child = true :=
    ⟨(again.alive root).mpr (.inr ((forked.alive root).mpr (.inr aliveRoot))),
      (again.alive child).mpr (.inr ((forked.alive child).mpr (.inl rfl)))⟩
  obtain ⟨familyFourth, -, spacesFourth⟩ := vmmDestroyAddressSpace_family family aliveThird.1
  have aliveFourth : fourth.alive child = true := by
    rw [alive_iff, spacesFourth, update_of_ne childApart, ← alive_iff]
    exact aliveThird.2
  obtain ⟨familyFifth, -, spacesFifth⟩ := vmmDestroyAddressSpace_family familyFourth aliveFourth
  -- the entries of the page in the three address spaces
  have childEntry : second.entry child page = sharedChild start.cpuHasNx (start.entry root page) := by
    rw [forked.entries child user, if_pos (by simp [userPage, present, userFlag]), if_neg childApart, if_pos rfl]
  have visited : userPage (second.entry child page) = true := by simp [childEntry, userPage]
  have childHolds : holding (third.entry child page) = some ⟨frame, true⟩ := by
    rw [again.entries child user, if_pos visited, if_pos rfl,
      (holding_uncounted start.cpuHasNx _ (.inl (by rw [childEntry, sharedChild_owned]))).1, childEntry,
      (holding_counted start.cpuHasNx _ present owned unpinned).2, frameIs]
  have grandchildEntry : third.entry grandchild page = sharedChild second.cpuHasNx (second.entry child page) := by
    rw [again.entries grandchild user, if_pos visited, if_neg apart.1, if_pos rfl]
  have entryFourth : ∀ {place}, place ≠ root → ∀ number, fourth.entry place number = third.entry place number := by
    intro place other number
    rw [entry, entry, spacesFourth, update_of_ne other]
  have entryFifth : ∀ {place}, place ≠ child → ∀ number, fifth.entry place number = fourth.entry place number := by
    intro place other number
    rw [entry, entry, spacesFifth, update_of_ne other]
  have heldFourth : fourth.Held frame := by
    refine ⟨(child, page), true, ?_⟩
    rw [slot_user fourth child user, entryFourth childApart, childHolds]
  have looseFourth : fourth.Loose frame := (familyFourth.loose frame).mpr (.inl heldFourth)
  refine ⟨aliveFourth, looseFourth.1, ⟨grandchild, page, user, ?_, ?_⟩, fun live => ?_⟩
  · rw [entryFifth apart.1, entryFourth apart.2, grandchildEntry, sharedChild_present]
  · rw [entryFifth apart.1, entryFourth apart.2, grandchildEntry, sharedChild_frame, childEntry,
      sharedChild_frame, frameIs]
  · have loose : fifth.Loose frame := ⟨live, fun used => looseFourth.2 (isTable_of_removed spacesFifth used)⟩
    rcases (familyFifth.loose frame).mp loose with ⟨⟨place, number⟩, counted, slot⟩ | elsewhere
    · -- only the youngest is left, and it accounts for nothing
      obtain ⟨low, held⟩ := slot_some slot
      have aliveFifth := alive_of_present (holding_some held).1
      have notChild : place ≠ child := by
        rintro rfl
        exact alive_iff.mp aliveFifth (by rw [spacesFifth, update_self])
      rw [alive_iff, spacesFifth, update_of_ne notChild] at aliveFifth
      have notRoot : place ≠ root := by
        rintro rfl
        exact aliveFifth (by rw [spacesFourth, update_self])
      rw [spacesFourth, update_of_ne notRoot, ← alive_iff, again.alive] at aliveFifth
      rcases aliveFifth with rfl | aliveEarlier
      · rw [entryFifth apart.1, entryFourth apart.2, forked.inherits again childApart low] at held
        contradiction
      · rcases aliveSecond place aliveEarlier with same | same
        · exact notChild same
        · exact notRoot same
    · exact elsewhere.2 ⟨root, page, user, present, frameIs⟩

end Inherited

/-- A parent forks, its child forks before it writes, and the two exit: the last exit
gives back the frame that the grandchild maps. -/
theorem grandchild_page_freed :
    let before := vmmDestroyAddressSpace Bump.parent Bump.forkedTwice
    let after := vmmDestroyAddressSpace Bump.child before
    SingleSpace Bump.parent Bump.one ∧ Run Step (fun _ _ => True) Bump.one before ∧
      Step (.destroy Bump.child) before after ∧ ¬ FreedOnce Bump.one before after ∧
      ∃ frame, before.frames.Live frame ∧ after.Mapped frame ∧ ¬ after.frames.Live frame := by
  obtain ⟨single, -⟩ := Bump.one_single
  obtain ⟨frame, maps, only⟩ := Bump.one_page
  have kept := single.kept
  obtain ⟨family, -, kernel⟩ := Bump.one_step.family kept.kernel kept.family
  obtain ⟨familyTwice, -, -⟩ := Bump.forkedOnce_step.family kernel family
  obtain ⟨aliveChild, live, mapped, dead⟩ := inherited_twice_dangles single maps (only maps).2.2.1
    Bump.one_forked Bump.forkedOnce_forked familyTwice
  have aliveParent : Bump.forkedTwice.alive Bump.parent = true :=
    (Bump.forkedOnce_forked.alive _).mpr (.inr (Bump.forkedOnce_alive.mpr (.inr rfl)))
  refine ⟨single, ?_, .destroy aliveChild, fun safe => dead (safe.live frame mapped), frame, live, mapped, dead⟩
  exact .next (.next (.next .start trivial Bump.one_step) trivial Bump.forkedOnce_step) trivial (.destroy aliveParent)

end NyonOS.Paging
