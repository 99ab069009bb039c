import Mathlib

namespace NyonOS.Data

open Function Set

/-! Reference counts kept only for resources that are shared.

A slot holds at most one resource.  The first holder of a resource holds it
uncounted; sharing turns every holder into a counted one and starts the count.
A released resource is given back by an uncounted holder at once and by a counted
one when the count reaches zero. -/

structure Holding (F : Type) where
  resource : F
  counted : Bool
deriving DecidableEq

structure Ledger (S F : Type) where
  slot : S → Option (Holding F)
  count : F → Nat

namespace Ledger

variable {S F : Type}

def holders (ledger : Ledger S F) (resource : F) : Set S :=
  { slot | ∃ counted, ledger.slot slot = some ⟨resource, counted⟩ }

/-- The count of a shared resource is the number of its holders; an unshared
resource has one holder and no count. -/
structure Sound (ledger : Ledger S F) : Prop where
  finite : ∀ resource, (ledger.holders resource).Finite
  counted : ∀ {slot resource}, ledger.slot slot = some ⟨resource, true⟩ →
    ledger.count resource = (ledger.holders resource).ncard
  sole : ∀ {slot resource}, ledger.slot slot = some ⟨resource, false⟩ → ledger.holders resource = {slot}
  idle : ∀ {resource}, (∀ slot, ledger.slot slot ≠ some ⟨resource, true⟩) → ledger.count resource = 0

variable [DecidableEq S] [DecidableEq F] {ledger : Ledger S F}

def acquire (ledger : Ledger S F) (slot : S) (resource : F) : Ledger S F :=
  { ledger with slot := update ledger.slot slot (some ⟨resource, false⟩) }

/-- Lets an empty slot hold what another slot holds. -/
def share (ledger : Ledger S F) (source target : S) : Ledger S F :=
  match ledger.slot source with
  | none => ledger
  | some ⟨resource, counted⟩ =>
    { slot := update (update ledger.slot source (some ⟨resource, true⟩)) target
        (some ⟨resource, true⟩)
      count := update ledger.count resource (ledger.count resource + if counted then 1 else 2) }

/-- Empties a slot; the answer is the resource to give back. -/
def release (ledger : Ledger S F) (slot : S) : Option F × Ledger S F :=
  match ledger.slot slot with
  | none => (none, ledger)
  | some ⟨resource, true⟩ =>
    (if ledger.count resource = 1 then some resource else none,
      { slot := update ledger.slot slot none
        count := update ledger.count resource (ledger.count resource - 1) })
  | some ⟨resource, false⟩ =>
    (some resource, { ledger with slot := update ledger.slot slot none })

variable {slots : S → Option (Holding F)} {count : F → Nat} {slot : S} {resource : F}

omit [DecidableEq F] in
theorem mem_holders_put {other : S} {value : Option (Holding F)} :
    other ∈ holders ⟨update slots slot value, count⟩ resource ↔
      if other = slot then ∃ counted, value = some ⟨resource, counted⟩
      else ∃ counted, slots other = some ⟨resource, counted⟩ := by
  by_cases here : other = slot
  · simp [holders, here]
  · simp [holders, here]

omit [DecidableEq S] [DecidableEq F] in
theorem mem_holders : slot ∈ ledger.holders resource ↔ ∃ counted, ledger.slot slot = some ⟨resource, counted⟩ :=
  Iff.rfl

omit [DecidableEq F] in
theorem holders_empty (resource : F) : holders ⟨update slots slot none, count⟩ resource =
      holders ⟨slots, count⟩ resource \ {slot} := by
  ext other
  rw [mem_holders_put]
  by_cases here : other = slot
  · simp [here]
  · simp [here, holders]

variable {counted : Bool}

section

omit [DecidableEq F]

theorem holders_put : holders ⟨update slots slot (some ⟨resource, counted⟩), count⟩ resource =
      insert slot (holders ⟨slots, count⟩ resource) := by
  ext other
  rw [mem_holders_put]
  by_cases here : other = slot
  · simp [here]
  · simp [here, holders]

theorem holders_put_other {other : F} (different : resource ≠ other) (kept : ∀ old, slots slot ≠ some ⟨other, old⟩) :
    holders ⟨update slots slot (some ⟨resource, counted⟩), count⟩ other = holders ⟨slots, count⟩ other := by
  ext place
  rw [mem_holders_put]
  by_cases here : place = slot
  · subst here
    simp [different, holders, kept]
  · simp [here, holders]

theorem Sound.acquire (sound : ledger.Sound) (empty : ledger.slot slot = none) (unheld : ledger.holders resource = ∅) :
    (ledger.acquire slot resource).Sound := by
  have here : (ledger.acquire slot resource).holders resource = {slot} := by
    rw [Ledger.acquire, holders_put]
    change insert slot (ledger.holders resource) = _
    rw [unheld]
    exact insert_empty_eq slot
  have there : ∀ other, other ≠ resource → (ledger.acquire slot resource).holders other = ledger.holders other :=
    fun other different => holders_put_other (Ne.symm different) (by simp [empty])
  have taken : ∀ {place other counted}, (ledger.acquire slot resource).slot place =
      some ⟨other, counted⟩ → place = slot ∧ other = resource ∧ counted = false ∨
        place ≠ slot ∧ other ≠ resource ∧ ledger.slot place = some ⟨other, counted⟩ := by
    intro place other counted held
    by_cases same : place = slot
    · subst same
      simp only [Ledger.acquire, update_self, Option.some.injEq, Holding.mk.injEq] at held
      exact .inl ⟨rfl, held.1.symm, held.2.symm⟩
    · simp only [Ledger.acquire, update_of_ne same] at held
      refine .inr ⟨same, ?_, held⟩
      rintro rfl
      exact (unheld ▸ mem_holders.mpr ⟨counted, held⟩ : place ∈ (∅ : Set S))
  refine ⟨fun other => ?_, fun held => ?_, fun held => ?_, fun {other} none => ?_⟩
  · by_cases same : other = resource
    · rw [same, here]
      exact finite_singleton slot
    · rw [there other same]
      exact sound.finite other
  · rcases taken held with ⟨_, _, wrong⟩ | ⟨_, different, held⟩
    · contradiction
    · rw [there _ different]
      exact sound.counted held
  · rcases taken held with ⟨rfl, rfl, _⟩ | ⟨_, different, held⟩
    · exact here
    · rw [there _ different]
      exact sound.sole held
  · apply sound.idle
    intro place held
    apply none place
    have different : place ≠ slot := by
      rintro rfl
      simp [empty] at held
    simp only [Ledger.acquire, update_of_ne different]
    exact held

end

theorem share_holders {source target : S}
    (held : ledger.slot source = some ⟨resource, counted⟩) (empty : ledger.slot target = none) :
    (ledger.share source target).holders resource = insert target (ledger.holders resource) ∧
      ∀ other, other ≠ resource → (ledger.share source target).holders other = ledger.holders other := by
  have different : target ≠ source := by
    rintro rfl
    simp [held] at empty
  simp only [Ledger.share, held]
  constructor
  · rw [holders_put, holders_put]
    congr 1
    exact insert_eq_of_mem (mem_holders.mpr ⟨counted, held⟩)
  · intro other another
    rw [holders_put_other (Ne.symm another) (by simp [update_of_ne different, empty]),
      holders_put_other (Ne.symm another) (by simp [held, Ne.symm another])]
    rfl

theorem Sound.share (sound : ledger.Sound) {source target : S}
    (held : ledger.slot source = some ⟨resource, counted⟩) (empty : ledger.slot target = none) :
    (ledger.share source target).Sound := by
  obtain ⟨here, there⟩ := share_holders held empty
  have different : target ≠ source := by
    rintro rfl
    simp [held] at empty
  have absent : target ∉ ledger.holders resource := by simp [mem_holders, empty]
  have total : (ledger.share source target).count resource = (insert target (ledger.holders resource)).ncard := by
    rw [ncard_insert_of_notMem absent (sound.finite resource)]
    simp only [Ledger.share, held, update_self]
    cases counted with
    | true => rw [sound.counted held, if_pos rfl]
    | false =>
      rw [sound.sole held, ncard_singleton, sound.idle]
      · rfl
      · intro place shared
        have only : place ∈ ledger.holders resource := mem_holders.mpr ⟨true, shared⟩
        rw [sound.sole held, mem_singleton_iff] at only
        rw [only, held] at shared
        simp at shared
  have others : ∀ other, other ≠ resource → (ledger.share source target).count other = ledger.count other := by
    intro other another
    simp only [Ledger.share, held, update_of_ne another]
  have slots : ∀ {place other flag}, (ledger.share source target).slot place = some ⟨other, flag⟩ →
      other = resource ∧ flag = true ∨ other ≠ resource ∧ ledger.slot place = some ⟨other, flag⟩ := by
    intro place other flag holding
    simp only [Ledger.share, held] at holding
    by_cases atTarget : place = target
    · simp only [atTarget, update_self, Option.some.injEq, Holding.mk.injEq] at holding
      exact .inl ⟨holding.1.symm, holding.2.symm⟩
    rw [update_of_ne atTarget] at holding
    by_cases atSource : place = source
    · simp only [atSource, update_self, Option.some.injEq, Holding.mk.injEq] at holding
      exact .inl ⟨holding.1.symm, holding.2.symm⟩
    rw [update_of_ne atSource] at holding
    by_cases same : other = resource
    · subst same
      refine .inl ⟨rfl, ?_⟩
      -- an uncounted holder besides `source` would be the only one
      cases flag with
      | true => rfl
      | false =>
        have only : source ∈ ledger.holders other := mem_holders.mpr ⟨counted, held⟩
        rw [sound.sole holding, mem_singleton_iff] at only
        exact absurd only.symm atSource
    · exact .inr ⟨same, holding⟩
  refine ⟨fun other => ?_, fun holding => ?_, fun holding => ?_, fun {other} none => ?_⟩
  · by_cases same : other = resource
    · rw [same, here]
      exact (sound.finite resource).insert target
    · rw [there other same]
      exact sound.finite other
  · rcases slots holding with ⟨rfl, _⟩ | ⟨another, old⟩
    · rw [here, total]
    · rw [there _ another, others _ another]
      exact sound.counted old
  · rcases slots holding with ⟨_, wrong⟩ | ⟨another, old⟩
    · contradiction
    · rw [there _ another]
      exact sound.sole old
  · have another : other ≠ resource := by
      rintro rfl
      apply none target
      simp [Ledger.share, held]
    rw [others other another]
    apply sound.idle
    intro place old
    apply none place
    have notTarget : place ≠ target := by
      rintro rfl
      simp [empty] at old
    have notSource : place ≠ source := by
      rintro rfl
      simp [held, Ne.symm another] at old
    simp only [Ledger.share, held, update_of_ne notTarget, update_of_ne notSource]
    exact old

theorem release_slot (ledger : Ledger S F) (slot : S) :
    (ledger.release slot).2.slot = update ledger.slot slot none := by
  rw [release]
  split
  · rename_i empty
    rw [← empty, update_eq_self]
  · rfl
  · rfl

theorem release_holders (ledger : Ledger S F) (slot : S) (resource : F) :
    (ledger.release slot).2.holders resource = ledger.holders resource \ {slot} := by
  unfold release
  split
  · rename_i empty
    refine (sdiff_singleton_eq_self ?_).symm
    simp [mem_holders, empty]
  · exact holders_empty resource
  · exact holders_empty resource

omit [DecidableEq S] [DecidableEq F] in
theorem Sound.count_eq_one (sound : ledger.Sound) (held : ledger.slot slot = some ⟨resource, true⟩) :
    ledger.count resource = 1 ↔ ledger.holders resource \ {slot} = ∅ := by
  have member : slot ∈ ledger.holders resource := mem_holders.mpr ⟨true, held⟩
  have less := ncard_sdiff_singleton_of_mem member
  have positive := (ncard_pos (sound.finite resource)).mpr ⟨slot, member⟩
  rw [sound.counted held, ← ncard_eq_zero ((sound.finite resource).sdiff)]
  omega

theorem Sound.release_last (sound : ledger.Sound) (held : ledger.slot slot = some ⟨resource, counted⟩) :
    ((ledger.release slot).1 = if ledger.count resource ≤ 1 then some resource else none) ∧
      (ledger.count resource ≤ 1 ↔ (ledger.release slot).2.holders resource = ∅) := by
  rw [release_holders]
  cases counted with
  | true =>
    have positive : 0 < ledger.count resource := by
      rw [sound.counted held]
      exact (ncard_pos (sound.finite resource)).mpr ⟨slot, mem_holders.mpr ⟨true, held⟩⟩
    have one : ledger.count resource ≤ 1 ↔ ledger.count resource = 1 := by omega
    simp only [release, held, one, sound.count_eq_one held, and_self]
  | false =>
    have zero : ledger.count resource = 0 := by
      apply sound.idle
      intro place shared
      have only : place ∈ ledger.holders resource := mem_holders.mpr ⟨true, shared⟩
      rw [sound.sole held, mem_singleton_iff] at only
      rw [only, held] at shared
      simp at shared
    simp [release, held, zero, sound.sole held]

theorem Sound.release_freed (sound : ledger.Sound) (freed : (ledger.release slot).1 = some resource) :
    slot ∈ ledger.holders resource ∧ ledger.holders resource \ {slot} = ∅ := by
  cases held : ledger.slot slot with
  | none => simp [Ledger.release, held] at freed
  | some holding =>
    obtain ⟨answer, last⟩ := sound.release_last held
    rw [answer] at freed
    split at freed
    · rename_i final
      cases freed
      exact ⟨mem_holders.mpr ⟨holding.counted, held⟩, by rw [← release_holders]; exact last.mp final⟩
    · contradiction

theorem Sound.release (sound : ledger.Sound) (slot : S) : (ledger.release slot).2.Sound := by
  have smaller := release_holders ledger slot
  cases held : ledger.slot slot with
  | none =>
    simp only [Ledger.release, held]
    exact sound
  | some holding =>
    obtain ⟨resource, counted⟩ := holding
    have others : ∀ {place other flag}, (ledger.release slot).2.slot place = some ⟨other, flag⟩ →
        place ≠ slot ∧ ledger.slot place = some ⟨other, flag⟩ := by
      intro place other flag holding
      by_cases same : place = slot
      · cases counted <;> simp [Ledger.release, held, same] at holding
      · refine ⟨same, ?_⟩
        cases counted <;> simpa [Ledger.release, held, same] using holding
    have counts : ∀ other, (ledger.release slot).2.count other =
        if other = resource ∧ counted = true then ledger.count other - 1 else ledger.count other := by
      intro other
      by_cases same : other = resource
      · cases counted <;> simp [Ledger.release, held, same]
      · cases counted <;> simp [Ledger.release, held, same]
    refine ⟨fun other => ?_, fun {place other} holding => ?_, fun {place other} holding => ?_, fun {other} none => ?_⟩
    · rw [smaller]
      exact (sound.finite other).sdiff
    · obtain ⟨different, old⟩ := others holding
      rw [counts, smaller, sound.counted old]
      split
      · rename_i same
        rw [ncard_sdiff_singleton_of_mem]
        exact mem_holders.mpr ⟨counted, same.1 ▸ held⟩
      · rename_i another
        rw [sdiff_singleton_eq_self]
        rintro ⟨flag, also⟩
        rw [held, Option.some.injEq, Holding.mk.injEq] at also
        obtain ⟨same, rfl⟩ := also
        cases counted with
        | true => exact another ⟨same.symm, rfl⟩
        | false =>
          subst same
          have only : place ∈ ledger.holders resource := mem_holders.mpr ⟨true, old⟩
          rw [sound.sole held, mem_singleton_iff] at only
          exact different only
    · obtain ⟨different, old⟩ := others holding
      rw [smaller, sound.sole old]
      exact sdiff_singleton_eq_self (fun member => different (mem_singleton_iff.mp member).symm)
    · rw [counts]
      split
      · rename_i same
        obtain ⟨rfl, rfl⟩ := same
        have empty : ledger.holders other \ {slot} = ∅ := by
          rw [eq_empty_iff_forall_notMem]
          rintro place ⟨⟨flag, old⟩, away⟩
          cases flag with
          | true =>
            refine none place ?_
            simpa [Ledger.release, held, show place ≠ slot from away] using old
          | false =>
            have only : slot ∈ ledger.holders other := mem_holders.mpr ⟨true, held⟩
            rw [sound.sole old, mem_singleton_iff] at only
            exact away only.symm
        rw [(sound.count_eq_one held).mpr empty]
      · rename_i another
        apply sound.idle
        intro place old
        by_cases same : place = slot
        · rw [same, held, Option.some.injEq, Holding.mk.injEq] at old
          exact another ⟨old.1.symm, old.2⟩
        · refine none place ?_
          cases counted <;> simpa [Ledger.release, held, same] using old

/-- The resources in use are the held ones and those of somebody else. -/
structure Accounts (ledger : Ledger S F) (live outside : F → Prop) : Prop where
  sound : ledger.Sound
  live : ∀ resource, live resource ↔ (ledger.holders resource).Nonempty ∨ outside resource
  apart : ∀ {resource}, (ledger.holders resource).Nonempty → ¬ outside resource

namespace Accounts

variable {live after outside : F → Prop} {slot : S} {resource : F}

section

omit [DecidableEq S] [DecidableEq F]

theorem take (accounts : ledger.Accounts live outside) (fresh : ¬ live resource)
    (taken : ∀ other, after other ↔ other = resource ∨ live other) :
    ledger.Accounts after fun other => other = resource ∨ outside other := by
  refine ⟨accounts.sound, fun other => ?_, fun {other} held => ?_⟩
  · rw [taken, accounts.live]
    exact or_left_comm
  · rintro (rfl | claimed)
    · exact fresh ((accounts.live other).mpr (.inl held))
    · exact accounts.apart held claimed

theorem give (accounts : ledger.Accounts live fun other => other = resource ∨ outside other)
    (spare : ¬ outside resource) (given : ∀ other, after other ↔ other ≠ resource ∧ live other) :
    ledger.Accounts after outside := by
  refine ⟨accounts.sound, fun other => ?_, fun held claimed => accounts.apart held (.inr claimed)⟩
  rw [given, accounts.live]
  constructor
  · rintro ⟨different, held | same | claimed⟩
    · exact .inl held
    · exact absurd same different
    · exact .inr claimed
  · rintro (held | claimed)
    · exact ⟨fun same => accounts.apart held (.inl same), .inl held⟩
    · exact ⟨fun same => spare (same ▸ claimed), .inr (.inr claimed)⟩

end

theorem acquire (accounts : ledger.Accounts live fun other => other = resource ∨ outside other)
    (spare : ¬ outside resource) (empty : ledger.slot slot = none) :
    (ledger.acquire slot resource).Accounts live outside ∧ (ledger.acquire slot resource).holders resource = {slot} ∧
      ∀ other, other ≠ resource → (ledger.acquire slot resource).holders other = ledger.holders other := by
  have unheld : ledger.holders resource = ∅ := by
    rw [← not_nonempty_iff_eq_empty]
    exact fun held => accounts.apart held (.inl rfl)
  have here : (ledger.acquire slot resource).holders resource = {slot} := by
    rw [Ledger.acquire, holders_put]
    change insert slot (ledger.holders resource) = _
    rw [unheld]
    exact insert_empty_eq slot
  have there : ∀ other, other ≠ resource → (ledger.acquire slot resource).holders other = ledger.holders other :=
    fun other different => holders_put_other (Ne.symm different) (by simp [empty])
  refine ⟨⟨accounts.sound.acquire empty unheld, fun other => ?_, fun {other} held => ?_⟩, here, there⟩
  · rw [accounts.live]
    by_cases same : other = resource
    · subst same
      simp [here]
    · rw [there other same]
      simp [same]
  · by_cases same : other = resource
    · rw [same]
      exact spare
    · rw [there other same] at held
      exact fun claimed => accounts.apart held (.inr claimed)

theorem share (accounts : ledger.Accounts live outside) {source target : S} {counted : Bool}
    (held : ledger.slot source = some ⟨resource, counted⟩) (empty : ledger.slot target = none) :
    (ledger.share source target).Accounts live outside := by
  obtain ⟨here, there⟩ := share_holders held empty
  have same : ∀ other, ((ledger.share source target).holders other).Nonempty ↔ (ledger.holders other).Nonempty := by
    intro other
    by_cases isResource : other = resource
    · rw [isResource, here]
      exact ⟨fun _ => ⟨source, mem_holders.mpr ⟨counted, held⟩⟩, fun _ => insert_nonempty _ _⟩
    · rw [there other isResource]
  refine ⟨accounts.sound.share held empty, fun other => ?_, fun {other} shared => ?_⟩
  · rw [accounts.live, same]
  · exact accounts.apart ((same other).mp shared)

theorem release (accounts : ledger.Accounts live outside) (slot : S)
    (given : ∀ other, after other ↔ (ledger.release slot).1 ≠ some other ∧ live other) :
    (ledger.release slot).2.Accounts after outside := by
  have subset : ∀ {other}, ((ledger.release slot).2.holders other).Nonempty → (ledger.holders other).Nonempty := by
    rintro other ⟨place, member⟩
    rw [release_holders] at member
    exact ⟨place, member.1⟩
  refine ⟨accounts.sound.release slot, fun other => ?_, fun held => accounts.apart (subset held)⟩
  rw [given, accounts.live]
  by_cases freed : (ledger.release slot).1 = some other
  · obtain ⟨member, last⟩ := accounts.sound.release_freed freed
    have unclaimed := accounts.apart ⟨slot, member⟩
    simp [freed, release_holders, last, unclaimed]
  · have kept : ((ledger.release slot).2.holders other).Nonempty ↔ (ledger.holders other).Nonempty := by
      refine ⟨subset, fun ⟨place, member⟩ => ?_⟩
      rw [release_holders]
      by_contra none
      rw [not_nonempty_iff_eq_empty] at none
      -- `slot` itself is the last holder, and lets go without giving back
      have only : place = slot := by
        by_contra different
        exact (eq_empty_iff_forall_notMem.mp none place) ⟨member, different⟩
      obtain ⟨counted, held⟩ := mem_holders.mp (only ▸ member)
      obtain ⟨answer, last⟩ := accounts.sound.release_last held
      rw [release_holders] at last
      exact freed (by rw [answer, if_pos (last.mpr none)])
    simp [freed, kept]

end Accounts

end Ledger

end NyonOS.Data
