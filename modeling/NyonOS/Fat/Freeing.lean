import NyonOS.Fat.Corrupted

namespace NyonOS.Fat

open Data

variable {vol : Volume} {disk : Disk} {cluster start target following : Nat}

/-! Freeing a chain. An entry is cleared before its link is followed, so every round has fewer
entries in use, however the links are crossed. -/

namespace Volume

open Classical in
/-- The device with the entries of some clusters free and every other byte as it was. -/
noncomputable def clear (vol : Volume) (disk : Disk) (freed : Set Nat) : Disk :=
  { disk with bytes := fun at_ =>
      if ∃ cluster ∈ freed, vol.entryAddr cluster ≤ at_ ∧ at_ < vol.entryAddr cluster + 2 then 0#8
      else disk.bytes at_ }

abbrev Reaches (vol : Volume) (disk : Disk) : Nat → Nat → Prop :=
  Relation.ReflTransGen fun before after => vol.next disk before = some after

def reached (vol : Volume) (disk : Disk) (start : Nat) : Set Nat :=
  {cluster | vol.Reaches disk start cluster ∧ vol.clusterOk cluster = true}

/-- The clusters of a chain that ends as it should. -/
inductive Chain (vol : Volume) (disk : Disk) : Nat → List Nat → Prop
  | last {cluster : Nat} (ok : vol.clusterOk cluster = true) (ends : fsEocMin ≤ vol.entry disk cluster) :
      Chain vol disk cluster [cluster]
  | link {cluster : Nat} {rest : List Nat} (ok : vol.clusterOk cluster = true)
      (inner : vol.entry disk cluster < fsEocMin) (chain : Chain vol disk (vol.entry disk cluster) rest) :
      Chain vol disk cluster (cluster :: rest)

theorem clear_empty : vol.clear disk ∅ = disk := by
  simp [clear]

theorem clear_patch (vol : Volume) (disk : Disk) (cluster : Nat) (freed : Set Nat) :
    vol.clear (disk.patch (vol.entryAddr cluster) (Bytes.le16 0)) freed = vol.clear disk (insert cluster freed) := by
  classical
  refine congrArg (fun bytes => ({ disk with bytes } : Disk)) (funext fun at_ => ?_)
  by_cases inside : vol.entryAddr cluster ≤ at_ ∧ at_ < vol.entryAddr cluster + 2
  · obtain ⟨index, rfl⟩ := Nat.exists_eq_add_of_le inside.1
    refine Eq.trans ?_ (if_pos ⟨cluster, Set.mem_insert _ _, inside⟩).symm
    refine ite_eq_left_iff.mpr fun _ => (Bytes.store_inside (by simp; omega)).trans ?_
    obtain rfl | rfl : index = 0 ∨ index = 1 := by omega
    · rfl
    · rfl
  · refine if_congr ?_ rfl (Bytes.store_outside (by simp; omega))
    simp [Set.mem_insert_iff, inside]

theorem reaches_iff : vol.Reaches disk start target ↔
    start = target ∨ ∃ following, vol.next disk start = some following ∧ vol.Reaches disk following target :=
  Relation.ReflTransGen.cases_head_iff

theorem reaches_end (ends : vol.next disk start = none) : vol.Reaches disk start target ↔ start = target := by
  rw [reaches_iff]
  simp [ends]

theorem next_of_not_ok (bad : vol.clusterOk cluster = false) : vol.next disk cluster = none := by
  simp [next, bad]

/-- What lies behind a link is found without the entry that the link came from. -/
theorem reaches_patch (linked : vol.next disk start = some following) : vol.Reaches disk start target ↔
    start = target ∨ vol.Reaches (disk.patch (vol.entryAddr start) (Bytes.le16 0)) following target := by
  have cleared : vol.next (disk.patch (vol.entryAddr start) (Bytes.le16 0)) start = none := by
    simp [next, entry_patch_self, fsFirstCluster]
  have other : ∀ {cluster}, cluster ≠ start →
      vol.next (disk.patch (vol.entryAddr start) (Bytes.le16 0)) cluster = vol.next disk cluster := by
    intro cluster differ
    simp only [next, entry_patch_other differ, Disk.patch_readable]
  constructor
  · intro reaches
    induction reaches with
    | refl => exact .inl rfl
    | @tail before target _ step ih =>
      by_cases again : before = start
      · subst again
        cases linked.symm.trans step
        exact .inr .refl
      · exact .inr ((ih.resolve_left (Ne.symm again)).tail ((other again).trans step))
  · rintro (rfl | reaches)
    · exact .refl
    · refine .head linked (Relation.ReflTransGen.mono (fun before after step => ?_) _ _ reaches)
      rwa [← other fun again => by simp [again, cleared] at step]

def used (vol : Volume) (disk : Disk) : Finset Nat :=
  {cluster ∈ Finset.Ico fsFirstCluster (fsFirstCluster + vol.clusterCount) | vol.entry disk cluster ≠ 0}

theorem card_used_le (vol : Volume) (disk : Disk) : (vol.used disk).card ≤ vol.clusterCount := by
  refine (Finset.card_filter_le _ _).trans ?_
  simp

theorem used_patch (ok : vol.clusterOk cluster = true) (inUse : vol.entry disk cluster ≠ 0) :
    (vol.used (disk.patch (vol.entryAddr cluster) (Bytes.le16 0))).card < (vol.used disk).card := by
  obtain ⟨low, -, -, high⟩ := clusterOk_iff.mp ok
  refine Finset.card_lt_card (Finset.ssubset_iff_of_subset (fun other member => ?_) |>.mpr ⟨cluster, ?_, ?_⟩)
  · by_cases same : other = cluster
    · simp [used, same, entry_patch_self] at member
    · simpa [used, entry_patch_other same] using member
  · simp [used, low, high, inUse]
  · simp [used, entry_patch_self]

/-- What freeing does: the valid clusters that are reached are free, nothing else has changed, and
it fails only at a cluster that the volume does not have. -/
def Frees (vol : Volume) (disk : Disk) (start : Nat) (result : Bool × Disk) : Prop :=
  result.2 = vol.clear disk (vol.reached disk start) ∧
    (result.1 = true ↔ ∀ target, vol.Reaches disk start target → fsFirstCluster ≤ target →
      target < fsBadCluster → vol.clusterOk target = true)

theorem Frees.invalid {result : Bool} (bad : vol.clusterOk start = false)
    (outside : result = true ↔ ¬ (fsFirstCluster ≤ start ∧ start < fsBadCluster)) :
    vol.Frees disk start (result, disk) := by
  have only {target} := @reaches_end vol disk start target (next_of_not_ok bad)
  have none_ : vol.reached disk start = ∅ := by
    ext target
    simp only [reached, only, Set.mem_ofPred_eq, Set.mem_empty_iff_false, iff_false]
    rintro ⟨rfl, ok⟩
    simp [bad] at ok
  refine ⟨by rw [none_, clear_empty], ?_⟩
  simp [only, outside, bad]

theorem Frees.last (ok : vol.clusterOk start = true) (ends : vol.next disk start = none) :
    vol.Frees disk start (true, disk.patch (vol.entryAddr start) (Bytes.le16 0)) := by
  have one : vol.reached disk start = insert start ∅ := by
    ext target
    simp only [reached, reaches_end ends, Set.mem_ofPred_eq, Set.mem_insert_iff, Set.mem_empty_iff_false, or_false]
    grind
  refine ⟨by rw [one, ← clear_patch, clear_empty], ?_⟩
  simp [reaches_end ends, ok]

theorem Frees.link {result : Bool × Disk} (ok : vol.clusterOk start = true) (linked : vol.next disk start = some following)
    (later : vol.Frees (disk.patch (vol.entryAddr start) (Bytes.le16 0)) following result) :
    vol.Frees disk start result := by
  have more : vol.reached disk start =
      insert start (vol.reached (disk.patch (vol.entryAddr start) (Bytes.le16 0)) following) := by
    ext target
    simp only [reached, reaches_patch linked, Set.mem_ofPred_eq, Set.mem_insert_iff]
    grind
  refine ⟨by rw [more, ← clear_patch]; exact later.1, later.2.trans ?_⟩
  simp only [reaches_patch linked]
  grind

theorem Chain.reaches {chain : List Nat} (isChain : vol.Chain disk start chain)
    (readable : ∀ cluster, vol.clusterOk cluster = true → vol.Readable disk cluster) :
    (∀ target ∈ chain, vol.clusterOk target = true) ∧ ∀ target, vol.Reaches disk start target ↔ target ∈ chain := by
  induction isChain with
  | last ok ends =>
    refine ⟨by simp [ok], fun target => ?_⟩
    rw [reaches_end (if_neg (by omega)), List.mem_singleton, eq_comm]
  | link ok inner chain ih =>
    have low : fsFirstCluster ≤ vol.entry disk _ := (clusterOk_iff.mp (ih.1 _ ((ih.2 _).mp .refl))).1
    refine ⟨by simpa [ok] using ih.1, fun target => ?_⟩
    rw [reaches_iff, next, if_pos ⟨ok, readable _ ok, low, inner⟩]
    simp [ih.2, eq_comm]

end Volume

open Volume

theorem freeChain_frees (readable : ∀ cluster, vol.clusterOk cluster = true → vol.Readable disk cluster)
    (writable : disk.readOnly = false) {fuel : Nat} (enough : (vol.used disk).card + 2 ≤ fuel) :
    vol.Frees disk start ((freeChain vol fuel start).run Disk.answer disk) := by
  induction fuel generalizing disk start with
  | zero => omega
  | succ fuel ih =>
    rw [freeChain]
    by_cases outside : start < fsFirstCluster ∨ fsBadCluster ≤ start
    · rw [if_pos outside]
      refine .invalid (Bool.eq_false_iff.mpr fun ok => ?_) (by simp; omega)
      have range := clusterOk_iff.mp ok
      omega
    · rw [if_neg outside, Program.run_bind, run_fatEntry]
      cases ok : vol.clusterOk start with
      | false =>
        simp only [Bool.false_eq_true, false_and, if_false]
        exact .invalid ok (by simp; omega)
      | true =>
        simp only [readable start ok, and_self, if_true, Program.run_bind, run_fatSet_ok ok (readable start ok) writable,
          Bool.not_true, Bool.false_eq_true, if_false]
        by_cases ends : fsEocMin ≤ vol.entry disk start
        · rw [if_pos ends]
          exact .last ok (if_neg (by omega))
        · rw [if_neg ends]
          by_cases low : vol.entry disk start < fsFirstCluster
          · obtain ⟨fuel, rfl⟩ : ∃ rest, fuel = rest + 1 := ⟨fuel - 1, by omega⟩
            rw [freeChain, if_pos (.inl low)]
            exact .last ok (if_neg (by omega))
          · refine .link ok (if_pos ⟨ok, readable start ok, by omega, by omega⟩) (ih readable writable ?_)
            have fewer := used_patch ok (show vol.entry disk start ≠ 0 by unfold fsFirstCluster at low; omega)
            omega

theorem freeChain_notData (low : vol.fatStart < 65536) (fuel cluster : Nat) :
    (freeChain vol fuel cluster).Only Access.NotData := by
  induction fuel generalizing cluster with
  | zero => trivial
  | succ fuel ih =>
    rw [freeChain]
    split
    · trivial
    · refine (fatEntry_notData low cluster).bind fun next => ?_
      cases next with
      | none => trivial
      | some next =>
        refine (fatSet_notData cluster 0).bind fun set => ?_
        cases set with
        | false => trivial
        | true =>
          simp only [Bool.not_true, Bool.false_eq_true, if_false]
          split
          · trivial
          · exact ih next

theorem freeing_exact {fs : Fs} (coherent : fs.Coherent)
    (readable : ∀ cluster, fs.vol.clusterOk cluster = true → fs.vol.Readable fs.disk cluster)
    (writable : fs.disk.readOnly = false) (start : Nat) {fuel : Nat} (enough : fs.vol.clusterCount + 2 ≤ fuel) :
    ∃ done after, (freeChain fs.vol fuel start).run Fs.answer fs = (done, after) ∧
      fs.vol.Frees fs.disk start (done, after.disk) ∧
      ∀ chain, fs.vol.Chain fs.disk start chain →
        done = true ∧ after.disk = fs.vol.clear fs.disk {cluster | cluster ∈ chain} := by
  have real : ∀ access ∈ (freeChain fs.vol fuel start).trace Disk.answer fs.disk, access.Real :=
    fun access member =>
      (@Access.NotData.good fs.vol _ ((freeChain_notData coherent.low fuel start).of_trace _ _ access member)).2
  obtain ⟨same, mirrors, -⟩ := coherent.mirrors.run (freeChain fs.vol fuel start) real
  have frees : fs.vol.Frees fs.disk start _ :=
    freeChain_frees readable writable (le_trans (by have := card_used_le fs.vol fs.disk; omega) enough)
  rw [show Program.run _ _ _ = (_, _) from Prod.ext same.symm mirrors.isDisk.symm] at frees
  refine ⟨_, _, rfl, frees, fun chain isChain => ?_⟩
  obtain ⟨valid, reaches⟩ := isChain.reaches readable
  refine ⟨frees.2.mpr fun target reached _ _ => valid target ((reaches target).mp reached), frees.1.trans ?_⟩
  congr 1
  ext target
  simp only [reached, reaches, Set.mem_ofPred_eq]
  exact ⟨And.left, fun member => ⟨member, valid target member⟩⟩

/-- Two clusters in a chain. -/
def chainDisk : Disk := (smallDisk 0x41#8).patch (smallVol.entryAddr 2) (Bytes.le16 3 ++ Bytes.le16 0xFFFF)

theorem freeing_exact_chainDisk : ∃ done after,
    (fatFreeChain smallVol 2).run Fs.answer (coldFs smallVol chainDisk) = (done, after) ∧
      done = true ∧ after.disk = smallVol.clear chainDisk {cluster | cluster ∈ [2, 3]} := by
  have readable : ∀ cluster, smallVol.clusterOk cluster = true → smallVol.Readable chainDisk cluster := by
    intro cluster ok
    obtain ⟨-, -, -, high⟩ := clusterOk_iff.mp ok
    simp [Readable, Disk.blockValid, fatLba, chainDisk, smallDisk, Disk.patch, smallVol, fsSectorSize, fsFirstCluster] at *
    exact ⟨decide_eq_true (by omega), decide_eq_true (by omega)⟩
  obtain ⟨done, after, runs, -, frees⟩ := freeing_exact (coldFs_coherent (by decide) chainDisk) readable rfl 2
    (Nat.le_refl _)
  exact ⟨done, after, runs, frees _ (.link (by decide) (by decide) (.last (by decide) (by decide)))⟩

end NyonOS.Fat
