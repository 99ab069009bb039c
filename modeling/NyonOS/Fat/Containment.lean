import NyonOS.Fat.Coherence
import NyonOS.Fat.File
import NyonOS.Fat.Layout

namespace NyonOS.Fat

open Data List Set

variable {vol : Volume} {disk : Disk} {lba cluster dir : Nat}

/-! What reading and writing may touch. -/

namespace Volume

section

variable (vol : Volume)

/-- The sectors of the table and its copies. -/
def InFat (lba : Nat) : Prop := ∃ s < vol.fatCount * vol.sectorsPerFat, lba = u32 (vol.fatStart + s)

def InRoot (lba : Nat) : Prop := ∃ s < vol.rootSectors, lba = u32 (vol.rootStart + s)

/-- The sectors of the clusters that `cluster_ok` accepts. -/
def InData (lba : Nat) : Prop :=
  ∃ cluster s, vol.clusterOk cluster = true ∧ s < vol.sectorsPerCluster ∧ lba = vol.clusterLba cluster + s

def FileSector (lba : Nat) : Prop := vol.InData lba ∧ ¬ vol.InFat lba ∧ ¬ vol.InRoot lba

/-- The clusters share no sector with the table or the root directory. -/
def Separate : Prop := ∀ lba, vol.InData lba → ¬ vol.InFat lba ∧ ¬ vol.InRoot lba

end

/-- A set of clusters that the links of the table do not lead out of. -/
structure Closed (vol : Volume) (disk : Disk) (clusters : Set Nat) : Prop where
  ok : ∀ cluster ∈ clusters, vol.clusterOk cluster = true
  covered : ∀ cluster ∈ clusters, vol.InFat (vol.fatLba cluster)
  link : ∀ cluster ∈ clusters, vol.entry disk cluster ∈ clusters ∨ fsEocMin ≤ vol.entry disk cluster

/-- The chain from a cluster passes valid clusters only, whether it ends or not. -/
def Chained (vol : Volume) (disk : Disk) (cluster : Nat) : Prop :=
  ∃ clusters, vol.Closed disk clusters ∧ cluster ∈ clusters

/-- The same for a directory, where a link may also lead to a cluster that is not valid, as
long as that is no part of the table. -/
structure DirClosed (vol : Volume) (disk : Disk) (clusters : Set Nat) : Prop where
  apart : ∀ cluster ∈ clusters, ∀ s < vol.sectorsPerCluster, ¬ vol.InFat (u32 (vol.clusterLba cluster + s))
  covered : ∀ cluster ∈ clusters, vol.clusterOk cluster = true → vol.InFat (vol.fatLba cluster)
  link : ∀ cluster ∈ clusters, vol.clusterOk cluster = true → fsFirstCluster ≤ vol.entry disk cluster →
    vol.entry disk cluster < fsEocMin → vol.entry disk cluster ∈ clusters

/-- The entries of a directory do not lie in the table. -/
def EntryApart (vol : Volume) (disk : Disk) (dir : Nat) : Prop :=
  vol.clusterOk dir = true → ∃ clusters, vol.DirClosed disk clusters ∧ dir ∈ clusters

/-- The clusters that are followed, and the directory of the file. -/
structure Tracks (vol : Volume) (dir : Nat) (clusters : Set Nat) (disk : Disk) : Prop where
  entry : vol.EntryApart disk dir
  chained : ∀ cluster ∈ clusters, vol.Chained disk cluster

theorem Tracks.mono {fewer more : Set Nat} (tracks : vol.Tracks dir more disk) (subset : fewer ⊆ more) :
    vol.Tracks dir fewer disk := ⟨tracks.entry, fun cluster member => tracks.chained cluster (subset member)⟩

end Volume

/-- An access that treats only sectors of files as file data. -/
def Access.Contained (vol : Volume) : Access → Prop
  | .blockRead .data lba count => ∀ index < count, vol.FileSector (lba + index)
  | .sectorWrite .data lba _ => vol.FileSector lba
  | _ => True

def Access.Good (vol : Volume) (access : Access) : Prop := access.Contained vol ∧ access.Real

/-- Code that follows chains: it starts from the clusters `needs`, makes only good accesses,
returns a value with `post` and adds the clusters `gives`. -/
def Contains {α : Type} (vol : Volume) (dir : Nat) (needs : Set Nat) (code : Code α) (post : α → Prop)
    (gives : α → Set Nat) : Prop :=
  ∀ clusters, needs ⊆ clusters → code.Triple Disk.answer (Access.Good vol) (vol.Tracks dir clusters)
    fun value disk => post value ∧ vol.Tracks dir (clusters ∪ gives value) disk

namespace Contains

variable {α β : Type} {needs : Set Nat} {code : Code α} {post : α → Prop} {gives : α → Set Nat}

theorem pure {value : α} (holds : post value) (given : gives value ⊆ needs) :
    Contains vol dir needs (Pure.pure value) post gives :=
  fun _ needed => Program.Triple.pure fun _ tracks =>
    ⟨holds, tracks.mono (union_subset (Set.Subset.refl _) (given.trans needed))⟩

theorem bind {rest : α → Code β} {last : β → Prop} {final : β → Set Nat}
    (first : Contains vol dir needs code post gives)
    (next : ∀ value, post value → Contains vol dir (needs ∪ gives value) (rest value) last final) :
    Contains vol dir needs (code >>= rest) last final := by
  intro clusters needed
  refine Program.Triple.bind (first clusters needed) fun value state middle => ?_
  obtain ⟨accesses, holds, tracks⟩ := next value middle.1 _ (union_subset_union_left _ needed) state middle.2
  exact ⟨accesses, holds, tracks.mono (union_subset_union_left _ subset_union_left)⟩

theorem weaken {weaker : α → Prop} (contains : Contains vol dir needs code post gives)
    (implies : ∀ value, post value → weaker value) : Contains vol dir needs code weaker gives :=
  fun clusters needed => (contains clusters needed).weaken fun value _ result => ⟨implies value result.1, result.2⟩

theorem more {wider : Set Nat} (contains : Contains vol dir needs code post gives) (subset : needs ⊆ wider) :
    Contains vol dir wider code post gives :=
  fun clusters needed => contains clusters (subset.trans needed)

end Contains

def Access.NotData : Access → Prop
  | .blockRead .data .. | .sectorWrite .data .. => False
  | .fatSector lba | .dirSector lba => lba ≠ noLba
  | _ => True

theorem Access.NotData.good {access : Access} (notData : access.NotData) : access.Good vol := by
  cases access with
  | blockRead use lba count | sectorWrite use lba buf =>
    cases use with
    | data => exact notData.elim
    | fat | directory => exact ⟨trivial, trivial⟩
  | fatSector | dirSector => exact ⟨trivial, notData⟩
  | fatWrite lba buf => exact ⟨trivial, trivial⟩

variable {needs : Set Nat}

theorem Contains.of_notData {α : Type} {code : Code α} {post : α → Prop} {gives : α → Set Nat}
    (only : code.Only Access.NotData)
    (spec : ∀ disk clusters, needs ⊆ clusters → vol.Tracks dir clusters disk → post (code.run Disk.answer disk).1 ∧
        vol.Tracks dir (clusters ∪ gives (code.run Disk.answer disk).1) (code.run Disk.answer disk).2) :
    Contains vol dir needs code post gives :=
  fun clusters needed disk tracks => ⟨fun access member => (only.of_trace _ disk access member).good,
    spec disk clusters needed tracks⟩

/-! Accesses of the code on the table. -/

section Accesses

variable (low : vol.fatStart < 65536)

include low

theorem notData_of_tableRead {access : Access} (table : vol.TableRead access) : access.NotData := by
  obtain ⟨lba, inTable, rfl⟩ := table
  exact (inTable.lt low).ne

theorem fatEntry_notData (cluster : Nat) : (fatEntry vol cluster).Only Access.NotData :=
  (fatEntry_only cluster).mono fun _ => notData_of_tableRead low

theorem fatNext_notData (cluster : Nat) : (fatNext vol cluster).Only Access.NotData :=
  (fatNext_only cluster).mono fun _ => notData_of_tableRead low

theorem clusterNth_notData (cluster skip : Nat) : (clusterNth vol cluster skip).Only Access.NotData :=
  (clusterNth_only cluster skip).mono fun _ => notData_of_tableRead low

omit low in
theorem scanTable_notData (count : Nat) : (scanTable vol count).Only Access.NotData := by
  induction count with
  | zero => trivial
  | succ count ih =>
    refine ⟨trivial, fun answer => ?_⟩
    cases answer with
    | none => trivial
    | some buf =>
      simp only [Program.bind]
      cases scanSector (vol.clusterCount + fsFirstCluster) _ buf _ with
      | found | past => trivial
      | full => exact ih

omit low in
theorem fatSet_notData (cluster value : Nat) : (fatSet vol cluster value).Only Access.NotData := by
  unfold fatSet
  split
  · trivial
  · refine ⟨trivial, fun answer => ?_⟩
    cases answer with
    | none => trivial
    | some buf => exact ⟨trivial, fun _ => trivial⟩

theorem fatExtend_notData (cluster : Nat) : (fatExtend vol cluster).Only Access.NotData := by
  refine (fatEntry_notData low cluster).bind fun next => ?_
  cases next with
  | none => trivial
  | some next =>
    dsimp only
    split
    · trivial
    · refine (scanTable_notData _).bind fun found => ?_
      cases found with
      | none => trivial
      | some nc =>
        refine (fatSet_notData nc fsEocMin).bind fun set => ?_
        cases set with
        | false => trivial
        | true =>
          refine (fatSet_notData cluster nc).bind fun linked => ?_
          cases linked <;> trivial

end Accesses

/-! Chains under changes. -/

namespace Volume

variable {clusters : Set Nat}

theorem Tracks.congr {other : Disk} (tracks : vol.Tracks dir clusters disk)
    (same : ∀ cluster, vol.InFat (vol.fatLba cluster) → vol.entry other cluster = vol.entry disk cluster) :
    vol.Tracks dir clusters other := by
  refine ⟨fun okDir => ?_, fun cluster member => ?_⟩
  · obtain ⟨all, closed, member⟩ := tracks.entry okDir
    refine ⟨all, ⟨closed.apart, closed.covered, fun cluster inside ok => ?_⟩, member⟩
    rw [same cluster (closed.covered cluster inside ok)]
    exact closed.link cluster inside ok
  · obtain ⟨all, closed, here⟩ := tracks.chained cluster member
    refine ⟨all, ⟨closed.ok, closed.covered, fun cluster inside => ?_⟩, here⟩
    rw [same cluster (closed.covered cluster inside)]
    exact closed.link cluster inside

theorem Tracks.blockWrite (tracks : vol.Tracks dir clusters disk) (buf : Bytes)
    (outside : ¬ vol.InFat lba) : vol.Tracks dir clusters (disk.blockWrite lba buf).2 :=
  tracks.congr fun _ covered => vol.entry_blockWrite disk buf fun here => outside (here ▸ covered)

theorem Allocatable.clusterOk (mounted : vol.mounted = true) (allocatable : vol.Allocatable cluster)
    (good : cluster < fsBadCluster) : vol.clusterOk cluster = true := by
  have high := allocatable.2.1
  exact clusterOk_iff.mpr ⟨allocatable.1, good, mounted, by omega⟩

theorem Allocatable.covered (accepted : vol.Accepted) (allocatable : vol.Allocatable cluster) :
    vol.InFat (vol.fatLba cluster) := by
  obtain ⟨-, high, inTable⟩ := allocatable
  have copies := Nat.le_mul_of_pos_left vol.sectorsPerFat accepted.tables.1
  have reserved := accepted.reserved.2
  have count := accepted.count.2
  refine ⟨cluster * 2 / fsSectorSize, ?_, ?_⟩
  · unfold fsSectorSize at *
    omega
  · unfold fatLba u32
    unfold fsFirstCluster at high
    unfold fsBadCluster at count
    unfold fsSectorSize
    omega

/-- A volume whose areas are apart. -/
structure Sane (vol : Volume) : Prop where
  accepted : vol.Accepted
  separate : vol.Separate

theorem Accepted.clusterOk_first (accepted : vol.Accepted) : vol.clusterOk fsFirstCluster = true := by
  have count := accepted.count.1
  exact clusterOk_iff.mpr ⟨Nat.le_refl _, by decide, accepted.mounted, by omega⟩

namespace Sane

variable (sane : vol.Sane)

include sane

/-- The root directory lies between the table and the clusters, so where it meets the table
the first cluster does too. -/
theorem rootApart (inRoot : vol.InRoot lba) : ¬ vol.InFat lba := by
  intro inFat
  have first := sane.accepted.clusterOk_first
  obtain ⟨value, -⟩ := sane.accepted.clusterLba first
  have data : vol.InData vol.dataStart :=
    ⟨fsFirstCluster, 0, first, sane.accepted.perCluster.1, by simp [value]⟩
  obtain ⟨t, boundT, rfl⟩ := inRoot
  obtain ⟨s, boundS, same⟩ := inFat
  have reserved := sane.accepted.reserved
  have small : vol.rootSectors < 65536 := by
    have entries := sane.accepted.root.2
    rw [sane.accepted.rootSectors]
    unfold fsDirentSize fsSectorSize
    omega
  refine (sane.separate _ data).1 ⟨s + (vol.rootSectors - t), ?_, ?_⟩
  · have start := sane.accepted.rootStart
    generalize vol.fatCount * vol.sectorsPerFat = tables at *
    unfold u32 at *
    omega
  · rw [sane.accepted.dataStart]
    unfold u32 at *
    omega

theorem clusterSector (ok : vol.clusterOk cluster = true) {s : Nat} (bound : s < vol.sectorsPerCluster) :
    u32 (vol.clusterLba cluster + s) = vol.clusterLba cluster + s ∧ vol.FileSector (vol.clusterLba cluster + s) := by
  obtain ⟨value, inside⟩ := sane.accepted.clusterLba ok
  have total := sane.accepted.total
  have data : vol.InData (vol.clusterLba cluster + s) := ⟨cluster, s, ok, bound, rfl⟩
  refine ⟨?_, data, sane.separate _ data⟩
  rw [u32, Nat.mod_eq_of_lt]
  omega

theorem fileSector (ok : vol.clusterOk cluster = true) {s : Nat} (bound : s < vol.sectorsPerCluster) :
    vol.FileSector (u32 (vol.clusterLba cluster + s)) := by
  obtain ⟨same, file⟩ := sane.clusterSector ok bound
  rwa [same]

theorem grow {other : Disk} {nc : Nat} {clusters : Set Nat} (tracks : vol.Tracks dir clusters disk)
    (allocatable : vol.Allocatable nc) (good : nc < fsBadCluster) (free : vol.entry disk nc = 0)
    (last : fsEocMin ≤ vol.entry other nc)
    (same : ∀ cluster ≠ nc, vol.entry other cluster = vol.entry disk cluster ∨ vol.entry other cluster = nc) :
    vol.Tracks dir (clusters ∪ {nc}) other := by
  have okNc := allocatable.clusterOk sane.accepted.mounted good
  have coveredNc := allocatable.covered sane.accepted
  have closed : ∀ all, vol.Closed disk all → vol.Closed other (insert nc all) := by
    intro all closed
    refine ⟨fun cluster member => ?_, fun cluster member => ?_, fun cluster member => ?_⟩
    · rcases Set.mem_insert_iff.mp member with rfl | old
      · exact okNc
      · exact closed.ok cluster old
    · rcases Set.mem_insert_iff.mp member with rfl | old
      · exact coveredNc
      · exact closed.covered cluster old
    · by_cases isNc : cluster = nc
      · subst isNc
        exact .inr last
      · have old := (Set.mem_insert_iff.mp member).resolve_left isNc
        rcases same cluster isNc with unchanged | linked
        · rw [unchanged]
          exact (closed.link cluster old).imp_left (Set.mem_insert_of_mem _)
        · rw [linked]
          exact .inl (mem_insert _ _)
  refine ⟨fun okDir => ?_, fun cluster member => ?_⟩
  · obtain ⟨all, dirClosed, inside⟩ := tracks.entry okDir
    refine ⟨insert nc all, ⟨fun cluster member s bound => ?_, fun cluster member ok => ?_,
      fun cluster member ok lower upper => ?_⟩, Set.mem_insert_of_mem _ inside⟩
    · rcases Set.mem_insert_iff.mp member with rfl | old
      · exact (sane.fileSector okNc bound).2.1
      · exact dirClosed.apart cluster old s bound
    · rcases Set.mem_insert_iff.mp member with rfl | old
      · exact coveredNc
      · exact dirClosed.covered cluster old ok
    · by_cases isNc : cluster = nc
      · subst isNc
        omega
      · have old := (Set.mem_insert_iff.mp member).resolve_left isNc
        rcases same cluster isNc with unchanged | linked
        · rw [unchanged] at lower upper ⊢
          exact Set.mem_insert_of_mem _ (dirClosed.link cluster old ok lower upper)
        · rw [linked]
          exact mem_insert _ _
  · rcases member with old | isNc
    · obtain ⟨all, closedAll, inside⟩ := tracks.chained cluster old
      exact ⟨insert nc all, closed all closedAll, Set.mem_insert_of_mem _ inside⟩
    · cases isNc
      exact ⟨insert nc ∅, closed ∅ ⟨fun _ none => none.elim, fun _ none => none.elim, fun _ none => none.elim⟩,
        mem_insert _ _⟩

end Sane

theorem Closed.next {clusters : Set Nat} (closed : vol.Closed disk clusters) (inside : cluster ∈ clusters)
    (inner : vol.entry disk cluster < fsEocMin) : vol.entry disk cluster ∈ clusters :=
  (closed.link cluster inside).resolve_right (Nat.not_le.mpr inner)

theorem Chained.next (chained : vol.Chained disk cluster) (inner : vol.entry disk cluster < fsEocMin) :
    vol.Chained disk (vol.entry disk cluster) := by
  obtain ⟨clusters, closed, inside⟩ := chained
  exact ⟨clusters, closed, closed.next inside inner⟩

theorem Chained.clusterOk (chained : vol.Chained disk cluster) : vol.clusterOk cluster = true := by
  obtain ⟨clusters, closed, inside⟩ := chained
  exact closed.ok cluster inside

theorem Chained.nth (chained : vol.Chained disk cluster) {skip found : Nat}
    (reached : vol.nth disk skip cluster = some found) : vol.Chained disk found := by
  induction skip generalizing cluster with
  | zero =>
    cases reached
    exact chained
  | succ skip ih =>
    rw [Volume.nth] at reached
    unfold Volume.next at reached
    split at reached
    · contradiction
    · rename_i nx isNext
      split at isNext
      · rename_i known
        cases isNext
        exact ih (chained.next known.2.2.2) reached
      · contradiction

theorem DirClosed.nth (closed : vol.DirClosed disk clusters) {skip found : Nat}
    (inside : cluster ∈ clusters) (reached : vol.nth disk skip cluster = some found) : found ∈ clusters := by
  induction skip generalizing cluster with
  | zero =>
    cases reached
    exact inside
  | succ skip ih =>
    rw [Volume.nth] at reached
    unfold Volume.next at reached
    split at reached
    · contradiction
    · rename_i nx isNext
      split at isNext
      · rename_i known
        cases isNext
        exact ih (closed.link cluster inside known.1 known.2.2.1 known.2.2.2) reached
      · contradiction

end Volume

/-! Writing. -/

theorem contains_sectorWrite {use : Use} (buf : Bytes) (outside : ¬ vol.InFat lba)
    (file : use = .data → vol.FileSector lba) :
    Contains vol dir needs (sectorWrite use lba buf) (fun _ => True) fun _ => ∅ := by
  intro clusters _ disk tracks
  refine ⟨fun access member => ?_, trivial, ?_⟩
  · rw [sectorWrite, Program.trace_perform, List.mem_singleton] at member
    subst member
    refine ⟨?_, trivial⟩
    cases use with
    | data => exact file rfl
    | fat | directory => trivial
  · rw [union_empty]
    exact tracks.blockWrite buf outside

theorem contains_blockRead {use : Use} {count : Nat}
    (file : use = .data → ∀ index < count, vol.FileSector (lba + index)) :
    Contains vol dir needs (blockRead use lba count) (fun _ => True) fun _ => ∅ := by
  intro clusters _ disk tracks
  refine ⟨fun access member => ?_, trivial, ?_⟩
  · rw [blockRead, Program.trace_perform, List.mem_singleton] at member
    subst member
    refine ⟨?_, trivial⟩
    cases use with
    | data => exact file rfl
    | fat | directory => trivial
  · rw [union_empty]
    exact tracks

/-- The cluster in a result. -/
def found (result : Option Nat) : Set Nat := fun cluster => result = some cluster

def Node.start (node : Node) : Set Nat := fun cluster => cluster ≠ 0 ∧ node.cluster = cluster

theorem Contains.valid {α : Type} {code : Code (Option Nat)} {rest : Option Nat → Code α}
    {last : α → Prop} {final : α → Set Nat} (first : Contains vol dir needs code (fun _ => True) found)
    (next : ∀ value, (∀ cluster, value = some cluster → vol.clusterOk cluster = true) →
      Contains vol dir (needs ∪ found value) (rest value) last final) :
    Contains vol dir needs (code >>= rest) last final := by
  have valid : Contains vol dir needs code
      (fun value => ∀ cluster, value = some cluster → vol.clusterOk cluster = true) found := by
    intro clusters needed disk tracks
    obtain ⟨accesses, -, after⟩ := first clusters needed disk tracks
    exact ⟨accesses, fun cluster isCluster => (after.chained cluster (.inr isCluster)).clusterOk, after⟩
  exact valid.bind next

namespace Volume.Sane

variable (sane : vol.Sane)

include sane

theorem low : vol.fatStart < 65536 := sane.accepted.reserved.2

theorem contains_fatExtend (cluster : Nat) :
    Contains vol dir {cluster} (fatExtend vol cluster) (fun _ => True) found := by
  refine Contains.of_notData (fatExtend_notData sane.low cluster) fun disk clusters needed tracks => ⟨trivial, ?_⟩
  have chained := tracks.chained cluster (needed rfl)
  rcases fatExtend_cases vol cluster disk with ⟨-, run⟩ | ⟨-, -, inner, run⟩ | ⟨-, -, last, nc, free, -, -, run⟩
  · rw [run]
    exact tracks.mono (union_subset (Set.Subset.refl _) fun _ isNext => (Option.some_ne_none _ isNext.symm).elim)
  · rw [run]
    refine ⟨tracks.entry, fun other member => ?_⟩
    rcases member with old | isNext
    · exact tracks.chained other old
    · cases isNext
      exact chained.next inner
  · rw [run]
    have differ : nc ≠ cluster := by
      rintro rfl
      rw [free.free] at last
      exact absurd last (by decide)
    have small : nc < 65536 := Nat.lt_trans free.good (by decide)
    refine (sane.grow tracks free.allocatable free.good free.free ?_ fun other isOther => ?_).mono
      (union_subset_union_right _ fun other isNext => (Option.some.inj isNext).symm)
    · rw [entry_patch_other differ, entry_patch_self (by decide)]
    · by_cases isLast : other = cluster
      · subst isLast
        exact .inr (entry_patch_self small)
      · rw [entry_patch_other isLast, entry_patch_other isOther]
        exact .inl rfl

theorem contains_takeCluster (node : Node) : Contains vol dir node.start (takeCluster vol node)
      (fun result => ∀ taken, result = .ok taken → ∃ cluster ≠ 0, taken = { node with cluster })
      fun result => fun cluster => ∃ taken, result = .ok taken ∧ taken.cluster = cluster := by
  unfold takeCluster
  by_cases given : node.cluster ≠ 0
  · rw [if_pos given]
    refine .pure (fun taken isTaken => ?_) fun cluster isStart => ?_
    · cases isTaken
      exact ⟨node.cluster, given, rfl⟩
    · obtain ⟨taken, isTaken, rfl⟩ := isStart
      cases isTaken
      exact ⟨given, rfl⟩
  · rw [if_neg given]
    have nothing : ∀ (clusters : Set Nat) (disk : Disk) (code : Int), vol.Tracks dir clusters disk →
        vol.Tracks dir (clusters ∪ fun cluster => ∃ taken : Node, Except.error code = .ok taken ∧
          taken.cluster = cluster) disk := fun clusters disk code tracks =>
      tracks.mono (union_subset (Set.Subset.refl _) fun _ isStart => by
        obtain ⟨taken, isTaken, -⟩ := isStart
        contradiction)
    refine Contains.of_notData ?_ fun disk clusters _ tracks => ?_
    · refine (scanTable_notData _).bind fun found => ?_
      cases found with
      | none => trivial
      | some c =>
        refine (fatSet_notData c fsEocMin).bind fun set => ?_
        cases set <;> trivial
    · obtain ⟨same, search⟩ := fatAlloc_spec vol disk
      rw [Program.run_bind, same]
      cases result : ((fatAlloc vol).run Disk.answer disk).1 with
      | none => exact ⟨fun taken isTaken => by contradiction, nothing _ _ _ tracks⟩
      | some c =>
        rw [result] at search
        dsimp only
        rw [Program.run_bind, run_fatSet]
        by_cases set : (fsFirstCluster ≤ c ∧ c < fsBadCluster) ∧ vol.Readable disk c ∧ disk.readOnly = false
        · rw [if_pos set]
          simp only [Bool.not_true, Bool.false_eq_true, if_false, Program.run_pure]
          refine ⟨fun taken isTaken => ?_, ?_⟩
          · cases isTaken
            refine ⟨c, fun zero => ?_, rfl⟩
            rw [zero] at set
            exact absurd set.1.1 (by decide)
          · refine (sane.grow tracks search.1 set.1.2 search.2.1 ?_ fun other isOther => ?_).mono
              (union_subset_union_right _ fun other isStart => ?_)
            · rw [entry_patch_self (by decide)]
            · rw [entry_patch_other isOther]
              exact .inl rfl
            · obtain ⟨taken, isTaken, rfl⟩ := isStart
              cases isTaken
              rfl
        · rw [if_neg set]
          exact ⟨fun taken isTaken => by contradiction, nothing _ _ _ tracks⟩

theorem contains_extendTo (count cluster : Nat) :
    Contains vol dir {cluster} (extendTo vol count cluster) (fun _ => True) found := by
  induction count generalizing cluster with
  | zero => exact .pure trivial fun other isFound => (Option.some.inj isFound).symm
  | succ count ih =>
    refine (sane.contains_fatExtend cluster).bind fun next _ => ?_
    cases next with
    | none => exact .pure trivial fun other isFound => (Option.some_ne_none _ isFound.symm).elim
    | some next => exact (ih next).more fun other isNext => .inr (congrArg some isNext.symm)

variable {needs : Set Nat}

omit sane in
theorem contains_fillSector (off : Nat) (chunk : List Byte) (file : vol.FileSector lba) :
    Contains vol dir needs (fillSector lba off chunk) (fun _ => True) fun _ => ∅ := by
  unfold fillSector
  split
  · exact .pure trivial (empty_subset _)
  · refine (contains_blockRead fun _ index bound => ?_).bind fun sbuf _ => ?_
    · rw [Nat.lt_one_iff.mp bound]
      exact file
    · cases sbuf with
      | none | some => exact .pure trivial (empty_subset _)

theorem contains_writeLoop (fuel : Nat) {within : Nat} (src : List Byte) (ok : vol.clusterOk cluster = true)
    (inside : src ≠ [] → within < vol.clusterSize) :
    Contains vol dir {cluster} (writeLoop vol fuel cluster within src) (fun _ => True) fun _ => ∅ := by
  induction fuel generalizing cluster within src with
  | zero => exact .pure trivial (empty_subset _)
  | succ fuel ih =>
    rw [writeLoop]
    by_cases finished : src = []
    · rw [if_pos finished]
      exact .pure trivial (empty_subset _)
    · rw [if_neg finished]
      have room := inside finished
      have sector : within / fsSectorSize < vol.sectorsPerCluster := by
        rw [Nat.div_lt_iff_lt_mul (by decide)]
        exact room
      have file := sane.fileSector ok sector
      refine (contains_fillSector _ _ file).bind fun sbuf _ => ?_
      cases sbuf with
      | none => exact .pure trivial (empty_subset _)
      | some sbuf =>
        refine (contains_sectorWrite sbuf file.2.1 fun _ => file).bind fun written _ => ?_
        cases written with
        | false => exact .pure trivial (empty_subset _)
        | true =>
          simp only [Bool.not_true, Bool.false_eq_true, if_false, union_empty]
          split
          · refine (sane.contains_fatExtend cluster).valid fun next okNext => ?_
            cases next with
            | none => exact .pure trivial (empty_subset _)
            | some next =>
              refine (ih _ (okNext next rfl) fun _ => ?_).more fun other isNext => .inr (congrArg some isNext.symm)
              exact Nat.mul_pos sane.accepted.perCluster.1 (by decide)
          · rename_i more
            refine ih _ ok fun rest => ?_
            have notFull : within + min (fsSectorSize - within % fsSectorSize) src.length ≠ vol.clusterSize :=
              fun full => more ⟨rest, full⟩
            unfold Volume.clusterSize at *
            unfold fsSectorSize at *
            omega

section

variable (node : Node)

theorem contains_direntLocate (index : Nat) :
    Contains vol node.dirCluster needs (direntLocate vol (parentNode node) index)
      (fun result => ∀ place, result = some place → ¬ vol.InFat place.1) fun _ => ∅ := by
  have nowhere : ∀ place : Nat × Nat, none = some place → ¬ vol.InFat place.1 := fun place isPlace =>
    (Option.some_ne_none place isPlace.symm).elim
  unfold direntLocate
  split
  · exact .pure nowhere (empty_subset _)
  · split
    · exact .pure nowhere (empty_subset _)
    · split
      · split
        · exact .pure nowhere (empty_subset _)
        · refine .pure (fun place isPlace => ?_) (empty_subset _)
          cases isPlace
          refine sane.rootApart ⟨index / perSector, ?_, rfl⟩
          rw [sane.accepted.rootSectors]
          unfold perSector fsDirentSize fsSectorSize
          omega
      · rename_i notRoot
        have isDir : parentNode node = dirNode node.dirCluster := by
          unfold parentNode at notRoot ⊢
          split at notRoot
          · exact absurd rfl notRoot
          · rename_i inner
            exact if_neg inner
        rw [isDir]
        split
        · exact .pure nowhere (empty_subset _)
        · intro clusters _ disk tracks
          rw [Program.trace_bind, Program.run_bind, run_clusterNth]
          refine ⟨fun access member => ?_, ?_⟩
          · rcases mem_append.mp member with here | later
            · exact ((clusterNth_notData sane.low _ _).of_trace _ disk access here).good
            · split at later <;> exact absurd later not_mem_nil
          · simp only [union_empty]
            cases reached : (if vol.clusterOk (dirNode node.dirCluster).cluster = true then
                vol.nth disk (index / (perSector * vol.sectorsPerCluster)) (dirNode node.dirCluster).cluster else none) with
            | none => exact ⟨nowhere, tracks⟩
            | some cluster =>
              refine ⟨fun place isPlace => ?_, tracks⟩
              cases isPlace
              split at reached
              · rename_i ok
                obtain ⟨all, closed, inside⟩ := tracks.entry ok
                have positive : 0 < perSector * vol.sectorsPerCluster :=
                  Nat.mul_pos (by decide) sane.accepted.perCluster.1
                exact closed.apart cluster (closed.nth inside reached) _
                  (Nat.div_lt_of_lt_mul (Nat.mod_lt index positive))
              · contradiction

theorem contains_fsNodeSyncEntry :
    Contains vol node.dirCluster needs (fsNodeSyncEntry vol node) (fun _ => True) fun _ => ∅ := by
  unfold fsNodeSyncEntry
  split
  · exact .pure trivial (empty_subset _)
  · split
    · exact .pure trivial (empty_subset _)
    · refine (sane.contains_direntLocate node _).bind fun place outside => ?_
      cases place with
      | none => exact .pure trivial (empty_subset _)
      | some place =>
        obtain ⟨lba, off⟩ := place
        refine (contains_blockRead fun isData => by contradiction).bind fun buf _ => ?_
        cases buf with
        | none => exact .pure trivial (empty_subset _)
        | some buf =>
          exact (contains_sectorWrite _ (outside _ rfl) fun isData => by contradiction).bind fun _ _ =>
            .pure trivial (empty_subset _)

def SameEntry (result : Int × Node) : Prop := result.2.dirCluster = node.dirCluster

theorem contains_writeBody (offset : Nat) (buf : List Byte) :
    Contains vol node.dirCluster node.start (writeBody vol node offset buf) (SameEntry node) fun result =>
      result.2.start := by
  refine (sane.contains_takeCluster node).bind fun taken isTaken => ?_
  cases taken with
  | error code => exact .pure rfl fun other start => .inl start
  | ok taken =>
    obtain ⟨cluster, some_, rfl⟩ := isTaken taken rfl
    have start : ∀ size, Node.start { node with cluster, size } ⊆ node.start ∪ fun other =>
        ∃ taken, (.ok { node with cluster } : Except Int Node) = .ok taken ∧ taken.cluster = other :=
      fun size other isStart => .inr ⟨_, rfl, isStart.2⟩
    refine ((sane.contains_extendTo _ cluster).more fun other isCluster => start 0
      ⟨(show other = cluster from isCluster) ▸ some_, isCluster.symm⟩).valid fun found okFound => ?_
    cases found with
    | none => exact .pure rfl fun other isStart => .inl (start _ isStart)
    | some reached =>
      refine ((sane.contains_writeLoop _ buf (okFound reached rfl) fun _ => Nat.mod_lt _
        (Nat.mul_pos sane.accepted.perCluster.1 (by decide))).more
          fun other isNext => .inr (congrArg some isNext.symm)).bind fun written _ => ?_
      cases written with
      | error code => exact .pure rfl fun other isStart => .inl (.inl (start _ isStart))
      | ok done =>
        dsimp only
        split
        · refine (sane.contains_fsNodeSyncEntry { node with cluster, size := u32 (offset + buf.length) }).bind
            fun r _ => ?_
          exact .pure rfl fun other isStart => .inl (.inl (.inl (start _ isStart)))
        · exact .pure rfl fun other isStart => .inl (.inl (start _ isStart))

end

omit sane in
theorem contains_fillGap {write : Node → Nat → List Byte → Code (Int × Node)}
    (contains : ∀ (node : Node) pos list, Contains vol node.dirCluster node.start (write node pos list)
      (SameEntry node) fun result => result.2.start)
    (fuel : Nat) (node : Node) (pos gap : Nat) :
    Contains vol node.dirCluster node.start (fillGap write fuel node pos gap) (SameEntry node) fun result =>
      result.2.start := by
  induction fuel generalizing node pos gap with
  | zero => exact .pure rfl (Set.Subset.refl _)
  | succ fuel ih =>
    rw [fillGap]
    split
    · exact .pure rfl (Set.Subset.refl _)
    · refine (contains _ _ _).bind fun result same => ?_
      obtain ⟨r, written⟩ := result
      dsimp only
      split
      · exact .pure same subset_union_right
      · have rest := (ih written (u32 (pos + min gap fsSectorSize)) (gap - min gap fsSectorSize)).more (subset_union_right : _ ⊆ node.start ∪ _)
        rw [show written.dirCluster = node.dirCluster from same] at rest
        exact rest.weaken fun result later => later.trans same

theorem contains_writeInner (depth : Nat) (node : Node) (offset : Nat) (buf : List Byte) :
    Contains vol node.dirCluster node.start (writeInner vol depth node offset buf) (SameEntry node) fun result =>
      result.2.start := by
  induction depth generalizing node offset buf with
  | zero => exact .pure rfl (Set.Subset.refl _)
  | succ depth ih =>
    rw [writeInner]
    split
    · exact .pure rfl (Set.Subset.refl _)
    · split
      · exact .pure rfl (Set.Subset.refl _)
      · split
        · exact .pure rfl (Set.Subset.refl _)
        · split
          · refine (contains_fillGap ih _ node _ _).bind fun result same => ?_
            obtain ⟨r, filled⟩ := result
            dsimp only
            split
            · exact .pure same subset_union_right
            · have body := (sane.contains_writeBody filled offset buf).more (subset_union_right : _ ⊆ node.start ∪ _)
              rw [show filled.dirCluster = node.dirCluster from same] at body
              exact body.weaken fun result later => later.trans same
          · exact sane.contains_writeBody node offset buf

end Volume.Sane

/-! Reading. -/

theorem readChunk_spec {within len : Nat} (out : Nat) (some_ : len ≠ 0) (room : within < vol.clusterSize) :
    0 < readChunk vol within out len ∧ readChunk vol within out len ≤ len ∧
      within + readChunk vol within out len ≤ vol.clusterSize ∧
      within / fsSectorSize + readSectors vol within out len ≤ vol.sectorsPerCluster := by
  unfold readChunk readSectors
  unfold Volume.clusterSize at *
  split
  · rename_i direct
    obtain ⟨whole, enough, -⟩ := direct
    unfold fsSectorSize at *
    omega
  · unfold fsSectorSize at *
    omega

namespace Volume.Sane

variable (sane : vol.Sane)

include sane

theorem contains_fatNext (cluster : Nat) : Contains vol dir {cluster} (fatNext vol cluster) (fun _ => True) found := by
  refine Contains.of_notData (fatNext_notData sane.low cluster) fun disk clusters needed tracks => ⟨trivial, ?_⟩
  rw [run_fatNext]
  refine ⟨tracks.entry, fun other member => ?_⟩
  rcases member with old | isNext
  · exact tracks.chained other old
  · change vol.next disk cluster = some other at isNext
    unfold Volume.next at isNext
    split at isNext
    · rename_i known
      cases isNext
      exact (tracks.chained cluster (needed rfl)).next known.2.2.2
    · contradiction

theorem contains_readLoop (fuel : Nat) {within len : Nat} (out : Nat) (ok : vol.clusterOk cluster = true)
    (inside : len ≠ 0 → within < vol.clusterSize) :
    Contains vol dir {cluster} (readLoop vol fuel cluster within out len) (fun _ => True) fun _ => ∅ := by
  induction fuel generalizing cluster within out len with
  | zero => exact .pure trivial (empty_subset _)
  | succ fuel ih =>
    rw [readLoop]
    by_cases finished : len = 0
    · rw [if_pos finished]
      exact .pure trivial (empty_subset _)
    · rw [if_neg finished]
      have room := inside finished
      obtain ⟨-, -, inCluster, within_⟩ := readChunk_spec out finished room
      have sectors : ∀ index < readSectors vol within out len,
          vol.FileSector (u32 (vol.clusterLba cluster + within / fsSectorSize) + index) := by
        intro index bound
        have start : within / fsSectorSize < vol.sectorsPerCluster := by
          rw [Nat.div_lt_iff_lt_mul (by decide)]
          exact room
        rw [(sane.clusterSector ok start).1, Nat.add_assoc]
        exact (sane.clusterSector ok (by omega)).2
      refine (contains_blockRead fun _ => sectors).bind fun buf _ => ?_
      cases buf with
      | none => exact .pure trivial (empty_subset _)
      | some buf =>
        simp only [union_empty]
        split
        · refine (sane.contains_fatNext cluster).valid fun next okNext => ?_
          cases next with
          | none => exact .pure trivial (empty_subset _)
          | some nx =>
            refine ((ih _ (okNext nx rfl) fun _ => Nat.mul_pos sane.accepted.perCluster.1 (by decide)).more
              fun other isNext => .inr (congrArg some isNext.symm)).bind fun rest _ => ?_
            cases rest with
            | none | some => exact .pure trivial (empty_subset _)
        · rename_i more
          refine (ih _ ok fun rest => ?_).bind fun rest _ => ?_
          · have notFull : within + readChunk vol within out len ≠ vol.clusterSize := fun full => more ⟨rest, full⟩
            omega
          · cases rest with
            | none | some => exact .pure trivial (empty_subset _)

end Volume.Sane

end NyonOS.Fat
