import NyonOS.Fat.Volume

namespace NyonOS.Fat

open Data

variable {vol : Volume} {disk : Disk} {lba off cluster value : Nat}

/-! What the accesses to the table do to the bytes of the device. -/

def Disk.patch (disk : Disk) (start : Nat) (list : List Byte) : Disk :=
  { disk with bytes := disk.bytes.store start list }

theorem Disk.blockRead_of_valid (valid : disk.blockValid lba 1 = true) : disk.blockRead lba 1 = some fun index =>
      if index < fsSectorSize then disk.bytes (fsSectorSize * lba + index) else 0#8 := by
  rw [blockRead, if_pos valid, Nat.mul_one]

theorem Disk.blockWrite_store (list : List Byte) (valid : disk.blockValid lba 1 = true)
    (writable : disk.readOnly = false) (inside : off + list.length ≤ fsSectorSize) :
    disk.blockWrite lba (Bytes.store
        (fun index => if index < fsSectorSize then disk.bytes (fsSectorSize * lba + index) else 0#8) off list) =
      (true, disk.patch (fsSectorSize * lba + off) list) := by
  rw [blockWrite, if_neg (by simp [writable]), if_pos valid]
  refine congrArg (fun bytes => (true, ({ disk with bytes } : Disk))) (funext fun at_ => ?_)
  unfold Bytes.store
  dsimp only
  by_cases sector : fsSectorSize * lba ≤ at_ ∧ at_ < fsSectorSize * lba + fsSectorSize
  · rw [if_pos sector]
    by_cases changed : off ≤ at_ - fsSectorSize * lba ∧ at_ - fsSectorSize * lba < off + list.length
    · rw [if_pos changed, if_pos (by omega)]
      congr 1
      omega
    · rw [if_neg changed, if_pos (by omega), if_neg (by omega)]
      congr 1
      omega
  · rw [if_neg sector, if_neg (by omega)]

namespace Volume

/-- The address of the entry of a cluster. -/
def entryAddr (vol : Volume) (cluster : Nat) : Nat := fsSectorSize * vol.fatStart + 2 * cluster

theorem entryAddr_eq (vol : Volume) (cluster : Nat) :
    fsSectorSize * vol.fatLba cluster + fatOffset cluster = vol.entryAddr cluster := by
  unfold fatLba fatOffset entryAddr fsSectorSize
  omega

theorem fatOffset_le (cluster : Nat) : fatOffset cluster + 2 ≤ fsSectorSize := by
  unfold fatOffset fsSectorSize
  omega

/-- The entry of a cluster on a device that has the sector. -/
def entry (vol : Volume) (disk : Disk) (cluster : Nat) : Nat := disk.bytes.rd16 (vol.entryAddr cluster)

/-- The device has the entry of a cluster. -/
def Readable (vol : Volume) (disk : Disk) (cluster : Nat) : Prop := disk.blockValid (vol.fatLba cluster) 1 = true

instance decidableReadable (vol : Volume) (disk : Disk) (cluster : Nat) : Decidable (vol.Readable disk cluster) :=
  inferInstanceAs (Decidable (_ = true))

theorem entry_patch_self {cluster : Nat} (small : value < 65536) :
    vol.entry (disk.patch (vol.entryAddr cluster) (Bytes.le16 value)) cluster = value := Bytes.rd16_store_self small

theorem entry_patch_other {cluster other : Nat} (differ : other ≠ cluster) :
    vol.entry (disk.patch (vol.entryAddr cluster) (Bytes.le16 value)) other = vol.entry disk other := by
  refine Bytes.rd16_store_apart ?_
  rw [Bytes.length_le16]
  unfold entryAddr
  omega

end Volume

theorem Disk.patch_readable (disk : Disk) {start : Nat} {list : List Byte} :
    vol.Readable (disk.patch start list) cluster ↔ vol.Readable disk cluster := Iff.rfl

theorem Volume.clusterOk_iff {cluster : Nat} : vol.clusterOk cluster = true ↔
    fsFirstCluster ≤ cluster ∧ cluster < fsBadCluster ∧ vol.mounted = true ∧
      cluster < fsFirstCluster + vol.clusterCount := by
  simp only [clusterOk, Bool.and_eq_true, decide_eq_true_eq, and_assoc]

open Volume

theorem run_fatEntry (vol : Volume) (cluster : Nat) (disk : Disk) : (fatEntry vol cluster).run Disk.answer disk =
      (if vol.clusterOk cluster = true ∧ vol.Readable disk cluster then some (vol.entry disk cluster) else none,
        disk) := by
  unfold fatEntry
  cases ok : vol.clusterOk cluster with
  | false => simp
  | true =>
    by_cases readable : vol.Readable disk cluster
    · have read : disk.blockRead (vol.fatLba cluster) 1 = _ := Disk.blockRead_of_valid readable
      simp only [fatSector, Program.run_bind, Program.run_perform, Disk.answer, read, readable, and_self, if_true,
        Bool.not_true, Bool.false_eq_true, if_false, Program.run_pure, Prod.mk.injEq, Option.some.injEq, and_true]
      have inside := fatOffset_le cluster
      rw [entry, ← entryAddr_eq, Bytes.rd16, Bytes.rd16, if_pos (by omega), if_pos (by omega), Nat.add_assoc]
    · have read : disk.blockRead (vol.fatLba cluster) 1 = none := if_neg readable
      simp [fatSector, Disk.answer, read, readable]

theorem run_fatSet (vol : Volume) (cluster value : Nat) (disk : Disk) :
    (fatSet vol cluster value).run Disk.answer disk =
      if (fsFirstCluster ≤ cluster ∧ cluster < fsBadCluster) ∧ vol.Readable disk cluster ∧ disk.readOnly = false then
        (true, disk.patch (vol.entryAddr cluster) (Bytes.le16 value))
      else (false, disk) := by
  unfold fatSet
  by_cases range : cluster < fsFirstCluster ∨ fsBadCluster ≤ cluster
  · rw [if_pos range, if_neg (by omega)]
    rfl
  · rw [if_neg range]
    by_cases readable : vol.Readable disk cluster
    · have read : disk.blockRead (vol.fatLba cluster) 1 = _ := Disk.blockRead_of_valid readable
      simp only [blockRead, fatWrite, Program.run_bind, Program.run_perform, Disk.answer, read]
      cases readOnly : disk.readOnly with
      | true => simp [Disk.blockWrite, readOnly]
      | false =>
        rw [Disk.blockWrite_store _ readable readOnly (by simpa using fatOffset_le cluster), entryAddr_eq,
          if_pos ⟨by omega, readable, rfl⟩]
    · have read : disk.blockRead (vol.fatLba cluster) 1 = none := if_neg readable
      simp [blockRead, Disk.answer, read, readable]

theorem run_fatSet_ok (ok : vol.clusterOk cluster = true) (readable : vol.Readable disk cluster)
    (writable : disk.readOnly = false) : (fatSet vol cluster value).run Disk.answer disk =
      (true, disk.patch (vol.entryAddr cluster) (Bytes.le16 value)) := by
  obtain ⟨low, good, -⟩ := clusterOk_iff.mp ok
  rw [run_fatSet, if_pos ⟨⟨low, good⟩, readable, writable⟩]

theorem Volume.entry_blockWrite (vol : Volume) (disk : Disk) (buf : Bytes) (differ : vol.fatLba cluster ≠ lba) :
    vol.entry (disk.blockWrite lba buf).2 cluster = vol.entry disk cluster := by
  have addr := vol.entryAddr_eq cluster
  have inside := fatOffset_le cluster
  have outside : ∀ at_, fsSectorSize * vol.fatLba cluster ≤ at_ → at_ < fsSectorSize * vol.fatLba cluster + fsSectorSize →
      (disk.blockWrite lba buf).2.bytes at_ = disk.bytes at_ := by
    intro at_ lower upper
    unfold Disk.blockWrite
    split
    · rfl
    · split
      · refine if_neg ?_
        unfold fsSectorSize at lower upper ⊢
        omega
      · rfl
  rw [Volume.entry, Volume.entry, Bytes.rd16, Bytes.rd16, outside _ (by omega) (by omega),
    outside _ (by omega) (by omega)]

/-! The search for a free cluster. -/

def Passed (limit first : Nat) (buf : Bytes) (index : Nat) : Prop :=
  first + index < fsFirstCluster ∨ first + index < limit ∧ buf.rd16 (index * 2) ≠ 0

/-- How the inner loop ends when it starts at entry `from_`. -/
def Scan.Ends (limit first : Nat) (buf : Bytes) (from_ : Nat) : Scan → Prop
  | .full => ∀ index, from_ ≤ index → index < fsSectorSize / 2 → Passed limit first buf index
  | .past => ∃ stop, from_ ≤ stop ∧ stop < fsSectorSize / 2 ∧ limit ≤ first + stop ∧
      ∀ index, from_ ≤ index → index < stop → Passed limit first buf index
  | .found cluster => ∃ stop, from_ ≤ stop ∧ stop < fsSectorSize / 2 ∧ cluster = first + stop ∧
      fsFirstCluster ≤ cluster ∧ cluster < limit ∧ buf.rd16 (stop * 2) = 0 ∧
      ∀ index, from_ ≤ index → index < stop → Passed limit first buf index

theorem Scan.Ends.step {limit first from_ : Nat} {buf : Bytes} {scan : Scan} (passed : Passed limit first buf from_)
    (ends : scan.Ends limit first buf (from_ + 1)) : scan.Ends limit first buf from_ := by
  have extend : ∀ stop, (∀ index, from_ + 1 ≤ index → index < stop → Passed limit first buf index) →
      ∀ index, from_ ≤ index → index < stop → Passed limit first buf index := by
    intro stop later index lower upper
    rcases Nat.eq_or_lt_of_le lower with rfl | above
    · exact passed
    · exact later index above upper
  cases scan with
  | full => exact extend _ ends
  | past =>
    obtain ⟨stop, lower, upper, beyond, later⟩ := ends
    exact ⟨stop, by omega, upper, beyond, extend stop later⟩
  | found cluster =>
    obtain ⟨stop, lower, upper, isCluster, low, high, free, later⟩ := ends
    exact ⟨stop, by omega, upper, isCluster, low, high, free, extend stop later⟩

theorem scanSector_ends (limit first : Nat) (buf : Bytes) {count : Nat} (bound : count ≤ fsSectorSize / 2) :
    (scanSector limit first buf count).Ends limit first buf (fsSectorSize / 2 - count) := by
  induction count with
  | zero =>
    intro index lower upper
    omega
  | succ count ih =>
    have next : fsSectorSize / 2 - count = fsSectorSize / 2 - (count + 1) + 1 := by omega
    have later := ih (by omega)
    rw [next] at later
    rw [scanSector]
    split
    · rename_i low
      exact later.step (.inl low)
    · split
      · rename_i beyond
        exact ⟨_, Nat.le_refl _, by omega, beyond, fun index lower upper => by omega⟩
      · split
        · rename_i free
          exact ⟨_, Nat.le_refl _, by omega, rfl, by omega, by omega, free, fun index lower upper => by omega⟩
        · rename_i used
          exact later.step (.inr ⟨by omega, used⟩)

def Volume.TableReadable (vol : Volume) (disk : Disk) : Prop :=
  ∀ s < vol.sectorsPerFat, disk.blockValid (vol.fatStart + s) 1 = true

def Volume.Allocatable (vol : Volume) (cluster : Nat) : Prop :=
  fsFirstCluster ≤ cluster ∧ cluster < vol.clusterCount + fsFirstCluster ∧
    cluster < vol.sectorsPerFat * (fsSectorSize / 2)

theorem Volume.TableReadable.readable (table : vol.TableReadable disk) (allocatable : vol.Allocatable cluster) :
    vol.Readable disk cluster := by
  have bound := allocatable.2.2
  unfold fsSectorSize at bound
  exact table (cluster * 2 / fsSectorSize) (by unfold fsSectorSize; omega)

theorem rd16_sector {buf : Bytes} {s index : Nat} (read : disk.blockRead (vol.fatStart + s) 1 = some buf)
    (bound : index < fsSectorSize / 2) :
    buf.rd16 (index * 2) = vol.entry disk (s * (fsSectorSize / 2) + index) := by
  unfold Disk.blockRead at read
  split at read
  · cases read
    unfold fsSectorSize at bound
    have addr : vol.entryAddr (s * (fsSectorSize / 2) + index) = fsSectorSize * (vol.fatStart + s) + index * 2 := by
      unfold Volume.entryAddr fsSectorSize
      omega
    rw [Volume.entry, addr, Bytes.rd16, Bytes.rd16, if_pos (by unfold fsSectorSize; omega),
      if_pos (by unfold fsSectorSize; omega), Nat.add_assoc]
  · contradiction

/-- What the search says about the clusters from the first of sector `s` on. -/
def SearchFrom (vol : Volume) (disk : Disk) (s : Nat) : Option Nat → Prop
  | none => vol.TableReadable disk → ∀ cluster, s * (fsSectorSize / 2) ≤ cluster → vol.Allocatable cluster →
      vol.entry disk cluster ≠ 0
  | some found => vol.Allocatable found ∧ vol.entry disk found = 0 ∧
      ∀ cluster, s * (fsSectorSize / 2) ≤ cluster → fsFirstCluster ≤ cluster → cluster < found →
        vol.entry disk cluster ≠ 0

theorem scanTable_spec (vol : Volume) (disk : Disk) {count : Nat} (bound : count ≤ vol.sectorsPerFat) :
    ((scanTable vol count).run Disk.answer disk).2 = disk ∧
      SearchFrom vol disk (vol.sectorsPerFat - count) ((scanTable vol count).run Disk.answer disk).1 := by
  induction count with
  | zero =>
    refine ⟨rfl, fun _ cluster lower allocatable => ?_⟩
    have high := allocatable.2.2
    rw [Nat.sub_zero] at lower
    omega
  | succ count ih =>
    obtain ⟨same, later⟩ := ih (by omega)
    rw [scanTable]
    simp only [blockRead, Program.run_bind, Program.run_perform, Disk.answer]
    cases read : disk.blockRead (vol.fatStart + (vol.sectorsPerFat - (count + 1))) 1 with
    | none =>
      refine ⟨rfl, fun readable => ?_⟩
      have valid := readable (vol.sectorsPerFat - (count + 1)) (by omega)
      rw [Disk.blockRead_of_valid valid] at read
      contradiction
    | some buf =>
      have ends := scanSector_ends (vol.clusterCount + fsFirstCluster)
        ((vol.sectorsPerFat - (count + 1)) * (fsSectorSize / 2)) buf (Nat.le_refl (fsSectorSize / 2))
      rw [Nat.sub_self] at ends
      have next : vol.sectorsPerFat - count = vol.sectorsPerFat - (count + 1) + 1 := by omega
      rw [next] at later
      have inTable : (vol.sectorsPerFat - (count + 1) + 1) * (fsSectorSize / 2) ≤
          vol.sectorsPerFat * (fsSectorSize / 2) := Nat.mul_le_mul_right _ (by omega)
      generalize vol.sectorsPerFat - (count + 1) = s at read ends later inTable ⊢
      have here : ∀ {stop cluster : Nat}, stop ≤ fsSectorSize / 2 → (∀ index, 0 ≤ index → index < stop →
            Passed (vol.clusterCount + fsFirstCluster) (s * (fsSectorSize / 2)) buf index) →
          s * (fsSectorSize / 2) ≤ cluster → cluster < s * (fsSectorSize / 2) + stop → fsFirstCluster ≤ cluster →
          vol.entry disk cluster ≠ 0 := by
        intro stop cluster small passed lower upper first
        have entry := rd16_sector read (show cluster - s * (fsSectorSize / 2) < fsSectorSize / 2 by omega)
        rw [Nat.add_sub_cancel' lower] at entry
        rcases passed (cluster - s * (fsSectorSize / 2)) (Nat.zero_le _) (by omega) with low | ⟨-, used⟩
        · omega
        · rwa [entry] at used
      dsimp only
      cases scan : scanSector (vol.clusterCount + fsFirstCluster) (s * (fsSectorSize / 2)) buf (fsSectorSize / 2) with
      | past =>
        rw [scan] at ends
        obtain ⟨stop, -, inside, beyond, passed⟩ := ends
        refine ⟨rfl, fun _ cluster lower allocatable => ?_⟩
        have high := allocatable.2.1
        exact here inside.le passed lower (by omega) allocatable.1
      | found cluster =>
        rw [scan] at ends
        obtain ⟨stop, -, inside, rfl, low, high, free, passed⟩ := ends
        rw [rd16_sector read inside] at free
        refine ⟨rfl, ⟨low, high, ?_⟩, free, fun other lower first upper => ?_⟩
        · rw [Nat.succ_mul] at inTable
          omega
        · exact here inside.le passed lower upper first
      | full =>
        rw [scan] at ends
        refine ⟨same, ?_⟩
        dsimp only
        cases result : ((scanTable vol count).run Disk.answer disk).1 with
        | none =>
          rw [result] at later
          intro readable cluster lower allocatable
          by_cases inSector : cluster < s * (fsSectorSize / 2) + fsSectorSize / 2
          · exact here (Nat.le_refl _) ends lower inSector allocatable.1
          · exact later readable cluster (by rw [Nat.succ_mul]; omega) allocatable
        | some found =>
          rw [result] at later
          refine ⟨later.1, later.2.1, fun cluster lower first upper => ?_⟩
          by_cases inSector : cluster < s * (fsSectorSize / 2) + fsSectorSize / 2
          · exact here (Nat.le_refl _) ends lower inSector first
          · exact later.2.2 cluster (by rw [Nat.succ_mul]; omega) first upper

theorem fatAlloc_spec (vol : Volume) (disk : Disk) : ((fatAlloc vol).run Disk.answer disk).2 = disk ∧
      SearchFrom vol disk 0 ((fatAlloc vol).run Disk.answer disk).1 := by
  have spec := scanTable_spec vol disk (Nat.le_refl vol.sectorsPerFat)
  rwa [Nat.sub_self] at spec

/-! Following and extending chains. -/

def Volume.next (vol : Volume) (disk : Disk) (cluster : Nat) : Option Nat :=
  if vol.clusterOk cluster = true ∧ vol.Readable disk cluster ∧ fsFirstCluster ≤ vol.entry disk cluster ∧
      vol.entry disk cluster < fsEocMin then some (vol.entry disk cluster)
  else none

theorem run_fatNext (vol : Volume) (cluster : Nat) (disk : Disk) :
    (fatNext vol cluster).run Disk.answer disk = (vol.next disk cluster, disk) := by
  unfold fatNext Volume.next
  rw [Program.run_bind, run_fatEntry]
  by_cases known : vol.clusterOk cluster = true ∧ vol.Readable disk cluster
  · simp only [known, and_self, if_true, true_and]
    by_cases last : fsEocMin ≤ vol.entry disk cluster
    · rw [if_pos last, if_neg (by omega)]
      rfl
    · rw [if_neg last]
      by_cases low : vol.entry disk cluster < fsFirstCluster
      · rw [if_pos low, if_neg (by omega)]
        rfl
      · rw [if_neg low, if_pos (by omega)]
        rfl
  · rw [if_neg known, if_neg (fun all => known ⟨all.1, all.2.1⟩)]
    rfl

def Volume.nth (vol : Volume) (disk : Disk) : (skip cluster : Nat) → Option Nat
  | 0, cluster => some cluster
  | skip + 1, cluster =>
    match vol.next disk cluster with
    | none => none
    | some nx => vol.nth disk skip nx

theorem run_hop (vol : Volume) (skip cluster : Nat) (disk : Disk) :
    (hop vol skip cluster).run Disk.answer disk = (vol.nth disk skip cluster, disk) := by
  induction skip generalizing cluster with
  | zero => rfl
  | succ skip ih =>
    rw [hop, Program.run_bind, run_fatNext, Volume.nth]
    cases vol.next disk cluster with
    | none => rfl
    | some nx => exact ih nx

theorem run_clusterNth (vol : Volume) (cluster skip : Nat) (disk : Disk) :
    (clusterNth vol cluster skip).run Disk.answer disk =
      (if vol.clusterOk cluster = true then vol.nth disk skip cluster else none, disk) := by
  unfold clusterNth
  cases vol.clusterOk cluster with
  | false => rfl
  | true => exact run_hop vol skip cluster disk

def Volume.Stuck (vol : Volume) (disk : Disk) (cluster : Nat) : Prop :=
  vol.clusterOk cluster = false ∨ ¬ vol.Readable disk cluster ∨ disk.readOnly = true ∨ ¬ vol.TableReadable disk ∨
    fsEocMin ≤ vol.entry disk cluster ∧ ∀ free, vol.Allocatable free → free < fsBadCluster → vol.entry disk free ≠ 0

/-- A cluster that is free and that the search finds first. -/
structure Volume.FirstFree (vol : Volume) (disk : Disk) (found : Nat) : Prop where
  allocatable : vol.Allocatable found
  good : found < fsBadCluster
  free : vol.entry disk found = 0
  first : ∀ cluster, fsFirstCluster ≤ cluster → cluster < found → vol.entry disk cluster ≠ 0

theorem fatExtend_cases (vol : Volume) (cluster : Nat) (disk : Disk) :
    vol.Stuck disk cluster ∧ (fatExtend vol cluster).run Disk.answer disk = (none, disk) ∨
      vol.clusterOk cluster = true ∧ vol.Readable disk cluster ∧ vol.entry disk cluster < fsEocMin ∧
        (fatExtend vol cluster).run Disk.answer disk = (some (vol.entry disk cluster), disk) ∨
      vol.clusterOk cluster = true ∧ vol.Readable disk cluster ∧ fsEocMin ≤ vol.entry disk cluster ∧
        ∃ nc, vol.FirstFree disk nc ∧ vol.Readable disk nc ∧ disk.readOnly = false ∧
          (fatExtend vol cluster).run Disk.answer disk = (some nc,
            (disk.patch (vol.entryAddr nc) (Bytes.le16 fsEocMin)).patch (vol.entryAddr cluster) (Bytes.le16 nc)) := by
  unfold fatExtend
  rw [Program.run_bind, run_fatEntry]
  by_cases known : vol.clusterOk cluster = true ∧ vol.Readable disk cluster
  · obtain ⟨ok, readable⟩ := known
    simp only [ok, readable, and_self, if_true, true_and]
    by_cases inner : vol.entry disk cluster < fsEocMin
    · rw [if_pos inner]
      exact .inr (.inl ⟨inner, rfl⟩)
    · rw [if_neg inner]
      have last : fsEocMin ≤ vol.entry disk cluster := Nat.not_lt.mp inner
      obtain ⟨same, search⟩ := fatAlloc_spec vol disk
      rw [Program.run_bind, same]
      cases result : ((fatAlloc vol).run Disk.answer disk).1 with
      | none =>
        rw [result] at search
        refine .inl ⟨?_, rfl⟩
        by_cases table : vol.TableReadable disk
        · exact .inr (.inr (.inr (.inr ⟨last, fun free allocatable _ => search table free (Nat.zero_le _) allocatable⟩)))
        · exact .inr (.inr (.inr (.inl table)))
      | some nc =>
        rw [result] at search
        obtain ⟨allocatable, free, first⟩ := search
        dsimp only
        rw [Program.run_bind, run_fatSet]
        by_cases set : (fsFirstCluster ≤ nc ∧ nc < fsBadCluster) ∧ vol.Readable disk nc ∧ disk.readOnly = false
        · rw [if_pos set]
          refine .inr (.inr ⟨last, nc, ⟨allocatable, set.1.2, free, fun other low below =>
            first other (Nat.zero_le _) low below⟩, set.2.1, set.2.2, ?_⟩)
          simp only [Bool.not_true, Bool.false_eq_true, if_false, Program.run_bind]
          rw [run_fatSet_ok ok (disk.patch_readable.mpr readable) set.2.2]
          rfl
        · rw [if_neg set]
          refine .inl ⟨?_, rfl⟩
          by_cases writable : disk.readOnly = false
          · by_cases table : vol.TableReadable disk
            · have readableNc : vol.Readable disk nc := table.readable allocatable
              have bad : fsBadCluster ≤ nc := Nat.not_lt.mp fun good => set ⟨⟨allocatable.1, good⟩, readableNc, writable⟩
              exact .inr (.inr (.inr (.inr ⟨last, fun other otherAllocatable good =>
                first other (Nat.zero_le _) otherAllocatable.1 (by omega)⟩)))
            · exact .inr (.inr (.inr (.inl table)))
          · exact .inr (.inr (.inl (Bool.not_eq_false _ ▸ writable)))
  · rw [if_neg known]
    refine .inl ⟨?_, rfl⟩
    by_cases ok : vol.clusterOk cluster = true
    · exact .inr (.inl fun readable => known ⟨ok, readable⟩)
    · exact .inl (Bool.not_eq_true _ ▸ ok)

end NyonOS.Fat
