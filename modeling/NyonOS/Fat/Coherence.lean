import NyonOS.Fat.Cache
import NyonOS.Fat.Table

namespace NyonOS.Fat

open Data Function Option

variable {vol : Volume} {disk : Disk} {fs : Fs} {lba : Nat}

/-! Reading the table. -/

namespace Volume

/-- The sectors that have the entry of a valid cluster. -/
def InTable (vol : Volume) (lba : Nat) : Prop := ∃ cluster, vol.clusterOk cluster ∧ vol.fatLba cluster = lba

def TableRead (vol : Volume) (access : Access) : Prop := ∃ lba, vol.InTable lba ∧ access = .fatSector lba

theorem InTable.lt (low : vol.fatStart < 65536) (table : vol.InTable lba) : lba < noLba := by
  obtain ⟨cluster, ok, rfl⟩ := table
  obtain ⟨-, bound, -⟩ := clusterOk_iff.mp ok
  unfold fatLba noLba
  unfold fsBadCluster at bound
  unfold fsSectorSize
  omega

end Volume

open Volume

theorem fatEntry_only (cluster : Nat) : (fatEntry vol cluster).Only vol.TableRead := by
  unfold fatEntry
  cases ok : vol.clusterOk cluster with
  | false => trivial
  | true =>
    refine ⟨⟨_, ⟨cluster, ok, rfl⟩, rfl⟩, fun answer => ?_⟩
    cases answer <;> trivial

theorem fatNext_only (cluster : Nat) : (fatNext vol cluster).Only vol.TableRead := by
  refine Program.Only.bind (fatEntry_only cluster) fun entry => ?_
  cases entry with
  | none => trivial
  | some v =>
    dsimp only
    split
    · trivial
    · split <;> trivial

theorem hop_only (skip cluster : Nat) : (hop vol skip cluster).Only vol.TableRead := by
  induction skip generalizing cluster with
  | zero => trivial
  | succ skip ih =>
    refine Program.Only.bind (fatNext_only cluster) fun next => ?_
    cases next with
    | none => trivial
    | some nx => exact ih nx

theorem clusterNth_only (cluster skip : Nat) : (clusterNth vol cluster skip).Only vol.TableRead := by
  unfold clusterNth
  split
  · trivial
  · exact hop_only skip cluster

theorem run_disk_of_only {α : Type} {code : Code α} (only : code.Only vol.TableRead) (disk : Disk) :
    (code.run Disk.answer disk).2 = disk := by
  induction code with
  | done value => rfl
  | ask access next ih =>
    obtain ⟨⟨lba, -, rfl⟩, later⟩ := only
    exact ih _ (later _)

theorem run_congr_of_only {α : Type} {code : Code α} (only : code.Only vol.TableRead) {other : Disk}
    (same : ∀ lba, vol.InTable lba → disk.blockRead lba 1 = other.blockRead lba 1) :
    (code.run Disk.answer disk).1 = (code.run Disk.answer other).1 := by
  induction code with
  | done value => rfl
  | ask access next ih =>
    obtain ⟨⟨lba, table, rfl⟩, later⟩ := only
    change ((next (disk.blockRead lba 1)).run Disk.answer disk).1 =
      ((next (other.blockRead lba 1)).run Disk.answer other).1
    rw [same lba table]
    exact ih _ (later _)

theorem Disk.blockWrite_refused {buf : Bytes} (refused : (disk.blockWrite lba buf).1 = false) :
    (disk.blockWrite lba buf).2 = disk := by
  unfold blockWrite at refused ⊢
  split
  · rfl
  · split
    · rename_i writable valid
      rw [if_neg writable, if_pos valid] at refused
      contradiction
    · rfl

theorem Disk.blockRead_blockWrite (disk : Disk) (buf : Bytes) {other : Nat} (differ : lba ≠ other) :
    (disk.blockWrite lba buf).2.blockRead other 1 = disk.blockRead other 1 := by
  unfold blockWrite
  split
  · rfl
  · split
    · unfold blockRead
      refine ite_congr rfl (fun _ => congrArg some (funext fun index => ?_)) fun _ => rfl
      refine ite_congr rfl (fun inside => if_neg ?_) fun _ => rfl
      unfold fsSectorSize at inside ⊢
      omega
    · rfl

theorem hop_add (vol : Volume) (first second cluster : Nat) (disk : Disk) :
    ((hop vol (first + second) cluster).run Disk.answer disk).1 =
      match ((hop vol first cluster).run Disk.answer disk).1 with
      | none => none
      | some middle => ((hop vol second middle).run Disk.answer disk).1 := by
  induction first generalizing cluster with
  | zero =>
    rw [Nat.zero_add]
    rfl
  | succ first ih =>
    rw [Nat.succ_add, hop, hop, Program.run_bind, Program.run_bind]
    rw [run_disk_of_only (fatNext_only cluster)]
    cases ((fatNext vol cluster).run Disk.answer disk).1 with
    | none => rfl
    | some nx => exact ih nx

/-! Coherence. -/

/-- What is in the cache is what is on the device, when the cache is used at all. -/
def SectorCache.Shows (cache : SectorCache) (disk : Disk) (base : Nat) : Prop :=
  cache.lba ≠ noLba → cache.base = base → disk.blockRead cache.lba 1 = some cache.buf

/-- The cluster that the table of the device gives. -/
def Fs.walk (fs : Fs) (first index : Nat) : Option Nat :=
  ((clusterNth fs.vol first index).run Disk.answer fs.disk).1

/-- An entry that the cluster cache may use. -/
def Fs.Current (fs : Fs) (cpu : Cpu) (slot : Fin 8) (generation : Nat) : Prop :=
  (fs.readCache cpu slot).key ≠ none ∧ (fs.readCache cpu slot).generation = generation

structure Fs.Coherent (fs : Fs) : Prop where
  fat : fs.fatCache.Shows fs.disk fs.vol.fatStart
  dir : fs.dirCache.Shows fs.disk fs.vol.dataStart
  read : ∀ cpu slot key, (fs.readCache cpu slot).key = some key → (fs.readCache cpu slot).generation = fs.generation →
      fs.walk key.firstCluster (fs.readCache cpu slot).clusterIndex = some (fs.readCache cpu slot).cluster
  low : fs.vol.fatStart < 65536

theorem answer_fatSector (showing : fs.fatCache.Shows fs.disk fs.vol.fatStart) (real : lba ≠ noLba) :
    ∃ cache, Fs.answer (.fatSector lba) fs = (fs.disk.blockRead lba 1, { fs with fatCache := cache }) ∧
      cache.Shows fs.disk fs.vol.fatStart := by
  unfold Fs.answer
  dsimp only
  split
  · cases sector : fs.disk.blockRead lba 1 with
    | none => exact ⟨fs.fatCache, rfl, showing⟩
    | some sec => exact ⟨_, rfl, fun _ _ => sector⟩
  · rename_i hit
    push Not at hit
    rw [← showing (hit.1 ▸ real) hit.2.symm, ← hit.1]
    exact ⟨fs.fatCache, rfl, showing⟩

theorem answer_dirSector (showing : fs.dirCache.Shows fs.disk fs.vol.dataStart) (real : lba ≠ noLba) :
    ∃ cache, Fs.answer (.dirSector lba) fs = (fs.disk.blockRead lba 1, { fs with dirCache := cache }) ∧
      cache.Shows fs.disk fs.vol.dataStart := by
  unfold Fs.answer
  dsimp only
  split
  · cases sector : fs.disk.blockRead lba 1 with
    | none => exact ⟨fs.dirCache, rfl, showing⟩
    | some sec => exact ⟨_, rfl, fun _ _ => sector⟩
  · rename_i hit
    push Not at hit
    rw [← showing (hit.1 ▸ real) hit.2.symm, ← hit.1]
    exact ⟨fs.dirCache, rfl, showing⟩

theorem run_of_only {α : Type} {code : Code α} (only : code.Only fs.vol.TableRead)
    (showing : fs.fatCache.Shows fs.disk fs.vol.fatStart) (low : fs.vol.fatStart < 65536) :
    ∃ cache, code.run Fs.answer fs = ((code.run Disk.answer fs.disk).1, { fs with fatCache := cache }) ∧
      cache.Shows fs.disk fs.vol.fatStart := by
  induction code generalizing fs with
  | done value => exact ⟨fs.fatCache, rfl, showing⟩
  | ask access next ih =>
    obtain ⟨⟨lba, table, rfl⟩, later⟩ := only
    obtain ⟨cache, answered, showingNow⟩ := answer_fatSector showing (table.lt low).ne
    obtain ⟨last, ran, showingLast⟩ := @ih (fs.disk.blockRead lba 1) { fs with fatCache := cache }
      (later _) showingNow low
    refine ⟨last, ?_, showingLast⟩
    rw [Program.run, answered]
    exact ran

namespace Fs.Coherent

section

variable (coherent : fs.Coherent)
include coherent

theorem setFatCache {cache : SectorCache} (showing : cache.Shows fs.disk fs.vol.fatStart) :
    Fs.Coherent { fs with fatCache := cache } :=
  ⟨showing, coherent.dir, coherent.read, coherent.low⟩

theorem setReadCache (cpu : Cpu) (slot : Fin 8) {entry : ReadCache}
    (right : ∀ key, entry.key = some key → entry.generation = fs.generation →
      fs.walk key.firstCluster entry.clusterIndex = some entry.cluster) :
    (fs.setReadCache cpu slot entry).Coherent := by
  refine ⟨coherent.fat, coherent.dir, fun otherCpu otherSlot key => ?_, coherent.low⟩
  simp only [Fs.setReadCache]
  by_cases sameCpu : otherCpu = cpu
  · subst sameCpu
    rw [update_self]
    by_cases sameSlot : otherSlot = slot
    · subst sameSlot
      rw [update_self]
      exact right key
    · rw [update_of_ne sameSlot]
      exact coherent.read otherCpu otherSlot key
  · rw [update_of_ne sameCpu]
    exact coherent.read otherCpu otherSlot key

theorem fatReadCluster (cpu : Cpu) (key : NodeKey) (target : Nat) :
    (fs.fatReadCluster cpu key target).1 = fs.walk key.firstCluster target ∧
      (fs.fatReadCluster cpu key target).2.Coherent := by
  unfold Fs.fatReadCluster
  dsimp only
  split
  · rename_i hit
    obtain ⟨current, isKey, before⟩ := hit
    have stored := coherent.read cpu _ key isKey current
    obtain ⟨cache, ran, showing⟩ := run_of_only (hop_only (target - (fs.readCache cpu (Fs.readSlot key)).clusterIndex)
        (fs.readCache cpu (Fs.readSlot key)).cluster) coherent.fat coherent.low
    have reached : fs.walk key.firstCluster target = ((hop fs.vol
        (target - (fs.readCache cpu (Fs.readSlot key)).clusterIndex)
        (fs.readCache cpu (Fs.readSlot key)).cluster).run Disk.answer fs.disk).1 := by
      unfold Fs.walk clusterNth at stored ⊢
      cases ok : fs.vol.clusterOk key.firstCluster with
      | false =>
        rw [ok] at stored
        contradiction
      | true =>
        rw [ok] at stored
        change ((hop fs.vol target key.firstCluster).run Disk.answer fs.disk).1 = _
        have parts := hop_add fs.vol (fs.readCache cpu (Fs.readSlot key)).clusterIndex
          (target - (fs.readCache cpu (Fs.readSlot key)).clusterIndex) key.firstCluster fs.disk
        rw [Nat.add_sub_cancel' before] at parts
        rw [parts]
        change ((hop fs.vol _ key.firstCluster).run Disk.answer fs.disk).1 = _ at stored
        rw [stored]
    rw [ran, reached]
    cases found : ((hop fs.vol (target - (fs.readCache cpu (Fs.readSlot key)).clusterIndex)
        (fs.readCache cpu (Fs.readSlot key)).cluster).run Disk.answer fs.disk).1 with
    | none => exact ⟨rfl, coherent.setFatCache showing⟩
    | some cluster =>
      refine ⟨rfl, (coherent.setFatCache showing).setReadCache cpu _ fun other isOther _ => ?_⟩
      cases isKey.symm.trans isOther
      exact reached.trans found
  · obtain ⟨cache, ran, showing⟩ := run_of_only (clusterNth_only key.firstCluster target) coherent.fat coherent.low
    rw [ran]
    cases found : ((clusterNth fs.vol key.firstCluster target).run Disk.answer fs.disk).1 with
    | none => exact ⟨found.symm, coherent.setFatCache showing⟩
    | some cluster =>
      refine ⟨found.symm, (coherent.setFatCache showing).setReadCache cpu _ fun other isOther _ => ?_⟩
      cases isOther
      exact found

theorem fatReadCluster_keeps (cpu : Cpu) (key : NodeKey) (target : Nat) :
    (fs.fatReadCluster cpu key target).2.vol = fs.vol ∧ (fs.fatReadCluster cpu key target).2.disk = fs.disk := by
  unfold Fs.fatReadCluster
  dsimp only
  split
  · obtain ⟨cache, ran, -⟩ := run_of_only (hop_only (target - (fs.readCache cpu (Fs.readSlot key)).clusterIndex)
      (fs.readCache cpu (Fs.readSlot key)).cluster) coherent.fat coherent.low
    rw [ran]
    cases ((hop fs.vol (target - (fs.readCache cpu (Fs.readSlot key)).clusterIndex)
      (fs.readCache cpu (Fs.readSlot key)).cluster).run Disk.answer fs.disk).1 with
    | none => exact ⟨rfl, rfl⟩
    | some cluster => exact ⟨rfl, rfl⟩
  · obtain ⟨cache, ran, -⟩ := run_of_only (clusterNth_only key.firstCluster target) coherent.fat coherent.low
    rw [ran]
    cases ((clusterNth fs.vol key.firstCluster target).run Disk.answer fs.disk).1 with
    | none | some => exact ⟨rfl, rfl⟩

end

theorem cold (cache : SectorCache) (disk : Disk) (base : Nat) :
    SectorCache.Shows { cache with lba := noLba } disk base := fun warm => absurd rfl warm

theorem disk_sectorWrite (fs : Fs) (lba : Nat) (buf : Bytes) :
    (fs.sectorWrite lba buf).2.disk = (fs.disk.blockWrite lba buf).2 := by
  simp only [Fs.sectorWrite, Fs.disk, update_self]

theorem sectorWrite (coherent : fs.Coherent) {lba : Nat} (buf : Bytes) (outside : ¬ fs.vol.InTable lba) :
    (fs.sectorWrite lba buf).2.Coherent := by
  refine ⟨cold _ _ _, cold _ _ _, fun cpu slot key isKey current => ?_, coherent.low⟩
  have same : ∀ table, fs.vol.InTable table →
      (fs.sectorWrite lba buf).2.disk.blockRead table 1 = fs.disk.blockRead table 1 := fun table inTable => by
    rw [disk_sectorWrite]
    exact Disk.blockRead_blockWrite _ buf fun same => outside (same ▸ inTable)
  exact (run_congr_of_only (clusterNth_only _ _) same).trans (coherent.read cpu slot key isKey current)

theorem fatWrite (coherent : fs.Coherent) (lba : Nat) (buf : Bytes)
    (unused : ∀ cpu slot, ¬ fs.Current cpu slot (u32 (fs.generation + 1))) :
    (Fs.answer (.fatWrite lba buf) fs).2.Coherent := by
  unfold Fs.answer
  dsimp only
  split
  · refine ⟨cold _ _ _, cold _ _ _, fun cpu slot key isKey current => ?_, coherent.low⟩
    have none_ := unused cpu slot
    exact absurd ⟨isKey ▸ some_ne_none key, current⟩ none_
  · rename_i refused
    have same : (fs.sectorWrite lba buf).2.disk = fs.disk := by
      rw [disk_sectorWrite]
      exact Disk.blockWrite_refused (Bool.not_eq_true _ ▸ refused)
    refine ⟨cold _ _ _, cold _ _ _, fun cpu slot key isKey current => ?_, coherent.low⟩
    have stored := coherent.read cpu slot key isKey current
    unfold Fs.walk at stored ⊢
    rw [same]
    exact stored

end Fs.Coherent

/-- An access that can be made through the caches: the number of the sector is not the mark
of an empty cache. -/
def Access.Real : Access → Prop
  | .fatSector lba | .dirSector lba => lba ≠ noLba
  | _ => True

/-- The sector caches stand for the device. -/
structure Fs.Mirrors (fs : Fs) (vol : Volume) (disk : Disk) : Prop where
  isVol : fs.vol = vol
  isDisk : fs.disk = disk
  fat : fs.fatCache.Shows disk vol.fatStart
  dir : fs.dirCache.Shows disk vol.dataStart

theorem Fs.Coherent.mirrors (coherent : fs.Coherent) : fs.Mirrors fs.vol fs.disk :=
  ⟨rfl, rfl, coherent.fat, coherent.dir⟩

theorem Fs.Mirrors.sectorWrite (mirrors : fs.Mirrors vol disk) (lba : Nat) (buf : Bytes) :
    (fs.sectorWrite lba buf).1 = (disk.blockWrite lba buf).1 ∧
      (fs.sectorWrite lba buf).2.Mirrors vol (disk.blockWrite lba buf).2 := by
  obtain ⟨rfl, rfl, -, -⟩ := mirrors
  exact ⟨rfl, rfl, Fs.Coherent.disk_sectorWrite fs lba buf, Fs.Coherent.cold _ _ _, Fs.Coherent.cold _ _ _⟩

theorem Fs.Mirrors.answer (mirrors : fs.Mirrors vol disk) {access : Access} (real : access.Real) :
    (Fs.answer access fs).1 = (Disk.answer access disk).1 ∧
      (Fs.answer access fs).2.Mirrors vol (Disk.answer access disk).2 := by
  cases access with
  | fatSector lba =>
    obtain ⟨rfl, rfl, fat, dir⟩ := mirrors
    obtain ⟨cache, answered, showing⟩ := answer_fatSector fat real
    rw [answered]
    exact ⟨rfl, rfl, rfl, showing, dir⟩
  | dirSector lba =>
    obtain ⟨rfl, rfl, fat, dir⟩ := mirrors
    obtain ⟨cache, answered, showing⟩ := answer_dirSector dir real
    rw [answered]
    exact ⟨rfl, rfl, rfl, fat, showing⟩
  | blockRead use lba count =>
    refine ⟨?_, mirrors⟩
    rw [← mirrors.isDisk]
    rfl
  | sectorWrite use lba buf => exact mirrors.sectorWrite lba buf
  | fatWrite lba buf =>
    obtain ⟨same, after⟩ := mirrors.sectorWrite lba buf
    refine ⟨same, ?_⟩
    unfold Fs.answer
    dsimp only
    split
    · exact ⟨after.isVol, after.isDisk, after.fat, after.dir⟩
    · exact after

theorem Fs.Mirrors.run {α : Type} (mirrors : fs.Mirrors vol disk) (code : Code α)
    (real : ∀ access ∈ code.trace Disk.answer disk, access.Real) :
    (code.run Fs.answer fs).1 = (code.run Disk.answer disk).1 ∧
      (code.run Fs.answer fs).2.Mirrors vol (code.run Disk.answer disk).2 ∧
      code.trace Fs.answer fs = code.trace Disk.answer disk := by
  have each : ∀ (access : Access) (fs : Fs) (disk : Disk), access.Real → fs.Mirrors vol disk →
      (Fs.answer access fs).1 = (Disk.answer access disk).1 ∧
        (Fs.answer access fs).2.Mirrors vol (Disk.answer access disk).2 :=
    fun access fs disk real mirrors => mirrors.answer real
  exact Program.run_simulates each code mirrors real

/-! Runs. -/

/-- What is done to the file system: everything it does with the device is one of these. -/
inductive CacheCall
  | mount (dev : Nat)
  | access (access : Access)
  | readCluster (cpu : Cpu) (key : NodeKey) (target : Nat)

def Fs.call : CacheCall → Fs → Fs
  | .mount dev, fs => (fs.mount dev).2
  | .access access, fs => (Fs.answer access fs).2
  | .readCluster cpu key target, fs => (fs.fatReadCluster cpu key target).2

inductive CacheStep : CacheCall → Fs → Fs → Prop
  | call (call : CacheCall) (fs : Fs) : CacheStep call fs (fs.call call)

/-- A sector cache that a mount may leave as it is: it is empty, or the new volume does not
use it, or it is in use and the device stays the same. -/
def SectorCache.Kept (cache : SectorCache) (base newBase : Nat) (sameDevice : Prop) : Prop :=
  cache.lba = noLba ∨ cache.base ≠ newBase ∨ sameDevice ∧ cache.base = base

/-- The condition on a call. -/
def Careful : CacheCall → Fs → Prop
  | .mount dev, fs =>
    let vol := (fsMountInner (fs.devices dev) fs.vol).2
    fs.fatCache.Kept fs.vol.fatStart vol.fatStart (dev = fs.dev) ∧
      fs.dirCache.Kept fs.vol.dataStart vol.dataStart (dev = fs.dev) ∧
      (dev = fs.dev ∧ vol = fs.vol ∨ ∀ cpu slot, ¬ fs.Current cpu slot fs.generation)
  | .access (.fatSector lba), _ => lba ≠ noLba
  | .access (.dirSector lba), _ => lba ≠ noLba
  | .access (.sectorWrite _ lba _), fs => ¬ fs.vol.InTable lba
  | .access (.fatWrite ..), fs => ∀ cpu slot, ¬ fs.Current cpu slot (u32 (fs.generation + 1))
  | _, _ => True

/-- Every value that comes out of a cache is the one on the device. -/
def Fs.Transparent (fs : Fs) : Prop :=
  (∀ lba, Careful (.access (.fatSector lba)) fs → (Fs.answer (.fatSector lba) fs).1 = fs.disk.blockRead lba 1) ∧
    (∀ lba, Careful (.access (.dirSector lba)) fs → (Fs.answer (.dirSector lba) fs).1 = fs.disk.blockRead lba 1) ∧
    ∀ cpu key target, (fs.fatReadCluster cpu key target).1 = fs.walk key.firstCluster target

theorem fsMountInner_low (low : vol.fatStart < 65536) : (fsMountInner disk vol).2.fatStart < 65536 := by
  unfold fsMountInner
  dsimp only
  split
  · exact low
  · rename_i sec _
    have reserved := Bytes.rd16_lt sec 0x0E
    repeat' split
    all_goals first | exact low | exact reserved

theorem SectorCache.Kept.showing {cache : SectorCache} {base newBase : Nat} {other : Disk} {sameDevice : Prop}
    (kept : cache.Kept base newBase sameDevice) (showing : cache.Shows disk base)
    (same : sameDevice → other = disk) : cache.Shows other newBase := by
  intro warm usable
  rcases kept with none_ | unused | ⟨device, used⟩
  · exact absurd none_ warm
  · exact absurd usable unused
  · rw [same device]
    exact showing warm used

theorem Fs.Coherent.mount {dev : Nat} (coherent : fs.Coherent) (careful : Careful (.mount dev) fs) :
    (fs.mount dev).2.Coherent := by
  obtain ⟨fat, dir, read⟩ := careful
  have same : dev = fs.dev → fs.devices dev = fs.disk := fun isDev => congrArg fs.devices isDev
  refine ⟨fat.showing coherent.fat same, dir.showing coherent.dir same, fun cpu slot key isKey current => ?_,
    fsMountInner_low coherent.low⟩
  rcases read with ⟨rfl, unchanged⟩ | none_
  · have stored := coherent.read cpu slot key isKey current
    unfold Fs.walk at stored ⊢
    change ((clusterNth (fsMountInner (fs.devices fs.dev) fs.vol).2 _ _).run Disk.answer fs.disk).1 = _
    rw [unchanged]
    exact stored
  · exact absurd ⟨isKey ▸ some_ne_none key, current⟩ (none_ cpu slot)

theorem CacheStep.coherent {call : CacheCall} {before after : Fs} (coherent : before.Coherent)
    (careful : Careful call before) (step : CacheStep call before after) : after.Coherent := by
  cases step
  cases call with
  | mount dev => exact coherent.mount careful
  | readCluster cpu key target => exact (coherent.fatReadCluster cpu key target).2
  | access access =>
    cases access with
    | fatSector lba =>
      obtain ⟨cache, answered, showing⟩ := answer_fatSector coherent.fat careful
      rw [Fs.call, answered]
      exact coherent.setFatCache showing
    | dirSector lba =>
      obtain ⟨cache, answered, showing⟩ := answer_dirSector coherent.dir careful
      rw [Fs.call, answered]
      exact ⟨coherent.fat, showing, coherent.read, coherent.low⟩
    | blockRead use lba count => exact coherent
    | sectorWrite use lba buf => exact coherent.sectorWrite buf careful
    | fatWrite lba buf => exact coherent.fatWrite lba buf careful

theorem Fs.boot_coherent (devices : Nat → Disk) : (Fs.boot devices).Coherent where
  fat := fun warm => absurd rfl warm
  dir := fun warm => absurd rfl warm
  read := fun _ _ _ isKey => absurd isKey.symm (some_ne_none _)
  low := Nat.zero_lt_succ _

theorem Fs.Coherent.transparent (coherent : fs.Coherent) : fs.Transparent := by
  refine ⟨fun lba real => ?_, fun lba real => ?_, fun cpu key target => (coherent.fatReadCluster cpu key target).1⟩
  · obtain ⟨cache, answered, -⟩ := answer_fatSector coherent.fat real
    rw [answered]
  · obtain ⟨cache, answered, -⟩ := answer_dirSector coherent.dir real
    rw [answered]

/-- Over every run of mounts and accesses that are careful. -/
theorem caches_transparent {devices : Nat → Disk} (run : Run CacheStep Careful (Fs.boot devices) fs) :
    fs.Transparent := by
  have coherent : fs.Coherent :=
    run.invariant (Fs.boot_coherent devices) fun _ _ _ coherent careful step => step.coherent coherent careful
  exact coherent.transparent

/-- The boot sector of a volume with 4085 clusters of one sector, a table of 16 sectors and
16 entries in the root directory. -/
def smallBoot : Bytes := fun at_ =>
  ([(0x0C, 2), (0x0D, 1), (0x0E, 1), (0x10, 1), (0x11, 16), (0x13, 7), (0x14, 16), (0x16, 16), (510, 0x55),
    (511, 0xAA)] : List (Nat × Byte)).lookup at_ |>.getD 0#8

/-- Such a volume with the given byte at the start of the root directory. -/
def smallDisk (first : Byte) : Disk where
  sectorCount := 4103
  readOnly := false
  bytes := smallBoot.store (17 * 512) [first]

/-- Two devices that differ in the first entry of the root directory. -/
def twoDisks : Nat → Disk := fun dev => smallDisk (if dev = 0 then 0x41#8 else 0x42#8)

/-- The root directory is read, and the same device is mounted once more. -/
def readRoot : List CacheCall := [.mount 0, .access (.dirSector 17), .mount 0]

theorem caches_transparent_readRoot : Fs.Transparent (play Fs.call readRoot (Fs.boot twoDisks)) := by
  refine caches_transparent (Run.start.play CacheStep.call ?_)
  refine ⟨⟨.inl rfl, .inl rfl, .inr fun _ _ current => current.1 rfl⟩, show 17 ≠ noLba by decide,
    ⟨.inl rfl, .inr (.inr ⟨rfl, rfl⟩), .inr fun _ _ current => current.1 rfl⟩, trivial⟩

/-- Another device with the same layout is mounted. -/
def readOther : List CacheCall := [.mount 0, .access (.dirSector 17), .mount 1]

theorem mount_keeps_old_sector :
    Run CacheStep (fun _ _ => True) (Fs.boot twoDisks) (play Fs.call readOther (Fs.boot twoDisks)) ∧
      ¬ Fs.Transparent (play Fs.call readOther (Fs.boot twoDisks)) := by
  refine ⟨Run.start.play CacheStep.call ⟨trivial, trivial, trivial, trivial⟩, fun transparent => ?_⟩
  have cached : ((Fs.answer (.dirSector 17) (play Fs.call readOther (Fs.boot twoDisks))).1.map fun sec => sec 0) =
      some 0x41#8 := by decide +kernel
  have onDevice : (((play Fs.call readOther (Fs.boot twoDisks)).disk.blockRead 17 1).map fun sec => sec 0) =
      some 0x42#8 := by decide +kernel
  rw [transparent.2.1 17 (show 17 ≠ noLba by decide), onDevice] at cached
  exact absurd cached (by decide)

end NyonOS.Fat
