import NyonOS.Data.Run
import NyonOS.Fat.Volume

namespace NyonOS.Fat

open Data Function

/-! The caches in front of the device. -/

/-- `MAX_CPUS` processors. -/
abbrev Cpu := Fin 8

def noLba : Nat := 0xFFFFFFFF

/-- `fat_sector_cache` or `dir_sector_cache`. -/
structure SectorCache where
  lba : Nat
  base : Nat
  buf : Bytes

/-- What the cluster cache compares of a node: its address and four of its fields. -/
structure NodeKey where
  node : Nat
  dirCluster : Nat
  dirIndex : Nat
  firstCluster : Nat
  size : Nat
deriving DecidableEq

/-- `struct fat_read_cache`; there is no key while the pointer is `NULL`. -/
structure ReadCache where
  key : Option NodeKey
  clusterIndex : Nat
  cluster : Nat
  generation : Nat

/-- The file system with all block devices; `dev` is the one that is mounted. -/
structure Fs where
  devices : Nat → Disk
  dev : Nat
  vol : Volume
  fatCache : SectorCache
  dirCache : SectorCache
  readCache : Cpu → Fin 8 → ReadCache
  generation : Nat

namespace Fs

def disk (fs : Fs) : Disk := fs.devices fs.dev

/-- The static data before the first mount. -/
def boot (devices : Nat → Disk) : Fs where
  devices
  dev := 0
  vol := ⟨0, 0, 0, 0, 0, 0, 0, 0, 0, 0, 0, false⟩
  fatCache := ⟨noLba, noLba, fun _ => 0⟩
  dirCache := ⟨noLba, noLba, fun _ => 0⟩
  readCache := fun _ _ => ⟨none, 0, 0, 0⟩
  generation := 0

/-- `block_write` on the mounted device, after `sector_write` has dropped both sectors. -/
def sectorWrite (fs : Fs) (lba : Nat) (buf : Bytes) : Bool × Fs :=
  let written := fs.disk.blockWrite lba buf
  (written.1, { fs with
    devices := update fs.devices fs.dev written.2
    dirCache := { fs.dirCache with lba := noLba }
    fatCache := { fs.fatCache with lba := noLba } })

/-- The requests answered through the caches. -/
def answer : Program.Handler Access Access.Answer Fs
  | .fatSector lba, fs =>
    if lba ≠ fs.fatCache.lba ∨ fs.vol.fatStart ≠ fs.fatCache.base then
      match fs.disk.blockRead lba 1 with
      | none => (none, fs)
      | some sec => (some sec, { fs with fatCache := ⟨lba, fs.vol.fatStart, sec⟩ })
    else (some fs.fatCache.buf, fs)
  | .dirSector lba, fs =>
    if lba ≠ fs.dirCache.lba ∨ fs.vol.dataStart ≠ fs.dirCache.base then
      match fs.disk.blockRead lba 1 with
      | none => (none, fs)
      | some sec => (some sec, { fs with dirCache := ⟨lba, fs.vol.dataStart, sec⟩ })
    else (some fs.dirCache.buf, fs)
  | .blockRead _ lba count, fs => (fs.disk.blockRead lba count, fs)
  | .sectorWrite _ lba buf, fs => fs.sectorWrite lba buf
  | .fatWrite lba buf, fs =>
    let written := fs.sectorWrite lba buf
    (written.1, if written.1 then { written.2 with generation := u32 (fs.generation + 1) } else written.2)

def mount (fs : Fs) (dev : Nat) : Bool × Fs :=
  let mounted := fsMountInner (fs.devices dev) fs.vol
  (mounted.1, { fs with dev, vol := mounted.2 })

def readSlot (key : NodeKey) : Fin 8 :=
  ⟨u32 (key.dirIndex * 2654435761 + key.dirCluster + key.firstCluster) % 8, Nat.mod_lt _ (by decide)⟩

def setReadCache (fs : Fs) (cpu : Cpu) (slot : Fin 8) (entry : ReadCache) : Fs :=
  { fs with readCache := update fs.readCache cpu (update (fs.readCache cpu) slot entry) }

def fatReadCluster (fs : Fs) (cpu : Cpu) (key : NodeKey) (target : Nat) : Option Nat × Fs :=
  let slot := readSlot key
  let c := fs.readCache cpu slot
  if c.generation = fs.generation ∧ c.key = some key ∧ c.clusterIndex ≤ target then
    match (hop fs.vol (target - c.clusterIndex) c.cluster).run answer fs with
    | (none, fs) => (none, fs)
    | (some cluster, fs) =>
      (some cluster, fs.setReadCache cpu slot { c with clusterIndex := target, cluster })
  else
    match (clusterNth fs.vol key.firstCluster target).run answer fs with
    | (none, fs) => (none, fs)
    | (some cluster, fs) =>
      (some cluster, fs.setReadCache cpu slot ⟨some key, target, cluster, fs.generation⟩)

end Fs

end NyonOS.Fat
