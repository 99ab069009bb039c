import NyonOS.Data.Bytes
import NyonOS.Data.Program

namespace NyonOS.Fat

open Data

/-! The block device and the file allocation table. -/

def fsSectorSize : Nat := 512
def fsDirentSize : Nat := 32
def fsFirstCluster : Nat := 2
def fsEocMin : Nat := 0xFFF8
def fsBadCluster : Nat := 0xFFF7

/-- A `uint32_t`. -/
def u32 (value : Nat) : Nat := value % 2 ^ 32

/-- A block device with sectors of 512 bytes that answers every request it accepts. -/
structure Disk where
  sectorCount : Nat
  readOnly : Bool
  bytes : Bytes

namespace Disk

variable (disk : Disk)

def blockValid (lba count : Nat) : Bool :=
  count ≠ 0 && lba ≤ disk.sectorCount && count ≤ disk.sectorCount - lba

/-- The buffer that `block_read` fills; there is nothing behind its `512 * count` bytes. -/
def blockRead (lba count : Nat) : Option Bytes :=
  if disk.blockValid lba count then
    some fun index => if index < fsSectorSize * count then disk.bytes (fsSectorSize * lba + index) else 0#8
  else none

/-- `block_write` of one sector. -/
def blockWrite (lba : Nat) (buf : Bytes) : Bool × Disk :=
  if disk.readOnly then (false, disk)
  else if disk.blockValid lba 1 then
    (true, { disk with
      bytes := fun at_ =>
        if fsSectorSize * lba ≤ at_ ∧ at_ < fsSectorSize * lba + fsSectorSize then buf (at_ - fsSectorSize * lba)
        else disk.bytes at_ })
  else (false, disk)

end Disk

/-- What a sector is read or written as. -/
inductive Use
  | fat
  | directory
  | data
deriving DecidableEq, Repr

/-- The requests that the file system makes below itself. -/
inductive Access
  /-- `fat_sector` -/
  | fatSector (lba : Nat)
  /-- `dir_sector` -/
  | dirSector (lba : Nat)
  /-- `block_read` -/
  | blockRead (use : Use) (lba count : Nat)
  /-- `sector_write` -/
  | sectorWrite (use : Use) (lba : Nat) (buf : Bytes)
  /-- `sector_write` in `fat_set`, with the `fat_cache_generation++` after it -/
  | fatWrite (lba : Nat) (buf : Bytes)

abbrev Access.Answer : Access → Type
  | .fatSector _ | .dirSector _ | .blockRead .. => Option Bytes
  | .sectorWrite .. | .fatWrite .. => Bool

/-- Code of the file system. -/
abbrev Code := Program Access Access.Answer

/-- The requests answered by the device alone, without caches. -/
def Disk.answer : Program.Handler Access Access.Answer Disk
  | .fatSector lba, disk => (disk.blockRead lba 1, disk)
  | .dirSector lba, disk => (disk.blockRead lba 1, disk)
  | .blockRead _ lba count, disk => (disk.blockRead lba count, disk)
  | .sectorWrite _ lba buf, disk => disk.blockWrite lba buf
  | .fatWrite lba buf, disk => disk.blockWrite lba buf

def fatSector (lba : Nat) : Code (Option Bytes) := Program.perform (Access.fatSector lba)
def dirSector (lba : Nat) : Code (Option Bytes) := Program.perform (Access.dirSector lba)
def blockRead (use : Use) (lba count : Nat) : Code (Option Bytes) := Program.perform (Access.blockRead use lba count)
def sectorWrite (use : Use) (lba : Nat) (buf : Bytes) : Code Bool := Program.perform (Access.sectorWrite use lba buf)
def fatWrite (lba : Nat) (buf : Bytes) : Code Bool := Program.perform (Access.fatWrite lba buf)

/-- `fs_volume_t` without its labels. The number of bytes in a sector is 512 on every
volume that is mounted. -/
structure Volume where
  sectorsPerCluster : Nat
  reservedSectors : Nat
  fatCount : Nat
  rootEntryCount : Nat
  totalSectors : Nat
  sectorsPerFat : Nat
  fatStart : Nat
  rootStart : Nat
  rootSectors : Nat
  dataStart : Nat
  clusterCount : Nat
  mounted : Bool
deriving DecidableEq, Repr

def isPow2 (value : Nat) : Bool := value ≠ 0 && value &&& (value - 1) = 0

/-- `fs_mount_inner`: the fields as far as it gets, and what it returns. -/
def fsMountInner (disk : Disk) (vol : Volume) : Bool × Volume :=
  let vol := { vol with mounted := false }
  match disk.blockRead 0 1 with
  | none => (false, vol)
  | some sec =>
    if sec 510 ≠ 0x55#8 ∨ sec 511 ≠ 0xAA#8 then (false, vol)
    else
      let total16 := sec.rd16 0x13
      let spf16 := sec.rd16 0x16
      let vol := { vol with
        sectorsPerCluster := (sec 0x0D).toNat
        reservedSectors := sec.rd16 0x0E
        fatCount := (sec 0x10).toNat
        rootEntryCount := sec.rd16 0x11
        totalSectors := if total16 ≠ 0 then total16 else sec.rd32 0x20
        sectorsPerFat := if spf16 ≠ 0 then spf16 else sec.rd32 0x24 }
      if sec.rd16 0x0B ≠ fsSectorSize ∨ !isPow2 vol.sectorsPerCluster ∨ 128 < vol.sectorsPerCluster ∨
          vol.reservedSectors = 0 ∨ vol.fatCount = 0 ∨ vol.sectorsPerFat = 0 ∨ vol.totalSectors = 0 ∨
          vol.rootEntryCount = 0 then (false, vol)
      else
        let rootStart := u32 (vol.reservedSectors + vol.fatCount * vol.sectorsPerFat)
        let rootSectors := (vol.rootEntryCount * fsDirentSize + fsSectorSize - 1) / fsSectorSize
        let vol := { vol with
          fatStart := vol.reservedSectors
          rootStart
          rootSectors
          dataStart := u32 (rootStart + rootSectors) }
        if vol.totalSectors ≤ vol.dataStart then (false, vol)
        else
          let vol := { vol with clusterCount := (vol.totalSectors - vol.dataStart) / vol.sectorsPerCluster }
          if vol.clusterCount = 0 ∨ fsBadCluster ≤ vol.clusterCount ∨ vol.clusterCount < 4085 then (false, vol)
          else (true, { vol with mounted := true })

namespace Volume

variable (vol : Volume)

def clusterSize : Nat := vol.sectorsPerCluster * fsSectorSize

variable (cluster : Nat)

def clusterLba : Nat :=
  u32 (vol.dataStart + u32 (cluster + 2 ^ 32 - fsFirstCluster) * vol.sectorsPerCluster)

def clusterOk : Bool :=
  fsFirstCluster ≤ cluster && cluster < fsBadCluster && vol.mounted && cluster < fsFirstCluster + vol.clusterCount

/-- The sector of the table that has the entry of a cluster. -/
def fatLba : Nat := vol.fatStart + cluster * 2 / fsSectorSize

def fatOffset : Nat := cluster * 2 % fsSectorSize

end Volume

variable (vol : Volume)

def fatEntry (cluster : Nat) : Code (Option Nat) := do
  if !vol.clusterOk cluster then return none
  let some p ← fatSector (vol.fatLba cluster) | return none
  return some (p.rd16 (Volume.fatOffset cluster))

def fatNext (cluster : Nat) : Code (Option Nat) := do
  let some v ← fatEntry vol cluster | return none
  if fsEocMin ≤ v then return none
  if v < fsFirstCluster then return none
  return some v

def fatSet (cluster value : Nat) : Code Bool := do
  if cluster < fsFirstCluster ∨ fsBadCluster ≤ cluster then return false
  let some buf ← blockRead .fat (vol.fatLba cluster) 1 | return false
  fatWrite (vol.fatLba cluster) (buf.store (Volume.fatOffset cluster) (Bytes.le16 value))

/-- What the inner loop of `fat_alloc` says about one sector. -/
inductive Scan
  | full
  | past
  | found (cluster : Nat)

/-- The inner loop of `fat_alloc`, `count` entries before its end. -/
def scanSector (limit first : Nat) (buf : Bytes) : (count : Nat) → Scan
  | 0 => .full
  | count + 1 =>
    let index := fsSectorSize / 2 - (count + 1)
    let cluster := first + index
    if cluster < fsFirstCluster then scanSector limit first buf count
    else if limit ≤ cluster then .past
    else if buf.rd16 (index * 2) = 0 then .found cluster
    else scanSector limit first buf count

/-- The outer loop of `fat_alloc`, `count` sectors before its end. -/
def scanTable (count : Nat) : Code (Option Nat) :=
  match count with
  | 0 => return none
  | count + 1 => do
    let s := vol.sectorsPerFat - (count + 1)
    let some buf ← blockRead .fat (vol.fatStart + s) 1 | return none
    match scanSector (vol.clusterCount + fsFirstCluster) (s * (fsSectorSize / 2)) buf (fsSectorSize / 2) with
    | .found cluster => return some cluster
    | .past => return none
    | .full => scanTable count

def fatAlloc : Code (Option Nat) := scanTable vol vol.sectorsPerFat

/-- The loop of `fat_free_chain`. Every round clears an entry, and an entry that is clear
ends the loop, so it makes at most one round more than there are clusters. -/
def freeChain : (fuel : Nat) → (cluster : Nat) → Code Bool
  | 0, _ => return false
  | fuel + 1, cluster => do
    if cluster < fsFirstCluster ∨ fsBadCluster ≤ cluster then return true
    let some next ← fatEntry vol cluster | return false
    if !(← fatSet vol cluster 0) then return false
    if fsEocMin ≤ next then return true
    freeChain fuel next

def fatFreeChain (cluster : Nat) : Code Bool := freeChain vol (vol.clusterCount + 2) cluster

/-- The loop of `cluster_nth`. -/
def hop : (skip : Nat) → (cluster : Nat) → Code (Option Nat)
  | 0, cluster => return some cluster
  | skip + 1, cluster => do
    let some nx ← fatNext vol cluster | return none
    hop skip nx

def clusterNth (cluster skip : Nat) : Code (Option Nat) := do
  if !vol.clusterOk cluster then return none
  hop vol skip cluster

def fatExtend (cluster : Nat) : Code (Option Nat) := do
  let some next ← fatEntry vol cluster | return none
  if next < fsEocMin then return some next
  let some nc ← fatAlloc vol | return none
  if !(← fatSet vol nc fsEocMin) then return none
  if !(← fatSet vol cluster nc) then return none
  return some nc

end NyonOS.Fat
