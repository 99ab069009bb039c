import Mathlib

namespace NyonOS.Block

open BitVec (lt_def le_def)

/-! `block.c`: block devices and the partitions that are put on top of each other. -/

abbrev Lba := BitVec 64
abbrev Count := BitVec 32
abbrev Bytes := List UInt8

/-- A `block_device_t`. Of its functions only whether they are there. -/
structure Info where
  sectorSize : BitVec 32
  sectorShift : BitVec 32
  sectorCount : BitVec 64
  readOnly : Bool
  read : Bool
  write : Bool
  flush : Bool
deriving DecidableEq

/-- The functions of a device that is no partition, on a state of its own. -/
structure Driver (δ : Type) where
  read : Lba → Count → δ → Option Bytes × δ
  write : Lba → Count → Bytes → δ → Bool × δ
  flush : δ → Bool × δ

/-- A partition has its own `block_device_t`, whose functions are those of partitions. -/
inductive Device where
  | disk (info : Info)
  | partition (info : Info) (start : BitVec 64) (parent : Device)
deriving DecidableEq

def Device.info : Device → Info
  | .disk info => info
  | .partition info _ _ => info

inductive Access where
  | read (lba : Lba) (count : Count)
  | write (lba : Lba) (count : Count)
  | flush
deriving DecidableEq

/-- The device at the bottom, and which of its functions have been called. -/
structure World (δ : Type) where
  device : δ
  log : List Access

def blockValid (info : Info) (lba : Lba) (count : Count) : Bool :=
  if !info.read || info.sectorSize == 0 then false
  else if count == 0 then false
  else if info.sectorCount < lba then false
  else if info.sectorCount - lba < count.zeroExtend 64 then false
  else true

variable {δ : Type}

/-- `block_read`, with `part_read` as the function of a partition. -/
def blockRead (driver : Driver δ) : Device → Lba → Count → World δ → Option Bytes × World δ
  | .disk info, lba, count, world =>
    if !blockValid info lba count then (none, world)
    else
      let result := driver.read lba count world.device
      (result.1, ⟨result.2, world.log ++ [.read lba count]⟩)
  | .partition info start parent, lba, count, world =>
    if !blockValid info lba count then (none, world)
    else blockRead driver parent (start + lba) count world

def blockWrite (driver : Driver δ) : Device → Lba → Count → Bytes → World δ → Bool × World δ
  | .disk info, lba, count, buf, world =>
    if info.readOnly then (false, world)
    else if !info.write then (false, world)
    else if !blockValid info lba count then (false, world)
    else
      let result := driver.write lba count buf world.device
      (result.1, ⟨result.2, world.log ++ [.write lba count]⟩)
  | .partition info start parent, lba, count, buf, world =>
    if info.readOnly then (false, world)
    else if !info.write then (false, world)
    else if !blockValid info lba count then (false, world)
    else blockWrite driver parent (start + lba) count buf world

def blockFlush (driver : Driver δ) : Device → World δ → Bool × World δ
  | .disk info, world =>
    if info.readOnly || !info.flush then (true, world)
    else
      let result := driver.flush world.device
      (result.1, ⟨result.2, world.log ++ [.flush]⟩)
  | .partition info _ parent, world => if info.readOnly || !info.flush then (true, world) else blockFlush driver parent world

def partitionInit (parent : Device) (start count : BitVec 64) : Option Device :=
  if !parent.info.read then none
  else if parent.info.sectorCount < start then none
  else if count = 0 ∨ parent.info.sectorCount - start < count then none
  else some (.partition { parent.info with sectorCount := count, read := true } start parent)

structure MbrEntry where
  bootable : Bool
  type : UInt8
  startLba : BitVec 64
  sectorCount : BitVec 64
deriving DecidableEq

/-- Four bytes of the sector, the lowest first. -/
def mbrNumber (sec : Nat → UInt8) (at_ : Nat) : BitVec 32 :=
  (sec at_).toBitVec.zeroExtend 32 ||| (sec (at_ + 1)).toBitVec.zeroExtend 32 <<< 8 |||
    (sec (at_ + 2)).toBitVec.zeroExtend 32 <<< 16 ||| (sec (at_ + 3)).toBitVec.zeroExtend 32 <<< 24

/-- One entry of the table, if it is taken over. -/
def mbrEntry (sectorCount : BitVec 64) (sec : Nat → UInt8) (i : Nat) : Option MbrEntry :=
  let e := 446 + i * 16
  let type := sec (e + 4)
  let start := (mbrNumber sec (e + 8)).zeroExtend 64
  let count := (mbrNumber sec (e + 12)).zeroExtend 64
  if type = 0x00 ∨ type = 0xEE then none
  else if count = 0 then none
  else if sectorCount ≤ start then none
  else if sectorCount - start < count then none
  else some ⟨sec e == 0x80, type, start, count⟩

def mbrParse (driver : Driver δ) (dev : Device) (max : Nat) (world : World δ) : List MbrEntry × World δ :=
  if max = 0 then ([], world)
  else if dev.info.sectorSize < 512 then ([], world)
  else
    match blockRead driver dev 0 1 world with
    | (none, world) => ([], world)
    | (some bytes, world) =>
      let sec := fun i => bytes.getD i 0
      if sec 510 ≠ 0x55 ∨ sec 511 ≠ 0xAA then ([], world)
      else (((List.range 4).filterMap (mbrEntry dev.info.sectorCount sec)).take max, world)

/-! What a tower of partitions does with a request. -/

/-- Partitions on partitions, down to a disk. -/
inductive Tower : Device → Prop
  | disk (info : Info) : Tower (.disk info)
  | partition {parent dev : Device} {start count : BitVec 64} (below : Tower parent)
      (made : partitionInit parent start count = some dev) : Tower dev

namespace Device

/-- Where the device starts on the disk. -/
def origin : Device → Nat
  | disk _ => 0
  | partition _ start parent => parent.origin + start.toNat

/-- A sector of the disk lies in the partition and in all that enclose it. -/
def Encloses : Device → Nat → Prop
  | disk info, sector => sector < info.sectorCount.toNat
  | partition info start parent, sector => (parent.origin + start.toNat ≤ sector ∧
      sector < parent.origin + start.toNat + info.sectorCount.toNat) ∧ parent.Encloses sector

/-- No addition on the way down wraps around. -/
def Exact : Device → Lba → Prop
  | disk _, _ => True
  | partition _ start parent, lba => start.toNat + lba.toNat < 2 ^ 64 ∧ parent.Exact (start + lba)

/-- The device or one that it lies on can only be read. -/
def Protected : Device → Prop
  | disk info => info.readOnly = true
  | partition info _ parent => info.readOnly = true ∨ parent.Protected

/-- The device without the flags for what may be written. -/
def bare : Device → Device
  | disk info => disk { info with readOnly := false }
  | partition info start parent => partition { info with readOnly := false } start parent.bare

def Nested : Device → Prop
  | disk _ => True
  | partition info start parent => start.toNat + info.sectorCount.toNat ≤ parent.info.sectorCount.toNat ∧ parent.Nested

/-- A request gets down to the disk, to sectors that the device has. -/
structure Reaches (dev : Device) (lba : Lba) (count : Count) (place : Lba) : Prop where
  exact : dev.Exact lba
  translated : place.toNat = dev.origin + lba.toNat
  encloses : ∀ sector, place.toNat ≤ sector → sector < place.toNat + count.toNat → dev.Encloses sector

end Device

variable {dev marked parent : Device} {info : Info} {lba : Lba} {count : Count} {start : BitVec 64} {driver : Driver δ} {world : World δ}

theorem blockValid_iff : blockValid info lba count = true ↔
    (info.read = true ∧ info.sectorSize ≠ 0) ∧ 0 < count.toNat ∧ lba.toNat + count.toNat ≤ info.sectorCount.toNat := by
  have wide : (count.zeroExtend 64).toNat = count.toNat := by
    rw [BitVec.toNat_setWidth]
    exact Nat.mod_eq_of_lt (by omega)
  have nonzero : count = 0 ↔ count.toNat = 0 := ⟨fun same => by simp [same], fun zero => BitVec.eq_of_toNat_eq zero⟩
  unfold blockValid
  split
  · rename_i missing
    simp only [Bool.or_eq_true, Bool.not_eq_true', beq_iff_eq] at missing
    simp only [Bool.false_eq_true, false_iff]
    rintro ⟨⟨reads, sized⟩, -⟩
    rcases missing with none | zero
    · rw [none] at reads
      cases reads
    · exact sized zero
  · rename_i there
    simp only [Bool.or_eq_true, Bool.not_eq_true', beq_iff_eq, not_or, Bool.not_eq_false] at there
    simp only [there, ne_eq, not_false_eq_true, and_self, true_and, beq_iff_eq, lt_def, wide]
    split
    · rename_i zero
      have none := nonzero.mp zero
      simp only [Bool.false_eq_true, false_iff]
      omega
    · rename_i some
      have positive := mt nonzero.mpr some
      split
      · simp only [Bool.false_eq_true, false_iff]
        omega
      · rename_i inside
        rw [BitVec.toNat_sub_of_le (le_def.mpr (Nat.not_lt.mp inside))]
        split
        · simp only [Bool.false_eq_true, false_iff]
          omega
        · simp only [true_iff]
          omega

/-! Towers are nested. -/

theorem partitionInit_some {total : BitVec 64} (made : partitionInit parent start total = some dev) :
    dev = .partition { parent.info with sectorCount := total, read := true } start parent ∧
      start.toNat + total.toNat ≤ parent.info.sectorCount.toNat := by
  unfold partitionInit at made
  split at made
  · cases made
  · split at made
    · cases made
    · rename_i inside
      split at made
      · cases made
      · rename_i fits
        rw [lt_def, Nat.not_lt] at inside
        rw [not_or, lt_def, BitVec.toNat_sub_of_le (le_def.mpr inside)] at fits
        cases made
        exact ⟨rfl, by omega⟩

theorem Tower.nested (tower : Tower dev) : dev.Nested := by
  induction tower with
  | disk info => trivial
  | partition below made ih =>
    obtain ⟨rfl, inside⟩ := partitionInit_some made
    exact ⟨inside, ih⟩

namespace Device

theorem bare_info (dev : Device) : dev.bare.info = { dev.info with readOnly := false } := by
  cases dev <;> rfl

theorem bare_nested (dev : Device) : dev.bare.Nested ↔ dev.Nested := by
  induction dev with
  | disk info => rfl
  | partition info start parent ih =>
    unfold bare Nested
    rw [ih, bare_info]

end Device

/-! Requests. -/

theorem Device.Reaches.through {place : Lba} (inside : start.toNat + info.sectorCount.toNat ≤ parent.info.sectorCount.toNat)
    (valid : blockValid info lba count = true) (reaches : parent.Reaches (start + lba) count place) :
    (Device.partition info start parent).Reaches lba count place := by
  obtain ⟨-, positive, fits⟩ := blockValid_iff.mp valid
  have top := parent.info.sectorCount.isLt
  have sum : (start + lba).toNat = start.toNat + lba.toNat := by
    rw [BitVec.toNat_add]
    exact Nat.mod_eq_of_lt (by omega)
  have place := reaches.translated
  rw [sum] at place
  refine ⟨⟨by omega, reaches.exact⟩, ?_, fun sector lower upper => ⟨?_, reaches.encloses sector lower upper⟩⟩
  · rw [Device.origin]
    omega
  · omega

theorem Device.Reaches.disk (valid : blockValid info lba count = true) : (Device.disk info).Reaches lba count lba := by
  obtain ⟨-, -, fits⟩ := blockValid_iff.mp valid
  refine ⟨trivial, by rw [Device.origin, Nat.zero_add], fun sector _ upper => ?_⟩
  rw [Device.Encloses]
  omega

theorem blockRead_cases (nested : dev.Nested) : blockRead driver dev lba count world = (none, world) ∨
    ∃ place, dev.Reaches lba count place ∧ blockRead driver dev lba count world =
      ((driver.read place count world.device).1, ⟨(driver.read place count world.device).2, world.log ++ [.read place count]⟩) := by
  induction dev generalizing lba with
  | disk info =>
    rw [blockRead]
    cases valid : blockValid info lba count with
    | false => exact .inl rfl
    | true => exact .inr ⟨lba, .disk valid, rfl⟩
  | partition info start parent ih =>
    rw [blockRead]
    cases valid : blockValid info lba count with
    | false => exact .inl rfl
    | true =>
      rcases @ih (start + lba) nested.2 with refused | ⟨place, reaches, done⟩
      · exact .inl refused
      · exact .inr ⟨place, reaches.through nested.1 valid, done⟩

theorem blockWrite_cases (nested : dev.Nested) (buf : Bytes) : blockWrite driver dev lba count buf world = (false, world) ∨
    ¬dev.Protected ∧ ∃ place, dev.Reaches lba count place ∧ blockWrite driver dev lba count buf world =
      ((driver.write place count buf world.device).1, ⟨(driver.write place count buf world.device).2, world.log ++ [.write place count]⟩) := by
  induction dev generalizing lba with
  | disk info =>
    rw [blockWrite]
    cases readOnly : info.readOnly with
    | true => exact .inl rfl
    | false =>
      cases write : info.write with
      | false => exact .inl rfl
      | true =>
        cases valid : blockValid info lba count with
        | false => exact .inl rfl
        | true => exact .inr ⟨by simp [Device.Protected, readOnly], lba, .disk valid, rfl⟩
  | partition info start parent ih =>
    rw [blockWrite]
    cases readOnly : info.readOnly with
    | true => exact .inl rfl
    | false =>
      cases write : info.write with
      | false => exact .inl rfl
      | true =>
        cases valid : blockValid info lba count with
        | false => exact .inl rfl
        | true =>
          rcases @ih (start + lba) nested.2 with refused | ⟨free, place, reaches, done⟩
          · exact .inl refused
          · exact .inr ⟨by simp [Device.Protected, readOnly, free], place, reaches.through nested.1 valid, done⟩

theorem outside_refused (outside : dev.info.sectorCount.toNat < lba.toNat + count.toNat) (buf : Bytes) :
    blockRead driver dev lba count world = (none, world) ∧ blockWrite driver dev lba count buf world = (false, world) := by
  have invalid : blockValid dev.info lba count = false := by
    rw [← Bool.not_eq_true, blockValid_iff]
    rintro ⟨-, -, fits⟩
    omega
  cases dev with
  | disk info | partition info start parent =>
    rw [blockRead, blockWrite, show blockValid info lba count = false from invalid]
    exact ⟨rfl, by simp⟩

theorem blockRead_some {bytes : Bytes} {after : World δ} (done : blockRead driver dev lba count world = (some bytes, after)) :
    dev.info.read = true := by
  cases valid : blockValid dev.info lba count with
  | true => exact (blockValid_iff.mp valid).1.1
  | false =>
    cases dev with
    | disk info | partition info start parent =>
      rw [blockRead, show blockValid info lba count = false from valid] at done
      cases done

theorem mbrParse_partition {max : Nat} {entry : MbrEntry}
    (listed : entry ∈ (mbrParse driver dev max world).1) : ∃ part, partitionInit dev entry.startLba entry.sectorCount = some part := by
  unfold mbrParse at listed
  split at listed
  · cases listed
  · split at listed
    · cases listed
    · split at listed
      · cases listed
      · rename_i bytes after sector
        dsimp only at listed
        split at listed
        · cases listed
        · obtain ⟨i, -, found⟩ := List.mem_filterMap.mp (List.mem_of_mem_take listed)
          unfold mbrEntry at found
          dsimp only at found
          split at found
          · cases found
          · split at found
            · cases found
            · rename_i some
              split at found
              · cases found
              · rename_i starts
                split at found
                · cases found
                · rename_i fits
                  cases found
                  unfold partitionInit
                  rw [if_neg (by simp [blockRead_some sector]), if_neg, if_neg (by simp only [some, fits, or_self, not_false_eq_true])]
                  · exact ⟨_, rfl⟩
                  · rw [lt_def, Nat.not_lt]
                    rw [le_def, Nat.not_le] at starts
                    exact starts.le

/-- Every tower of partitions on every device, also if the flags change later. -/
theorem partitions_contained (tower : Tower dev) (same : marked.bare = dev.bare) (driver : Driver δ) (lba : Lba) (count : Count)
    (buf : Bytes) (world : World δ) :
    (blockRead driver marked lba count world = (none, world) ∨ ∃ place, marked.Reaches lba count place ∧
      blockRead driver marked lba count world =
        ((driver.read place count world.device).1, ⟨(driver.read place count world.device).2, world.log ++ [.read place count]⟩)) ∧
    (blockWrite driver marked lba count buf world = (false, world) ∨ ∃ place, marked.Reaches lba count place ∧
      blockWrite driver marked lba count buf world =
        ((driver.write place count buf world.device).1, ⟨(driver.write place count buf world.device).2, world.log ++ [.write place count]⟩)) ∧
    (marked.Protected → blockWrite driver marked lba count buf world = (false, world)) ∧
    (marked.info.sectorCount.toNat < lba.toNat + count.toNat →
      blockRead driver marked lba count world = (none, world) ∧ blockWrite driver marked lba count buf world = (false, world)) ∧
    ∀ max, ∀ entry ∈ (mbrParse driver dev max world).1,
      ∃ part, partitionInit dev entry.startLba entry.sectorCount = some part ∧ Tower part := by
  have nested : marked.Nested := by
    rw [← Device.bare_nested, same, Device.bare_nested]
    exact tower.nested
  refine ⟨blockRead_cases nested, ?_, fun protected_ => ?_, fun outside => outside_refused outside buf, fun max entry listed => ?_⟩
  · rcases blockWrite_cases nested buf with refused | ⟨-, written⟩
    · exact .inl refused
    · exact .inr written
  · rcases blockWrite_cases nested buf with refused | ⟨free, -⟩
    · exact refused
    · exact absurd protected_ free
  · obtain ⟨part, made⟩ := mbrParse_partition listed
    exact ⟨part, made, .partition tower made⟩

/-- A disk of 1000 sectors with a partition, and one in that. -/
def smallDisk : Device := .disk ⟨512, 9, 1000, false, true, true, true⟩

def outer : Device := .partition ⟨512, 9, 500, false, true, true, true⟩ 100 smallDisk

def inner : Device := .partition ⟨512, 9, 200, false, true, true, true⟩ 50 outer

/-- The theorem at a write to the inner partition after the outer one was made read-only. -/
theorem partitions_contained_inner :
    let marked := Device.partition ⟨512, 9, 200, false, true, true, true⟩ 50
      (.partition ⟨512, 9, 500, true, true, true, true⟩ 100 smallDisk)
    marked.Protected ∧ blockWrite (δ := Unit) ⟨fun _ _ _ => (none, ()), fun _ _ _ _ => (true, ()), fun _ => (true, ())⟩ marked 7 2 [] ⟨(), []⟩ =
      (false, ⟨(), []⟩) := by
  have tower : Tower inner := .partition (.partition (.disk _) (show partitionInit smallDisk 100 500 = some outer by decide))
    (show partitionInit outer 50 200 = some inner by decide)
  have guarded : (Device.partition ⟨512, 9, 200, false, true, true, true⟩ 50
      (.partition ⟨512, 9, 500, true, true, true, true⟩ 100 smallDisk)).Protected := .inr (.inl rfl)
  exact ⟨guarded, (partitions_contained tower (by decide) _ 7 2 [] _).2.2.1 guarded⟩

end NyonOS.Block
