import NyonOS.Fat.Table

namespace NyonOS.Fat

open Data

variable {vol : Volume} {disk : Disk} {cluster : Nat}

/-! The areas of a volume. -/

/-- What `fs_mount_inner` makes sure of. -/
structure Volume.Accepted (vol : Volume) : Prop where
  mounted : vol.mounted = true
  perCluster : 0 < vol.sectorsPerCluster ∧ vol.sectorsPerCluster ≤ 128
  reserved : 0 < vol.fatStart ∧ vol.fatStart < 65536
  tables : 0 < vol.fatCount ∧ 0 < vol.sectorsPerFat
  root : 0 < vol.rootEntryCount ∧ vol.rootEntryCount < 65536
  rootSectors : vol.rootSectors = (vol.rootEntryCount * fsDirentSize + fsSectorSize - 1) / fsSectorSize
  rootStart : vol.rootStart = u32 (vol.fatStart + vol.fatCount * vol.sectorsPerFat)
  dataStart : vol.dataStart = u32 (vol.rootStart + vol.rootSectors)
  fits : vol.dataStart + vol.clusterCount * vol.sectorsPerCluster ≤ vol.totalSectors
  total : vol.totalSectors < 2 ^ 32
  count : 4085 ≤ vol.clusterCount ∧ vol.clusterCount < fsBadCluster

theorem fsMountInner_accepted {old : Volume} (mounts : fsMountInner disk old = (true, vol)) : vol.Accepted := by
  unfold fsMountInner at mounts
  dsimp only at mounts
  split at mounts
  · cases mounts
  · rename_i sec _
    have reserved := Bytes.rd16_lt sec 0x0E
    have root := Bytes.rd16_lt sec 0x11
    have total : (if sec.rd16 0x13 ≠ 0 then sec.rd16 0x13 else sec.rd32 0x20) < 2 ^ 32 := by
      have total16 := Bytes.rd16_lt sec 0x13
      have total32 := Bytes.rd32_lt sec 0x20
      split <;> omega
    generalize (if sec.rd16 0x13 ≠ 0 then sec.rd16 0x13 else sec.rd32 0x20) = totalSectors at mounts total
    generalize (if sec.rd16 0x16 ≠ 0 then sec.rd16 0x16 else sec.rd32 0x24) = perFat at mounts
    split at mounts
    · cases mounts
    · split at mounts
      · cases mounts
      · rename_i fields
        push Not at fields
        obtain ⟨-, pow2, small, someReserved, someFat, somePerFat, -, someRoot⟩ := fields
        split at mounts
        · cases mounts
        · rename_i beyond
          split at mounts
          · cases mounts
          · rename_i counts
            push Not at counts
            cases mounts
            have perCluster : 0 < (sec 0x0D).toNat := by
              refine Nat.pos_of_ne_zero fun zero => ?_
              rw [zero] at pow2
              exact pow2 rfl
            have room := Nat.div_mul_le_self (totalSectors - u32 (u32 (sec.rd16 0x0E + (sec 0x10).toNat * perFat) +
              (sec.rd16 0x11 * fsDirentSize + fsSectorSize - 1) / fsSectorSize)) (sec 0x0D).toNat
            exact ⟨rfl, ⟨perCluster, by omega⟩, ⟨Nat.pos_of_ne_zero someReserved, reserved⟩,
              ⟨Nat.pos_of_ne_zero someFat, Nat.pos_of_ne_zero somePerFat⟩, ⟨Nat.pos_of_ne_zero someRoot, root⟩,
              rfl, rfl, rfl, by dsimp only; omega, total, ⟨counts.2.2, counts.2.1⟩⟩

namespace Volume

theorem Accepted.clusterLba (accepted : vol.Accepted) (ok : vol.clusterOk cluster = true) :
    vol.clusterLba cluster = vol.dataStart + (cluster - fsFirstCluster) * vol.sectorsPerCluster ∧
      vol.dataStart + (cluster - fsFirstCluster) * vol.sectorsPerCluster + vol.sectorsPerCluster ≤
        vol.totalSectors := by
  obtain ⟨low, good, -, high⟩ := clusterOk_iff.mp ok
  have fits := accepted.fits
  have total := accepted.total
  have inside : (cluster - fsFirstCluster) * vol.sectorsPerCluster + vol.sectorsPerCluster ≤
      vol.clusterCount * vol.sectorsPerCluster := by
    rw [← Nat.succ_mul]
    exact Nat.mul_le_mul_right _ (by omega)
  have index : u32 (cluster + 2 ^ 32 - fsFirstCluster) = cluster - fsFirstCluster := by
    unfold u32
    unfold fsFirstCluster at low ⊢
    unfold fsBadCluster at good
    omega
  refine ⟨?_, by omega⟩
  rw [Volume.clusterLba, index, u32, Nat.mod_eq_of_lt (by omega)]

end Volume

end NyonOS.Fat
