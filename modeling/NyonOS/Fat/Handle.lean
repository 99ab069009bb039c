import NyonOS.Fat.File
import NyonOS.Fd.Transfer

namespace NyonOS.Fat

open Abi
open Data

/-! Open files: positions of 64 bits in front of a file system of 32. -/

/-- `struct file`, with its node. -/
structure Handle where
  node : Node
  pos : Nat
  writable : Bool
  append : Bool
deriving DecidableEq

section

variable (fs : Fs)

/-- The bytes that a read delivers come with its result. -/
def fileReadAt (cpu : Cpu) (address : Nat) (f : Handle) (out len off : Nat) : (Int × List Byte) × Fs :=
  if f.node.size ≤ off then ((0, []), fs)
  else
    match fatRead fs cpu address f.node (u32 off) out (min (f.node.size - off) len) with
    | (none, fs) => ((eio, []), fs)
    | (some bytes, fs) => ((min (f.node.size - off) len, bytes), fs)

def fdRead (cpu : Cpu) (address : Nat) (f : Handle) (out len : Nat) : (Int × List Byte) × Fs × Handle :=
  let read := fileReadAt fs cpu address f out len f.pos
  (read.1, read.2, if 0 < read.1.1 then { f with pos := (f.pos + read.1.1.toNat) % 2 ^ 64 } else f)

/-- The result of `fs_node_write` is an `int`. -/
def fileWriteAt (writable : Bool) (file : Fs × Node) (bytes : List Byte) (off : Nat) : Int × Fs × Node :=
  if !writable then (eacces, file)
  else
    let wrote := (fsNodeWriteInner file.1.vol file.2 (u32 off) bytes).run Fs.answer file.1
    (Int.bmod wrote.1.1 (2 ^ 32), wrote.2, wrote.1.2)

/-- The loop of `fd_write` for a file: every round but the last takes a byte. -/
def fileWriteLoop (writable : Bool) (bytes : List Byte) (pos : Nat) (file : Fs × Node) : Option Int × Fs × Node :=
  Fd.writeLoop (fun file start len pos => fileWriteAt writable file ((bytes.drop start).take len) pos) none bytes.length pos
    (bytes.length + 2) 0 file 0

variable (f : Handle)

/-- Where a write begins. -/
def Handle.writePos : Nat := if f.append then f.node.size else f.pos

/-- `fd_write` of bytes. -/
def fdWrite (bytes : List Byte) : Option Int × Fs × Handle :=
  let wrote := fileWriteLoop f.writable bytes f.writePos (fs, f.node)
  (wrote.1, wrote.2.1, { f with node := wrote.2.2, pos := ((f.writePos + wrote.1.getD 0) % 2 ^ 64).toNat })

/-- `sys_ftruncate`, from `fd_truncate` on. -/
def ftruncate (length : BitVec 64) : Int × Fs × Handle :=
  if length.toInt < 0 then (einval, fs, f)
  else
    let resized := (fsNodeResizeInner fs.vol f.node (u32 length.toNat)).run Fs.answer fs
    (resized.1.1, resized.2, { f with node := resized.1.2 })

/-- What an offset counts from: `FD_SEEK_SET`, `FD_SEEK_CUR` or `FD_SEEK_END`. -/
def Handle.seekBase : (whence : Nat) → Option Nat
  | 0 => some 0
  | 1 => some f.pos
  | 2 => some f.node.size
  | _ => none

/-- The sum is one of 64-bit numbers with a sign. -/
def fileLseek (off : BitVec 64) (whence : Nat) : Int :=
  match f.seekBase whence with
  | none => einval
  | some base =>
    let np := Int.bmod (Int.bmod base (2 ^ 64) + off.toInt) (2 ^ 64)
    if np < 0 then einval else np

def fdLseek (off : BitVec 64) (whence : Nat) : Int × Handle :=
  let r := fileLseek f off whence
  (r, if 0 ≤ r then { f with pos := r.toNat } else f)

/-! What is expected of a call whose position or size has more than 32 bits. -/

inductive FileCall
  | read (cpu : Cpu) (address out len : Nat)
  | write (bytes : List Byte)
  | ftruncate (length : BitVec 64)
  | lseek (off : BitVec 64) (whence : Nat)

/-- It fails, or reads nothing, and changes nothing; a position that is sought is the sum of two numbers. -/
def Bounded : FileCall → Prop
  | .read cpu address out len => 2 ^ 32 ≤ f.pos → fdRead fs cpu address f out len = ((0, []), fs, f)
  | .write bytes => bytes ≠ [] → 2 ^ 32 ≤ f.writePos + bytes.length →
      ∃ r, r < 0 ∧ fdWrite fs f bytes = (some r, fs, f)
  | .ftruncate length => 2 ^ 32 ≤ length.toInt → ∃ r, r < 0 ∧ ftruncate fs f length = (r, fs, f)
  | .lseek off whence => (fdLseek f off whence).1 < 0 ∧ (fdLseek f off whence).2 = f ∨
      ∃ base pos : Nat, f.seekBase whence = some base ∧ (pos : Int) = base + off.toInt ∧ pos < 2 ^ 63 ∧
        fdLseek f off whence = (↑pos, { f with pos })

/-- The call needs no more than 32 bits, or none at all; a truncation is also turned down without a file. -/
def Fits : FileCall → Prop
  | .read .. | .lseek .. => True
  | .write bytes => bytes = [] ∨ f.writePos + bytes.length < 2 ^ 32
  | .ftruncate length => length.toInt < 2 ^ 32 ∨ fs.vol.mounted = false ∨ f.node.isDir = true

/-- The call does what it does with the lower 32 bits alone. -/
def Wraps : FileCall → Prop
  | .write bytes => (fileWriteLoop f.writable bytes f.writePos (fs, f.node)) =
      fileWriteLoop f.writable bytes (u32 f.writePos) (fs, f.node)
  | .ftruncate length => 0 ≤ length.toInt → ftruncate fs f length = ftruncate fs f (length % 2 ^ 32)
  | _ => True

end

section Offsets

variable {fs : Fs} {f : Handle}

section

variable (size : f.node.size < 2 ^ 32)
include size

theorem fdRead_bounded {cpu : Cpu} {address out len : Nat} : Bounded fs f (.read cpu address out len) := by
  intro large
  have none_ : fileReadAt fs cpu address f out len f.pos = ((0, []), fs) := by
    unfold fileReadAt
    rw [if_pos (by omega)]
  unfold fdRead
  rw [none_]
  rfl

theorem fileLseek_cases (pos : f.pos < 2 ^ 63) (off : BitVec 64) (whence : Nat) :
    fileLseek f off whence = einval ∨ ∃ base pos : Nat, f.seekBase whence = some base ∧ (pos : Int) = base + off.toInt ∧
      pos < 2 ^ 63 ∧ fileLseek f off whence = pos := by
  unfold fileLseek
  cases from_ : f.seekBase whence with
  | none => exact .inl rfl
  | some base =>
    have small : base < 2 ^ 63 := by
      unfold Handle.seekBase at from_
      split at from_ <;> cases from_ <;> omega
    have low := off.le_toInt
    have high := @BitVec.toInt_lt 64 off
    dsimp only
    rw [@Int.bmod_eq_of_le base (2 ^ 64) (by omega) (by omega)]
    by_cases negative : Int.bmod (base + off.toInt) (2 ^ 64) < 0
    · exact .inl (if_pos negative)
    · -- a sum of 2 ^ 63 or more becomes negative
      have short : (base : Int) + off.toInt < 2 ^ 63 := by
        rw [Int.bmod_def] at negative
        omega
      rw [if_neg negative]
      rw [Int.bmod_eq_of_le (by omega) (by omega)] at negative ⊢
      exact .inr ⟨base, (base + off.toInt).toNat, rfl, by omega, by omega, by omega⟩

theorem fdLseek_bounded (pos : f.pos < 2 ^ 63) {off : BitVec 64} {whence : Nat} : Bounded fs f (.lseek off whence) := by
  rcases fileLseek_cases size pos off whence with failed | ⟨base, pos, from_, sum, short, sought⟩
  · have done : fdLseek f off whence = (einval, f) := by
      unfold fdLseek
      rw [failed]
      rfl
    exact .inl (by rw [done]; exact ⟨show einval < 0 by decide, rfl⟩)
  · refine .inr ⟨base, pos, from_, sum, short, ?_⟩
    unfold fdLseek
    rw [sought]
    dsimp only
    rw [if_pos (Int.natCast_nonneg pos), Int.toNat_natCast]

end

variable {writable : Bool} {file : Fs × Node} {bytes : List Byte}

theorem fileWriteAt_range {off : Nat} : -2 ^ 31 ≤ (fileWriteAt writable file bytes off).1 := by
  unfold fileWriteAt
  split_ifs
  · exact (by decide : (-2 ^ 31 : Int) ≤ eacces)
  · exact Int.le_bmod (by decide)

theorem fdWrite_moves {r : Int} (plain : f.append = false) (negative : r < 0) :
    fdWrite fs f bytes ≠ (some r, fs, f) := by
  intro same
  have result : (fileWriteLoop f.writable bytes f.writePos (fs, f.node)).1 = some r := congrArg Prod.fst same
  obtain ⟨file, start, len, pos, from_⟩ := Fd.writeLoop_negative result negative
  have range : -2 ^ 31 ≤ r := by
    rw [from_]
    exact fileWriteAt_range
  have moved : ((f.writePos + (fileWriteLoop f.writable bytes f.writePos (fs, f.node)).1.getD 0) % 2 ^ 64).toNat = f.pos :=
    congrArg (fun done => done.2.2.pos) same
  have here : f.writePos = f.pos := if_neg (by rw [plain]; decide)
  rw [result, here, Option.getD_some] at moved
  omega

theorem fileWriteLoop_wraps {pos : Nat} :
    fileWriteLoop writable bytes pos file = fileWriteLoop writable bytes (u32 pos) file := by
  refine Fd.writeLoop_congr fun file start len total => ?_
  unfold fileWriteAt
  have same : u32 ((pos + total) % 2 ^ 64) = u32 ((u32 pos + total) % 2 ^ 64) := by
    unfold u32
    omega
  rw [same]

variable {length : BitVec 64}

theorem ftruncate_wraps (natural : 0 ≤ length.toInt) : ftruncate fs f length = ftruncate fs f (length % 2 ^ 32) := by
  have lower : (length % 2 ^ 32).toNat = length.toNat % 2 ^ 32 := by simp [BitVec.toNat_umod]
  have small : 0 ≤ (length % 2 ^ 32).toInt := by
    rw [BitVec.toInt_eq_toNat_of_lt (by omega)]
    exact Int.natCast_nonneg _
  have same : u32 (length % 2 ^ 32).toNat = u32 length.toNat := by
    rw [lower]
    exact Nat.mod_mod _ _
  unfold ftruncate
  rw [if_neg (by omega), if_neg (by omega), same]

theorem ftruncate_refused (natural : 0 ≤ length.toInt) (refused : fs.vol.mounted = false ∨ f.node.isDir = true) :
    ∃ r, r < 0 ∧ ftruncate fs f length = (r, fs, f) := by
  unfold ftruncate fsNodeResizeInner
  rw [if_neg (by omega)]
  cases mounted : fs.vol.mounted with
  | false => exact ⟨abiEinval, by decide, rfl⟩
  | true =>
    have dir := refused.resolve_left (by rw [mounted]; decide)
    rw [dir]
    exact ⟨abiEisdir, by decide, rfl⟩

/-- Reads and seeks are right for all positions. A write or a truncation beyond 32 bits is not turned
down, but made with the lower 32 bits; a write of this kind cannot fail without moving the position. -/
theorem file_offsets_bounded (fs : Fs) (f : Handle) (call : FileCall) (size : f.node.size < 2 ^ 32) (pos : f.pos < 2 ^ 63) :
    (Fits fs f call → Bounded fs f call) ∧ Wraps fs f call ∧
      ((∃ bytes, call = .write bytes ∧ f.append = false) → Bounded fs f call → Fits fs f call) := by
  cases call with
  | read cpu address out len => exact ⟨fun _ => fdRead_bounded size, trivial, fun _ _ => trivial⟩
  | lseek off whence => exact ⟨fun _ => fdLseek_bounded size pos, trivial, fun _ _ => trivial⟩
  | write bytes =>
    refine ⟨fun fits some_ large => ?_, fileWriteLoop_wraps, fun plain bounded => ?_⟩
    · rcases fits with none_ | short
      · exact absurd none_ some_
      · omega
    · obtain ⟨_, _, plain⟩ := plain
      by_contra unfit
      obtain ⟨none_, long⟩ := not_or.mp unfit
      obtain ⟨r, negative, same⟩ := bounded none_ (Nat.not_lt.mp long)
      exact fdWrite_moves plain negative same
  | ftruncate length =>
    refine ⟨fun fits large => ?_, fun natural => ftruncate_wraps natural, fun plain => ?_⟩
    · rcases fits with short | refused
      · omega
      · exact ftruncate_refused (by omega) refused
    · obtain ⟨_, wrong, _⟩ := plain
      cases wrong

end Offsets

/-- A file of one byte in the first cluster of a volume. -/
def oneByte : Handle :=
  ⟨⟨[0x41#8], 0x20#8, 2, 1, false, false, 0, 0, .fat, 0⟩, 0, true, false⟩

def oneByteFs : Fs :=
  { Fs.boot (fun _ => ⟨4103, false, fun _ => 0x41#8⟩) with vol := ⟨1, 1, 1, 16, 4103, 16, 1, 17, 1, 18, 4085, true⟩ }

/-- A seek beyond 32 bits, and a read of nothing there. -/
theorem file_offsets_bounded_read :
    fdLseek oneByte 0x100000000#64 0 = (0x100000000, { oneByte with pos := 0x100000000 }) ∧
      Bounded oneByteFs { oneByte with pos := 0x100000000 } (.read 0 4096 8192 1) :=
  ⟨by decide +kernel,
    (file_offsets_bounded oneByteFs { oneByte with pos := 0x100000000 } (.read 0 4096 8192 1) (by decide) (by decide)).1 trivial⟩

/-- A byte written at 2 ^ 32 replaces the first byte of the file, and truncating it to 2 ^ 32 + 1 bytes succeeds. -/
theorem write_wraps :
    let wrote := fdWrite oneByteFs { oneByte with pos := 0x100000000 } [0x42#8]
    (wrote.1 = some 1 ∧ wrote.2.1.disk.bytes (512 * 18) = 0x42#8 ∧ wrote.2.2.node = oneByte.node ∧
      ¬ Bounded oneByteFs { oneByte with pos := 0x100000000 } (.write [0x42#8])) ∧
    (ftruncate oneByteFs oneByte 0x100000001#64).1 = 0 ∧ ¬ Bounded oneByteFs oneByte (.ftruncate 0x100000001#64) := by
  have result : (fdWrite oneByteFs { oneByte with pos := 0x100000000 } [0x42#8]).1 = some 1 := by decide +kernel
  have resized : (ftruncate oneByteFs oneByte 0x100000001#64).1 = 0 := by decide +kernel
  refine ⟨⟨result, by decide +kernel, by decide +kernel, fun bounded => ?_⟩, resized, fun bounded => ?_⟩
  · obtain ⟨r, negative, same⟩ := bounded (by decide) (by decide)
    rw [same] at result
    cases result
    exact absurd negative (by decide)
  · obtain ⟨r, negative, same⟩ := bounded (by decide)
    rw [same] at resized
    exact absurd negative (not_lt_of_ge (ge_of_eq resized))

end NyonOS.Fat
