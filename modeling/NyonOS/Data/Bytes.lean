import Mathlib

namespace NyonOS.Data

open List
open BitVec (ofNat)

/-! Memory as a function from addresses to bytes. -/

abbrev Byte := BitVec 8

abbrev Bytes := Nat → Byte

namespace Bytes

variable {bytes : Bytes} {start at_ : Nat} {list : List Byte}

/-- Copying a list of bytes to an address. -/
def store (bytes : Bytes) (start : Nat) (list : List Byte) : Bytes := fun at_ =>
  if start ≤ at_ ∧ at_ < start + list.length then list.getD (at_ - start) 0#8 else bytes at_

/-- Copying `count` bytes from an address. -/
def load (bytes : Bytes) (start count : Nat) : List Byte := (range count).map fun index => bytes (start + index)

theorem store_outside (outside : at_ < start ∨ start + list.length ≤ at_) : bytes.store start list at_ = bytes at_ :=
  if_neg (by omega)

theorem store_inside {index : Nat} (inside : index < list.length) :
    bytes.store start list (start + index) = list.getD index 0#8 := by
  rw [store, if_pos (by omega), Nat.add_sub_cancel_left]

section

variable (bytes : Bytes)

/-- The little endian numbers. -/
def rd16 (start : Nat) : Nat := (bytes start).toNat + 256 * (bytes (start + 1)).toNat

def rd32 (start : Nat) : Nat := rd16 bytes start + 65536 * rd16 bytes (start + 2)

def le16 (value : Nat) : List Byte := [ofNat 8 value, ofNat 8 (value / 256)]

def le32 (value : Nat) : List Byte := le16 value ++ le16 (value / 65536)

theorem rd16_lt (start : Nat) : rd16 bytes start < 65536 := by
  have low := (bytes start).isLt
  have high := (bytes (start + 1)).isLt
  unfold rd16
  omega

theorem rd32_lt (start : Nat) : rd32 bytes start < 4294967296 := by
  have low := rd16_lt bytes start
  have high := rd16_lt bytes (start + 2)
  unfold rd32
  omega

end

@[simp]
theorem length_le16 (value : Nat) : (le16 value).length = 2 := rfl

theorem rd16_store_apart (apart : at_ + 2 ≤ start ∨ start + list.length ≤ at_) :
    rd16 (bytes.store start list) at_ = rd16 bytes at_ := by
  rw [rd16, rd16, store_outside (by omega), store_outside (by omega)]

theorem rd16_store_self {value : Nat} (small : value < 65536) :
    rd16 (bytes.store start (le16 value)) start = value := by
  have first : bytes.store start (le16 value) start = ofNat 8 value :=
    store_inside (show 0 < (le16 value).length by simp)
  have second : bytes.store start (le16 value) (start + 1) = ofNat 8 (value / 256) :=
    store_inside (show 1 < (le16 value).length by simp)
  rw [rd16, first, second, BitVec.toNat_ofNat, BitVec.toNat_ofNat]
  omega

/-- A little endian number of any length. -/
def ofLe : List Byte → Nat
  | [] => 0
  | byte :: rest => byte.toNat + 256 * ofLe rest

/-- The bytes of a number, lowest first. -/
def toLe : (count : Nat) → (value : Nat) → List Byte
  | 0, _ => []
  | count + 1, value => ofNat 8 value :: toLe count (value / 256)

@[simp]
theorem length_toLe (count value : Nat) : (toLe count value).length = count := by
  induction count generalizing value with
  | zero => rfl
  | succ count ih => exact congrArg (· + 1) (ih _)

theorem ofLe_toLe (count value : Nat) : ofLe (toLe count value) = value % 256 ^ count := by
  induction count generalizing value with
  | zero => rw [Nat.pow_zero, Nat.mod_one]; rfl
  | succ count ih =>
    have step : value % (256 * 256 ^ count) = value % 256 + 256 * (value / 256 % 256 ^ count) := Nat.mod_mul
    have power : 256 ^ (count + 1) = 256 * 256 ^ count := Nat.pow_succ'
    rw [toLe, ofLe, ih, BitVec.toNat_ofNat, power, step]

variable (words : List (BitVec 64))

/-- Sixty-four bit words one after the other. -/
def ofWords : List Byte := words.flatMap fun word => toLe 8 word.toNat

def toWords : (count : Nat) → List Byte → List (BitVec 64)
  | 0, _ => []
  | count + 1, bytes => ofNat 64 (ofLe (bytes.take 8)) :: toWords count (bytes.drop 8)

@[simp]
theorem length_ofWords : (ofWords words).length = 8 * words.length := by
  induction words with
  | nil => rfl
  | cons word rest ih =>
    change (toLe 8 word.toNat ++ ofWords rest).length = _
    rw [length_append, ih, length_toLe, length_cons]
    omega

theorem toWords_ofWords (rest : List Byte) : toWords words.length (ofWords words ++ rest) = words := by
  induction words with
  | nil => rfl
  | cons word later ih =>
    have split_ : ofWords (word :: later) ++ rest = toLe 8 word.toNat ++ (ofWords later ++ rest) := by
      rw [← append_assoc]
      rfl
    have first : (toLe 8 word.toNat ++ (ofWords later ++ rest)).take 8 = toLe 8 word.toNat :=
      take_left' (length_toLe _ _)
    have second : (toLe 8 word.toNat ++ (ofWords later ++ rest)).drop 8 = ofWords later ++ rest :=
      drop_left' (length_toLe _ _)
    have whole : word.toNat % 256 ^ 8 = word.toNat := Nat.mod_eq_of_lt word.isLt
    rw [length_cons, toWords, split_, first, second, ih, ofLe_toLe, whole, BitVec.ofNat_toNat, BitVec.setWidth_eq]

end Bytes

end NyonOS.Data
