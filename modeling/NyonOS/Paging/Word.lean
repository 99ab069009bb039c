import Mathlib

namespace NyonOS.Paging

open BitVec

/-! Page-table words and the flag bits the kernel keeps in them. -/

abbrev Word := BitVec 64

/-- A physical address. -/
abbrev PAddr := BitVec 64

def pageSize : Nat := 4096

def pagePresent : Word := 0x1#64
def pageWrite : Word := 0x2#64
def pageUser : Word := 0x4#64
def pagePwt : Word := 0x8#64
def pagePcd : Word := 0x10#64
def pageOwned : Word := 0x200#64
def pageCow : Word := 0x400#64
def pagePinned : Word := 0x800#64
def pageSharedRef : Word := 0x10000000000000#64
def pageNx : Word := 0x8000000000000000#64
def vmmPtAddrMask : Word := 0x000FFFFFFFFFF000#64

/-- `word & flag` used as a condition. -/
def has (word flag : Word) : Bool := word &&& flag != 0#64

/-- `word & VMM_PT_ADDR_MASK`: the frame a present entry points to. -/
def frameOf (word : Word) : PAddr := word &&& vmmPtAddrMask

/-- A flag is one bit outside the address. -/
class FlagBit (flag : Word) where
  index : Nat
  single : flag = BitVec.twoPow 64 index
  bound : index < 64
  outside : vmmPtAddrMask.getLsbD index = false

instance : FlagBit pagePresent := ⟨0, rfl, by decide, by decide⟩
instance : FlagBit pageWrite := ⟨1, rfl, by decide, by decide⟩
instance : FlagBit pageUser := ⟨2, rfl, by decide, by decide⟩
instance : FlagBit pagePwt := ⟨3, rfl, by decide, by decide⟩
instance : FlagBit pagePcd := ⟨4, rfl, by decide, by decide⟩
instance : FlagBit pageOwned := ⟨9, rfl, by decide, by decide⟩
instance : FlagBit pageCow := ⟨10, rfl, by decide, by decide⟩
instance : FlagBit pagePinned := ⟨11, rfl, by decide, by decide⟩
instance : FlagBit pageSharedRef := ⟨52, rfl, by decide, by decide⟩
instance : FlagBit pageNx := ⟨63, rfl, by decide, by decide⟩

variable (word other flag : Word)

theorem has_eq_bit [bit : FlagBit flag] : has word flag = word.getLsbD bit.index := by
  obtain ⟨index, rfl, bound, outside⟩ := bit
  have nonzero : BitVec.twoPow 64 index ≠ 0#64 := by
    intro zero
    have set := congrArg (fun value => value.getLsbD index) zero
    simp [bound] at set
  change has word (BitVec.twoPow 64 index) = word.getLsbD index
  rw [has, and_twoPow]
  cases word.getLsbD index <;> simp [nonzero]

/-! A condition on a word built from flags reduces to conditions on its parts. -/

@[simp] theorem has_or [FlagBit flag] : has (word ||| other) flag = (has word flag || has other flag) := by
  simp only [has_eq_bit, getLsbD_or]

@[simp] theorem has_and [FlagBit flag] : has (word &&& other) flag = (has word flag && has other flag) := by
  simp only [has_eq_bit, getLsbD_and]

@[simp] theorem has_not [bit : FlagBit flag] : has (~~~word) flag = !has word flag := by
  simp only [has_eq_bit, getLsbD_not, bit.bound, decide_true, Bool.true_and]

@[simp] theorem has_zero [FlagBit flag] : has 0#64 flag = false := by
  simp only [has_eq_bit, getLsbD_zero]

@[simp] theorem has_flag [bit : FlagBit flag] [second : FlagBit other] :
    has flag other = decide (bit.index = second.index) := by
  obtain ⟨index, rfl, bound, outside⟩ := bit
  rw [has_eq_bit, getLsbD_twoPow]
  simp [bound]

@[simp] theorem index_present : FlagBit.index pagePresent = 0 := rfl
@[simp] theorem index_write : FlagBit.index pageWrite = 1 := rfl
@[simp] theorem index_user : FlagBit.index pageUser = 2 := rfl
@[simp] theorem index_pwt : FlagBit.index pagePwt = 3 := rfl
@[simp] theorem index_pcd : FlagBit.index pagePcd = 4 := rfl
@[simp] theorem index_owned : FlagBit.index pageOwned = 9 := rfl
@[simp] theorem index_cow : FlagBit.index pageCow = 10 := rfl
@[simp] theorem index_pinned : FlagBit.index pagePinned = 11 := rfl
@[simp] theorem index_sharedRef : FlagBit.index pageSharedRef = 52 := rfl
@[simp] theorem index_nx : FlagBit.index pageNx = 63 := rfl

/-- A page-aligned physical address that fits in an entry. -/
def Aligned (address : PAddr) : Prop := frameOf address = address

instance : Decidable (Aligned word) := inferInstanceAs (Decidable (_ = _))

theorem aligned_frameOf : Aligned (frameOf word) := by
  simp only [Aligned, frameOf, BitVec.and_assoc, BitVec.and_self]

@[simp] theorem has_frameOf [bit : FlagBit flag] : has (frameOf word) flag = false := by
  rw [has_eq_bit, frameOf, getLsbD_and, bit.outside, Bool.and_false]

variable {word} in
theorem Aligned.has_false (aligned : Aligned word) [FlagBit flag] : has word flag = false := by
  rw [← aligned, has_frameOf]

/-! The frame of a word built from flags. -/

@[simp] theorem frameOf_or : frameOf (word ||| other) = frameOf word ||| frameOf other := by
  apply eq_of_getLsbD_eq
  intro index _
  simp only [frameOf, getLsbD_and, getLsbD_or, Bool.and_or_distrib_right]

@[simp] theorem frameOf_and : frameOf (word &&& other) = word &&& frameOf other := by
  rw [frameOf, frameOf, BitVec.and_assoc]

@[simp] theorem and_addrMask : word &&& vmmPtAddrMask = frameOf word := rfl

@[simp] theorem frameOf_flag [bit : FlagBit flag] : frameOf flag = 0#64 := by
  obtain ⟨place, rfl, bound, outside⟩ := bit
  apply eq_of_getLsbD_eq
  intro index _
  rw [frameOf, getLsbD_and, getLsbD_zero, getLsbD_twoPow]
  by_cases here : place = index
  · rw [← here, outside, Bool.and_false]
  · simp [here]

@[simp] theorem frameOf_not [bit : FlagBit flag] : frameOf (~~~flag) = vmmPtAddrMask := by
  obtain ⟨place, rfl, _, outside⟩ := bit
  apply eq_of_getLsbD_eq
  intro index bound
  rw [frameOf, getLsbD_and, getLsbD_not, getLsbD_twoPow]
  by_cases here : place = index
  · rw [← here, outside, Bool.and_false]
  · simp [here, bound]

@[simp] theorem frameOf_zero : frameOf 0#64 = 0#64 := by decide

@[simp] theorem frameOf_frameOf : frameOf (frameOf word) = frameOf word := aligned_frameOf word

end NyonOS.Paging
