import NyonOS.Sched.Kin
import NyonOS.Signal.Deliver

namespace NyonOS.Sched

open Abi BitVec Nat
open Data
open BitVec (ofNat)

/-! How a task ends, and what its parent is told. -/

/-- The signal for an exception of the processor. -/
def exceptionSignal : Nat → Nat
  | 0 => 8
  | 6 => 4
  | 8 => 11
  | 13 => 11
  | 14 => 11
  | _ => 4

/-- Why a task ends: by `sys_exit`, by an exception, or by a signal with the default action. -/
inductive Cause
  | exit (code : BitVec 32)
  | exception (vector : Nat)
  | signal (s : Nat)
deriving DecidableEq

namespace Cause

/-- What is passed to `task_exit_code`, or written by `task_sig_check`. -/
def code : Cause → BitVec 64
  | exit code => code.signExtend 64
  | exception vector => ofNat 64 (128 + exceptionSignal vector)
  | signal s => ofNat 64 (128 + s)

/-- The status word decodes to the cause. -/
def Faithful (status : BitVec 32) : Cause → Prop
  | exit code => status &&& 0x7F#32 = 0 ∧ (status >>> 8) &&& 0xFF#32 = code &&& 0xFF#32
  | exception vector => status &&& 0x7F#32 = ofNat 32 (exceptionSignal vector)
  | signal s => status &&& 0x7F#32 = ofNat 32 s

/-- Not an exit, or one with a code below 128 or that is 0 modulo 256. -/
def Plain : Cause → Prop
  | exit code => code.slt 128#32 = true ∨ code &&& 0xFF#32 = 0
  | exception _ => True
  | signal _ => True

/-- A signal is one that `task_sig_check` and `deliver_signals` can come upon. -/
def Raised : Cause → Prop
  | exit _ => True
  | exception _ => True
  | signal s => ∃ task : Signal.Task, task.deliverable = some s ∧ task.sigActHandler s = Signal.sigDfl

instance (status : BitVec 32) : (cause : Cause) → Decidable (cause.Faithful status)
  | exit code => inferInstanceAs (Decidable (_ ∧ _))
  | exception _ => inferInstanceAs (Decidable (_ = _))
  | signal _ => inferInstanceAs (Decidable (_ = _))

end Cause

section Words

variable {code : BitVec 32}

theorem setWidth_signExtend : (code.signExtend 64).setWidth 32 = code := by
  ext i inside
  simp [getLsbD_signExtend, inside]
  omega

theorem toNat_low (word : BitVec 32) : (word &&& 0x7F#32).toNat = word.toNat % 128 := by
  rw [toNat_and]
  exact and_two_pow_sub_one_eq_mod word.toNat 7

theorem toNat_byte (word : BitVec 32) : (word &&& 0xFF#32).toNat = word.toNat % 256 := by
  rw [toNat_and]
  exact and_two_pow_sub_one_eq_mod word.toNat 8

theorem toNat_secondByte (word : BitVec 32) : ((word >>> 8) &&& 0xFF#32).toNat = word.toNat / 256 % 256 := by
  rw [toNat_byte, toNat_ushiftRight, shiftRight_eq_div_pow]

theorem waitStatus_small (small : code.slt 128#32 = true) : (waitStatus code).toNat = code.toNat % 256 * 256 := by
  unfold waitStatus
  rw [if_pos small, toNat_shiftLeft, toNat_byte, Nat.shiftLeft_eq]
  omega

theorem waitStatus_large (large : code.slt 128#32 = false) : (waitStatus code).toNat = code.toNat % 128 := by
  have bounds : 128 ≤ code.toNat := by
    rw [slt_eq_decide] at large
    simp only [toInt_eq_toNat_cond, decide_eq_false_iff_not] at large
    split at large <;> simp at large <;> omega
  unfold waitStatus
  rw [if_neg (by simp [large]), toNat_low, toNat_sub]
  have below := code.isLt
  change (2 ^ 32 - 128 + code.toNat) % 2 ^ 32 % 128 = _
  omega

theorem waitStatus_exit : (Cause.exit code).Faithful (waitStatus code) ↔ (Cause.exit code).Plain := by
  unfold Cause.Faithful Cause.Plain
  dsimp only
  rw [← toNat_inj, ← toNat_inj, ← toNat_inj, toNat_low, toNat_secondByte, toNat_byte]
  change _ % 128 = 0 ∧ _ ↔ _ ∨ code.toNat % 256 = 0
  cases small : code.slt 128#32 with
  | true =>
    rw [waitStatus_small small]
    simp only [true_or, iff_true]
    omega
  | false =>
    rw [waitStatus_large small]
    simp only [Bool.false_eq_true, false_or]
    omega

theorem waitStatus_signal {s : Nat} (high : s ≤ 64) : waitStatus (ofNat 32 (128 + s)) &&& 0x7F#32 = ofNat 32 s := by
  have large : (ofNat 32 (128 + s)).slt 128#32 = false := by
    rw [slt_eq_decide, decide_eq_false_iff_not]
    simp only [toInt_eq_toNat_cond, toNat_ofNat]
    split <;> omega
  rw [← toNat_inj, toNat_low, waitStatus_large large, toNat_ofNat, toNat_ofNat]
  omega

theorem exceptionSignal_le (vector : Nat) : exceptionSignal vector ≤ 64 := by
  unfold exceptionSignal
  split <;> decide

theorem Cause.Plain.faithful {cause : Cause} (plain : cause.Plain) (raised : cause.Raised) : cause.Faithful (waitStatus (cause.code.setWidth 32)) := by
  have narrow : ∀ s, (ofNat 64 s).setWidth 32 = ofNat 32 s := fun s => setWidth_ofNat_of_le (by decide) s
  cases cause with
  | exit code =>
    unfold Cause.code
    rw [setWidth_signExtend]
    exact waitStatus_exit.mpr plain
  | exception vector =>
    unfold Cause.code
    rw [narrow]
    exact waitStatus_signal (exceptionSignal_le vector)
  | signal s =>
    unfold Cause.code
    rw [narrow]
    obtain ⟨task, next, -⟩ := raised
    exact waitStatus_signal (Signal.Task.deliverable_spec next).2.2.1

end Words

end NyonOS.Sched
