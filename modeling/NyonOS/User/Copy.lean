import NyonOS.Data.Program
import NyonOS.Data.Bytes

namespace NyonOS.User

open Data List
open BitVec (ofNat lt_def le_def)

/-! `do_copy`, byte by byte. -/

abbrev Address := BitVec 64

def userMax : Address := 0x0000800000000000#64

def userMin : Address := 0x10000#64

def userRangeOk (addr len : Address) : Bool :=
  if len > userMax then false
  else if addr > userMax - len then false
  else addr ≥ userMin

/-- What `movsb` does with memory. -/
inductive Access
  | load (addr : Address)
  | store (addr : Address) (byte : Byte)

/-- No byte, or `false`, stands for a fault. -/
def Access.Answer : Access → Type
  | .load _ => Option Byte
  | .store _ _ => Bool

abbrev Code := Program Access Access.Answer

def load (addr : Address) : Code (Option Byte) := Program.perform (Access.load addr)

def store (addr : Address) (byte : Byte) : Code Bool := Program.perform (Access.store addr byte)

/-- `user_copy_bytes`, started with `copy_abort` clear. A fault makes
`usermode_recover_copy` set it and step over the `movsb`, so that the loop ends; the result
is `copy_abort` afterwards. -/
def userCopyBytes : (rdx : Nat) → (rdi rsi : Address) → Code Bool
  | 0, _, _ => return false
  | rdx + 1, rdi, rsi => do
    let some byte ← load rsi | return true
    if !(← store rdi byte) then return true
    userCopyBytes rdx (rdi + 1) (rsi + 1)

/-- What `do_copy` leaves: the value it returns, which is missing after a panic, and
`copy_abort`. -/
structure Copied where
  ok : Option Bool
  copyAbort : Bool

/-- `do_copy`; `ownTable` says whether the current task has a page table of its own. -/
def doCopy (ownTable copyAbort : Bool) (dst src len : Address) (srcIsUser : Bool) : Code Copied :=
  if len = 0 then return ⟨some true, copyAbort⟩
  else if dst = 0 ∨ src = 0 then return ⟨some false, copyAbort⟩
  else if !ownTable then
    -- `copy_active` is not set: a flag left over from before stops the loop, a fault is a panic
    if copyAbort then return ⟨some true, true⟩
    else do
      if ← userCopyBytes len.toNat dst src then return ⟨none, false⟩
      return ⟨some true, false⟩
  else if srcIsUser ∧ !userRangeOk src len then return ⟨some false, copyAbort⟩
  else if !srcIsUser ∧ src < userMax ∧ !userRangeOk src len then return ⟨some false, copyAbort⟩
  else if dst < userMax ∧ !userRangeOk dst len then return ⟨some false, copyAbort⟩
  else do
    let aborted ← userCopyBytes len.toNat dst src
    return ⟨some !aborted, aborted⟩

def copyin (ownTable copyAbort : Bool) (dst src len : Address) : Code Copied := doCopy ownTable copyAbort dst src len true

def copyout (ownTable copyAbort : Bool) (dst src len : Address) : Code Copied :=
  doCopy ownTable copyAbort dst src len false

/-- Memory as the kernel sees it through the current page table, with copy-on-write already
resolved. A page that can be written can be read. -/
structure Memory where
  bytes : Address → Byte
  readable : Address → Bool
  writable : Address → Bool
  readWrite : ∀ addr, writable addr = true → readable addr = true

namespace Memory

def setByte (memory : Memory) (addr : Address) (byte : Byte) : Memory where
  bytes := fun other => if other = addr then byte else memory.bytes other
  readable := memory.readable
  writable := memory.writable
  readWrite := memory.readWrite

def answer : Program.Handler Access Access.Answer Memory
  | .load addr, memory => (if memory.readable addr then some (memory.bytes addr) else none, memory)
  | .store addr byte, memory => if memory.writable addr then (true, memory.setByte addr byte) else (false, memory)

end Memory

def InUser (addr : Address) : Prop := userMin ≤ addr ∧ addr < userMax

instance decidableInUser (addr : Address) : Decidable (InUser addr) := inferInstanceAs (Decidable (_ ∧ _))

/-- The bytes of a range. -/
def InRange (start len addr : Address) : Prop := ∃ index < len.toNat, addr = start + ofNat 64 index

/-- Every byte of the range is user memory. -/
def UserRange (start len : Address) : Prop := ∀ addr, InRange start len addr → InUser addr

def Access.LoadsUser : Access → Prop
  | .load addr => InUser addr
  | .store _ _ => True

def Access.StoresUser : Access → Prop
  | .load _ => True
  | .store addr _ => InUser addr

section Ranges

variable {addr len start : Address}

theorem userRangeOk_iff : userRangeOk addr len = true ↔
    addr.toNat + len.toNat ≤ userMax.toNat ∧ userMin.toNat ≤ addr.toNat := by
  unfold userRangeOk
  have max : userMax.toNat = 0x0000800000000000 := rfl
  split
  · rename_i long
    have longer : userMax.toNat < len.toNat := long
    simp only [Bool.false_eq_true, false_iff, not_and]
    omega
  · rename_i short
    have shorter : len.toNat ≤ userMax.toNat := by
      have := short
      simp only [gt_iff_lt, lt_def] at this
      omega
    have difference : (userMax - len).toNat = userMax.toNat - len.toNat := BitVec.toNat_sub_of_le shorter
    split
    · rename_i high
      have higher : (userMax - len).toNat < addr.toNat := high
      simp only [Bool.false_eq_true, false_iff, not_and]
      omega
    · rename_i low
      have lower : ¬ (userMax - len).toNat < addr.toNat := low
      simp only [ge_iff_le, decide_eq_true_eq, le_def]
      omega

theorem userRange_of_ok (ok : userRangeOk start len = true) : UserRange start len := by
  obtain ⟨high, low⟩ := userRangeOk_iff.mp ok
  rintro addr ⟨index, bound, rfl⟩
  have max : userMax.toNat = 0x0000800000000000 := rfl
  have sum : (start + ofNat 64 index).toNat = start.toNat + index := by
    rw [BitVec.toNat_add, BitVec.toNat_ofNat]
    omega
  rw [InUser, le_def, lt_def, sum]
  omega

end Ranges

section Copying

variable {dst src len : Address}

theorem userCopyBytes_only (rdx : Nat) (rdi rsi : Address) : (userCopyBytes rdx rdi rsi).Only fun access =>
    (∃ index < rdx, access = .load (rsi + ofNat 64 index)) ∨
      ∃ index < rdx, ∃ byte, access = .store (rdi + ofNat 64 index) byte := by
  induction rdx generalizing rdi rsi with
  | zero => trivial
  | succ rdx ih =>
    have later : ∀ start : Address, ∀ index, start + 1 + ofNat 64 index = start + ofNat 64 (index + 1) := by
      intro start index
      rw [Nat.add_comm index, BitVec.ofNat_add, BitVec.add_assoc]
      rfl
    refine ⟨.inl ⟨0, Nat.succ_pos rdx, by simp⟩, fun loaded => ?_⟩
    cases loaded with
    | none => trivial
    | some byte =>
      refine ⟨.inr ⟨0, Nat.succ_pos rdx, byte, by simp⟩, fun stored => ?_⟩
      cases stored with
      | false => trivial
      | true =>
        refine (ih (rdi + 1) (rsi + 1)).mono fun access covered => ?_
        rcases covered with ⟨index, bound, rfl⟩ | ⟨index, bound, other, rfl⟩
        · exact .inl ⟨index + 1, Nat.succ_lt_succ bound, by rw [later]⟩
        · exact .inr ⟨index + 1, Nat.succ_lt_succ bound, other, by rw [later]⟩

/-- The requests that `do_copy` turns down for a task with its own page table. -/
def Refused (dst src len : Address) (srcIsUser : Bool) : Prop :=
  dst = 0 ∨ src = 0 ∨ (srcIsUser = true ∨ src < userMax) ∧ userRangeOk src len = false ∨
    dst < userMax ∧ userRangeOk dst len = false

instance decidableRefused (dst src len : Address) (srcIsUser : Bool) : Decidable (Refused dst src len srcIsUser) :=
  inferInstanceAs (Decidable (_ ∨ _))

theorem doCopy_own (copyAbort : Bool) (dst src len : Address) (srcIsUser : Bool) :
    doCopy true copyAbort dst src len srcIsUser = if len = 0 then pure ⟨some true, copyAbort⟩
      else if Refused dst src len srcIsUser then pure ⟨some false, copyAbort⟩
      else do
        let aborted ← userCopyBytes len.toNat dst src
        return ⟨some !aborted, aborted⟩ := by
  by_cases empty : len = 0
  · rw [doCopy, if_pos empty, if_pos empty]
  rw [doCopy, if_neg empty, if_neg empty]
  by_cases null : dst = 0 ∨ src = 0
  · have refused : Refused dst src len srcIsUser := null.imp_right .inl
    rw [if_pos null, if_pos refused]
  rw [if_neg null, if_neg (by simp)]
  by_cases user : srcIsUser = true ∧ (!userRangeOk src len) = true
  · have refused : Refused dst src len srcIsUser := .inr (.inr (.inl ⟨.inl user.1, by simpa using user.2⟩))
    rw [if_pos user, if_pos refused]
  rw [if_neg user]
  by_cases low : (!srcIsUser) = true ∧ src < userMax ∧ (!userRangeOk src len) = true
  · have refused : Refused dst src len srcIsUser := .inr (.inr (.inl ⟨.inr low.2.1, by simpa using low.2.2⟩))
    rw [if_pos low, if_pos refused]
  rw [if_neg low]
  by_cases target : dst < userMax ∧ (!userRangeOk dst len) = true
  · have refused : Refused dst src len srcIsUser := .inr (.inr (.inr ⟨target.1, by simpa using target.2⟩))
    rw [if_pos target, if_pos refused]
  have taken : ¬ Refused dst src len srcIsUser := by
    rintro (isNull | isNull | ⟨side, bad⟩ | ⟨below, bad⟩)
    · exact null (.inl isNull)
    · exact null (.inr isNull)
    · cases srcIsUser with
      | true => exact user ⟨rfl, by simp [bad]⟩
      | false => exact low ⟨rfl, side.resolve_left Bool.false_ne_true, by simp [bad]⟩
    · exact target ⟨below, by simp [bad]⟩
  rw [if_neg target, if_neg taken]

theorem doCopy_cases (copyAbort : Bool) (dst src len : Address) (srcIsUser : Bool) (memory : Memory) :
    let code := doCopy true copyAbort dst src len srcIsUser
    (len = 0 ∧ (code.run Memory.answer memory).1.ok = some true ∨
        len ≠ 0 ∧ Refused dst src len srcIsUser ∧ (code.run Memory.answer memory).1.ok = some false) ∧
        (code.run Memory.answer memory).2 = memory ∧ code.trace Memory.answer memory = [] ∨
      len ≠ 0 ∧ ¬ Refused dst src len srcIsUser ∧
        code.trace Memory.answer memory = (userCopyBytes len.toNat dst src).trace Memory.answer memory ∧
        (code.run Memory.answer memory).2 = ((userCopyBytes len.toNat dst src).run Memory.answer memory).2 ∧
        (code.run Memory.answer memory).1.ok = some !((userCopyBytes len.toNat dst src).run Memory.answer memory).1 := by
  dsimp only
  rw [doCopy_own]
  by_cases empty : len = 0
  · rw [if_pos empty]
    exact .inl ⟨.inl ⟨empty, rfl⟩, rfl, rfl⟩
  rw [if_neg empty]
  by_cases refused : Refused dst src len srcIsUser
  · rw [if_pos refused]
    exact .inl ⟨.inr ⟨empty, refused, rfl⟩, rfl, rfl⟩
  rw [if_neg refused]
  refine .inr ⟨empty, refused, ?_, ?_, ?_⟩
  · rw [Program.trace_bind, Program.trace_pure, append_nil]
  · rw [Program.run_bind, Program.run_pure]
  · rw [Program.run_bind, Program.run_pure]

/-- `copyin` from a range reads user memory only; a range that is not user memory is turned
down and nothing is written. -/
def CopyinContained (src len : Address) : Prop := ∀ dst copyAbort memory,
  (∀ access ∈ (copyin true copyAbort dst src len).trace Memory.answer memory, access.LoadsUser) ∧
    (¬ UserRange src len → ((copyin true copyAbort dst src len).run Memory.answer memory).1.ok = some false ∧
      ((copyin true copyAbort dst src len).run Memory.answer memory).2 = memory)

/-- The same for `copyout` and what it writes. -/
def CopyoutContained (dst len : Address) : Prop := ∀ src copyAbort memory,
  (∀ access ∈ (copyout true copyAbort dst src len).trace Memory.answer memory, access.StoresUser) ∧
    (¬ UserRange dst len → ((copyout true copyAbort dst src len).run Memory.answer memory).1.ok = some false ∧
      ((copyout true copyAbort dst src len).run Memory.answer memory).2 = memory)

theorem userRange_zero (start : Address) : UserRange start 0 := by
  rintro addr ⟨index, bound, -⟩
  exact absurd bound (Nat.not_lt_zero index)

theorem copyin_contained (src len : Address) : CopyinContained src len := by
  intro dst copyAbort memory
  rcases doCopy_cases copyAbort dst src len true memory with
    ⟨⟨empty, -⟩ | ⟨-, -, fails⟩, same, none_⟩ | ⟨some_, taken, trace, -, -⟩
  · rw [copyin, none_, empty]
    exact ⟨fun _ member => absurd member not_mem_nil, fun bad => absurd (userRange_zero src) bad⟩
  · rw [copyin, none_]
    exact ⟨fun _ member => absurd member not_mem_nil, fun _ => ⟨fails, same⟩⟩
  · have ok : userRangeOk src len = true := by
      by_contra bad
      exact taken (.inr (.inr (.inl ⟨.inl rfl, by simpa using bad⟩)))
    rw [copyin, trace]
    refine ⟨fun access member => ?_, fun bad => absurd (userRange_of_ok ok) bad⟩
    rcases (userCopyBytes_only len.toNat dst src).of_trace Memory.answer memory access member with
      ⟨index, bound, rfl⟩ | ⟨index, bound, byte, rfl⟩
    · exact userRange_of_ok ok _ ⟨index, bound, rfl⟩
    · trivial

theorem copyout_contained (low : dst < userMax ∨ len = 0) : CopyoutContained dst len := by
  intro src copyAbort memory
  rcases doCopy_cases copyAbort dst src len false memory with
    ⟨⟨empty, -⟩ | ⟨-, -, fails⟩, same, none_⟩ | ⟨some_, taken, trace, -, -⟩
  · rw [copyout, none_, empty]
    exact ⟨fun _ member => absurd member not_mem_nil, fun bad => absurd (userRange_zero dst) bad⟩
  · rw [copyout, none_]
    exact ⟨fun _ member => absurd member not_mem_nil, fun _ => ⟨fails, same⟩⟩
  · have below := low.resolve_right some_
    have ok : userRangeOk dst len = true := by
      by_contra bad
      exact taken (.inr (.inr (.inr ⟨below, by simpa using bad⟩)))
    rw [copyout, trace]
    refine ⟨fun access member => ?_, fun bad => absurd (userRange_of_ok ok) bad⟩
    rcases (userCopyBytes_only len.toNat dst src).of_trace Memory.answer memory access member with
      ⟨index, bound, rfl⟩ | ⟨index, bound, byte, rfl⟩
    · trivial
    · exact userRange_of_ok ok _ ⟨index, bound, rfl⟩

/-- Memory that can be read and written everywhere. -/
def openMemory : Memory := ⟨fun _ => 0#8, fun _ => true, fun _ => true, fun _ _ => rfl⟩

theorem copyout_high (high : userMax ≤ dst) (some_ : len ≠ 0) :
    .store dst 0#8 ∈ (copyout true false dst userMax len).trace Memory.answer openMemory := by
  have notNull : dst ≠ 0 := by
    rintro rfl
    exact absurd high (by decide)
  rcases doCopy_cases false dst userMax len false openMemory with
    ⟨⟨empty, -⟩ | ⟨-, refused, -⟩, -, -⟩ | ⟨-, -, trace, -, -⟩
  · exact absurd empty some_
  · rcases refused with isNull | isNull | ⟨side, -⟩ | ⟨below, -⟩
    · exact absurd isNull notNull
    · exact absurd isNull (by decide)
    · exact absurd (side.resolve_left Bool.false_ne_true) (by decide)
    · rw [lt_def] at below
      rw [le_def] at high
      omega
  · rw [copyout, trace]
    cases count : len.toNat with
    | zero => exact absurd (BitVec.eq_of_toNat_eq count) some_
    | succ rest => exact mem_cons_of_mem _ (mem_cons_self ..)

theorem copyout_contained_iff (dst len : Address) : CopyoutContained dst len ↔ dst < userMax ∨ len = 0 := by
  refine ⟨fun contained => ?_, copyout_contained⟩
  by_contra outside
  rw [not_or, BitVec.not_lt] at outside
  have user := (contained userMax false openMemory).1 _ (copyout_high outside.1 outside.2)
  exact absurd user.2 (BitVec.not_lt.mpr outside.1)

end Copying

end NyonOS.User
