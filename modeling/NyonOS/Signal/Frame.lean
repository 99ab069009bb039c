import NyonOS.Abi
import NyonOS.Data.Bits
import NyonOS.User.Copy

namespace NyonOS.Signal

open Data BitVec Nat
open User
open BitVec (ofNat)

/-! The saved registers of a task, and kernel variables copied from and to user memory. -/

/-- `struct isr_frame`. -/
structure Frame where
  r15 : BitVec 64
  r14 : BitVec 64
  r13 : BitVec 64
  r12 : BitVec 64
  r11 : BitVec 64
  r10 : BitVec 64
  r9 : BitVec 64
  r8 : BitVec 64
  rbp : BitVec 64
  rdi : BitVec 64
  rsi : BitVec 64
  rdx : BitVec 64
  rcx : BitVec 64
  rbx : BitVec 64
  rax : BitVec 64
  interruptNumber : BitVec 64
  errorCode : BitVec 64
  rip : BitVec 64
  cs : BitVec 64
  rflags : BitVec 64
  rsp : BitVec 64
  ss : BitVec 64
deriving DecidableEq

namespace Frame

variable (frame : Frame)

def words : List (BitVec 64) :=
  [frame.r15, frame.r14, frame.r13, frame.r12, frame.r11, frame.r10, frame.r9, frame.r8, frame.rbp, frame.rdi,
    frame.rsi, frame.rdx, frame.rcx, frame.rbx, frame.rax, frame.interruptNumber, frame.errorCode, frame.rip,
    frame.cs, frame.rflags, frame.rsp, frame.ss]

def ofList (words : List (BitVec 64)) : Frame where
  r15 := words.getD 0 0
  r14 := words.getD 1 0
  r13 := words.getD 2 0
  r12 := words.getD 3 0
  r11 := words.getD 4 0
  r10 := words.getD 5 0
  r9 := words.getD 6 0
  r8 := words.getD 7 0
  rbp := words.getD 8 0
  rdi := words.getD 9 0
  rsi := words.getD 10 0
  rdx := words.getD 11 0
  rcx := words.getD 12 0
  rbx := words.getD 13 0
  rax := words.getD 14 0
  interruptNumber := words.getD 15 0
  errorCode := words.getD 16 0
  rip := words.getD 17 0
  cs := words.getD 18 0
  rflags := words.getD 19 0
  rsp := words.getD 20 0
  ss := words.getD 21 0

/-- The frame as it lies in memory. -/
def bytes : List Byte := Bytes.ofWords frame.words

def ofBytes (list : List Byte) : Frame := ofList (Bytes.toWords 22 list)

def size : Nat := 176

@[simp]
theorem length_bytes : frame.bytes.length = size := Bytes.length_ofWords _

@[simp]
theorem ofBytes_bytes : ofBytes frame.bytes = frame := by
  have words_ := Bytes.toWords_ofWords frame.words []
  rw [List.append_nil] at words_
  change ofList (Bytes.toWords frame.words.length (Bytes.ofWords frame.words)) = frame
  rw [words_]
  rfl

end Frame

/-- `copyout` of a kernel variable, for a task with its own page table: the loop. -/
def storeBytes : (dst : Address) → List Byte → Memory → Bool × Memory
  | _, [], memory => (true, memory)
  | dst, byte :: rest, memory =>
    if memory.writable dst then storeBytes (dst + 1) rest (memory.setByte dst byte) else (false, memory)

def copyoutObject (dst : Address) (object : List Byte) (memory : Memory) : Bool × Memory :=
  if object = [] then (true, memory)
  else if dst = 0 then (false, memory)
  else if dst < userMax ∧ !userRangeOk dst (ofNat 64 object.length) then (false, memory)
  else storeBytes dst object memory

/-- `copyin` into a kernel variable, the loop. -/
def loadBytes : (src : Address) → (len : Nat) → Memory → Option (List Byte)
  | _, 0, _ => some []
  | src, len + 1, memory =>
    if memory.readable src then (loadBytes (src + 1) len memory).map (memory.bytes src :: ·) else none

def copyinObject (src : Address) (len : Nat) (memory : Memory) : Option (List Byte) :=
  if len = 0 then some []
  else if src = 0 then none
  else if !userRangeOk src (ofNat 64 len) then none
  else loadBytes src len memory

section Objects

variable {dst src : Address} {object : List Byte} {memory : Memory}

theorem add_ofNat_succ (start : Address) (index : Nat) : start + 1 + ofNat 64 index = start + ofNat 64 (index + 1) := by
  rw [Nat.add_comm index, ofNat_add, BitVec.add_assoc]
  rfl

theorem add_ofNat_ne (start : Address) {first second : Nat} (bound : first < 2 ^ 64) (boundToo : second < 2 ^ 64)
    (differ : first ≠ second) : start + ofNat 64 first ≠ start + ofNat 64 second := by
  intro same
  have offset := congrArg BitVec.toNat (BitVec.add_right_inj start |>.mp same)
  rw [toNat_ofNat, toNat_ofNat, mod_eq_of_lt bound, mod_eq_of_lt boundToo] at offset
  exact differ offset

theorem storeBytes_readable (dst : Address) (object : List Byte) (memory : Memory) :
    (storeBytes dst object memory).2.readable = memory.readable := by
  induction object generalizing dst memory with
  | nil => rfl
  | cons byte rest ih =>
    rw [storeBytes]
    split
    · exact ih _ _
    · rfl

theorem storeBytes_outside {addr : Address} (outside : ∀ index < object.length, addr ≠ dst + ofNat 64 index) :
    (storeBytes dst object memory).2.bytes addr = memory.bytes addr := by
  induction object generalizing dst memory with
  | nil => rfl
  | cons byte rest ih =>
    rw [storeBytes]
    split
    · have first : addr ≠ dst := by simpa using outside 0 (succ_pos _)
      rw [ih fun index bound => by rw [add_ofNat_succ]; exact outside _ (succ_lt_succ bound)]
      exact if_neg first
    · rfl

theorem loadBytes_congr {len : Nat} {other : Memory} (readable : other.readable = memory.readable)
    (same : ∀ index < len, other.bytes (src + ofNat 64 index) = memory.bytes (src + ofNat 64 index)) :
    loadBytes src len other = loadBytes src len memory := by
  induction len generalizing src with
  | zero => rfl
  | succ len ih =>
    have first : other.bytes src = memory.bytes src := by simpa using same 0 (succ_pos _)
    rw [loadBytes, loadBytes, readable, first,
      ih fun index bound => by rw [add_ofNat_succ]; exact same _ (succ_lt_succ bound)]

theorem loadBytes_storeBytes (stored : (storeBytes dst object memory).1 = true) (short : object.length < 2 ^ 64) :
    loadBytes dst object.length (storeBytes dst object memory).2 = some object := by
  induction object generalizing dst memory with
  | nil => rfl
  | cons byte rest ih =>
    rw [storeBytes] at stored ⊢
    split at stored
    · rename_i writable
      have shorter : rest.length + 1 < 2 ^ 64 := short
      rw [if_pos writable, List.length_cons, loadBytes, ih stored (by omega), storeBytes_readable]
      have kept : (storeBytes (dst + 1) rest (memory.setByte dst byte)).2.bytes dst = byte := by
        rw [storeBytes_outside fun index bound => ?_]
        · exact if_pos rfl
        · have apart := add_ofNat_ne dst (show 0 < 2 ^ 64 by decide) (show index + 1 < 2 ^ 64 by omega)
            (succ_ne_zero index).symm
          rw [add_ofNat_succ]
          simpa using apart
      rw [kept]
      exact if_pos (memory.readWrite dst writable)
    · contradiction

theorem loadBytes_of_copyinObject {len : Nat} {list : List Byte} (copied : list ∈ copyinObject src len memory) :
    loadBytes src len memory = some list := by
  unfold copyinObject at copied
  split at copied
  · rename_i empty
    rw [empty]
    exact copied
  · split at copied
    · exact absurd copied (Option.not_mem_none list)
    · split at copied
      · exact absurd copied (Option.not_mem_none list)
      · exact copied

theorem copyinObject_eq {len : Nat} (some_ : len ≠ 0) (notNull : src ≠ 0)
    (inRange : userRangeOk src (ofNat 64 len) = true) :
    copyinObject src len memory = loadBytes src len memory := by
  rw [copyinObject, if_neg some_, if_neg notNull, inRange, if_neg (by decide)]

theorem storeBytes_writable (dst : Address) (object : List Byte) (memory : Memory) :
    (storeBytes dst object memory).2.writable = memory.writable := by
  induction object generalizing dst memory with
  | nil => rfl
  | cons byte rest ih =>
    rw [storeBytes]
    split
    · exact ih _ _
    · rfl

theorem storeBytes_succeeds (writable : ∀ index < object.length, memory.writable (dst + ofNat 64 index) = true) :
    (storeBytes dst object memory).1 = true := by
  induction object generalizing dst memory with
  | nil => rfl
  | cons byte rest ih =>
    have first := writable 0 (succ_pos _)
    have here : dst + ofNat 64 0 = dst := BitVec.add_zero dst
    rw [here] at first
    rw [storeBytes, if_pos first]
    exact ih fun index bound => by rw [add_ofNat_succ]; exact writable _ (succ_lt_succ bound)

end Objects

end NyonOS.Signal
