import NyonOS.Elf.Load
import NyonOS.Paging.Falling
import NyonOS.Paging.View

namespace NyonOS.Elf

open Data List
open Paging Function
open BitVec (ofNat toNat_ofNat eq_of_toNat_eq ofNat_add toNat_add)

/-! The initial stack of a program. It is laid out by addresses of the program and written by
physical addresses, which count down from the frame of its topmost page. -/

variable {σ : Type} {depth : Nat}

/-! Physical memory. -/

section Physical

variable {machine : Machine σ depth} {addr other : PAddr} {byte : UInt8} {bytes : List UInt8}

def physByte (machine : Machine σ depth) (addr : PAddr) : UInt8 :=
  machine.bytes (frameAt addr) ⟨addr.toNat % 4096, offset_lt addr⟩

theorem physByte_poke_self : physByte (poke machine addr byte) addr = byte := by
  unfold physByte poke
  dsimp only
  rw [update_self, update_self]

theorem physByte_poke_other (different : other ≠ addr) : physByte (poke machine addr byte) other = physByte machine other := by
  unfold physByte poke
  dsimp only
  by_cases same : frameAt other = frameAt addr
  · have frames : other.toNat / 4096 = addr.toNat / 4096 := by
      have numbers := congrArg BitVec.toNat same
      simp only [frameAt, toNat_ofNat] at numbers
      omega
    rw [same, update_self, update_of_ne]
    intro offsets
    refine different (eq_of_toNat_eq ?_)
    have offset := congrArg Fin.val offsets
    dsimp only at offset
    omega
  · rw [update_of_ne same]

theorem physByte_pokes_outside (outside : ∀ k < bytes.length, other ≠ addr + ofNat 64 k) :
    physByte (pokes machine addr bytes) other = physByte machine other := by
  induction bytes generalizing machine addr with
  | nil => rfl
  | cons byte rest ih =>
    rw [pokes, ih, physByte_poke_other]
    · have here := outside 0 (by simp)
      rwa [BitVec.add_zero] at here
    · intro k inside
      have later := outside (k + 1) (by simpa using inside)
      rwa [Nat.add_comm, ofNat_add, ← BitVec.add_assoc] at later

theorem physByte_pokes_inside {k : Nat} (short : bytes.length < 2 ^ 64) (found : bytes[k]? = some byte) :
    physByte (pokes machine addr bytes) (addr + ofNat 64 k) = byte := by
  induction bytes generalizing machine addr k with
  | nil => cases found
  | cons first rest ih =>
    simp only [length_cons] at short
    rw [pokes]
    cases k with
    | zero =>
      cases found
      rw [physByte_pokes_outside, BitVec.add_zero, physByte_poke_self]
      intro later inside same
      have numbers := congrArg BitVec.toNat (show ofNat 64 0 = 1#64 + ofNat 64 later by bv_omega)
      rw [← ofNat_add, toNat_ofNat, toNat_ofNat] at numbers
      omega
    | succ k =>
      rw [Nat.add_comm, ofNat_add, ← BitVec.add_assoc]
      exact ih (by omega) found

theorem pokes_same (machine : Machine σ depth) (addr : PAddr) (bytes : List UInt8) :
    (pokes machine addr bytes).spaces = machine.spaces ∧ (pokes machine addr bytes).frames = machine.frames ∧
      (pokes machine addr bytes).cpuHasNx = machine.cpuHasNx := by
  induction bytes generalizing machine addr with
  | nil => exact ⟨rfl, rfl, rfl⟩
  | cons byte rest ih => exact ih (poke machine addr byte) (addr + 1)

theorem pokes_elsewhere {frame : PAddr} (missed : ∀ k < bytes.length, frameAt (addr + ofNat 64 k) ≠ frame) :
    (pokes machine addr bytes).bytes frame = machine.bytes frame := by
  induction bytes generalizing machine addr with
  | nil => rfl
  | cons byte rest ih =>
    have here := missed 0 (by simp)
    rw [BitVec.add_zero] at here
    rw [pokes, ih]
    · exact update_of_ne here.symm _ _
    · intro k inside
      have later := missed (k + 1) (by simpa using inside)
      rwa [Nat.add_comm, ofNat_add, ← BitVec.add_assoc] at later

theorem frameAt_aligned {frame : PAddr} (aligned : Aligned frame) {k : Nat} (inside : k < 4096) :
    frameAt (frame + ofNat 64 k) = frame := by
  have multiple := aligned.toNat_mod
  have bound := frame.isLt
  unfold pageSize at multiple
  refine eq_of_toNat_eq ?_
  rw [frameAt, toNat_ofNat, toNat_add, toNat_ofNat]
  omega

end Physical

/-! Positions on the stack. -/

section Positions

variable {page : PAddr} {pos other : Nat}

theorem stackPhys_add (page : PAddr) (pos k : Nat) : stackPhys page pos + ofNat 64 k = stackPhys page (pos + k) := by
  unfold stackPhys
  rw [ofNat_add, BitVec.add_assoc]

theorem stackPhys_injective (bound : pos < 2 ^ 64) (otherBound : other < 2 ^ 64) (same : stackPhys page pos = stackPhys page other) :
    pos = other := by
  unfold stackPhys at same
  have numbers := congrArg BitVec.toNat (add_left_cancel same)
  rw [toNat_ofNat, toNat_ofNat] at numbers
  omega

theorem stackPhys_top (aligned : Aligned page) (lower : stackRoom - pageSize ≤ pos) (upper : pos < stackRoom) :
    frameAt (stackPhys page pos) = page ∧ (stackPhys page pos).toNat % 4096 = pos % 4096 := by
  have number : (stackPhys page pos).toNat = page.toNat + pos % 4096 := by
    have multiple := aligned.toNat_mod
    have bound := page.isLt
    unfold stackPhys
    change 12288 ≤ pos at lower
    change pos < 16384 at upper
    change (page - ofNat 64 12288 + ofNat 64 pos).toNat = _
    rw [toNat_add, BitVec.toNat_sub, toNat_ofNat, toNat_ofNat]
    unfold pageSize at multiple
    omega
  have multiple := aligned.toNat_mod
  unfold pageSize at multiple
  refine ⟨eq_of_toNat_eq ?_, by omega⟩
  rw [frameAt, number, toNat_ofNat]
  have bound := page.isLt
  omega

end Positions

def posByte (machine : Machine σ depth) (page : PAddr) (pos : Nat) : UInt8 := physByte machine (stackPhys page pos)

/-- Nothing has been written but the bytes at some positions of the stack. -/
structure Wrote (page : PAddr) (low high : Nat) (machine after : Machine σ depth) : Prop where
  spaces : after.spaces = machine.spaces
  frames : after.frames = machine.frames
  cpuHasNx : after.cpuHasNx = machine.cpuHasNx
  bytes : ∀ pos < 2 ^ 64, (low ≤ pos → high ≤ pos) → posByte after page pos = posByte machine page pos
  elsewhere : ∀ frame, (∀ pos, low ≤ pos → pos < high → frameAt (stackPhys page pos) ≠ frame) → after.bytes frame = machine.bytes frame

namespace Wrote

variable {page : PAddr} {low middle high pos : Nat} {machine now after : Machine σ depth} {bytes : List UInt8}

theorem refl : Wrote page low high machine machine := ⟨rfl, rfl, rfl, fun _ _ _ => rfl, fun _ _ => rfl⟩

theorem trans (first : Wrote page middle high machine now) (second : Wrote page low middle now after) (lower : low ≤ middle)
    (upper : middle ≤ high) : Wrote page low high machine after := by
  refine ⟨second.spaces.trans first.spaces, second.frames.trans first.frames, second.cpuHasNx.trans first.cpuHasNx, ?_, ?_⟩
  · intro pos bound outside
    rw [second.bytes pos bound (by omega), first.bytes pos bound (by omega)]
  · intro frame missed
    rw [second.elsewhere frame fun pos least most => missed pos least (by omega),
      first.elsewhere frame fun pos least most => missed pos (by omega) most]

theorem mono {lower higher : Nat} (wrote : Wrote page low high machine after) (least : lower ≤ low) (most : high ≤ higher) :
    Wrote page lower higher machine after :=
  ⟨wrote.spaces, wrote.frames, wrote.cpuHasNx, fun pos bound outside => wrote.bytes pos bound (by omega),
    fun frame missed => wrote.elsewhere frame fun pos lower upper => missed pos (by omega) (by omega)⟩

theorem pokes (bound : pos + bytes.length ≤ 2 ^ 64) :
    Wrote page pos (pos + bytes.length) machine (pokes machine (stackPhys page pos) bytes) := by
  obtain ⟨spaces, frames, cpuHasNx⟩ := pokes_same machine (stackPhys page pos) bytes
  refine ⟨spaces, frames, cpuHasNx, fun other otherBound outside => ?_, fun frame missed => ?_⟩
  · refine physByte_pokes_outside fun k inside same => ?_
    rw [stackPhys_add] at same
    have equal := stackPhys_injective otherBound (by omega) same
    omega
  · refine pokes_elsewhere fun k inside => ?_
    rw [stackPhys_add]
    exact missed _ (by omega) (by omega)

end Wrote

theorem posByte_pokes {machine : Machine σ depth} {page : PAddr} {pos k : Nat} {bytes : List UInt8} {byte : UInt8}
    (short : bytes.length < 2 ^ 64) (found : bytes[k]? = some byte) :
    posByte (pokes machine (stackPhys page pos) bytes) page (pos + k) = byte := by
  rw [posByte, ← stackPhys_add]
  exact physByte_pokes_inside short found

/-! What a program finds on its stack. -/

/-- The bytes of a string with its end, at an address. -/
def StringAt (byte : Nat → UInt8) (addr : Nat) (string : List UInt8) : Prop :=
  ∀ k value, (string ++ [0])[k]? = some value → byte (addr + k) = value

def numberAt (byte : Nat → UInt8) (addr : Nat) : Nat → Nat
  | 0 => 0
  | count + 1 => numberAt byte addr count + (byte (addr + count)).toNat * 256 ^ count

def wordAt (byte : Nat → UInt8) (addr : Nat) : BitVec 64 := ofNat 64 (numberAt byte addr 8)

/-- Pointers to strings, in the words from an address on. -/
structure PointersAt (byte : Nat → UInt8) (sp addr : Nat) (strings : List (List UInt8)) : Prop where
  pointer : ∀ i string, strings[i]? = some string → ∃ pointer, wordAt byte (addr + 8 * i) = ofNat 64 pointer ∧
    sp ≤ pointer ∧ pointer + string.length < stackTop ∧ StringAt byte pointer string
  null : wordAt byte (addr + 8 * strings.length) = 0

/-- The stack of a new program, as it reads it from its stack pointer on. -/
structure InitialStack (byte : Nat → UInt8) (argv envp : List (List UInt8)) (aux : List (Nat × Nat)) (sp : Nat) : Prop where
  aligned : sp % 16 = 0
  argc : wordAt byte sp = ofNat 64 argv.length
  arguments : PointersAt byte sp (sp + 8) argv
  environment : PointersAt byte sp (sp + 8 * (argv.length + 2)) envp
  auxiliary : ∀ i pair, aux[i]? = some pair →
    wordAt byte (sp + 8 * (argv.length + envp.length + 3 + 2 * i)) = ofNat 64 pair.1 ∧
      wordAt byte (sp + 8 * (argv.length + envp.length + 4 + 2 * i)) = ofNat 64 pair.2
  auxEnd : wordAt byte (sp + 8 * (argv.length + envp.length + 3 + 2 * aux.length)) = 0

section Words

variable {byte : Nat → UInt8} {addr word : Nat}

theorem wordAt_bytes (bytes : ∀ k < 8, byte (addr + k) = UInt8.ofNat (word / 256 ^ k)) : wordAt byte addr = ofNat 64 word := by
  have value : ∀ k < 8, (byte (addr + k)).toNat = word / 256 ^ k % 256 := by
    intro k inside
    rw [bytes k inside, UInt8.toNat_ofNat']
  refine eq_of_toNat_eq ?_
  rw [wordAt, toNat_ofNat, toNat_ofNat]
  simp only [numberAt, value, Nat.reduceLT, Nat.reducePow]
  omega

theorem getElem?_wordBytes {values : List Nat} {i k value : Nat} (found : values[i]? = some value) (inside : k < 8) :
    (values.flatMap wordBytes)[8 * i + k]? = some (UInt8.ofNat (value / 256 ^ k)) := by
  have width : ∀ word, (wordBytes word).length = 8 := fun word => by simp [wordBytes]
  induction values generalizing i with
  | nil => cases found
  | cons first rest ih =>
    rw [flatMap_cons]
    cases i with
    | zero =>
      cases found
      rw [getElem?_append_left (by rw [width]; omega)]
      simp [wordBytes, inside]
    | succ i =>
      rw [getElem?_append_right (by rw [width]; omega), width, show 8 * (i + 1) + k - 8 = 8 * i + k by omega]
      exact ih found

theorem length_wordBytes (values : List Nat) : (values.flatMap wordBytes).length = 8 * values.length := by
  induction values with
  | nil => rfl
  | cons value rest ih =>
    rw [flatMap_cons, length_append, ih, length_cons]
    simp only [wordBytes, length_map, length_range]
    omega

end Words

/-! The strings. -/

/-- Where the strings end, if there is room for them. -/
def stringsEnd : List (List UInt8) → Nat → Option Nat
  | [], top => some top
  | bytes :: rest, top => if top < bytes.length + 16 then none else stringsEnd rest ((top - bytes.length - 1) / 8 * 8)

/-- The strings and the list of pointers to them. -/
structure Texts (byte : Nat → UInt8) (top : Nat) (pointers : List Nat) (strings : List (List UInt8)) : Prop where
  length : pointers.length = strings.length
  text : ∀ {i : Nat} {string : List UInt8}, strings[i]? = some string → ∃ pos, pointers[i]? = some (stackVirt pos) ∧ top ≤ pos ∧
    pos + string.length < stackRoom ∧ StringAt byte pos string

theorem Texts.keep {byte after : Nat → UInt8} {top lower : Nat} {pointers : List Nat} {strings : List (List UInt8)}
    (texts : Texts byte top pointers strings) (below : lower ≤ top)
    (same : ∀ pos, top ≤ pos → pos < stackRoom → after pos = byte pos) : Texts after lower pointers strings := by
  refine ⟨texts.length, fun found => ?_⟩
  obtain ⟨pos, pointer, least, most, string⟩ := texts.text found
  refine ⟨pos, pointer, by omega, most, fun k value member => ?_⟩
  have inside := (List.getElem?_eq_some_iff.mp member).1
  simp only [length_append, length_singleton] at inside
  rw [same (pos + k) (by omega) (by omega)]
  exact string k value member

section Strings

variable {page : PAddr} {strings old : List (List UInt8)} {now : Pushing σ depth}

theorem pushString_spec {bytes : List UInt8} (room : ¬now.top < bytes.length + 16) (inside : now.top ≤ stackRoom)
    (texts : Texts (posByte now.machine page) now.top now.pointers old) :
    let after := (pushString page bytes now).2
    after.top = (now.top - bytes.length - 1) / 8 * 8 ∧ Wrote page after.top now.top now.machine after.machine ∧
      Texts (posByte after.machine page) after.top after.pointers (old ++ [bytes]) := by
  have small : stackRoom < 2 ^ 64 := by decide
  unfold pushString
  rw [if_neg room]
  dsimp only
  have wrote : Wrote page (now.top - bytes.length - 1) now.top now.machine
      (pokes now.machine (stackPhys page (now.top - bytes.length - 1)) (bytes ++ [0])) := by
    refine Wrote.mono (Wrote.pokes ?_) le_rfl ?_
    · simp only [length_append, length_singleton]
      omega
    · simp only [length_append, length_singleton]
      omega
  refine ⟨rfl, wrote.mono (by omega) le_rfl, ?_⟩
  have kept := texts.keep (show (now.top - bytes.length - 1) / 8 * 8 ≤ now.top by omega)
    fun pos least most => wrote.bytes pos (by omega) fun _ => least
  refine ⟨by simp [kept.length], fun {i string} found => ?_⟩
  by_cases earlier : i < old.length
  · rw [getElem?_append_left earlier] at found
    obtain ⟨pos, pointer, rest⟩ := kept.text found
    exact ⟨pos, by rw [getElem?_append_left (by rw [kept.length]; exact earlier), pointer], rest⟩
  · have last : i = old.length := by
      have bound := (List.getElem?_eq_some_iff.mp found).1
      simp only [length_append, length_singleton] at bound
      omega
    subst last
    rw [getElem?_append_right le_rfl, Nat.sub_self] at found
    cases found
    refine ⟨now.top - bytes.length - 1, ?_, by omega, by omega, fun k value member => ?_⟩
    · rw [← kept.length, getElem?_append_right le_rfl, Nat.sub_self]
      rfl
    · refine posByte_pokes ?_ member
      simp only [length_append, length_singleton]
      omega

theorem pushStrings_spec (inside : now.top ≤ stackRoom) (texts : Texts (posByte now.machine page) now.top now.pointers old) :
    let pushed := forUntil (pushString page) strings now
    (pushed.1 = false ∧ stringsEnd strings now.top = none) ∨
      (pushed.1 = true ∧ stringsEnd strings now.top = some pushed.2.top ∧ pushed.2.top ≤ now.top ∧
        Wrote page pushed.2.top now.top now.machine pushed.2.machine ∧
        Texts (posByte pushed.2.machine page) pushed.2.top pushed.2.pointers (old ++ strings)) := by
  induction strings generalizing now old with
  | nil =>
    right
    rw [append_nil]
    exact ⟨rfl, rfl, le_rfl, Wrote.refl, texts⟩
  | cons bytes rest ih =>
    dsimp only
    rw [forUntil_cons, stringsEnd]
    by_cases full : now.top < bytes.length + 16
    · left
      have stopped : pushString page bytes now = (false, now) := if_pos full
      rw [stopped, if_pos full]
      exact ⟨rfl, rfl⟩
    · have goes : (pushString page bytes now).1 = true := by
        unfold pushString
        rw [if_neg full]
      obtain ⟨top, wrote, next⟩ := pushString_spec full inside texts
      have later := @ih (old ++ [bytes]) (pushString page bytes now).2 (by omega) next
      rw [goes, if_pos rfl, if_neg full]
      rw [top] at later
      rcases later with stopped | ⟨done, end_, lower, more, all⟩
      · exact .inl stopped
      · refine .inr ⟨done, end_, by omega, wrote.trans (top ▸ more) (by omega) (by omega), ?_⟩
        rwa [append_assoc] at all

end Strings

/-! The words below the strings. -/

/-- Where the stack pointer comes to be, if there is room for everything. -/
def stackPosition (argv envp : List (List UInt8)) (auxc : Nat) : Option Nat :=
  if 128 < argv.length ∨ 128 < envp.length ∨ 128 < auxc then none
  else
    (stringsEnd (argv ++ envp) stackRoom).bind fun end_ =>
      let top := end_ / 16 * 16
      let words := stackWords argv.length envp.length auxc
      if top < words * 8 + 16 then none else some (top - words * 8)

theorem stackWords_spec (argc envc auxc : Nat) : 1 + argc + 1 + envc + 1 + auxc * 2 + 2 ≤ stackWords argc envc auxc ∧
    stackWords argc envc auxc % 2 = 0 := by
  unfold stackWords
  dsimp only
  split <;> omega

theorem stringsEnd_append (first second : List (List UInt8)) (top : Nat) :
    stringsEnd (first ++ second) top = (stringsEnd first top).bind (stringsEnd second) := by
  induction first generalizing top with
  | nil => rfl
  | cons bytes rest ih =>
    rw [cons_append, stringsEnd, stringsEnd]
    split
    · rfl
    · exact ih _

def stackValues (argv envp : List Nat) (aux : List (Nat × Nat)) : List Nat :=
  argv.length :: (argv ++ 0 :: (envp ++ 0 :: (aux.flatMap (fun pair => [pair.1, pair.2]) ++ [0, 0])))

section Values

variable {argv envp : List Nat} {aux : List (Nat × Nat)} {i : Nat}

theorem length_pairs (aux : List (Nat × Nat)) : (aux.flatMap fun pair => [pair.1, pair.2]).length = 2 * aux.length := by
  induction aux with
  | nil => rfl
  | cons pair rest ih =>
    rw [flatMap_cons, length_append, ih, length_cons]
    simp only [length_cons, length_nil]
    omega

theorem getElem?_pairs {pair : Nat × Nat} (found : aux[i]? = some pair) :
    (aux.flatMap fun pair => [pair.1, pair.2])[2 * i]? = some pair.1 ∧
      (aux.flatMap fun pair => [pair.1, pair.2])[2 * i + 1]? = some pair.2 := by
  induction aux generalizing i with
  | nil => cases found
  | cons first rest ih =>
    cases i with
    | zero =>
      cases found
      exact ⟨rfl, rfl⟩
    | succ i => exact ih found

theorem getElem?_after {α : Type} (first rest : List α) (i : Nat) : (first ++ rest)[first.length + i]? = rest[i]? := by
  rw [getElem?_append_right (Nat.le_add_right ..), Nat.add_sub_cancel_left]

theorem length_stackValues : (stackValues argv envp aux).length = 1 + argv.length + 1 + envp.length + 1 + aux.length * 2 + 2 := by
  simp only [stackValues, length_cons, length_append, length_pairs, length_nil]
  omega

theorem stackValues_argv {pointer : Nat} (found : argv[i]? = some pointer) : (stackValues argv envp aux)[1 + i]? = some pointer := by
  have inside := (List.getElem?_eq_some_iff.mp found).1
  rw [stackValues, Nat.add_comm, getElem?_cons_succ, getElem?_append_left inside, found]

theorem stackValues_argvEnd : (stackValues argv envp aux)[1 + argv.length]? = some 0 := by
  rw [stackValues, Nat.add_comm, getElem?_cons_succ]
  exact getElem?_after argv _ 0

theorem stackValues_past (i : Nat) : (stackValues argv envp aux)[argv.length + 2 + i]? =
    (envp ++ 0 :: (aux.flatMap (fun pair => [pair.1, pair.2]) ++ [0, 0]))[i]? := by
  rw [stackValues, show argv.length + 2 + i = argv.length + (i + 1) + 1 by omega, getElem?_cons_succ, getElem?_after,
    getElem?_cons_succ]

theorem stackValues_envp {pointer : Nat} (found : envp[i]? = some pointer) :
    (stackValues argv envp aux)[argv.length + 2 + i]? = some pointer := by
  have inside := (List.getElem?_eq_some_iff.mp found).1
  rw [stackValues_past, getElem?_append_left inside, found]

theorem stackValues_envpEnd : (stackValues argv envp aux)[argv.length + 2 + envp.length]? = some 0 := by
  rw [stackValues_past]
  exact getElem?_after envp _ 0

theorem stackValues_aux (i : Nat) : (stackValues argv envp aux)[argv.length + envp.length + 3 + i]? =
    (aux.flatMap (fun pair => [pair.1, pair.2]) ++ [0, 0])[i]? := by
  rw [show argv.length + envp.length + 3 + i = argv.length + 2 + (envp.length + (i + 1)) by omega, stackValues_past, getElem?_after,
    getElem?_cons_succ]

end Values

def virtByte (byte : Nat → UInt8) (addr : Nat) : UInt8 := byte (addr - stackBase)

theorem virtByte_at (byte : Nat → UInt8) (pos k : Nat) : virtByte byte (stackVirt pos + k) = byte (pos + k) := by
  unfold virtByte stackVirt
  rw [Nat.add_assoc, Nat.add_sub_cancel_left]

section Layout

variable {byte : Nat → UInt8} {argv envp : List (List UInt8)} {aux : List (Nat × Nat)} {args envs : List Nat} {pos top : Nat}

theorem Texts.pointersAt {strings : List (List UInt8)} {pointers : List Nat} {addr : Nat} (texts : Texts byte top pointers strings)
    (below : pos ≤ top)
    (words : ∀ i pointer, pointers[i]? = some pointer → wordAt (virtByte byte) (addr + 8 * i) = ofNat 64 pointer)
    (null : wordAt (virtByte byte) (addr + 8 * strings.length) = 0) : PointersAt (virtByte byte) (stackVirt pos) addr strings := by
  refine ⟨fun i string found => ?_, null⟩
  obtain ⟨there, pointer, least, most, string⟩ := texts.text found
  refine ⟨stackVirt there, words i _ pointer, ?_, ?_, fun k value member => ?_⟩
  · unfold stackVirt
    omega
  · unfold stackVirt
    change there + _ < stackTop - stackBase at most
    omega
  · rw [virtByte_at]
    exact string k value member

theorem initialStack_values (aligned : pos % 16 = 0) (below : pos ≤ top) (arguments : Texts byte top args argv)
    (environment : Texts byte top envs envp)
    (words : ∀ i value, (stackValues args envs aux)[i]? = some value →
      wordAt (virtByte byte) (stackVirt pos + 8 * i) = ofNat 64 value) :
    InitialStack (virtByte byte) argv envp aux (stackVirt pos) := by
  refine ⟨?_, ?_, ?_, ?_, ?_, ?_⟩
  · unfold stackVirt
    have base : stackBase % 16 = 0 := by decide
    omega
  · rw [← arguments.length]
    exact words 0 _ rfl
  · refine arguments.pointersAt below (fun i pointer found => ?_) ?_
    · rw [Nat.add_assoc, show 8 + 8 * i = 8 * (1 + i) by omega]
      exact words _ _ (stackValues_argv found)
    · rw [Nat.add_assoc, show 8 + 8 * argv.length = 8 * (1 + argv.length) by omega, ← arguments.length]
      exact words _ _ stackValues_argvEnd
  · refine environment.pointersAt below (fun i pointer found => ?_) ?_
    · rw [Nat.add_assoc, ← Nat.mul_add, ← arguments.length]
      exact words _ _ (stackValues_envp found)
    · rw [Nat.add_assoc, ← Nat.mul_add, ← arguments.length, ← environment.length]
      exact words _ _ stackValues_envpEnd
  · intro i pair found
    obtain ⟨type, value⟩ := getElem?_pairs found
    have inside := (List.getElem?_eq_some_iff.mp found).1
    rw [← arguments.length, ← environment.length]
    refine ⟨words _ _ ?_, words _ _ ?_⟩
    · rw [stackValues_aux, getElem?_append_left (by rw [length_pairs]; omega), type]
    · rw [show args.length + envs.length + 4 + 2 * i = args.length + envs.length + 3 + (2 * i + 1) by omega, stackValues_aux,
        getElem?_append_left (by rw [length_pairs]; omega), value]
  · rw [← arguments.length, ← environment.length]
    refine words _ _ ?_
    rw [stackValues_aux, ← length_pairs]
    exact getElem?_after _ _ 0

end Layout

/-! `vm_stack_push_strings` as a whole. -/

section Push

variable {machine : Machine σ depth} {root : PAddr} {argv envp : List (List UInt8)} {aux : List (Nat × Nat)}

theorem pushWords_spec {page : PAddr} {args envs : List Nat} {pos top : Nat}
    (arguments : Texts (posByte machine page) top args argv) (environment : Texts (posByte machine page) top envs envp)
    (aligned : pos % 16 = 0) (below : pos + 8 * (1 + argv.length + 1 + envp.length + 1 + aux.length * 2 + 2) ≤ top)
    (inside : top ≤ stackRoom) :
    let after := pokes machine (stackPhys page pos) ((stackValues args envs aux).flatMap wordBytes)
    Wrote page pos top machine after ∧ InitialStack (virtByte (posByte after page)) argv envp aux (stackVirt pos) := by
  intro after
  have room : stackRoom < 2 ^ 63 := by decide
  have length : ((stackValues args envs aux).flatMap wordBytes).length =
      8 * (1 + argv.length + 1 + envp.length + 1 + aux.length * 2 + 2) := by
    rw [length_wordBytes, length_stackValues, arguments.length, environment.length]
  have wrote : Wrote page pos top machine after := (Wrote.pokes (by omega)).mono le_rfl (by omega)
  have kept : ∀ there, top ≤ there → there < stackRoom → posByte after page there = posByte machine page there :=
    fun there least most => wrote.bytes there (by omega) fun _ => least
  refine ⟨wrote, initialStack_values aligned (by omega) (arguments.keep le_rfl kept) (environment.keep le_rfl kept) ?_⟩
  intro i value found
  refine wordAt_bytes fun k width => ?_
  rw [Nat.add_assoc, virtByte_at]
  exact posByte_pokes (by omega) (getElem?_wordBytes found width)

/-- Everything is written where it belongs if the frames below that of the topmost page are
taken for those of the stack. -/
theorem vmStackPushStrings_spec (present : has (machine.entry root topPage) pagePresent = true) :
    let page := frameOf (machine.entry root topPage)
    (vmStackPushStrings root argv envp aux machine = none ∧ stackPosition argv envp aux.length = none) ∨
      ∃ pos pushed, stackPosition argv envp aux.length = some pos ∧ vmStackPushStrings root argv envp aux machine = some pushed ∧
        pushed.sp = stackVirt pos ∧ pos < stackRoom ∧ Wrote page pos stackRoom machine pushed.machine ∧
        InitialStack (virtByte (posByte pushed.machine page)) argv envp aux (stackVirt pos) := by
  unfold vmStackPushStrings stackPosition
  by_cases many : 128 < argv.length ∨ 128 < envp.length ∨ 128 < aux.length
  · rw [if_pos many, if_pos many]
    exact .inl ⟨rfl, rfl⟩
  rw [if_neg many, if_neg many, stringsEnd_append]
  dsimp only
  rw [present, if_neg (by decide)]
  generalize frameOf (machine.entry root topPage) = page
  have empty : Texts (posByte machine page) stackRoom [] [] := ⟨rfl, fun found => by cases found⟩
  have pushedArgs := @pushStrings_spec σ depth page argv [] ⟨stackRoom, [], machine⟩ le_rfl empty
  generalize forUntil (pushString page) argv ⟨stackRoom, [], machine⟩ = args at pushedArgs ⊢
  dsimp only at pushedArgs
  rcases pushedArgs with ⟨stopped, full⟩ | ⟨done, argsEnd, argsLower, argsWrote, arguments⟩
  · rw [stopped, full, if_pos (by rfl)]
    exact .inl ⟨rfl, rfl⟩
  rw [done, argsEnd, if_neg (by decide), Option.bind_some]
  have noTexts : Texts (posByte args.2.machine page) args.2.top [] [] := ⟨rfl, fun found => by cases found⟩
  have pushedEnvs := @pushStrings_spec σ depth page envp [] { args.2 with pointers := [] } argsLower noTexts
  generalize forUntil (pushString page) envp { args.2 with pointers := [] } = envs at pushedEnvs ⊢
  dsimp only at pushedEnvs
  rcases pushedEnvs with ⟨stopped, full⟩ | ⟨done, envsEnd, envsLower, envsWrote, environment⟩
  · rw [stopped, full, if_pos (by rfl)]
    exact .inl ⟨rfl, rfl⟩
  rw [done, envsEnd, if_neg (by decide), Option.bind_some]
  by_cases short : envs.2.top / 16 * 16 < stackWords argv.length envp.length aux.length * 8 + 16
  · rw [if_pos short, if_pos short]
    exact .inl ⟨rfl, rfl⟩
  rw [if_neg short, if_neg short]
  rw [nil_append] at arguments environment
  have values : [argv.length] ++ args.2.pointers ++ [0] ++ envs.2.pointers ++ [0] ++
      aux.flatMap (fun pair => [pair.1, pair.2]) ++ [0, 0] = stackValues args.2.pointers envs.2.pointers aux := by
    simp only [stackValues, arguments.length, append_assoc, cons_append, nil_append]
  rw [values]
  obtain ⟨enough, even⟩ := stackWords_spec argv.length envp.length aux.length
  have room : stackRoom < 2 ^ 63 := by decide
  have kept : ∀ there, args.2.top ≤ there → there < stackRoom →
      posByte envs.2.machine page there = posByte args.2.machine page there :=
    fun there least most => envsWrote.bytes there (by omega) fun _ => least
  obtain ⟨wrote, stack⟩ := @pushWords_spec σ depth envs.2.machine argv envp aux page args.2.pointers envs.2.pointers
    (envs.2.top / 16 * 16 - stackWords argv.length envp.length aux.length * 8) envs.2.top (arguments.keep envsLower kept) environment
    (by omega) (by omega) (by omega)
  have all := (argsWrote.trans envsWrote envsLower argsLower).trans wrote (by omega) (by omega)
  generalize pokes envs.2.machine _ _ = after at all stack ⊢
  exact .inr ⟨_, _, rfl, rfl, rfl, by omega, all, stack⟩

end Push

end NyonOS.Elf
