import NyonOS.Elf.Stack

namespace NyonOS.Elf

open Data List BitVec
open Paging

/-! The initial stack as the program sees it through its page table. -/

variable {σ : Type} [FrameAllocator σ] {depth : Nat}

def userByte (machine : Machine σ depth) (root : PAddr) (addr : Nat) : UInt8 :=
  machine.bytes (frameOf (machine.entry root (addr / pageSize))) ⟨addr % 4096, Nat.mod_lt _ (by decide)⟩

/-- The program finds its arguments, and only frames of its stack have been written. -/
structure StackSound (root : PAddr) (argv envp : List (List UInt8)) (aux : List (Nat × Nat)) (machine : Machine σ depth)
    (pushed : Pushed σ depth) : Prop where
  stack : InitialStack (userByte pushed.machine root) argv envp aux pushed.sp
  own : ∀ frame, pushed.machine.bytes frame ≠ machine.bytes frame → ∃ number, stackBase / pageSize ≤ number ∧
    number < stackTop / pageSize ∧ has (machine.entry root number) pagePresent = true ∧ frameOf (machine.entry root number) = frame

/-- Everything fits into the topmost page of the stack. -/
def FitsTopPage (argv envp : List (List UInt8)) (auxc : Nat) : Prop :=
  ∀ pos, stackPosition argv envp auxc = some pos → stackRoom - pageSize ≤ pos

section Reading

variable {byte other : Nat → UInt8} {sp addr : Nat} {argv envp strings : List (List UInt8)} {aux : List (Nat × Nat)}

theorem numberAt_congr {count : Nat} (same : ∀ k < count, other (addr + k) = byte (addr + k)) :
    numberAt other addr count = numberAt byte addr count := by
  induction count with
  | zero => rfl
  | succ count ih => rw [numberAt, numberAt, ih fun k inside => same k (by omega), same count (by omega)]

theorem PointersAt.congr (pointers : PointersAt byte sp addr strings) (same : ∀ there, sp ≤ there → there < stackTop → other there = byte there)
    (lower : sp ≤ addr) (upper : addr + 8 * (strings.length + 1) ≤ stackTop) : PointersAt other sp addr strings := by
  have words : ∀ i ≤ strings.length, wordAt other (addr + 8 * i) = wordAt byte (addr + 8 * i) := by
    intro i inside
    rw [wordAt, wordAt, numberAt_congr fun k width => same _ (by omega) (by omega)]
  refine ⟨fun i string found => ?_, ?_⟩
  · obtain ⟨pointer, word, least, most, text⟩ := pointers.pointer i string found
    have inside := (List.getElem?_eq_some_iff.mp found).1
    refine ⟨pointer, (words i (by omega)).trans word, least, most, fun k value member => ?_⟩
    have short := (List.getElem?_eq_some_iff.mp member).1
    simp only [length_append, length_singleton] at short
    rw [same _ (by omega) (by omega)]
    exact text k value member
  · exact (words _ le_rfl).trans pointers.null

theorem InitialStack.congr (stack : InitialStack byte argv envp aux sp)
    (same : ∀ there, sp ≤ there → there < stackTop → other there = byte there)
    (upper : sp + 8 * (1 + argv.length + 1 + envp.length + 1 + aux.length * 2 + 2) ≤ stackTop) :
    InitialStack other argv envp aux sp := by
  have words : ∀ i < 1 + argv.length + 1 + envp.length + 1 + aux.length * 2 + 2, wordAt other (sp + 8 * i) = wordAt byte (sp + 8 * i) := by
    intro i inside
    rw [wordAt, wordAt, numberAt_congr fun k width => same _ (by omega) (by omega)]
  refine ⟨stack.aligned, (words 0 (by omega)).trans stack.argc, stack.arguments.congr same (by omega) (by omega),
    stack.environment.congr same (by omega) (by omega), fun i pair found => ?_, ?_⟩
  · have inside := (List.getElem?_eq_some_iff.mp found).1
    obtain ⟨type, value⟩ := stack.auxiliary i pair found
    exact ⟨(words _ (by omega)).trans type, (words _ (by omega)).trans value⟩
  · exact (words _ (by omega)).trans stack.auxEnd

theorem numberAt_head (byte : Nat → UInt8) (addr count : Nat) : (byte addr).toNat ≤ numberAt byte addr (count + 1) := by
  induction count with
  | zero => simp [numberAt]
  | succ count ih =>
    rw [numberAt]
    omega

theorem numberAt_lt (byte : Nat → UInt8) (addr count : Nat) : numberAt byte addr count < 256 ^ count := by
  induction count with
  | zero => simp [numberAt]
  | succ count ih =>
    have value := (byte (addr + count)).toNat_lt
    calc numberAt byte addr (count + 1) = numberAt byte addr count + (byte (addr + count)).toNat * 256 ^ count := rfl
      _ < 256 ^ count + 255 * 256 ^ count := Nat.add_lt_add_of_lt_of_le ih (Nat.mul_le_mul_right _ (by omega))
      _ = 256 ^ (count + 1) := by ring

end Reading

section Fits

variable {machine : Machine σ depth} {root : PAddr} {argv envp : List (List UInt8)} {aux : List (Nat × Nat)} {pushed : Pushed σ depth}

theorem stackPosition_bound {auxc pos : Nat} (found : stackPosition argv envp auxc = some pos)
    (inside : ∀ end_, stringsEnd (argv ++ envp) stackRoom = some end_ → end_ ≤ stackRoom) :
    pos + 8 * (1 + argv.length + 1 + envp.length + 1 + auxc * 2 + 2) ≤ stackRoom ∧ argv.length ≤ 128 := by
  unfold stackPosition at found
  split at found
  · cases found
  · rename_i few
    simp only [Option.bind_eq_some_iff] at found
    obtain ⟨end_, ended, placed⟩ := found
    have below := inside end_ ended
    have enough := (stackWords_spec argv.length envp.length auxc).1
    split at placed
    · cases placed
    · cases placed
      omega

theorem stringsEnd_le {strings : List (List UInt8)} {top end_ : Nat} (ended : stringsEnd strings top = some end_) : end_ ≤ top := by
  induction strings generalizing top with
  | nil =>
    cases ended
    exact le_rfl
  | cons bytes rest ih =>
    rw [stringsEnd] at ended
    split at ended
    · cases ended
    · have lower := ih ended
      omega

omit [FrameAllocator σ] in
theorem userByte_top (pos : Nat) (lower : stackRoom - pageSize ≤ pos) (upper : pos < stackRoom) :
    userByte machine root (stackVirt pos) = posByte machine (frameOf (machine.entry root topPage)) pos := by
  obtain ⟨frame, offset⟩ := stackPhys_top (aligned_frameOf (machine.entry root topPage)) lower upper
  have number : stackVirt pos / pageSize = topPage := by
    change 12288 ≤ pos at lower
    change pos < 16384 at upper
    change (0x3FFFC000 + pos) / 4096 = 0x3FFFF
    omega
  have place : stackVirt pos % 4096 = pos % 4096 := by
    change (0x3FFFC000 + pos) % 4096 = _
    omega
  unfold userByte posByte physByte
  rw [number]
  simp only [frame, offset, place]

omit [FrameAllocator σ] in
theorem stackSound_of_fits (fits : FitsTopPage argv envp aux.length)
    (accepted : vmStackPushStrings root argv envp aux machine = some pushed) : StackSound root argv envp aux machine pushed := by
  have present : has (machine.entry root topPage) pagePresent = true := by
    by_contra absent
    unfold vmStackPushStrings at accepted
    simp [absent] at accepted
  rcases @vmStackPushStrings_spec σ depth machine root argv envp aux present with
    ⟨refused, -⟩ | ⟨pos, same, placed, accepted', sp, inside, wrote, stack⟩
  · cases refused.symm.trans accepted
  · cases accepted'.symm.trans accepted
    have high := fits pos placed
    have entries : pushed.machine.entry root = machine.entry root := by
      funext number
      rw [Machine.entry, Machine.entry, wrote.spaces]
    obtain ⟨bound, -⟩ := stackPosition_bound placed fun _ => stringsEnd_le
    refine ⟨?_, fun frame changed => ?_⟩
    · rw [sp]
      refine stack.congr (fun there least most => ?_) ?_
      · obtain ⟨k, rfl⟩ : ∃ k, there = stackVirt k := ⟨there - stackBase, by unfold stackVirt at *; omega⟩
        have lower : pos ≤ k := by unfold stackVirt at least; omega
        have upper : k < stackRoom := by
          unfold stackVirt at most
          change k < stackTop - stackBase
          omega
        rw [userByte_top k (by omega) upper, entries]
        exact (virtByte_at _ k 0).symm
      · unfold stackVirt
        change _ ≤ stackTop - stackBase at bound
        omega
    · refine ⟨topPage, by decide, by decide, present, ?_⟩
      by_contra different
      refine changed (wrote.elsewhere frame fun there least most => ?_)
      rw [(stackPhys_top (aligned_frameOf _) (high.trans least) most).1]
      exact different

end Fits

/-! With frames from the last one down nothing below the topmost page is where it belongs. -/

namespace Falling

def root : PAddr := Bump.frame (Bump.pages - 1)

/-- After `vm_setup_stack` in an empty address space. -/
def stacked : Machine Paging.Falling 3 := (vmSetupStack root [] Paging.Falling.bare).2

theorem stacked_frames : (vmSetupStack root [] Paging.Falling.bare).1.isSome = true ∧
    has (stacked.entry root topPage) pagePresent = true ∧ frameOf (stacked.entry root topPage) = Bump.frame (Bump.pages - 8) ∧
    (range 4).map (fun i => frameOf (stacked.entry root (stackBase / pageSize + i))) =
      [2, 6, 7, 8].map (fun i => Bump.frame (Bump.pages - i)) := by
  decide +kernel

theorem stacked_bytes (i : Fin 3) : stacked.bytes (Bump.frame (Bump.pages - 11 + i.val)) = fun _ => 0xFF := by
  fin_cases i <;> rfl

theorem frameAt_below {pos : Nat} (low : pos < stackRoom - pageSize) :
    frameAt (stackPhys (Bump.frame (Bump.pages - 8)) pos) = Bump.frame (Bump.pages - 11 + pos / 4096) := by
  have room : stackRoom - pageSize = 12288 := rfl
  have pages : Bump.pages = 2 ^ 20 := rfl
  have last : (Bump.frame (Bump.pages - 8)).toNat = (2 ^ 20 - 8) * 4096 := Bump.frame_toNat (by decide)
  have lower : (Bump.frame (Bump.pages - 11 + pos / 4096)).toNat = (2 ^ 20 - 11 + pos / 4096) * 4096 := Bump.frame_toNat (by omega)
  have number : (stackPhys (Bump.frame (Bump.pages - 8)) pos).toNat = (2 ^ 20 - 11) * 4096 + pos := by
    rw [stackPhys, toNat_add, toNat_sub, last, room, toNat_ofNat, toNat_ofNat]
    omega
  refine eq_of_toNat_eq ?_
  rw [frameAt, number, lower, toNat_ofNat]
  omega

theorem overflow_unsound {argv envp : List (List UInt8)} {aux : List (Nat × Nat)} {pos : Nat}
    (placed : stackPosition argv envp aux.length = some pos) (low : pos < stackRoom - pageSize) :
    ∃ pushed, vmStackPushStrings root argv envp aux stacked = some pushed ∧ ¬StackSound root argv envp aux stacked pushed := by
  obtain ⟨-, present, top, frames⟩ := stacked_frames
  rcases @vmStackPushStrings_spec _ _ stacked root argv envp aux present with
    ⟨-, full⟩ | ⟨there, pushed, same, accepted, sp, inside, wrote, stack⟩
  · cases full.symm.trans placed
  · cases same.symm.trans placed
    refine ⟨pushed, accepted, fun sound => ?_⟩
    rw [top] at stack
    obtain ⟨-, few⟩ := stackPosition_bound placed fun _ => stringsEnd_le
    have third : pos / 4096 < 3 := by
      change pos < 12288 at low
      omega
    -- the first byte of the word with the number of arguments
    have written : (posByte pushed.machine (Bump.frame (Bump.pages - 8)) pos).toNat ≤ 128 := by
      have word := congrArg BitVec.toNat stack.argc
      rw [wordAt, toNat_ofNat, toNat_ofNat] at word
      have small := numberAt_lt (virtByte (posByte pushed.machine (Bump.frame (Bump.pages - 8)))) (stackVirt pos) 8
      have head : (virtByte (posByte pushed.machine (Bump.frame (Bump.pages - 8))) (stackVirt pos)).toNat ≤
          numberAt (virtByte (posByte pushed.machine (Bump.frame (Bump.pages - 8)))) (stackVirt pos) 8 := numberAt_head _ _ 7
      have first := virtByte_at (posByte pushed.machine (Bump.frame (Bump.pages - 8))) pos 0
      rw [Nat.add_zero, Nat.add_zero] at first
      rw [first] at head
      omega
    have was : posByte stacked (Bump.frame (Bump.pages - 8)) pos = 0xFF := by
      rw [posByte, physByte, frameAt_below low, stacked_bytes ⟨_, third⟩]
    have changed : pushed.machine.bytes (Bump.frame (Bump.pages - 11 + pos / 4096)) ≠
        stacked.bytes (Bump.frame (Bump.pages - 11 + pos / 4096)) := by
      intro kept
      rw [posByte, physByte, frameAt_below low, kept, ← frameAt_below low] at written
      change (posByte stacked (Bump.frame (Bump.pages - 8)) pos).toNat ≤ 128 at written
      rw [was] at written
      exact absurd written (by decide)
    obtain ⟨number, lower, upper, -, frame⟩ := sound.own _ changed
    obtain ⟨i, inFour, rfl⟩ : ∃ i < 4, number = stackBase / pageSize + i :=
      ⟨number - stackBase / pageSize, by have : stackTop / pageSize = stackBase / pageSize + 4 := by decide
                                         omega, by omega⟩
    have listed : Bump.frame (Bump.pages - 11 + pos / 4096) ∈ [2, 6, 7, 8].map (fun i => Bump.frame (Bump.pages - i)) := by
      rw [← frames, ← frame]
      exact mem_map_of_mem (mem_range.mpr inFour)
    obtain ⟨j, member, equal⟩ := mem_map.mp listed
    have pages : Bump.pages = 2 ^ 20 := rfl
    simp only [mem_cons, not_mem_nil, or_false] at member
    have indices := Bump.frame_injective (by omega) (by omega) equal
    omega

end Falling

/-- The initial stack is sound in whatever frames it lies if and only if everything fits
into its topmost page, or nothing is written at all. -/
theorem initial_stack_sound_iff (argv envp : List (List UInt8)) (aux : List (Nat × Nat)) :
    (∀ (σ : Type) [FrameAllocator σ] (depth : Nat) (root : PAddr) (regions added : List VmRegion) (before machine : Machine σ depth)
        (pushed : Pushed σ depth), vmSetupStack root regions before = (some added, machine) →
      vmStackPushStrings root argv envp aux machine = some pushed → StackSound root argv envp aux machine pushed) ↔
      FitsTopPage argv envp aux.length := by
  constructor
  · intro sound pos placed
    by_contra low
    obtain ⟨pushed, accepted, unsound⟩ := Falling.overflow_unsound placed (Nat.not_le.mp low)
    obtain ⟨made, -⟩ := Falling.stacked_frames
    obtain ⟨added, adds⟩ := Option.isSome_iff_exists.mp made
    have setup : vmSetupStack Falling.root [] Paging.Falling.bare = (some added, Falling.stacked) := by
      rw [Falling.stacked, ← adds]
    exact unsound (sound Paging.Falling 3 Falling.root [] added Paging.Falling.bare Falling.stacked pushed setup accepted)
  · intro fits σ _ depth root regions added before machine pushed _ accepted
    exact stackSound_of_fits fits accepted

/-- A program called with one argument of 4096 bytes. -/
theorem long_argument_corrupts : ∃ pushed, (vmSetupStack Falling.root [] Paging.Falling.bare).1.isSome = true ∧
      vmStackPushStrings Falling.root [List.replicate 4096 65] [] [] Falling.stacked = some pushed ∧
      ¬StackSound Falling.root [List.replicate 4096 65] [] [] Falling.stacked pushed := by
  have placed : stackPosition [List.replicate 4096 65] [] 0 = some 12224 := by decide +kernel
  have low : 12224 < stackRoom - pageSize := by decide
  obtain ⟨pushed, accepted, unsound⟩ := @Falling.overflow_unsound _ _ [] _ placed low
  exact ⟨pushed, Falling.stacked_frames.1, accepted, unsound⟩

end NyonOS.Elf
