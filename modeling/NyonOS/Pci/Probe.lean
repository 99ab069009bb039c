import Mathlib

namespace NyonOS.Pci

open Function (update_idem update_eq_self update_self update_of_ne)

/-! `pci.c`: what `probe_function` finds out about a function on the bus. -/

def pciMaxBars : Nat := 6
def pciMaxDevices : Nat := 64

/-- What stands behind a base address register: nothing, a window of I/O ports, a window of
memory, or one of the two halves of a 64-bit register. The sizes are powers of two. -/
inductive Slot where
  | unused
  | io (log : Fin 30)
  | mem (log : Fin 28) (below1M prefetch : Bool)
  | low (log : Fin 60) (prefetch : Bool)
  | high (log : Fin 60)
deriving DecidableEq

namespace Slot

def size : Slot → BitVec 64
  | unused => 0
  | io log => 1#64 <<< (log.val + 2)
  | mem log _ _ => 1#64 <<< (log.val + 4)
  | low log _ => 1#64 <<< (log.val + 4)
  | high log => 1#64 <<< (log.val + 4)

/-- The bits of the register that can be written. -/
def mask : Slot → BitVec 32
  | unused => 0
  | io log => ~~~((1#32 <<< (log.val + 2)) - 1)
  | mem log _ _ => ~~~((1#32 <<< (log.val + 4)) - 1)
  | low log _ => (~~~((1#64 <<< (log.val + 4)) - 1)).truncate 32
  | high log => ((~~~((1#64 <<< (log.val + 4)) - 1)) >>> 32).truncate 32

/-- The bits that tell the kind of window. -/
def kind : Slot → BitVec 32
  | unused => 0
  | io _ => 1
  | mem _ below1M prefetch => (if below1M then 2 else 0) ||| if prefetch then 8 else 0
  | low _ prefetch => 4 ||| if prefetch then 8 else 0
  | high _ => 0

end Slot

/-- The configuration space of a function: its base address registers and the other words. -/
structure Config where
  header : Nat → BitVec 32
  slots : Nat → Slot
  bars : Nat → BitVec 32

section

variable (config : Config) (off : Nat)

def cfgRead32 : BitVec 32 :=
  if 4 ≤ off / 4 ∧ off / 4 < 10 then config.bars (off / 4 - 4) else config.header (off / 4)

def cfgWrite32 (val : BitVec 32) : Config :=
  let i := off / 4 - 4
  if 4 ≤ off / 4 ∧ off / 4 < 10 then
    { config with bars := Function.update config.bars i (val &&& (config.slots i).mask ||| (config.slots i).kind) }
  else { config with header := Function.update config.header (off / 4) val }

def cfgRead16 : BitVec 16 := (cfgRead32 config off >>> ((off &&& 2) * 8)).truncate 16

def cfgRead8 : BitVec 8 := (cfgRead32 config off >>> ((off &&& 3) * 8)).truncate 8

def cfgWrite16 (val : BitVec 16) : Config :=
  let shift := (off &&& 2) * 8
  cfgWrite32 config off (cfgRead32 config off &&& ~~~(0xFFFF#32 <<< shift) ||| val.zeroExtend 32 <<< shift)

/-- A `pci_device_t`. Index 6 of an array is what lies behind its end. -/
structure PciDevice where
  bus : BitVec 8
  slot : BitVec 8
  func : BitVec 8
  vendorId : BitVec 16
  deviceId : BitVec 16
  revision : BitVec 8
  progIf : BitVec 8
  subclass : BitVec 8
  classCode : BitVec 8
  headerType : BitVec 8
  command : BitVec 16
  bar : Nat → BitVec 32
  barSize : Nat → BitVec 64
  barIsIo : Nat → Bool
  barPresent : Nat → Bool
  interruptLine : BitVec 8
  interruptPin : BitVec 8
  isBridge : Bool
  secondaryBus : BitVec 8

def PciDevice.setBar (d : PciDevice) (i : Nat) (isIo : Bool) (size : BitVec 64) : PciDevice :=
  { d with
    barPresent := Function.update d.barPresent i true
    barIsIo := Function.update d.barIsIo i isIo
    barSize := Function.update d.barSize i size }

/-- Writes ones to a register and puts the old value back. -/
def sizing (orig : BitVec 32) : BitVec 32 × Config :=
  let written := cfgWrite32 config off 0xFFFFFFFF
  (cfgRead32 written off, cfgWrite32 written off orig)

end

/-- One round of the loop over the registers. -/
def probeBar (now : Config × PciDevice) (i : Nat) : Config × PciDevice :=
  let off := 0x10 + i * 4
  let d := now.2
  let orig := cfgRead32 now.1 off
  if orig = 0 ∨ orig = 0xFFFFFFFF then (now.1, { d with barPresent := Function.update d.barPresent i false })
  else
    let isIo := orig &&& 1 != 0
    let sized := sizing now.1 off orig
    if isIo then (sized.2, d.setBar i isIo ((~~~(sized.1 &&& 0xFFFFFFFC) + 1).zeroExtend 64))
    else if orig &&& 4 = 4 then
      let orig2 := cfgRead32 sized.2 (off + 4)
      let sized2 := sizing sized.2 (off + 4) orig2
      let m : BitVec 64 := sized2.1.zeroExtend 64 <<< 32 ||| sized.1.zeroExtend 64
      let d := d.setBar i isIo ((~~~m &&& 0xFFFFFFFFFFFFFFF0) + 1)
      (sized2.2, { d with
        bar := Function.update d.bar (i + 1) orig2
        barPresent := Function.update d.barPresent (i + 1) false })
    else (sized.2, d.setBar i isIo ((~~~(sized.1 &&& 0xFFFFFFF0) + 1).zeroExtend 64))

/-- `probe_function` on a free entry of `devices`; nothing if there is no function. -/
def probeFunction (bus slot func : BitVec 8) (config : Config) (d : PciDevice) : Option (Config × PciDevice) :=
  let id := cfgRead32 config 0x00
  if id.truncate 16 = 0xFFFF#16 then none
  else
    let cls := cfgRead32 config 0x08
    let classCode := (cls >>> 24).truncate 8
    let subclass := (cls >>> 16).truncate 8
    let isBridge := classCode == 0x06#8 && subclass == 0x04#8
    let saved := cfgRead16 config 0x04
    let d := { d with
      bus, slot, func
      vendorId := id.truncate 16
      deviceId := (id >>> 16).truncate 16
      revision := cls.truncate 8
      progIf := (cls >>> 8).truncate 8
      subclass, classCode
      headerType := cfgRead8 config 0x0E
      command := saved
      interruptLine := cfgRead8 config 0x3C
      interruptPin := cfgRead8 config 0x3D
      isBridge
      secondaryBus := if isBridge then cfgRead8 config 0x19 else d.secondaryBus }
    let found := (List.range pciMaxBars).foldl probeBar (cfgWrite16 config 0x04 (saved &&& ~~~3#16), d)
    some (cfgWrite16 found.1 0x04 saved, found.2)

/-- A function on the bus. -/
structure PciFunction where
  bus : BitVec 8
  slot : BitVec 8
  func : BitVec 8
  config : Config
  answers : (config.header 0).truncate 16 ≠ 0xFFFF#16
  within : ∀ i ≥ pciMaxBars, config.slots i = .unused
  paired : ∀ i log, (∃ prefetch, config.slots i = .low log prefetch) ↔ config.slots (i + 1) = .high log
  first : ∀ log, config.slots 0 ≠ .high log
  settled : ∀ i, config.bars i = config.bars i &&& (config.slots i).mask ||| (config.slots i).kind

/-- The entry of `devices` for a function; `before` is what was there. -/
def PciFunction.probed (fn : PciFunction) (before : PciDevice) : PciDevice :=
  match probeFunction fn.bus fn.slot fn.func fn.config before with
  | some (_, d) => d
  | none => before

/-- The entries of `devices` after all functions have been probed. There is room for 64. -/
def pciDevices (before : Nat → PciDevice) (functions : List PciFunction) : List PciDevice :=
  (functions.take pciMaxDevices).mapIdx fun index fn => fn.probed (before index)

/-! What is found. -/

def Slot.ones (slot : Slot) : BitVec 32 := 0xFFFFFFFF &&& slot.mask ||| slot.kind

def barFound (config : Config) (i : Nat) : Option (Bool × BitVec 64) :=
  let orig := config.bars i
  let ones := (config.slots i).ones
  if orig = 0 ∨ orig = 0xFFFFFFFF then none
  else if orig &&& 1 != 0 then some (true, (~~~(ones &&& 0xFFFFFFFC) + 1).zeroExtend 64)
  else if orig &&& 4 = 4 then
    some (false, (~~~((config.slots (i + 1)).ones.zeroExtend 64 <<< 32 ||| ones.zeroExtend 64) &&& 0xFFFFFFFFFFFFFFF0) + 1)
  else some (false, (~~~(ones &&& 0xFFFFFFF0) + 1).zeroExtend 64)

def PciDevice.Holds (d : PciDevice) (i : Nat) : Option (Bool × BitVec 64) → Prop
  | none => d.barPresent i = false
  | some (isIo, size) => d.barPresent i = true ∧ d.barIsIo i = isIo ∧ d.barSize i = size

section Registers

variable {config : Config} {i : Nat} {d : PciDevice}

theorem cfgRead32_bar (inside : i < pciMaxBars) : cfgRead32 config (0x10 + i * 4) = config.bars i := by
  have index : (0x10 + i * 4) / 4 = i + 4 := by omega
  unfold pciMaxBars at inside
  rw [cfgRead32, index, if_pos (by omega), Nat.add_sub_cancel]

theorem cfgWrite32_bar (inside : i < pciMaxBars) (val : BitVec 32) : cfgWrite32 config (0x10 + i * 4) val =
    { config with bars := Function.update config.bars i (val &&& (config.slots i).mask ||| (config.slots i).kind) } := by
  have index : (0x10 + i * 4) / 4 = i + 4 := by omega
  unfold pciMaxBars at inside
  rw [cfgWrite32, index, if_pos (by omega), Nat.add_sub_cancel]

theorem sizing_restores (settled : ∀ i, config.bars i = config.bars i &&& (config.slots i).mask ||| (config.slots i).kind) (off : Nat) :
    (sizing config off (cfgRead32 config off)).2 = config := by
  unfold sizing cfgRead32 cfgWrite32
  dsimp only
  by_cases bar : 4 ≤ off / 4 ∧ off / 4 < 10
  · rw [if_pos bar, if_pos bar, if_pos bar]
    dsimp only
    rw [update_idem, ← settled, update_eq_self]
  · rw [if_neg bar, if_neg bar, if_neg bar]
    dsimp only
    rw [update_idem, update_eq_self]

theorem sizing_bar (inside : i < pciMaxBars) (orig : BitVec 32) : (sizing config (0x10 + i * 4) orig).1 = (config.slots i).ones := by
  unfold sizing
  dsimp only
  rw [cfgWrite32_bar inside, cfgRead32_bar inside]
  exact update_self ..

theorem PciDevice.setBar_holds (isIo : Bool) (size : BitVec 64) : (d.setBar i isIo size).Holds i (some (isIo, size)) ∧
    ∀ other, other ≠ i → ∀ found, d.Holds other found → (d.setBar i isIo size).Holds other found := by
  refine ⟨⟨update_self .., update_self .., update_self ..⟩, fun other different found holds => ?_⟩
  cases found with
  | none => exact (update_of_ne different ..).trans holds
  | some pair =>
    obtain ⟨present, kind, sized⟩ := holds
    exact ⟨(update_of_ne different ..).trans present, (update_of_ne different ..).trans kind,
      (update_of_ne different ..).trans sized⟩

theorem PciDevice.hide_holds {hidden other : Nat} {found : Option (Bool × BitVec 64)} (different : other ≠ hidden) (bar : Nat → BitVec 32)
    (holds : d.Holds other found) : PciDevice.Holds { d with bar, barPresent := Function.update d.barPresent hidden false } other found := by
  cases found with
  | none => exact (update_of_ne different ..).trans holds
  | some pair =>
    obtain ⟨present, kind, sized⟩ := holds
    exact ⟨(update_of_ne different ..).trans present, kind, sized⟩

/-- One round sets the entries of its register and perhaps those of the next one; for the last
register the next one is none. -/
theorem probeBar_spec (inside : i < pciMaxBars)
    (settled : ∀ i, config.bars i = config.bars i &&& (config.slots i).mask ||| (config.slots i).kind) :
    (probeBar (config, d) i).1 = config ∧ ((config.bars i &&& 1 = 0 → config.bars i &&& 4 = 4 → i + 1 < pciMaxBars) →
        (probeBar (config, d) i).2.Holds i (barFound config i)) ∧
      ∀ other < i, ∀ found, d.Holds other found → (probeBar (config, d) i).2.Holds other found := by
  have restored := sizing_restores settled (0x10 + i * 4)
  unfold probeBar barFound
  dsimp only
  rw [cfgRead32_bar inside] at restored ⊢
  rw [sizing_bar inside, restored]
  split
  · exact ⟨rfl, fun _ => update_self .., fun other earlier found holds => PciDevice.hide_holds earlier.ne d.bar holds⟩
  · split
    · rename_i isIo
      obtain ⟨here, elsewhere⟩ := @PciDevice.setBar_holds i d (config.bars i &&& 1 != 0)
        ((~~~((config.slots i).ones &&& 0xFFFFFFFC) + 1).zeroExtend 64)
      rw [isIo] at here elsewhere ⊢
      exact ⟨rfl, fun _ => here, fun other earlier => elsewhere other earlier.ne⟩
    · rename_i isMem
      rw [Bool.not_eq_true] at isMem
      rw [isMem]
      split
      · rename_i wide
        have restoredNext := sizing_restores settled (0x10 + i * 4 + 4)
        refine ⟨restoredNext, fun last => ?_, fun other earlier found holds => ?_⟩
        · have next := last (by simpa using isMem) wide
          have place : 0x10 + i * 4 + 4 = 0x10 + (i + 1) * 4 := by omega
          rw [place, sizing_bar next]
          exact PciDevice.hide_holds (by omega) _ (PciDevice.setBar_holds ..).1
        · exact PciDevice.hide_holds (by omega) _ ((PciDevice.setBar_holds ..).2 other earlier.ne found holds)
      · obtain ⟨here, elsewhere⟩ := @PciDevice.setBar_holds i d false ((~~~((config.slots i).ones &&& 0xFFFFFFF0) + 1).zeroExtend 64)
        exact ⟨rfl, fun _ => here, fun other earlier => elsewhere other earlier.ne⟩

theorem probeBars_spec (settled : ∀ i, config.bars i = config.bars i &&& (config.slots i).mask ||| (config.slots i).kind) {count : Nat}
    (bound : count ≤ pciMaxBars) :
    let found := (List.range count).foldl probeBar (config, d)
    found.1 = config ∧ ∀ i < count, (config.bars i &&& 1 = 0 → config.bars i &&& 4 = 4 → i + 1 < pciMaxBars) →
      found.2.Holds i (barFound config i) := by
  induction count with
  | zero => exact ⟨rfl, fun i none => absurd none (Nat.not_lt_zero i)⟩
  | succ count ih =>
    obtain ⟨same, earlier⟩ := ih (by omega)
    rw [List.range_succ, List.foldl_concat]
    generalize (List.range count).foldl probeBar (config, d) = now at same earlier ⊢
    obtain ⟨config', device⟩ := now
    cases same
    obtain ⟨kept, here, before⟩ := @probeBar_spec _ count device (by omega) settled
    refine ⟨kept, fun i below last => ?_⟩
    rcases Nat.lt_succ_iff_lt_or_eq.mp below with older | rfl
    · exact before i older _ (earlier i older last)
    · exact here last

end Registers

/-! Which registers are recorded as what they are. -/

/-- The entries for a register say what window it has. -/
def Recorded (d : PciDevice) (i : Nat) (slot : Slot) : Prop :=
  match slot with
  | .unused | .high _ => d.barPresent i = false
  | .io log => d.barPresent i = true ∧ d.barIsIo i = true ∧ d.barSize i = (Slot.io log).size
  | .mem log below1M prefetch => d.barPresent i = true ∧ d.barIsIo i = false ∧ d.barSize i = (Slot.mem log below1M prefetch).size
  | .low log prefetch => d.barPresent i = true ∧ d.barIsIo i = false ∧ d.barSize i = (Slot.low log prefetch).size

/-- The registers that `probe_function` deals with: none of 64 bits, and no memory window
whose register is zero. -/
def Plain (slot : Slot) (bar : BitVec 32) : Prop :=
  match slot with
  | .unused | .io _ => True
  | .mem _ _ _ => bar ≠ 0
  | .low _ _ | .high _ => False

instance (slot : Slot) (bar : BitVec 32) : Decidable (Plain slot bar) := by
  unfold Plain
  split <;> infer_instance

section Slots

variable {config : Config} {i : Nat} {d : PciDevice}

theorem and_fixed {x mask kind bit : BitVec 32} (settled : x = x &&& mask ||| kind) (apart : mask &&& bit = 0) : x &&& bit = kind &&& bit :=
  calc x &&& bit = (x &&& mask ||| kind) &&& bit := by rw [← settled]
    _ = x &&& (mask &&& bit) ||| kind &&& bit := by
      ext j inside
      simp [Bool.and_or_distrib_right, Bool.and_assoc]
    _ = kind &&& bit := by
      rw [apart]
      simp

/-! The bits that cannot be written, and the sizes that come out. -/

theorem io_fixed (log : Fin 30) : (Slot.io log).mask &&& 3 = 0 ∧ (Slot.io log).kind &&& 3 = 1 ∧
    (~~~((Slot.io log).ones &&& 0xFFFFFFFC) + 1).zeroExtend 64 = (Slot.io log).size := by
  revert log
  decide

theorem mem_fixed (log : Fin 28) (below1M prefetch : Bool) :
    let slot := Slot.mem log below1M prefetch
    slot.mask &&& 5 = 0 ∧ slot.kind &&& 5 = 0 ∧ (~~~(slot.ones &&& 0xFFFFFFF0) + 1).zeroExtend 64 = slot.size := by
  revert log below1M prefetch
  decide

theorem low_fixed (log : Fin 60) (prefetch : Bool) :
    let slot := Slot.low log prefetch
    slot.mask &&& 5 = 0 ∧ slot.kind &&& 5 = 4 ∧
      (~~~((Slot.high log).ones.zeroExtend 64 <<< 32 ||| slot.ones.zeroExtend 64) &&& 0xFFFFFFFFFFFFFFF0) + 1 = slot.size - 15 := by
  revert log prefetch
  decide

theorem barFound_unused (settled : config.bars i = config.bars i &&& (config.slots i).mask ||| (config.slots i).kind)
    (slot : config.slots i = .unused) : barFound config i = none := by
  have zero : config.bars i = 0 := by
    rw [settled, slot]
    simp [Slot.mask, Slot.kind]
  rw [barFound, if_pos (.inl zero)]

theorem bar_ne_ones {bar bit rest : BitVec 32} (here : bar &&& bit = rest) (different : 0xFFFFFFFF#32 &&& bit ≠ rest) : bar ≠ 0xFFFFFFFF := by
  rintro rfl
  exact different here

theorem io_bar {log : Fin 30} (settled : config.bars i = config.bars i &&& (config.slots i).mask ||| (config.slots i).kind)
    (slot : config.slots i = .io log) : config.bars i &&& 1 = 1 ∧ config.bars i ≠ 0xFFFFFFFF := by
  obtain ⟨apart, kind, -⟩ := io_fixed log
  rw [slot] at settled
  have bits : config.bars i &&& 3 = 1 := (and_fixed settled apart).trans kind
  have one : config.bars i &&& 1 = config.bars i &&& 3 &&& 1 := by
    rw [BitVec.and_assoc]
    rfl
  rw [bits] at one
  exact ⟨one, bar_ne_ones bits (by decide)⟩

theorem barFound_io {log : Fin 30} (settled : config.bars i = config.bars i &&& (config.slots i).mask ||| (config.slots i).kind)
    (slot : config.slots i = .io log) : barFound config i = some (true, (Slot.io log).size) := by
  obtain ⟨isIo, ones⟩ := io_bar settled slot
  have nonzero : config.bars i ≠ 0 := by
    intro zero
    rw [zero] at isIo
    cases isIo
  rw [barFound, if_neg (not_or.mpr ⟨nonzero, ones⟩), if_pos (by rw [isIo]; rfl), slot, (io_fixed log).2.2]

theorem mem_kind {bar rest : BitVec 32} (bits : bar &&& 5 = rest) : bar &&& 1 = rest &&& 1 ∧ bar &&& 4 = rest &&& 4 := by
  rw [← bits, BitVec.and_assoc, BitVec.and_assoc]
  exact ⟨rfl, rfl⟩

theorem barFound_mem {log : Fin 28} {below1M prefetch : Bool}
    (settled : config.bars i = config.bars i &&& (config.slots i).mask ||| (config.slots i).kind)
    (slot : config.slots i = .mem log below1M prefetch) : barFound config i =
      if config.bars i = 0 then none else some (false, (Slot.mem log below1M prefetch).size) := by
  obtain ⟨apart, kind, size⟩ := mem_fixed log below1M prefetch
  rw [slot] at settled
  have bits : config.bars i &&& 5 = 0 := (and_fixed settled apart).trans kind
  obtain ⟨isIo, wide⟩ := mem_kind bits
  have ones : config.bars i ≠ 0xFFFFFFFF := bar_ne_ones bits (by decide)
  rw [barFound, slot]
  simp only [ones, or_false]
  split
  · rfl
  · rw [if_neg (by rw [isIo]; decide), if_neg (by rw [wide]; decide), size]

theorem barFound_low {log : Fin 60} {prefetch : Bool}
    (settled : config.bars i = config.bars i &&& (config.slots i).mask ||| (config.slots i).kind)
    (slot : config.slots i = .low log prefetch) (next : config.slots (i + 1) = .high log) :
    barFound config i = some (false, (Slot.low log prefetch).size - 15) := by
  obtain ⟨apart, kind, size⟩ := low_fixed log prefetch
  rw [slot] at settled
  have bits : config.bars i &&& 5 = 4 := (and_fixed settled apart).trans kind
  obtain ⟨isIo, wide⟩ := mem_kind bits
  have nonzero : config.bars i ≠ 0 := by
    intro zero
    rw [zero] at bits
    cases bits
  rw [barFound, if_neg (not_or.mpr ⟨nonzero, bar_ne_ones bits (by decide)⟩), if_neg (by rw [isIo]; decide), if_pos (by rw [wide]; decide),
    slot, next, size]

end Slots

/-! A function that has been probed. -/

section Probed

variable {fn : PciFunction} {d : PciDevice} {i : Nat}

theorem PciFunction.probed_holds (fn : PciFunction) (before : PciDevice) (inside : i < pciMaxBars)
    (last : fn.config.bars i &&& 1 = 0 → fn.config.bars i &&& 4 = 4 → i + 1 < pciMaxBars) :
    (fn.probed before).Holds i (barFound fn.config i) := by
  have answers : ¬(cfgRead32 fn.config 0x00).truncate 16 = 0xFFFF#16 := fn.answers
  have bars : ∀ val, (cfgWrite16 fn.config 0x04 val).bars = fn.config.bars := fun _ => rfl
  have slots : ∀ val, (cfgWrite16 fn.config 0x04 val).slots = fn.config.slots := fun _ => rfl
  unfold PciFunction.probed probeFunction
  dsimp only
  rw [if_neg answers]
  dsimp only
  have bars := bars (cfgRead16 fn.config 0x04 &&& ~~~3#16)
  have slots := slots (cfgRead16 fn.config 0x04 &&& ~~~3#16)
  generalize cfgWrite16 fn.config 0x04 (cfgRead16 fn.config 0x04 &&& ~~~3#16) = config at bars slots
  have same : barFound fn.config i = barFound config i := by
    unfold barFound
    rw [bars, slots]
  rw [same]
  refine (probeBars_spec (fun i => ?_) le_rfl).2 i inside ?_
  · rw [bars, slots]
    exact fn.settled i
  · rw [bars]
    exact last

theorem recorded_io {log : Fin 30} (before : PciDevice) (inside : i < pciMaxBars) (slot : fn.config.slots i = .io log) :
    Recorded (fn.probed before) i (fn.config.slots i) := by
  have found := barFound_io (fn.settled i) slot
  have holds := fn.probed_holds before inside fun isMem => by
    rw [(io_bar (fn.settled i) slot).1] at isMem
    cases isMem
  rw [found] at holds
  rw [slot]
  exact holds

theorem recorded_unused (before : PciDevice) (inside : i < pciMaxBars) (slot : fn.config.slots i = .unused) :
    Recorded (fn.probed before) i (fn.config.slots i) := by
  have zero : fn.config.bars i = 0 := by
    rw [fn.settled i, slot]
    simp [Slot.mask, Slot.kind]
  have holds := fn.probed_holds before inside fun _ wide => by
    rw [zero] at wide
    cases wide
  rw [barFound_unused (fn.settled i) slot] at holds
  rw [slot]
  exact holds

theorem recorded_mem {log : Fin 28} {below1M prefetch : Bool} (before : PciDevice) (inside : i < pciMaxBars)
    (slot : fn.config.slots i = .mem log below1M prefetch) :
    Recorded (fn.probed before) i (fn.config.slots i) ↔ fn.config.bars i ≠ 0 := by
  obtain ⟨apart, kind, -⟩ := mem_fixed log below1M prefetch
  have settled := fn.settled i
  rw [slot] at settled
  obtain ⟨-, narrow⟩ := mem_kind ((and_fixed settled apart).trans kind)
  have holds := fn.probed_holds before inside fun _ wide => by
    rw [narrow] at wide
    cases wide
  rw [barFound_mem (fn.settled i) slot] at holds
  rw [slot]
  split at holds
  · rename_i zero
    have absent : (fn.probed before).barPresent i = false := holds
    simp [Recorded, zero, absent]
  · rename_i nonzero
    exact iff_of_true holds nonzero

theorem recorded_low {log : Fin 60} {prefetch : Bool} (before : PciDevice) (inside : i < pciMaxBars)
    (slot : fn.config.slots i = .low log prefetch) : ¬Recorded (fn.probed before) i (fn.config.slots i) := by
  have next := (fn.paired i log).mp ⟨prefetch, slot⟩
  have bound : i + 1 < pciMaxBars := by
    by_contra beyond
    rw [fn.within (i + 1) (Nat.not_lt.mp beyond)] at next
    cases next
  have holds := fn.probed_holds before inside fun _ _ => bound
  rw [barFound_low (fn.settled i) slot next] at holds
  rw [slot]
  rintro ⟨-, -, size⟩
  have different := holds.2.2.symm.trans size
  rw [sub_eq_self] at different
  cases different

/-- `probe_function` gets a function right if and only if all its registers are plain. -/
theorem recorded_iff (fn : PciFunction) (before : PciDevice) :
    (∀ i < pciMaxBars, Recorded (fn.probed before) i (fn.config.slots i)) ↔
      ∀ i < pciMaxBars, Plain (fn.config.slots i) (fn.config.bars i) := by
  constructor
  · intro recorded i inside
    cases slot : fn.config.slots i with
    | unused | io => trivial
    | mem log below1M prefetch => exact (recorded_mem before inside slot).mp (recorded i inside)
    | low log prefetch => exact absurd (recorded i inside) (recorded_low before inside slot)
    | high log =>
      cases i with
      | zero => exact absurd slot (fn.first log)
      | succ j =>
        obtain ⟨prefetch, partner⟩ := (fn.paired j log).mpr slot
        exact absurd (recorded j (by omega)) (recorded_low before (by omega) partner)
  · intro plain i inside
    have here := plain i inside
    cases slot : fn.config.slots i with
    | unused => exact slot ▸ recorded_unused before inside slot
    | io log => exact slot ▸ recorded_io before inside slot
    | mem log below1M prefetch =>
      rw [slot] at here
      exact slot ▸ (recorded_mem before inside slot).mpr here
    | low | high =>
      rw [slot] at here
      exact here.elim

end Probed

end NyonOS.Pci
