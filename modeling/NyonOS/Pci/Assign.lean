import NyonOS.Pci.Probe

namespace NyonOS.Pci

open List BitVec Nat
open BitVec (ofNat)
open Function (update_of_ne update_self)

/-! `pci_assign_bars`: the windows get addresses, one after the other. -/

def pciMmioBase : Nat := 0xC0000000
def pciMmioLimit : Nat := 0xFEC00000
def pciIoBase : Nat := 0xC000
def pciIoLimit : Nat := 0xFFFF

/-- The two counters, the answer and the array `bar_addr` of each device. `placed` is not part
of the kernel's state: it records which registers have got an address. -/
structure Alloc where
  mmioNext : BitVec 64
  ioNext : BitVec 16
  ok : Bool
  barAddr : Nat × Nat → BitVec 64
  placed : List (Nat × Nat)

/-- A register, by the numbers of its device and of itself. -/
structure Item where
  key : Nat × Nat
  device : PciDevice

namespace Item

def present (item : Item) : Bool := item.device.barPresent item.key.2
def isIo (item : Item) : Bool := item.device.barIsIo item.key.2
def size (item : Item) : BitVec 64 := item.device.barSize item.key.2

end Item

def alignedUp (next size : BitVec 64) : BitVec 64 := (next + size - 1) &&& ~~~(size - 1)

def assignBar (now : Alloc) (item : Item) : Alloc :=
  if !item.present then now
  else if item.size = 0 then now
  else if item.isIo then
    let addr := alignedUp (now.ioNext.zeroExtend 64) item.size
    if ofNat 64 pciIoLimit < addr + item.size then { now with ok := false }
    else { now with
      ioNext := (addr + item.size).truncate 16
      barAddr := Function.update now.barAddr item.key addr
      placed := item.key :: now.placed }
  else
    let addr := alignedUp now.mmioNext item.size
    if ofNat 64 pciMmioLimit < addr + item.size then { now with ok := false }
    else { now with
      mmioNext := addr + item.size
      barAddr := Function.update now.barAddr item.key addr
      placed := item.key :: now.placed }

/-- The registers in the order of the two loops. -/
def items (devices : List PciDevice) : List Item :=
  devices.zipIdx.flatMap fun (device, index) => (range pciMaxBars).map fun b => ⟨(index, b), device⟩

/-- The counters at their initial values. -/
def pciAssignBars (devices : List PciDevice) (barAddr : Nat × Nat → BitVec 64) : Alloc :=
  (items devices).foldl assignBar ⟨ofNat 64 pciMmioBase, ofNat 16 pciIoBase, true, barAddr, []⟩

/-! Rounding up. -/

theorem toNat_shiftLeft_one {k : Nat} (small : k ≤ 31) : (1#64 <<< k).toNat = 2 ^ k := by
  rw [toNat_shiftLeft, Nat.shiftLeft_eq, show (1#64).toNat = 1 from rfl, Nat.one_mul]
  exact mod_eq_of_lt (Nat.pow_lt_pow_right (by decide) (by omega))

theorem and_not_low {k : Nat} (small : k ≤ 31) (x : BitVec 64) : (x &&& ~~~(1#64 <<< k - 1)).toNat = x.toNat / 2 ^ k * 2 ^ k := by
  have mask : (1#64 <<< k - 1).toNat = 2 ^ k - 1 := by
    rw [toNat_sub_of_le, toNat_shiftLeft_one small]
    · rfl
    · rw [le_def, toNat_shiftLeft_one small]
      exact Nat.one_le_two_pow
  have low : ∀ j, (1#64 <<< k - 1).getLsbD j = decide (j < k) := by
    intro j
    rw [BitVec.getLsbD, mask, testBit_two_pow_sub_one]
  have same : x &&& ~~~(1#64 <<< k - 1) = x >>> k <<< k := by
    refine eq_of_getLsbD_eq fun j inside => ?_
    rw [getLsbD_and, getLsbD_not, low, getLsbD_shiftLeft, getLsbD_ushiftRight]
    by_cases below : j < k
    · simp [below]
    · simp [below, inside, Nat.add_sub_cancel' (Nat.not_lt.mp below)]
  rw [same, toNat_shiftLeft, toNat_ushiftRight, shiftRight_eq_div_pow, Nat.shiftLeft_eq]
  exact mod_eq_of_lt (lt_of_le_of_lt (div_mul_le_self ..) x.isLt)

theorem alignedUp_toNat {k : Nat} (small : k ≤ 31) {next : BitVec 64} (low : next.toNat < 2 ^ 33) :
    (alignedUp next (1#64 <<< k)).toNat = (next.toNat + 2 ^ k - 1) / 2 ^ k * 2 ^ k := by
  have size := toNat_shiftLeft_one small
  have most : 2 ^ k ≤ 2 ^ 31 := Nat.pow_le_pow_right (by decide) small
  have least : 1 ≤ 2 ^ k := Nat.one_le_two_pow
  have sum : (next + 1#64 <<< k - 1).toNat = next.toNat + 2 ^ k - 1 := by
    have total : (next + 1#64 <<< k).toNat = next.toNat + 2 ^ k := by
      rw [toNat_add, size]
      exact mod_eq_of_lt (by omega)
    rw [toNat_sub_of_le, total]
    · rfl
    · rw [le_def, total]
      exact le_add_left_of_le least
  rw [alignedUp, and_not_low small, sum]

/-! One register. -/

def base (isIo : Bool) : Nat := if isIo then pciIoBase else pciMmioBase
def limit (isIo : Bool) : Nat := if isIo then pciIoLimit else pciMmioLimit
def Alloc.next (now : Alloc) (isIo : Bool) : Nat := if isIo then now.ioNext.toNat else now.mmioNext.toNat

/-- A size that `probe_function` records for a plain register. -/
def Item.Sized (item : Item) : Prop := ∃ k ≤ 31, item.size = 1#64 <<< k

/-- The register gets an address. -/
structure Places (now : Alloc) (item : Item) (after : Alloc) : Prop where
  aligned : item.size.toNat ∣ (after.barAddr item.key).toNat
  above : now.next item.isIo ≤ (after.barAddr item.key).toNat
  next : after.next item.isIo = (after.barAddr item.key).toNat + item.size.toNat
  fits : (after.barAddr item.key).toNat + item.size.toNat ≤ limit item.isIo
  nextOther : after.next (!item.isIo) = now.next !item.isIo
  others : ∀ key, key ≠ item.key → after.barAddr key = now.barAddr key
  placed : after.placed = item.key :: now.placed
  ok : after.ok = now.ok

theorem alignedUp_place {k : Nat} (small : k ≤ 31) {next : BitVec 64} (low : next.toNat < 2 ^ 33) :
    let addr := alignedUp next (1#64 <<< k)
    2 ^ k ∣ addr.toNat ∧ next.toNat ≤ addr.toNat ∧ (addr + 1#64 <<< k).toNat = addr.toNat + 2 ^ k := by
  have most : 2 ^ k ≤ 2 ^ 31 := Nat.pow_le_pow_right (by decide) small
  have least : 0 < 2 ^ k := Nat.two_pow_pos k
  have round := div_add_mod' (next.toNat + 2 ^ k - 1) (2 ^ k)
  have rest := mod_lt (next.toNat + 2 ^ k - 1) least
  dsimp only
  rw [toNat_add, toNat_shiftLeft_one small, alignedUp_toNat small low]
  exact ⟨Nat.dvd_mul_left .., by omega, mod_eq_of_lt (by omega)⟩

theorem assignBar_present {now : Alloc} {item : Item} (present : item.present = true) (sized : item.Sized)
    (mmio : now.next false ≤ pciMmioLimit) :
    assignBar now item = { now with ok := false } ∨ Places now item (assignBar now item) := by
  obtain ⟨k, small, size⟩ := sized
  have nat := toNat_shiftLeft_one small
  have nonzero : item.size ≠ 0 := by
    intro zero
    rw [size] at zero
    rw [zero] at nat
    exact absurd nat.symm (Nat.two_pow_pos k).ne'
  unfold assignBar
  rw [if_neg (by simp [present]), if_neg nonzero]
  cases kind : item.isIo with
  | true =>
    have wide : (now.ioNext.zeroExtend 64).toNat = now.ioNext.toNat := by
      rw [toNat_setWidth]
      exact mod_eq_of_lt (by omega)
    obtain ⟨aligned, above, sum⟩ := @alignedUp_place k small (now.ioNext.zeroExtend 64) (by omega)
    rw [if_pos rfl, size]
    dsimp only
    generalize alignedUp (now.ioNext.zeroExtend 64) (1#64 <<< k) = addr at aligned above sum
    split
    · exact .inl rfl
    · rename_i fits
      rw [lt_def, sum, Nat.not_lt, show (ofNat 64 pciIoLimit).toNat = pciIoLimit from rfl] at fits
      have small : pciIoLimit < 2 ^ 16 := by decide
      have short : ((addr + 1#64 <<< k).truncate 16).toNat = addr.toNat + 2 ^ k := by
        rw [toNat_setWidth, sum]
        exact mod_eq_of_lt (by omega)
      refine .inr ⟨?_, ?_, ?_, ?_, ?_, fun key different => update_of_ne different .., rfl, rfl⟩
      · dsimp only
        rw [size, nat, update_self]
        exact aligned
      · dsimp only
        rw [kind, update_self, Alloc.next, if_pos rfl, ← wide]
        exact above
      · dsimp only
        rw [kind, update_self, Alloc.next, if_pos rfl, size, nat, short]
      · dsimp only
        rw [kind, update_self, size, nat]
        exact fits
      · rw [kind]
        rfl
  | false =>
    obtain ⟨aligned, above, sum⟩ := @alignedUp_place k small now.mmioNext (by
      have bound : pciMmioLimit < 2 ^ 33 := by decide
      exact mmio.trans_lt bound)
    rw [if_neg Bool.false_ne_true, size]
    dsimp only
    generalize alignedUp now.mmioNext (1#64 <<< k) = addr at aligned above sum
    split
    · exact .inl rfl
    · rename_i fits
      rw [lt_def, sum, Nat.not_lt, show (ofNat 64 pciMmioLimit).toNat = pciMmioLimit from rfl] at fits
      refine .inr ⟨?_, ?_, ?_, ?_, ?_, fun key different => update_of_ne different .., rfl, rfl⟩
      · dsimp only
        rw [size, nat, update_self]
        exact aligned
      · dsimp only
        rw [kind, update_self]
        exact above
      · dsimp only
        rw [kind, update_self, Alloc.next, if_neg Bool.false_ne_true, size, nat, sum]
      · dsimp only
        rw [kind, update_self, size, nat]
        exact fits
      · rw [kind]
        rfl

/-! All registers. -/

/-- The addresses of two windows do not meet. -/
def Disjoint (now : Alloc) (one other : Item) : Prop :=
  (now.barAddr one.key).toNat + one.size.toNat ≤ (now.barAddr other.key).toNat ∨
    (now.barAddr other.key).toNat + other.size.toNat ≤ (now.barAddr one.key).toNat

/-- What is true of the windows of the registers that the loops have come to. -/
structure Sound (visited : List Item) (now : Alloc) : Prop where
  next : ∀ isIo, base isIo ≤ now.next isIo ∧ now.next isIo ≤ limit isIo
  listed : ∀ key ∈ now.placed, ∃ item ∈ visited, item.key = key
  window : ∀ item ∈ visited, item.key ∈ now.placed → item.present = true ∧ item.size.toNat ∣ (now.barAddr item.key).toNat ∧
    base item.isIo ≤ (now.barAddr item.key).toNat ∧ (now.barAddr item.key).toNat + item.size.toNat ≤ now.next item.isIo
  apart : ∀ one ∈ visited, ∀ other ∈ visited, one.key ∈ now.placed → other.key ∈ now.placed → one.key ≠ other.key →
    one.isIo = other.isIo → Disjoint now one other
  ok : now.ok = true ↔ ∀ item ∈ visited, item.present = true → item.key ∈ now.placed

section Step

variable {visited : List Item} {now after : Alloc} {item : Item}

section

variable (sound : Sound visited now)
include sound

section

variable (fresh : ∀ other ∈ visited, other.key ≠ item.key)
include fresh

theorem Sound.notPlaced : item.key ∉ now.placed := by
  intro listed
  obtain ⟨other, member, same⟩ := sound.listed item.key listed
  exact fresh other member same

theorem Sound.passed (ok : Bool)
    (answer : ok = true ↔ now.ok = true ∧ item.present = false) : Sound (visited ++ [item]) { now with ok } := by
  have missing := sound.notPlaced fresh
  have old : ∀ {other}, other ∈ visited ++ [item] → other.key ∈ now.placed → other ∈ visited := by
    intro other member placed
    rcases mem_append.mp member with earlier | last
    · exact earlier
    · rw [mem_singleton.mp last] at placed
      exact absurd placed missing
  refine ⟨sound.next, fun key placed => ?_, fun other member placed => sound.window other (old member placed) placed,
    fun one first other second placed placedOther => sound.apart one (old first placed) other (old second placedOther) placed placedOther, ?_⟩
  · obtain ⟨other, member, same⟩ := sound.listed key placed
    exact ⟨other, mem_append_left _ member, same⟩
  · rw [answer, sound.ok]
    simp only [mem_append, mem_singleton]
    constructor
    · rintro ⟨all, absent⟩ other (earlier | rfl) present
      · exact all other earlier present
      · rw [absent] at present
        cases present
    · intro all
      refine ⟨fun other member => all other (.inl member), ?_⟩
      rw [← Bool.not_eq_true]
      exact fun present => missing (all item (.inr rfl) present)

theorem Sound.places (present : item.present = true)
    (places : Places now item after) : Sound (visited ++ [item]) after := by
  have nextOther : ∀ isIo, isIo ≠ item.isIo → after.next isIo = now.next isIo := by
    intro isIo different
    have flipped : isIo = !item.isIo := by
      cases isIo <;> cases kind : item.isIo <;> simp_all
    rw [flipped]
    exact places.nextOther
  have grows : ∀ isIo, now.next isIo ≤ after.next isIo := by
    intro isIo
    by_cases same : isIo = item.isIo
    · rw [same, places.next]
      exact places.above.trans (Nat.le_add_right ..)
    · rw [nextOther isIo same]
  -- the windows that were there before
  have old : ∀ other ∈ visited, other.key ∈ after.placed → other.key ∈ now.placed ∧ after.barAddr other.key = now.barAddr other.key := by
    intro other member placed
    rw [places.placed] at placed
    exact ⟨(mem_cons.mp placed).resolve_left (fresh other member), places.others _ (fresh other member)⟩
  have below : ∀ other ∈ visited, other.key ∈ after.placed → other.isIo = item.isIo → Disjoint after other item := by
    intro other member placed same
    obtain ⟨before, addr⟩ := old other member placed
    refine .inl ?_
    rw [addr]
    exact (sound.window other member before).2.2.2.trans (same ▸ places.above)
  refine ⟨fun isIo => ?_, fun key placed => ?_, fun other member placed => ?_, fun one first other second placed placedOther different same => ?_, ?_⟩
  · obtain ⟨lower, upper⟩ := sound.next isIo
    refine ⟨lower.trans (grows isIo), ?_⟩
    by_cases same : isIo = item.isIo
    · rw [same, places.next]
      exact places.fits
    · rw [nextOther isIo same]
      exact upper
  · rw [places.placed] at placed
    rcases mem_cons.mp placed with rfl | earlier
    · exact ⟨item, by simp, rfl⟩
    · obtain ⟨other, member, same⟩ := sound.listed key earlier
      exact ⟨other, mem_append_left _ member, same⟩
  · rcases mem_append.mp member with earlier | last
    · obtain ⟨before, addr⟩ := old other earlier placed
      obtain ⟨there, aligned, lower, upper⟩ := sound.window other earlier before
      rw [addr]
      exact ⟨there, aligned, lower, upper.trans (grows _)⟩
    · rw [mem_singleton.mp last]
      exact ⟨present, places.aligned, (sound.next item.isIo).1.trans places.above, places.next.ge⟩
  · rcases mem_append.mp first with earlierOne | lastOne
    · rcases mem_append.mp second with earlierOther | lastOther
      · obtain ⟨beforeOne, addrOne⟩ := old one earlierOne placed
        obtain ⟨beforeOther, addrOther⟩ := old other earlierOther placedOther
        rw [Disjoint, addrOne, addrOther]
        exact sound.apart one earlierOne other earlierOther beforeOne beforeOther different same
      · rw [mem_singleton.mp lastOther] at same ⊢
        exact below one earlierOne placed same
    · rw [mem_singleton.mp lastOne] at different same ⊢
      rcases mem_append.mp second with earlierOther | lastOther
      · exact (below other earlierOther placedOther same.symm).symm
      · rw [mem_singleton.mp lastOther] at different
        exact absurd rfl different
  · rw [places.ok, sound.ok, places.placed]
    simp only [mem_append, mem_cons, not_mem_nil, or_false]
    constructor
    · rintro all other (earlier | rfl) there
      · exact .inr (all other earlier there)
      · exact .inl rfl
    · intro all other member there
      exact (all other (.inl member) there).resolve_left (fresh other member)

theorem Sound.step (sized : item.present = true → item.Sized) : Sound (visited ++ [item]) (assignBar now item) := by
  cases present : item.present with
  | false =>
    have same : assignBar now item = { now with ok := now.ok } := by
      rw [assignBar, if_pos (by simp [present])]
    rw [same]
    exact sound.passed fresh now.ok (by simp [present])
  | true =>
    rcases assignBar_present present (sized present) (sound.next false).2 with refused | places
    · rw [refused]
      exact sound.passed fresh false (by simp [present])
    · exact sound.places fresh present places

end

theorem Sound.run {rest : List Item} (distinct : ((visited ++ rest).map Item.key).Nodup)
    (sized : ∀ item ∈ rest, item.present = true → item.Sized) : Sound (visited ++ rest) (rest.foldl assignBar now) := by
  induction rest generalizing visited now with
  | nil => simpa using sound
  | cons item rest ih =>
    have fresh : ∀ other ∈ visited, other.key ≠ item.key := by
      intro other member same
      rw [map_append, map_cons] at distinct
      exact (nodup_append.mp distinct).2.2 other.key (mem_map_of_mem member) item.key (by simp) same
    have whole : visited ++ item :: rest = visited ++ [item] ++ rest := by simp
    rw [whole] at distinct ⊢
    exact ih (sound.step fresh (sized item (by simp))) distinct fun later member => sized later (by simp [member])

end

end Step

/-! Probing and placing together. -/

/-- The registers of a function beyond the end of `devices` are not recorded. -/
def RecordedIn (devices : List PciDevice) (j : Nat) (fn : PciFunction) : Prop :=
  match devices[j]? with
  | some d => ∀ i < pciMaxBars, Recorded d i (fn.config.slots i)
  | none => ∀ i < pciMaxBars, fn.config.slots i = .unused

structure WindowsSound (before : Nat → PciDevice) (barAddr : Nat × Nat → BitVec 64) (functions : List PciFunction) : Prop where
  recorded : ∀ j fn, functions[j]? = some fn → RecordedIn (pciDevices before functions) j fn
  window : let done := pciAssignBars (pciDevices before functions) barAddr
    ∀ item ∈ items (pciDevices before functions), item.key ∈ done.placed → item.size.toNat ∣ (done.barAddr item.key).toNat ∧
      base item.isIo ≤ (done.barAddr item.key).toNat ∧ (done.barAddr item.key).toNat + item.size.toNat ≤ limit item.isIo
  apart : let done := pciAssignBars (pciDevices before functions) barAddr
    ∀ one ∈ items (pciDevices before functions), ∀ other ∈ items (pciDevices before functions),
      one.key ∈ done.placed → other.key ∈ done.placed → one.key ≠ other.key → one.isIo = other.isIo → Disjoint done one other
  answer : (pciAssignBars (pciDevices before functions) barAddr).ok = true ↔
    ∀ item ∈ items (pciDevices before functions), item.present = true →
      item.key ∈ (pciAssignBars (pciDevices before functions) barAddr).placed

/-- Every register of the functions that there is room for is plain, and the others have none. -/
def PlainFunctions (functions : List PciFunction) : Prop :=
  ∀ j fn, functions[j]? = some fn →
    if j < pciMaxDevices then ∀ i < pciMaxBars, Plain (fn.config.slots i) (fn.config.bars i)
    else ∀ i < pciMaxBars, fn.config.slots i = .unused

section Windows

variable {before : Nat → PciDevice} {functions : List PciFunction} {devices : List PciDevice}

theorem pciDevices_get {j : Nat} {fn : PciFunction} (found : functions[j]? = some fn) :
    (pciDevices before functions)[j]? = if j < pciMaxDevices then some (fn.probed (before j)) else none := by
  rw [pciDevices, getElem?_mapIdx, getElem?_take, found]
  split <;> rfl

theorem recordedIn_iff {j : Nat} {fn : PciFunction} (found : functions[j]? = some fn) : RecordedIn (pciDevices before functions) j fn ↔
    if j < pciMaxDevices then ∀ i < pciMaxBars, Plain (fn.config.slots i) (fn.config.bars i)
    else ∀ i < pciMaxBars, fn.config.slots i = .unused := by
  rw [RecordedIn, pciDevices_get found]
  by_cases room : j < pciMaxDevices
  · rw [if_pos room, if_pos room]
    exact recorded_iff fn (before j)
  · rw [if_neg room, if_neg room]

theorem items_keys (devices : List PciDevice) : ((items devices).map Item.key).Nodup := by
  have keys : (items devices).map Item.key = range devices.length ×ˢ range pciMaxBars := by
    have index : range devices.length = devices.zipIdx.map Prod.snd := by
      rw [zipIdx_map_snd, range_eq_range']
    rw [items, map_flatMap, index]
    change _ = List.flatMap _ _
    rw [flatMap_map]
    congr 1
  rw [keys]
  exact nodup_range.product nodup_range

theorem sized_of_plain (plain : PlainFunctions functions) {item : Item} (member : item ∈ items (pciDevices before functions))
    (present : item.present = true) : item.Sized := by
  obtain ⟨⟨d, j⟩, listed, inside⟩ := mem_flatMap.mp member
  obtain ⟨i, bound, rfl⟩ := mem_map.mp inside
  rw [mem_range] at bound
  have entry : (pciDevices before functions)[j]? = some d := mem_zipIdx_iff_getElem?.mp listed
  obtain ⟨fn, found⟩ : ∃ fn, functions[j]? = some fn := by
    rw [pciDevices, getElem?_mapIdx, getElem?_take] at entry
    split at entry
    · exact ⟨_, (Option.map_eq_some_iff.mp entry).choose_spec.1⟩
    · cases entry
  have recorded := (@recordedIn_iff before _ _ _ found).mpr (plain j fn found)
  rw [RecordedIn, entry] at recorded
  have here := recorded i bound
  have there : d.barPresent i = true := present
  change ∃ k ≤ 31, d.barSize i = _
  cases slot : fn.config.slots i with
  | unused | high =>
    rw [slot, Recorded, there] at here
    cases here
  | io log =>
    rw [slot] at here
    exact ⟨log.val + 2, by omega, here.2.2⟩
  | mem log below1M prefetch =>
    rw [slot] at here
    exact ⟨log.val + 4, by omega, here.2.2⟩
  | low log prefetch =>
    have room : j < pciMaxDevices := by
      by_contra beyond
      rw [pciDevices_get found, if_neg beyond] at entry
      cases entry
    have all := plain j fn found
    rw [if_pos room] at all
    have none := all i bound
    rw [slot] at none
    exact none.elim

/-- Windows are found and placed as they should be if and only if no function has a 64-bit
register, no register of a memory window is zero, and there is room for all functions. -/
theorem pci_windows_sound_iff (before : Nat → PciDevice) (barAddr : Nat × Nat → BitVec 64) (functions : List PciFunction) :
    WindowsSound before barAddr functions ↔ PlainFunctions functions := by
  constructor
  · intro sound j fn found
    exact (recordedIn_iff found).mp (sound.recorded j fn found)
  · intro plain
    have start : Sound [] ⟨ofNat 64 pciMmioBase, ofNat 16 pciIoBase, true, barAddr, []⟩ := by
      refine ⟨fun isIo => ?_, by simp, by simp, by simp, by simp⟩
      cases isIo with
      | true => exact (by decide : pciIoBase ≤ (ofNat 16 pciIoBase).toNat ∧ (ofNat 16 pciIoBase).toNat ≤ pciIoLimit)
      | false => exact (by decide : pciMmioBase ≤ (ofNat 64 pciMmioBase).toNat ∧ (ofNat 64 pciMmioBase).toNat ≤ pciMmioLimit)
    have sound := start.run (by simpa using items_keys (pciDevices before functions)) fun item member present =>
      sized_of_plain plain member present
    rw [nil_append] at sound
    refine ⟨fun j fn found => (recordedIn_iff found).mpr (plain j fn found), fun item member placed => ?_, sound.apart, sound.ok⟩
    obtain ⟨-, aligned, lower, upper⟩ := sound.window item member placed
    exact ⟨aligned, lower, upper.trans (sound.next item.isIo).2⟩

end Windows

/-! A card with a 64-bit window of 16 KiB that the firmware has put above 16 GiB. -/

namespace Sample

def slots : Nat → Slot
  | 0 => .low 10 false
  | 1 => .high 10
  | _ => .unused

def bars : Nat → BitVec 32
  | 0 => 0x00000004
  | 1 => 0x00000004
  | _ => 0

def card : PciFunction where
  bus := 0
  slot := 3
  func := 0
  config := ⟨fun _ => 0x10001AF4, slots, bars⟩
  answers := by decide
  within := fun i beyond => by
    match i, beyond with
    | i + 2, _ => rfl
  paired := fun i log => by
    match i with
    | 0 =>
      change (∃ prefetch, Slot.low 10 false = .low log prefetch) ↔ Slot.high 10 = .high log
      simp
    | 1 =>
      change (∃ prefetch, Slot.high 10 = .low log prefetch) ↔ Slot.unused = .high log
      simp
    | i + 2 =>
      change (∃ prefetch, Slot.unused = .low log prefetch) ↔ Slot.unused = .high log
      simp
  first := fun log => by
    change Slot.low 10 false ≠ .high log
    simp
  settled := fun i => by
    match i with
    | 0 => decide
    | 1 => decide
    | i + 2 => exact (by decide : (0 : BitVec 32) = 0 &&& Slot.unused.mask ||| Slot.unused.kind)

def blank : PciDevice :=
  ⟨0, 0, 0, 0, 0, 0, 0, 0, 0, 0, 0, fun _ => 0, fun _ => 0, fun _ => false, fun _ => false, 0, 0, false, 0⟩

def devices : List PciDevice := pciDevices (fun _ => blank) [card, card]

end Sample

/-- The size is recorded as 16369, the upper half is taken for a window of its own, and of two
such cards the second gets an odd address. -/
theorem wide_windows_misplaced :
    (Sample.devices.map fun d => (d.barSize 0, d.barPresent 1)) = [(16369, true), (16369, true)] ∧
      (pciAssignBars Sample.devices fun _ => 0).barAddr (1, 0) = 0xC0004001 := by
  decide +kernel

end NyonOS.Pci
