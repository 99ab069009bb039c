import NyonOS.Abi
import NyonOS.Paging.Bump
import NyonOS.Paging.Protect

namespace NyonOS.Paging

open Abi Nat
open Data
open Machine

/-! `sys_mprotect`, which hands a range of user code's own choice to `vmm_protect`. -/

variable {σ : Type} {depth : Nat}

structure VmRegion where
  start : Nat
  end_ : Nat
  prot : Prot
  maxprot : Prot
  backing : BitVec 8
  mapped : Bool

/-- The fields of `struct vmspace` that say what is mapped. -/
structure VmSpace where
  pml4 : PAddr
  regions : List VmRegion

/-- `vm_region_find` comes upon a region. -/
def VmSpace.Covers (space : VmSpace) (addr : Nat) : Prop := ∃ region ∈ space.regions, region.start ≤ addr ∧ addr < region.end_

def userMaxPage : Nat := 0x0000800000000000 / pageSize

def vmProtect (vs : Option VmSpace) (addr pages : Nat) (prot : Prot) (machine : Machine σ depth) : Bool × Machine σ depth :=
  match vs with
  | none => (false, machine)
  | some vs => vmmProtect vs.pml4 addr pages prot machine

def mprotectProt (prot : BitVec 32) : Prot :=
  (if prot &&& 1#32 ≠ 0 then vmProtRead else 0#8) ||| (if prot &&& 2#32 ≠ 0 then vmProtWrite else 0#8) |||
    if prot &&& 4#32 ≠ 0 then vmProtExec else 0#8

/-- The sum is one of 64 bits. -/
def mprotectPages (len : BitVec 64) : Nat := (len.toNat + (pageSize - 1)) % 2 ^ 64 / pageSize

/-- `current` is the address space of the current task, if there is a task and it has one. -/
def sysMprotect (current : Option (Option VmSpace)) (inUser : Bool) (addr len : BitVec 64) (prot : BitVec 32)
    (machine : Machine σ depth) : Int × Machine σ depth :=
  match current with
  | none => (einval, machine)
  | some vs =>
    if !inUser then (einval, machine)
    else if len = 0 then (einval, machine)
    else if addr.toNat % pageSize ≠ 0 then (einval, machine)
    else if prot &&& ~~~7#32 ≠ 0 then (einval, machine)
    else
      let result := vmProtect vs addr.toNat (mprotectPages len) (mprotectProt prot) machine
      (if result.1 then 0 else enomem, result.2)

/-- Only permissions of user pages below `USER_MAX` in the regions of the address space have
changed, and none if the call has failed. -/
structure ProtectContained (vs : Option VmSpace) (before : Machine σ depth) (result : Int × Machine σ depth) : Prop where
  only : ∀ root page, page < 512 ^ (depth + 1) → result.2.entry root page ≠ before.entry root page →
    ∃ space, vs = some space ∧ root = space.pml4 ∧ page < userMaxPage ∧ space.Covers (page * pageSize) ∧
      has (before.entry root page) pageUser = true ∧ SameAccount (before.entry root page) (result.2.entry root page)
  failed : result.1 ≠ 0 → ∀ root page, result.2.entry root page = before.entry root page

section Loop

variable (machine : Machine σ depth) (root : PAddr) (first pages : Nat) (prot : Prot)

/-- The first pages of a range, up to this one, are there. -/
def PresentTo (index : Nat) : Prop := ∀ i ≤ index, has (machine.entry root (first + i)) pagePresent = true

/-- What `vmm_protect` makes of an entry. -/
def protectedEntry (number : Nat) : Word := protectWord machine.cpuHasNx prot (machine.entry root number)

theorem protectWord_twice (cpuHasNx : Bool) (prot : Prot) (word : Word) :
    protectWord cpuHasNx prot (protectWord cpuHasNx prot word) = protectWord cpuHasNx prot word := by
  have bits : ∀ word write nx : Word, (word ||| write) ||| write = word ||| write ∧
      (word &&& ~~~write) &&& ~~~write = word &&& ~~~write ∧
      (((word ||| write) &&& ~~~nx) ||| write) &&& ~~~nx = (word ||| write) &&& ~~~nx ∧
      (((word ||| write) ||| nx) ||| write) ||| nx = (word ||| write) ||| nx ∧
      (((word &&& ~~~write) &&& ~~~nx) &&& ~~~write) &&& ~~~nx = (word &&& ~~~write) &&& ~~~nx ∧
      (((word &&& ~~~write) ||| nx) &&& ~~~write) ||| nx = (word &&& ~~~write) ||| nx := by
    intro word write nx
    refine ⟨?_, ?_, ?_, ?_, ?_, ?_⟩ <;> ext i inside <;> simp <;> cases word[i] <;> cases write[i] <;> simp
  obtain ⟨set, clear, setClear, setSet, clearClear, clearSet⟩ := bits word pageWrite pageNx
  cases cpuHasNx <;> cases write : prot.has vmProtWrite <;> cases exec : prot.has vmProtExec <;>
    simp only [protectWord, write, exec, Bool.false_eq_true, if_true, if_false] <;> assumption

end Loop

section Spec

variable {machine : Machine σ depth} {root : PAddr} {first pages addr : Nat} {prot : Prot}

/-- After the first pages of the range: each entry of them is changed once, however often
the range comes round to it. -/
structure ProtectedTo (machine : Machine σ depth) (root : PAddr) (first : Nat) (prot : Prot) (count : Nat) (now : Machine σ depth) :
    Prop where
  nx : now.cpuHasNx = machine.cpuHasNx
  present : ∀ i < count, has (machine.entry root (first + i)) pagePresent = true
  inside : ∀ {i}, i < count → ∀ {number}, SamePage depth (first + i) number →
    now.entry root number = protectedEntry machine root prot number
  outside : ∀ {place number}, (place = root → ∀ i < count, ¬SamePage depth (first + i) number) →
    now.entry place number = machine.entry place number

namespace ProtectedTo

variable {count : Nat} {now : Machine σ depth}

theorem start : ProtectedTo machine root first prot 0 machine :=
  ⟨rfl, fun _ bound => absurd bound (Nat.not_lt_zero _), fun bound => absurd bound (Nat.not_lt_zero _), fun _ => rfl⟩

section

variable (reached : ProtectedTo machine root first prot count now)
include reached

theorem entry_cases (number : Nat) :
    now.entry root number = machine.entry root number ∨ now.entry root number = protectedEntry machine root prot number := by
  by_cases touched : ∃ i < count, SamePage depth (first + i) number
  · obtain ⟨i, bound, same⟩ := touched
    exact .inr (reached.inside bound same)
  · exact .inl (reached.outside fun _ i bound same => touched ⟨i, bound, same⟩)

theorem present_iff (number : Nat) :
    has (now.entry root number) pagePresent = has (machine.entry root number) pagePresent := by
  rcases reached.entry_cases number with same | same
  · rw [same]
  · rw [same]
    exact (protectWord_same _ _ _).present

theorem protects (number : Nat) :
    protectWord now.cpuHasNx prot (now.entry root number) = protectedEntry machine root prot number := by
  rw [reached.nx]
  rcases reached.entry_cases number with same | same
  · rw [same]
    rfl
  · rw [same]
    exact protectWord_twice ..

theorem next (present : has (now.entry root (first + count)) pagePresent = true) :
    ProtectedTo machine root first prot (count + 1)
      (now.writeEntry root (first + count) (protectWord now.cpuHasNx prot (now.entry root (first + count)))) := by
  have reaches := reaches_of_present present
  refine ⟨reached.nx, fun i bound => ?_, fun {i} bound {number} same => ?_, fun {place number} away => ?_⟩
  · rcases Nat.lt_succ_iff_lt_or_eq.mp bound with earlier | rfl
    · exact reached.present i earlier
    · exact (reached.present_iff _).symm.trans present
  · rw [entry_writeEntry reaches]
    split
    · rename_i here
      rw [reached.protects]
      exact congrArg (protectWord machine.cpuHasNx prot) (entry_samePage here.2)
    · rename_i notHere
      rcases Nat.lt_succ_iff_lt_or_eq.mp bound with earlier | rfl
      · exact reached.inside earlier same
      · exact absurd ⟨rfl, same⟩ notHere
  · rw [entry_writeEntry reaches]
    split
    · rename_i here
      exact absurd here.2 (away here.1 count (lt_succ_self _))
    · exact reached.outside fun isRoot i bound => away isRoot i (lt_succ_of_lt bound)

end

end ProtectedTo

/-- `vmm_protect` changes the pages of the range up to the first that is not there, and
succeeds if there is none. -/
theorem vmmProtect_spec (some_ : pages ≠ 0) (aligned : addr % pageSize = 0) (accepted : protAccepted prot = true) :
    ((vmmProtect root addr pages prot machine).1 = true ∧
        ProtectedTo machine root (addr / pageSize) prot pages (vmmProtect root addr pages prot machine).2) ∨
      ((vmmProtect root addr pages prot machine).1 = false ∧ ∃ hole < pages,
        has (machine.entry root (addr / pageSize + hole)) pagePresent = false ∧
          ProtectedTo machine root (addr / pageSize) prot hole (vmmProtect root addr pages prot machine).2) := by
  unfold vmmProtect
  rw [if_neg some_, if_neg (by simp [aligned]), if_neg (by simp [accepted])]
  refine forUntil_range _ machine pages (ProtectedTo machine root (addr / pageSize) prot)
    (fun hole now => has (machine.entry root (addr / pageSize + hole)) pagePresent = false ∧
      ProtectedTo machine root (addr / pageSize) prot hole now) .start (fun index _ now reached goes => ?_)
    fun index _ now reached stops => ?_
  · dsimp only at goes ⊢
    cases present : has (now.entry root (addr / pageSize + index)) pagePresent with
    | false =>
      rw [present] at goes
      cases goes
    | true => exact reached.next present
  · dsimp only at stops ⊢
    cases present : has (now.entry root (addr / pageSize + index)) pagePresent with
    | false => exact ⟨(reached.present_iff _).symm.trans present, reached⟩
    | true =>
      rw [present] at stops
      cases stops

end Spec

/-- The arguments that `sys_mprotect` and `vmm_protect` let through. -/
structure MprotectAccepted (inUser : Bool) (addr len : BitVec 64) (prot : BitVec 32) : Prop where
  inUser : inUser = true
  some_ : len ≠ 0
  aligned : addr.toNat % pageSize = 0
  known : prot &&& ~~~7#32 = 0
  pages : mprotectPages len ≠ 0
  prot : protAccepted (mprotectProt prot) = true

/-- A user page below `USER_MAX` in a region. -/
structure Registered (space : VmSpace) (machine : Machine σ depth) (number : Nat) : Prop where
  low : pageOf depth number < userMaxPage
  covered : space.Covers (pageOf depth number * pageSize)
  user : has (machine.entry space.pml4 number) pageUser = true

/-- Every page of the range before the first hole has the permissions already, unless the
range has no hole and the page is registered. -/
def MprotectSafe (current : Option (Option VmSpace)) (inUser : Bool) (addr len : BitVec 64) (prot : BitVec 32)
    (machine : Machine σ depth) : Prop :=
  ∀ space, current = some (some space) → MprotectAccepted inUser addr len prot → ∀ index < mprotectPages len,
    PresentTo machine space.pml4 (addr.toNat / pageSize) index →
      protectedEntry machine space.pml4 (mprotectProt prot) (addr.toNat / pageSize + index) =
          machine.entry space.pml4 (addr.toNat / pageSize + index) ∨
        Registered space machine (addr.toNat / pageSize + index) ∧
          ∀ i < mprotectPages len, has (machine.entry space.pml4 (addr.toNat / pageSize + i)) pagePresent = true

section Call

variable {machine : Machine σ depth} {current : Option (Option VmSpace)} {inUser : Bool} {addr len : BitVec 64} {prot : BitVec 32}

theorem sysMprotect_rejected (rejected : ∀ space, current = some (some space) → ¬MprotectAccepted inUser addr len prot) :
    (sysMprotect current inUser addr len prot machine).1 ≠ 0 ∧ (sysMprotect current inUser addr len prot machine).2 = machine := by
  have invalid : einval ≠ 0 := by decide
  have noMemory : enomem ≠ 0 := by decide
  unfold sysMprotect
  cases current with
  | none => exact ⟨invalid, rfl⟩
  | some vs =>
    dsimp only
    split
    · exact ⟨invalid, rfl⟩
    rename_i user
    split
    · exact ⟨invalid, rfl⟩
    rename_i some_
    split
    · exact ⟨invalid, rfl⟩
    rename_i aligned
    split
    · exact ⟨invalid, rfl⟩
    rename_i known
    cases vs with
    | none => exact ⟨noMemory, rfl⟩
    | some space =>
      have fails : vmmProtect space.pml4 addr.toNat (mprotectPages len) (mprotectProt prot) machine = (false, machine) := by
        by_contra runs
        unfold vmmProtect at runs
        rw [if_neg aligned] at runs
        by_cases pages : mprotectPages len = 0
        · exact runs (if_pos pages)
        · rw [if_neg pages] at runs
          by_cases accepted : protAccepted (mprotectProt prot) = true
          · exact rejected space rfl ⟨by simpa using user, some_, not_not.mp aligned, not_not.mp known, pages, accepted⟩
          · exact runs (if_pos (by simpa using accepted))
      simp only [vmProtect, fails, Bool.false_eq_true, if_false]
      exact ⟨noMemory, trivial⟩

variable {space : VmSpace}

theorem sysMprotect_accepted (accepted : MprotectAccepted inUser addr len prot) :
    sysMprotect (some (some space)) inUser addr len prot machine =
      (if (vmmProtect space.pml4 addr.toNat (mprotectPages len) (mprotectProt prot) machine).1 then 0 else enomem,
        (vmmProtect space.pml4 addr.toNat (mprotectPages len) (mprotectProt prot) machine).2) := by
  unfold sysMprotect
  dsimp only
  rw [if_neg (by simp [accepted.inUser]), if_neg accepted.some_, if_neg (by simp [accepted.aligned]),
    if_neg (not_not.mpr accepted.known)]
  rfl

variable {protBits : Prot} {now : Machine σ depth}

theorem ProtectedTo.touched {root place : PAddr} {first count number : Nat}
    (reached : ProtectedTo machine root first protBits count now) (changed : now.entry place number ≠ machine.entry place number) :
    place = root ∧ ∃ i < count, SamePage depth (first + i) number := by
  by_contra away
  refine changed (reached.outside fun isRoot i bound same => away ⟨isRoot, i, bound, same⟩)

theorem ProtectedTo.presentTo {root : PAddr} {first count index : Nat}
    (reached : ProtectedTo machine root first protBits count now) (bound : index < count) : PresentTo machine root first index :=
  fun i upTo => reached.present i (Nat.lt_of_le_of_lt upTo bound)

theorem contained_accepted (accepted : MprotectAccepted inUser addr len prot) :
    ProtectContained (some space) machine (sysMprotect (some (some space)) inUser addr len prot machine) ↔
      ∀ index < mprotectPages len, PresentTo machine space.pml4 (addr.toNat / pageSize) index →
        protectedEntry machine space.pml4 (mprotectProt prot) (addr.toNat / pageSize + index) =
            machine.entry space.pml4 (addr.toNat / pageSize + index) ∨
          Registered space machine (addr.toNat / pageSize + index) ∧
            ∀ i < mprotectPages len, has (machine.entry space.pml4 (addr.toNat / pageSize + i)) pagePresent = true := by
  rw [sysMprotect_accepted accepted]
  have failure : enomem ≠ 0 := by decide
  have spec := @vmmProtect_spec _ _ machine space.pml4 _ _ _ accepted.pages accepted.aligned accepted.prot
  generalize vmmProtect space.pml4 addr.toNat (mprotectPages len) (mprotectProt prot) machine = result at spec ⊢
  generalize addr.toNat / pageSize = first at spec ⊢
  -- The same entry under its number in the range and under the number of its page.
  have entries : ∀ i, machine.entry space.pml4 (pageOf depth (first + i)) = machine.entry space.pml4 (first + i) :=
    fun i => (entry_samePage (samePage_pageOf depth (first + i))).symm
  constructor
  · intro contained index bound present
    refine or_iff_not_imp_left.mpr fun differs => ?_
    rcases spec with ⟨succeeds, reached⟩ | ⟨fails, hole, inside, absent, reached⟩
    · have same := reached.inside bound (samePage_pageOf depth (first + index))
      have changed : result.2.entry space.pml4 (pageOf depth (first + index)) ≠ machine.entry space.pml4 (pageOf depth (first + index)) := by
        rw [same, protectedEntry, entries]
        exact differs
      obtain ⟨other, is, -, low, covered, user, -⟩ := contained.only space.pml4 (pageOf depth (first + index))
        (mod_lt _ (by positivity)) changed
      cases is
      rw [entries] at user
      exact ⟨⟨low, covered, user⟩, reached.present⟩
    · have before : index < hole := by
        by_contra late
        exact nomatch absent.symm.trans (present hole (Nat.not_lt.mp late))
      have unchanged := contained.failed (by simpa [fails] using failure) space.pml4 (first + index)
      exact absurd ((reached.inside before rfl).symm.trans unchanged) differs
  · intro safe
    -- A page that needs no change keeps its entry.
    have idle : ∀ {i number}, SamePage depth (first + i) number →
        protectedEntry machine space.pml4 (mprotectProt prot) (first + i) = machine.entry space.pml4 (first + i) →
          protectedEntry machine space.pml4 (mprotectProt prot) number = machine.entry space.pml4 number := by
      intro i number same needless
      rw [protectedEntry, ← entry_samePage same]
      exact needless
    refine ⟨fun root page low changed => ?_, fun failed root page => ?_⟩
    · have reaches : ∃ count ≤ mprotectPages len, ProtectedTo machine space.pml4 first (mprotectProt prot) count result.2 := by
        rcases spec with ⟨-, reached⟩ | ⟨-, hole, inside, -, reached⟩
        · exact ⟨_, Nat.le_refl _, reached⟩
        · exact ⟨hole, Nat.le_of_lt inside, reached⟩
      obtain ⟨count, most, reached⟩ := reaches
      obtain ⟨rfl, i, bound, same⟩ := reached.touched changed
      have entry := reached.inside bound same
      rcases safe i (Nat.lt_of_lt_of_le bound most) (reached.presentTo bound) with needless | ⟨registered, -⟩
      · exact absurd (entry.trans (idle same needless)) changed
      · have is : pageOf depth (first + i) = page := Eq.trans same (mod_eq_of_lt low)
        have user := registered.user
        rw [entry_samePage same] at user
        refine ⟨space, rfl, rfl, is ▸ registered.low, is ▸ registered.covered, user, ?_⟩
        dsimp only
        rw [entry]
        exact protectWord_same ..
    · rcases spec with ⟨succeeds, -⟩ | ⟨-, hole, inside, absent, reached⟩
      · exact absurd (by simp [succeeds]) failed
      · by_contra changed
        obtain ⟨rfl, i, bound, same⟩ := reached.touched changed
        rcases safe i (Nat.lt_trans bound inside) (reached.presentTo bound) with needless | ⟨-, all⟩
        · exact changed ((reached.inside bound same).trans (idle same needless))
        · exact nomatch absent.symm.trans (all hole inside)

end Call

/-- `sys_mprotect` stays inside of the regions of its caller and changes all or nothing
exactly when the pages up to the first hole need no change, or there is no hole and those
that do are registered. -/
theorem mprotect_contained_iff (current : Option (Option VmSpace)) (inUser : Bool) (addr len : BitVec 64) (prot : BitVec 32)
    (machine : Machine σ depth) :
    ProtectContained current.join machine (sysMprotect current inUser addr len prot machine) ↔
      MprotectSafe current inUser addr len prot machine := by
  by_cases accepted : (∃ space, current = some (some space)) ∧ MprotectAccepted inUser addr len prot
  · obtain ⟨⟨space, rfl⟩, accepted⟩ := accepted
    refine (contained_accepted accepted).trans ⟨fun safe other same _ => ?_, fun safe => safe space rfl accepted⟩
    cases same
    exact safe
  · have rejected : ∀ space, current = some (some space) → ¬MprotectAccepted inUser addr len prot :=
      fun space is args => accepted ⟨⟨space, is⟩, args⟩
    have same : (sysMprotect current inUser addr len prot machine).2 = machine := (sysMprotect_rejected rejected).2
    refine ⟨fun _ space is args => absurd args (rejected space is), fun _ => ⟨fun root page _ changed => ?_, fun _ root page => ?_⟩⟩
    · rw [same] at changed
      exact absurd rfl changed
    · rw [same]

namespace Bump

/-- A table with one last-level table under it. -/
def chain (first : Fin 512) (word : Word) : Table 2 := fun index =>
  if index = 0 then
    Radix.node ⟨0x3000#64, true⟩ fun index =>
      if index = first then Radix.node ⟨0x4000#64, true⟩ fun index => Radix.leaf (if index = 0 then word else 0) else Radix.absent
  else Radix.absent

/-- An address space with a writable page at `0x400000` and one of the kernel's at the
beginning of the upper half. -/
def mprotectMachine : Machine Bump 3 :=
  { bare with
    spaces := fun root =>
      if root = 0x1000#64 then
        Radix.node ⟨0x1000#64, true⟩ fun index =>
          if index = 0 then Radix.node ⟨0x2000#64, true⟩ (chain 2 0x8000000000005207#64)
          else if index = 256 then Radix.node ⟨0x7000#64, false⟩ (chain 0 0x6003#64)
          else Radix.absent
      else Radix.absent }

/-- Its region is longer than what is mapped. -/
def mprotectSpace : VmSpace :=
  ⟨0x1000#64, [⟨0x400000, 0x402000, vmProtRead ||| vmProtWrite, vmProtRead ||| vmProtWrite, 0, true⟩]⟩

/-- A call that reaches a hole fails and has changed the page before it, and a call for an
address of the kernel's succeeds and takes the right to write from a page of the kernel. -/
theorem mprotect_escapes :
    (sysMprotect (some (some mprotectSpace)) true 0x400000#64 8192#64 1#32 mprotectMachine).1 = enomem ∧
    ¬ProtectContained (some mprotectSpace) mprotectMachine
      (sysMprotect (some (some mprotectSpace)) true 0x400000#64 8192#64 1#32 mprotectMachine) ∧
    (sysMprotect (some (some mprotectSpace)) true 0xFFFF800000000000#64 4096#64 1#32 mprotectMachine).1 = 0 ∧
    ¬ProtectContained (some mprotectSpace) mprotectMachine
      (sysMprotect (some (some mprotectSpace)) true 0xFFFF800000000000#64 4096#64 1#32 mprotectMachine) := by
  have fails : (sysMprotect (some (some mprotectSpace)) true 0x400000#64 8192#64 1#32 mprotectMachine).1 = enomem := by decide +kernel
  have changed : (sysMprotect (some (some mprotectSpace)) true 0x400000#64 8192#64 1#32 mprotectMachine).2.entry 0x1000#64 0x400 ≠
      mprotectMachine.entry 0x1000#64 0x400 := by decide +kernel
  have kernel : (sysMprotect (some (some mprotectSpace)) true 0xFFFF800000000000#64 4096#64 1#32 mprotectMachine).2.entry 0x1000#64
      0x800000000 ≠ mprotectMachine.entry 0x1000#64 0x800000000 := by decide +kernel
  refine ⟨fails, fun contained => changed ?_, by decide +kernel, fun contained => ?_⟩
  · exact contained.failed (by rw [fails]; decide) _ _
  · obtain ⟨-, -, -, low, -⟩ := contained.only _ _ (by decide) kernel
    exact absurd low (by decide)

end Bump

end NyonOS.Paging
