import NyonOS.Paging.Family

namespace NyonOS.Paging

open Data Machine

/-! Changes of permission bits. -/

variable {σ : Type} [FrameAllocator σ] {depth : Nat}

/-- Two entries that differ at most in `PAGE_WRITE`, `PAGE_NX` and the caching bits. -/
structure SameAccount (old new : Word) : Prop where
  frame : frameOf new = frameOf old
  present : has new pagePresent = has old pagePresent
  user : has new pageUser = has old pageUser
  owned : has new pageOwned = has old pageOwned
  cow : has new pageCow = has old pageCow
  pinned : has new pagePinned = has old pagePinned
  sharedRef : has new pageSharedRef = has old pageSharedRef

namespace SameAccount

variable {old new : Word}

theorem holding (same : SameAccount old new) : Machine.holding new = Machine.holding old := by
  rw [Machine.holding, Machine.holding, same.present, same.sharedRef, same.owned, same.frame]

theorem entryOk (same : SameAccount old new) (present : has old pagePresent = true) (ok : EntryOk old) :
    EntryOk new := by
  refine ⟨fun absent => ?_, ?_, ?_⟩
  · rw [same.present, present] at absent
    contradiction
  · rw [same.present, same.sharedRef, same.cow, same.pinned]
    exact ok.shared
  · rw [same.present, same.owned, same.sharedRef, same.cow]
    exact ok.sole

end SameAccount

section Words

variable (cpuHasNx : Bool) (prot : Prot) (word : Word)

theorem protectWord_same : SameAccount word (protectWord cpuHasNx prot word) := by
  cases cpuHasNx <;> cases write : prot.has vmProtWrite <;> cases exec : prot.has vmProtExec <;>
    constructor <;> simp [protectWord, write, exec]

@[simp] theorem protectWord_write : has (protectWord cpuHasNx prot word) pageWrite = prot.has vmProtWrite := by
  cases cpuHasNx <;> cases write : prot.has vmProtWrite <;> cases exec : prot.has vmProtExec <;>
    simp [protectWord, write, exec]

end Words

theorem SameAccount.refl (word : Word) : SameAccount word word := ⟨rfl, rfl, rfl, rfl, rfl, rfl, rfl⟩

section Reflag

variable {machine : Machine σ depth} {outside : PAddr → Prop} {root : PAddr} {page : Nat} {word : Word}

section

omit [FrameAllocator σ]

theorem entry_reflag (user : UserPage depth page)
    (present : has (machine.entry root page) pagePresent = true) (word : Word) (place : PAddr) {number : Nat}
    (low : UserPage depth number) : (machine.writeEntry root page word).entry place number =
      if place = root ∧ number = page then word else machine.entry place number := by
  rw [entry_writeEntry (reaches_of_present present)]
  simp only [user.samePage low, @eq_comm _ page]

theorem same_reflag (user : UserPage depth page) (present : has (machine.entry root page) pagePresent = true)
    (same : SameAccount (machine.entry root page) word) (place : PAddr) {number : Nat}
    (low : UserPage depth number) :
    SameAccount (machine.entry place number) ((machine.writeEntry root page word).entry place number) := by
  rw [entry_reflag user present word place low]
  split
  · rename_i here
    rw [here.1, here.2]
    exact same
  · exact .refl _

theorem ledger_same {after : Machine σ depth} (same : ∀ place {number}, UserPage depth number →
    SameAccount (machine.entry place number) (after.entry place number))
    (share : after.share = machine.share) : after.ledger = machine.ledger := by
  have slots : after.ledger.slot = machine.ledger.slot := by
    funext ⟨place, number⟩
    by_cases low : UserPage depth number
    · rw [slot_user after place low, slot_user machine place low, (same place low).holding]
    · exact (if_neg low).trans (if_neg low).symm
  rw [show after.ledger = ⟨after.ledger.slot, after.share⟩ from rfl, slots, share]
  rfl

end

theorem Machine.Family.reflag (family : machine.Family outside) (user : UserPage depth page)
    (present : has (machine.entry root page) pagePresent = true)
    (same : SameAccount (machine.entry root page) word) :
    (machine.writeEntry root page word).Family outside := by
  have reached := reaches_of_present present
  obtain ⟨tables, loose⟩ := family.tables.writeEntry user.2 reached word
  refine family.retable tables loose (ledger_same (same_reflag user present same) rfl)
    (entries_writeEntry reached (same.entryOk present (family.entries root user)) family.entries)

omit [FrameAllocator σ] in
theorem vmmProtect_keeps {root : PAddr} {addr pages : Nat} {prot : Prot} {kept : Machine σ depth → Prop}
    (initial : kept machine)
    (each : protAccepted prot = true → ∀ index < pages, ∀ now, kept now →
      has (now.entry root (addr / pageSize + index)) pagePresent = true →
      kept (now.writeEntry root (addr / pageSize + index)
        (protectWord now.cpuHasNx prot (now.entry root (addr / pageSize + index))))) :
    kept (vmmProtect root addr pages prot machine).2 := by
  unfold vmmProtect
  split
  · exact initial
  split
  · exact initial
  split
  · exact initial
  rename_i accepted
  refine forUntil_keeps kept (fun index member now holds => ?_) initial
  dsimp only
  cases present : has (now.entry root (addr / pageSize + index)) pagePresent with
  | false => exact holds
  | true => exact each (by simpa using accepted) index (List.mem_range.mp member) now holds present

omit [FrameAllocator σ] in
theorem vmmProtect_page {prot : Prot} (accepted : protAccepted prot = true)
    (present : has (machine.entry root page) pagePresent = true) :
    vmmProtect root (page * pageSize) 1 prot machine =
      (true, machine.writeEntry root page (protectWord machine.cpuHasNx prot (machine.entry root page))) := by
  have number : page * pageSize / pageSize = page := Nat.mul_div_cancel page (by decide)
  have whole : page * pageSize % pageSize = 0 := Nat.mul_mod_left page pageSize
  simp [vmmProtect, whole, accepted, number, present, List.range_one, forUntil_cons, forUntil_nil]

end Reflag

end NyonOS.Paging
