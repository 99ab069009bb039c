import NyonOS.Elf.Accepted
import NyonOS.Elf.InitialStack
import NyonOS.Elf.Regions
import NyonOS.Paging.Create

namespace NyonOS.Elf

open Data List
open Paging
open Machine Function

/-! The address space that `elf_load_core` returns. -/

variable {σ : Type} [FrameAllocator σ] {depth : Nat}

def Touched (bias : Nat) (segs : List Phdr) (number : Nat) : Prop := ∃ ph ∈ segs, Touches bias number ph

/-- The pages of the stack that are mapped from the start. -/
def InStack (number : Nat) : Prop := stackBase / pageSize ≤ number ∧ number < stackTop / pageSize

/-- A page that the loader was given. -/
def InShared (depth : Nat) (shared : Option Shared) (number : Nat) : Prop :=
  ∃ s, Shared.used shared = some s ∧ ∃ index < s.pages, SamePage depth (s.virt / pageSize + index) number

/-- The page of the random bytes; the flag says whether there is memory behind its region. -/
abbrev RandomAt := Option (Nat × Bool)

section Bounds

variable {file : File} {isPie : Bool} {seg : Phdr} {bias : Nat}

theorem userPage_of_lt (levels : depth = 3 ∨ depth = 4) {number : Nat} (low : number < 2 ^ 35) : UserPage depth number := by
  rcases levels with rfl | rfl
  · refine ⟨by omega, ?_⟩
    change number / 512 ^ 3 % 512 < 256
    omega
  · refine ⟨by omega, ?_⟩
    change number / 512 ^ 4 % 512 < 256
    omega

theorem loadBias_lt (header : Header) (oracle : Oracle) : loadBias header oracle < 2 ^ 31 := by
  have random := Nat.mod_lt (oracle.random 0) (show 0x400 > 0 by decide)
  unfold loadBias vmLoadBase pageSize
  split <;> omega

theorem SegmentOk.loadable (levels : depth = 3 ∨ depth = 4) (segment : SegmentOk file isPie seg)
    (low : seg.vaddr ≤ userMax - bias - seg.memsz) (near : bias < 2 ^ 31) : Loadable depth bias seg := by
  have fits := segment.fits
  have small := segment.small
  have image : elfMaxImage = 2 ^ 26 := by decide
  have user : userMax = 2 ^ 47 := by decide
  refine ⟨fits, by omega, fun touches => userPage_of_lt levels ?_⟩
  have last := touches.2
  unfold segEnd pageSize at last
  omega

end Bounds

section Stages

variable {machine after : Machine σ depth} {root : PAddr} {view : View} {nx : Bool} {regions added : List VmRegion}

theorem created_shows (created : Created machine root after) (kernel : KernelHalf machine.kernelPml4) (tables : machine.Tables) :
    Shows machine.cpuHasNx after root fun _ => none := by
  refine ⟨(created.tables kernel tables).1, created.alive, created.cpuHasNx, fun user _ => ?_, (fun _ viewed => nomatch viewed),
    (fun _ _ viewed => nomatch viewed)⟩
  rw [created.entry_new user]
  simp

theorem vmSetupStack_shows (levels : depth = 3 ∨ depth = 4) (shows : Shows nx machine root view)
    (done : vmSetupStack root regions machine = (some added, after)) :
    RegionAdded regions stackBottom stackTop protRw vmBackingAnon added ∧ (∀ number, InStack number → view number = none) ∧
      Shows nx after root (Shows.withZeroed view (stackBase / pageSize) vmStackPages protRw) := by
  unfold vmSetupStack at done
  cases adds : vmRegionAdd regions stackBottom stackTop protRw vmBackingAnon with
  | none =>
    rw [adds] at done
    cases done
  | some list =>
    rw [adds] at done
    dsimp only at done
    obtain ⟨first, rfl⟩ := Prod.mk.injEq .. ▸ done
    split at first
    · rename_i mapped
      cases first
      have base : stackBase / pageSize * pageSize = stackBase := by decide
      rw [← base] at mapped ⊢
      obtain ⟨missing, shown⟩ := shows.anonZeroed (fun index inside => userPage_of_lt levels (by
          have start : stackBase / pageSize = 262140 := by decide
          have count : vmStackPages = 4 := rfl
          omega)) mapped
      refine ⟨vmRegionAdd_added adds, fun number inside => ?_, ?_⟩
      · obtain ⟨lower, upper⟩ := inside
        have above := missing (number - stackBase / pageSize) (by
          have top : stackTop / pageSize = stackBase / pageSize + vmStackPages := by decide
          omega)
        rwa [Nat.add_sub_cancel' lower] at above
      · exact shown
    · cases first

theorem vmFindFree_bounds {hi bytes rounds cur found : Nat} (done : vmFindFree regions hi bytes rounds cur = some found) :
    cur ≤ found ∧ found + bytes ≤ hi := by
  induction rounds generalizing cur with
  | zero => cases done
  | succ rounds ih =>
    rw [vmFindFree] at done
    split at done
    · cases done
    · rename_i fits
      split at done
      · rename_i clash
        have passed := find?_some clash
        simp only [Bool.and_eq_true, decide_eq_true_eq] at passed
        obtain ⟨lower, upper⟩ := ih done
        omega
      · cases done
        omega

theorem poked_shows {page : Nat} {shown : PageView} {bytes : List UInt8} (shows : Shows nx machine root view) (user : UserPage depth page)
    (viewed : view page = some shown) (short : bytes.length ≤ 4096) :
    ∃ contents, Shows nx (pokes machine (frameOf (machine.entry root page)) bytes) root
      (update view page (some ⟨shown.prot, contents⟩)) := by
  obtain ⟨spaces, frames, cpuHasNx⟩ := pokes_same machine (frameOf (machine.entry root page)) bytes
  refine ⟨_, shows.rewrite user viewed spaces frames cpuHasNx fun frame different => pokes_elsewhere fun k inside => ?_⟩
  rw [frameAt_aligned (aligned_frameOf _) (by omega)]
  exact different.symm

/-- What comes of the page for the random bytes. -/
structure RandomDone (nx : Bool) (root : PAddr) (regions : List VmRegion) (view : View) (done : RandomPage σ depth) (random : RandomAt)
    (after : View) : Prop where
  shows : Shows nx done.machine root after
  covered : ∀ number, Covered done.regions number ↔ Covered regions number ∨ ∃ backed, random = some (number, backed)
  place : ∀ {number backed}, random = some (number, backed) → vmAuxvLo / pageSize ≤ number ∧ number < vmAuxvHi / pageSize
  others : ∀ number, random ≠ some (number, true) → after number = view number
  page : ∀ number, random = some (number, true) → view number = none ∧ ∃ bytes, after number = some ⟨protRw, bytes⟩

theorem RegionAdded.covered_page {base : Nat} {prot : Prot} {backing : BitVec 8}
    (adds : RegionAdded regions (base * pageSize) (base * pageSize + pageSize) prot backing added) (number : Nat) :
    Covered added number ↔ Covered regions number ∨ number = base := by
  rw [adds.covered]
  unfold pageSize
  refine or_congr_right ?_
  omega

theorem mapRandom_done (levels : depth = 3 ∨ depth = 4) (oracle : Oracle) (shows : Shows nx machine root view) :
    ∃ random after, RandomDone nx root regions view (mapRandom oracle root regions machine) random after := by
  have nothing : ∃ random after, RandomDone nx root regions view ⟨none, regions, machine⟩ random after :=
    ⟨none, view, shows, fun _ => by simp, (fun found => nomatch found), fun _ _ => rfl, (fun _ found => nomatch found)⟩
  unfold mapRandom
  cases found : vmFindFree regions vmAuxvHi pageSize (regions.length + 1) vmAuxvLo with
  | none => exact nothing
  | some rbase =>
    dsimp only
    cases adds : vmRegionAdd regions rbase (rbase + pageSize) protRw vmBackingAnon with
    | none => exact nothing
    | some list =>
      dsimp only
      obtain ⟨lower, upper⟩ := vmFindFree_bounds found
      obtain ⟨base, rfl⟩ : ∃ base, rbase = base * pageSize :=
        ⟨rbase / pageSize, (Nat.div_mul_cancel (Nat.dvd_of_mod_eq_zero (vmRegionAdd_added adds).startAligned)).symm⟩
      have number : base * pageSize / pageSize = base := Nat.mul_div_cancel base (by decide)
      have place : vmAuxvLo / pageSize ≤ base ∧ base < vmAuxvHi / pageSize := by
        unfold vmAuxvLo vmAuxvHi pageSize at *
        omega
      have user : UserPage depth base := userPage_of_lt levels (by
        have top : vmAuxvHi / pageSize < 2 ^ 35 := by decide
        omega)
      have single : ∀ machine : Machine σ depth, vmMapAnonZeroed root (base * pageSize) 1 protRw true machine =
          mapAnonPage root (base * pageSize) protRw true machine := by
        intro machine
        rw [vmMapAnonZeroed, if_neg Nat.one_ne_zero, show range 1 = [0] from rfl, forUntil_cons, Nat.zero_mul, Nat.add_zero]
        cases mapped : (mapAnonPage root (base * pageSize) protRw true machine).1 with
        | true | false => exact Prod.ext mapped.symm rfl
      have covers := (vmRegionAdd_added adds).covered_page
      rw [single]
      cases mapped : (mapAnonPage root (base * pageSize) protRw true machine).1 with
      | false =>
        refine ⟨some (base, false), view, shows.anonPage_failed user mapped, fun other => ?_, fun same => ?_, fun _ _ => rfl,
          fun _ same => by cases same⟩
        · rw [if_neg Bool.false_ne_true]
          refine (covers other).trans (or_congr_right ?_)
          simp [eq_comm]
        · cases same
          exact place
      | true =>
        obtain ⟨missing, shown⟩ := shows.anonPage user mapped
        rw [if_pos rfl, number]
        obtain ⟨bytes, poked⟩ := poked_shows shown user (update_self base _ view)
          (show (wordBytes (oracle.random 1) ++ wordBytes (oracle.random 2)).length ≤ 4096 by
            simp [wordBytes])
        rw [update_idem] at poked
        refine ⟨some (base, true), _, poked, fun other => ?_, fun same => ?_, fun other different => ?_, fun other same => ?_⟩
        · refine (covers other).trans (or_congr_right ?_)
          simp [eq_comm]
        · cases same
          exact place
        · refine update_of_ne ?_ _ _
          rintro rfl
          exact different rfl
        · cases same
          exact ⟨missing, bytes, update_self ..⟩

theorem pushed_shows {argv envp : List (List UInt8)} {aux : List (Nat × Nat)} {shown : PageView} {pushed : Pushed σ depth}
    (levels : depth = 3 ∨ depth = 4) (shows : Shows nx machine root view) (viewed : view topPage = some shown)
    (fits : FitsTopPage argv envp aux.length) (accepted : vmStackPushStrings root argv envp aux machine = some pushed) :
    ∃ contents, Shows nx pushed.machine root (update view topPage (some ⟨shown.prot, contents⟩)) := by
  have user : UserPage depth topPage := userPage_of_lt levels (by decide)
  obtain ⟨frame, backed⟩ := shows.backed user viewed
  rcases @vmStackPushStrings_spec σ depth machine root argv envp aux backed.present with
    ⟨refused, -⟩ | ⟨pos, same, placed, accepted', -, -, wrote, -⟩
  · cases refused.symm.trans accepted
  · cases accepted'.symm.trans accepted
    have high := fits pos placed
    refine ⟨_, shows.rewrite user viewed wrote.spaces wrote.frames wrote.cpuHasNx fun frame different => ?_⟩
    refine wrote.elsewhere frame fun there least most => ?_
    rw [(stackPhys_top (aligned_frameOf _) (high.trans least) most).1]
    exact different.symm

/-! Shared pages. -/

theorem vmCommit_entries {vaddr pages : Nat} {phys : PAddr} {prot : Prot} {owned : Bool} (alive : machine.alive root = true)
    (done : (vmCommit root vaddr phys pages prot owned machine).1 = true) :
    let mapped := (vmCommit root vaddr phys pages prot owned machine).2
    (∀ index < pages, has (machine.entry root (vaddr / pageSize + index)) pagePresent = false) ∧
      (∀ number, mapped.entry root number =
        match (range pages).reverse.find? fun index => SamePage depth (vaddr / pageSize + index) number with
        | some index => mappedWord phys (mapFramesFlags machine.cpuHasNx (vmFlagsFor prot) (prot.has vmProtExec) owned) index
        | none => machine.entry root number) ∧
      mapped.bytes = machine.bytes := by
  obtain ⟨link, table, space⟩ := alive_node alive
  unfold vmCommit at done ⊢
  split at done
  · cases done
  · rename_i some
    split at done
    · cases done
    · rename_i aligned
      rw [if_neg some, if_neg aligned]
      unfold vmmMapFrames onTable at done ⊢
      rw [space] at done ⊢
      dsimp only at done ⊢
      obtain ⟨free, queries⟩ := (vmmMapIn_query false _ vaddr phys pages table machine.frames).2 done
      refine ⟨fun index inside => ?_, fun number => ?_, rfl⟩
      · rw [entry_node space]
        exact free index inside
      · rw [entry_node (update_self root _ machine.spaces), queries]
        cases (range pages).reverse.find? fun index => SamePage depth (vaddr / pageSize + index) number with
        | some index => rfl
        | none => exact (entry_node space number).symm

/-- What comes of the pages that the loader was given. -/
structure SharedDone (root : PAddr) (shared : Option Shared) (regions : List VmRegion) (machine : Machine σ depth)
    (added : List VmRegion) (after : Machine σ depth) : Prop where
  covered : ∀ number, Covered added number ↔ Covered regions number ∨ ∃ s, Shared.used shared = some s ∧
    s.virt ≤ number * pageSize ∧ number * pageSize < (s.virt + s.pages * pageSize) % 2 ^ 64
  free : ∀ {number}, InShared depth shared number → has (machine.entry root number) pagePresent = false
  page : ∀ {number}, InShared depth shared number → has (after.entry root number) pagePresent = true ∧
    (machine.cpuHasNx = true → has (after.entry root number) pageNx = true)
  others : ∀ {number}, ¬InShared depth shared number → after.entry root number = machine.entry root number
  bytes : after.bytes = machine.bytes

theorem sharedWord_flags (nx : Bool) (phys : PAddr) (index : Nat) :
    let word := mappedWord phys (mapFramesFlags nx (vmFlagsFor protRw) (protRw.has vmProtExec) false) index
    has word pagePresent = true ∧ (nx = true → has word pageNx = true) := by
  have exec : protRw.has vmProtExec = false := by decide
  simp only [mappedWord, has_or, has_mapFramesFlags, exec]
  cases nx <;> simp

theorem mapShared_done {shared : Option Shared} (alive : machine.alive root = true)
    (done : mapShared root shared regions machine = (some added, after)) : SharedDone root shared regions machine added after := by
  unfold mapShared at done
  cases used : Shared.used shared with
  | none =>
    rw [used] at done
    cases done
    have nowhere : ∀ {number}, ¬InShared depth shared number := by
      rintro number ⟨s, found, -⟩
      cases used.symm.trans found
    exact ⟨fun number => by simp [used], fun here => absurd here nowhere, fun here => absurd here nowhere, fun _ => rfl, rfl⟩
  | some s =>
    rw [used] at done
    dsimp only at done
    have inShared : ∀ {number}, InShared depth shared number ↔ ∃ index < s.pages, SamePage depth (s.virt / pageSize + index) number := by
      intro number
      unfold InShared
      rw [used]
      simp
    cases adds : vmRegionAdd regions s.virt ((s.virt + s.pages * pageSize) % 2 ^ 64) protRw vmBackingNone with
    | none =>
      rw [adds] at done
      cases done
    | some list =>
      rw [adds] at done
      dsimp only at done
      cases mapped : (vmCommit root s.virt s.phys s.pages protRw false machine).1 with
      | false =>
        rw [mapped] at done
        cases done
      | true =>
        obtain ⟨free, entries, bytes⟩ := vmCommit_entries alive mapped
        rw [mapped, if_neg (by decide)] at done
        generalize (vmCommit root s.virt s.phys s.pages protRw false machine).2 = now at done entries bytes
        have freeAt : ∀ {number}, InShared depth shared number → has (machine.entry root number) pagePresent = false := by
          intro number here
          obtain ⟨index, inside, same⟩ := inShared.mp here
          rw [← entry_samePage same]
          exact free index inside
        have pageNow : ∀ {number}, InShared depth shared number → has (now.entry root number) pagePresent = true ∧
            (machine.cpuHasNx = true → has (now.entry root number) pageNx = true) := by
          intro number here
          obtain ⟨index, inside, same⟩ := inShared.mp here
          rw [entries]
          cases found : (range s.pages).reverse.find? fun index => SamePage depth (s.virt / pageSize + index) number with
          | some index => exact sharedWord_flags machine.cpuHasNx s.phys index
          | none =>
            have missed := find?_eq_none.mp found index (by simpa using inside)
            exact absurd same (by simpa using missed)
        have otherNow : ∀ {number}, ¬InShared depth shared number → now.entry root number = machine.entry root number := by
          intro number away
          rw [entries]
          cases found : (range s.pages).reverse.find? fun index => SamePage depth (s.virt / pageSize + index) number with
          | some index =>
            have inside : index < s.pages := by simpa using mem_of_find?_eq_some found
            have selected := find?_some found
            exact absurd (inShared.mpr ⟨index, inside, of_decide_eq_true selected⟩) away
          | none => rfl
        cases present : has (now.entry root (s.virt / pageSize)) pagePresent with
        | false =>
          have refused : vmmPin root s.virt now = (false, now) := by
            unfold vmmPin
            dsimp only
            rw [present, if_pos (by rfl)]
          rw [refused] at done
          cases done
        | true =>
          have pins : vmmPin root s.virt now =
              (true, now.writeEntry root (s.virt / pageSize) (now.entry root (s.virt / pageSize) ||| pagePinned)) := by
            unfold vmmPin
            dsimp only
            rw [present, if_neg (by decide)]
          rw [pins] at done
          cases done
          have first : 0 < s.pages := by
            rcases Nat.eq_zero_or_pos s.pages with zero | some
            · rw [zero] at mapped
              cases mapped
            · exact some
          have pinned := entry_writeEntry (reaches_of_present present) (now.entry root (s.virt / pageSize) ||| pagePinned) root
          refine ⟨fun number => ?_, freeAt, fun {number} here => ?_, fun {number} away => ?_, bytes⟩
          · rw [(vmRegionAdd_added adds).covered, used]
            simp
          · obtain ⟨there, executes⟩ := pageNow here
            rw [pinned]
            split
            · rename_i same
              rw [has_or, has_or, entry_samePage same.2]
              exact ⟨by simp [there], fun nx => by simp [executes nx]⟩
            · exact ⟨there, executes⟩
          · rw [pinned, if_neg, otherNow away]
            rintro ⟨-, same⟩
            exact away (inShared.mpr ⟨0, first, same⟩)

end Stages

end NyonOS.Elf
