import NyonOS.Elf.Segments

namespace NyonOS.Elf

open Data List
open Paging Function

/-! The permissions of the pages of an image and the regions that are recorded for them. -/

/-- The flags of all the segments that touch a page. -/
def unionProt (bias : Nat) (segs : List Phdr) (number : Nat) : Prot :=
  (segs.filter fun ph => Touches bias number ph).foldl (fun prot ph => prot ||| segProt ph.flags) 0

def WriteXorExec (prot : Prot) : Prop := ¬(prot.has vmProtWrite = true ∧ prot.has vmProtExec = true)

instance (prot : Prot) : Decidable (WriteXorExec prot) := inferInstanceAs (Decidable (¬_))

section Union

variable {bias number : Nat} {ph : Phdr} {prot after : Nat → Prot} {segs : List Phdr}

theorem has_or_prot (one other flag : Prot) : (one ||| other).has flag = (one.has flag || other.has flag) := by
  have distributed : (one ||| other) &&& flag = (one &&& flag) ||| (other &&& flag) := by
    ext i inside
    simp [Bool.and_or_distrib_right]
  unfold Prot.has
  rw [distributed]
  generalize one &&& flag = a
  generalize other &&& flag = b
  rw [Bool.eq_iff_iff]
  simp only [bne_iff_ne, ne_eq, Bool.or_eq_true, BitVec.or_eq_zero_iff]
  exact Decidable.not_and_iff_or_not

theorem segProt_ne_zero (flags : Nat) : segProt flags ≠ 0 := by
  unfold segProt
  cases flags.testBit 0 <;> cases flags.testBit 1 <;> cases flags.testBit 2 <;> decide

theorem has_segProt_write (flags : Nat) : (segProt flags).has vmProtWrite = flags.testBit 1 := by
  unfold segProt
  cases flags.testBit 0 <;> cases flags.testBit 1 <;> cases flags.testBit 2 <;> decide

theorem has_segProt_exec (flags : Nat) : (segProt flags).has vmProtExec = flags.testBit 0 := by
  unfold segProt
  cases flags.testBit 0 <;> cases flags.testBit 1 <;> cases flags.testBit 2 <;> decide

theorem has_foldl_prot (flag start : Prot) (segs : List Phdr) :
    (segs.foldl (fun prot ph => prot ||| segProt ph.flags) start).has flag =
      (start.has flag || segs.any fun ph => (segProt ph.flags).has flag) := by
  induction segs generalizing start with
  | nil => simp
  | cons ph rest ih => rw [List.foldl_cons, ih, has_or_prot, any_cons, Bool.or_assoc]

theorem has_unionProt (flag : Prot) : (unionProt bias segs number).has flag =
    segs.any fun ph => decide (Touches bias number ph) && (segProt ph.flags).has flag := by
  unfold unionProt
  rw [has_foldl_prot, any_filter]
  simp [Prot.has]

theorem foldl_prot_ne_zero {start : Prot} (used : start ≠ 0 ∨ segs ≠ []) :
    segs.foldl (fun prot ph => prot ||| segProt ph.flags) start ≠ 0 := by
  induction segs generalizing start with
  | nil => exact used.resolve_right (by simp)
  | cons ph rest ih =>
    refine ih (.inl fun zero => segProt_ne_zero ph.flags ?_)
    exact (BitVec.or_eq_zero_iff.mp zero).2

theorem unionProt_ne_zero : unionProt bias segs number ≠ 0 ↔ ∃ ph ∈ segs, Touches bias number ph := by
  constructor
  · intro used
    by_contra untouched
    refine used ?_
    unfold unionProt
    rw [filter_eq_nil_iff.mpr fun ph member => by simpa using fun touches => untouched ⟨ph, member, touches⟩]
    rfl
  · rintro ⟨ph, member, touches⟩
    refine foldl_prot_ne_zero (.inr fun empty => ?_)
    simp only [filter_eq_nil_iff, decide_eq_true_eq] at empty
    exact empty ph member touches

def merged (bias : Nat) (ph : Phdr) (prot : Nat → Prot) : Nat → Prot := fun number =>
  if Touches bias number ph then prot number ||| segProt ph.flags else prot number

theorem mergeProt_merged (exclusive : ∀ number, WriteXorExec (prot number)) (done : (mergeProt bias ph prot).1 = true) :
    (mergeProt bias ph prot).2 = merged bias ph prot ∧ ∀ number, WriteXorExec (merged bias ph prot number) := by
  have distinct : (segPages bias ph).Nodup := nodup_range' _
  obtain ⟨same, exclusiveAfter⟩ := forUntil_refines (fun now view : Nat → Prot => now = view ∧ ∀ number, WriteXorExec (view number))
    (fun page view => update view page (view page ||| segProt ph.flags))
    (fun page _ now view related goes => by
      obtain ⟨rfl, exclusive⟩ := related
      dsimp only at goes ⊢
      split at goes
      · cases goes
      · rename_i apart
        rw [if_neg apart]
        refine ⟨rfl, fun number => ?_⟩
        by_cases same : number = page
        · subst same
          rw [update_self]
          simpa [WriteXorExec] using apart
        · rw [update_of_ne same]
          exact exclusive number) done ⟨rfl, exclusive⟩
  have pages : ((segPages bias ph).foldl (fun view page => update view page (view page ||| segProt ph.flags)) prot) =
      merged bias ph prot := by
    funext number
    rw [foldl_update distinct (fun _ prot => prot ||| segProt ph.flags)]
    simp only [mem_segPages, merged]
  rw [pages] at same exclusiveAfter
  exact ⟨same, exclusiveAfter⟩

theorem foldl_merged : (segs.foldl (fun prot ph => merged bias ph prot) prot) number =
    (segs.filter fun ph => Touches bias number ph).foldl (fun prot ph => prot ||| segProt ph.flags) (prot number) := by
  induction segs generalizing prot with
  | nil => rfl
  | cons ph rest ih =>
    rw [List.foldl_cons, ih, merged]
    by_cases touches : Touches bias number ph
    · rw [if_pos touches, filter_cons_of_pos (by simpa using touches), List.foldl_cons]
    · rw [if_neg touches, filter_cons_of_neg (by simpa using touches)]

theorem mergeAll_union (done : (forUntil (mergeProt bias) segs fun _ => 0).1 = true) (number : Nat) :
    (forUntil (mergeProt bias) segs fun _ => 0).2 number = unionProt bias segs number ∧
      WriteXorExec (unionProt bias segs number) := by
  obtain ⟨same, exclusive⟩ := forUntil_refines (fun now view : Nat → Prot => now = view ∧ ∀ number, WriteXorExec (view number))
    (merged bias)
    (fun ph _ now view related goes => by
      obtain ⟨rfl, exclusive⟩ := related
      exact mergeProt_merged exclusive goes) done ⟨rfl, fun _ => by decide⟩
  have union : (segs.foldl (fun prot ph => merged bias ph prot) fun _ => 0) number = unionProt bias segs number := foldl_merged
  exact ⟨(congrFun same number).trans union, union ▸ exclusive number⟩

end Union

section Layout

variable {bias : Nat} {segs : List Phdr} {layout : Layout} {protMemory : Bool}

theorem foldl_min_le {first : Nat} {others : List Nat} : ∀ number ∈ first :: others, others.foldl min first ≤ number := by
  induction others generalizing first with
  | nil => simp
  | cons next rest ih =>
    intro number member
    have lower := @ih (min first next)
    rw [List.foldl_cons]
    simp only [mem_cons] at member lower
    rcases member with rfl | rfl | later
    · exact (lower _ (.inl rfl)).trans (Nat.min_le_left ..)
    · exact (lower _ (.inl rfl)).trans (Nat.min_le_right ..)
    · exact lower number (.inr later)

theorem le_foldl_max {start : Nat} {numbers : List Nat} : start ≤ numbers.foldl max start ∧
    ∀ number ∈ numbers, number ≤ numbers.foldl max start := by
  induction numbers generalizing start with
  | nil => simp
  | cons next rest ih =>
    obtain ⟨lower, upper⟩ := @ih (max start next)
    rw [List.foldl_cons]
    refine ⟨(Nat.le_max_left ..).trans lower, fun number member => ?_⟩
    rcases mem_cons.mp member with rfl | later
    · exact (Nat.le_max_right ..).trans lower
    · exact upper number later

/-- What `elf_load_core` knows of the image before it loads a page. -/
structure Planned (bias : Nat) (segs : List Phdr) (layout : Layout) : Prop where
  prot : ∀ number, layout.prot number = unionProt bias segs number
  exclusive : ∀ number, WriteXorExec (unionProt bias segs number)
  inside : ∀ ph ∈ segs, ∀ number, Touches bias number ph → layout.lo ≤ number ∧ number < layout.lo + layout.npages
  bounded : layout.npages ≤ elfMaxImage / pageSize
  addresses : ∀ ph ∈ segs, ph.vaddr ≤ userMax - bias - ph.memsz

theorem elfLayout_planned (accepted : elfLayout segs bias protMemory = .ok layout) : Planned bias segs layout := by
  unfold elfLayout at accepted
  split at accepted
  · cases accepted
  · rename_i addresses
    split at accepted
    · cases accepted
    · rename_i first others starts
      dsimp only at accepted
      split at accepted
      · cases accepted
      · rename_i sizes
        split at accepted
        · cases accepted
        · split at accepted
          · rename_i done
            cases accepted
            refine ⟨fun number => (mergeAll_union done number).1, fun number => (mergeAll_union done number).2, ?_, ?_, ?_⟩
            · intro ph member number touches
              have lower := foldl_min_le (segFirst bias ph) (starts ▸ mem_map_of_mem member)
              have upper := (@le_foldl_max 0 (segs.map (segEnd bias))).2 (segEnd bias ph) (mem_map_of_mem member)
              unfold Touches at touches
              dsimp only
              omega
            · dsimp only
              omega
            · simp only [any_eq_true, decide_eq_true_eq, not_exists, not_and, not_lt] at addresses
              exact addresses
          · cases accepted

end Layout

def Covered (regions : List VmRegion) (number : Nat) : Prop :=
  ∃ region ∈ regions, region.start ≤ number * pageSize ∧ number * pageSize < region.end_

section Covered

variable {regions added : List VmRegion} {start end_ number : Nat} {prot : Prot} {backing : BitVec 8}

/-- A region that has been recorded. -/
structure RegionAdded (regions : List VmRegion) (start end_ : Nat) (prot : Prot) (backing : BitVec 8) (added : List VmRegion) : Prop where
  order : start < end_
  startAligned : start % pageSize = 0
  endAligned : end_ % pageSize = 0
  added : added = regions ++ [⟨start, end_, prot, prot, backing, true⟩]

theorem vmRegionAdd_added (done : vmRegionAdd regions start end_ prot backing = some added) :
    RegionAdded regions start end_ prot backing added := by
  unfold vmRegionAdd at done
  split_ifs at done with order aligned
  cases done
  exact ⟨by omega, by omega, by omega, rfl⟩

theorem RegionAdded.covered (added_ : RegionAdded regions start end_ prot backing added) :
    Covered added number ↔ Covered regions number ∨ start ≤ number * pageSize ∧ number * pageSize < end_ := by
  unfold Covered
  rw [added_.added]
  simp only [mem_append, mem_singleton, or_and_right, exists_or, exists_eq_left]

end Covered

section Runs

variable {layout : Layout} {now : RunState} {i : Nat}

def RunState.edge (now : RunState) (i : Nat) : Nat :=
  match now.run with
  | none => i
  | some (start, _) => start

/-- The regions for the pages before `i`, except for those of a run that is still open. -/
structure Recorded (layout : Layout) (i : Nat) (now : RunState) : Prop where
  covered : ∀ number, Covered now.regions number ↔ layout.prot number ≠ 0 ∧ number < layout.lo + now.edge i
  run : ∀ {start prot}, now.run = some (start, prot) → start < i ∧ prot ≠ 0 ∧
    ∀ number, layout.lo + start ≤ number → number < layout.lo + i → layout.prot number = prot

variable (inside : ∀ number, layout.prot number ≠ 0 → layout.lo ≤ number ∧ number < layout.lo + layout.npages)

include inside

theorem pageProt : (if i < layout.npages then layout.prot (layout.lo + i) else 0) = layout.prot (layout.lo + i) := by
  split
  · rfl
  · by_contra used
    have := inside (layout.lo + i) fun zero => used zero.symm
    omega

/-- After `closeRun` a run that is still open goes on at page `i`. -/
structure Closed (layout : Layout) (i : Nat) (closed : RunState) : Prop where
  covered : ∀ number, Covered closed.regions number ↔ layout.prot number ≠ 0 ∧ number < layout.lo + closed.edge i
  run : ∀ {start prot}, closed.run = some (start, prot) → start < i + 1 ∧ prot ≠ 0 ∧
    ∀ number, layout.lo + start ≤ number → number < layout.lo + (i + 1) → layout.prot number = prot

omit inside in
theorem closeRun_closed {closed : RunState} (recorded : Recorded layout i now)
    (done : closeRun layout (layout.prot (layout.lo + i)) i now = some closed) : Closed layout i closed := by
  unfold closeRun at done
  split at done
  · rename_i none
    cases done
    exact ⟨recorded.covered, fun running => by simp [none] at running⟩
  · rename_i start runProt running
    obtain ⟨started, used, same⟩ := recorded.run running
    split at done
    · rename_i ends
      simp only [Option.map_eq_some_iff] at done
      obtain ⟨regions, added, rfl⟩ := done
      refine ⟨fun number => ?_, fun running => by simp at running⟩
      have before := recorded.covered number
      have edges : now.edge i = start := by simp only [RunState.edge, running]
      rw [edges] at before
      rw [(vmRegionAdd_added added).covered, before]
      change _ ↔ _ ∧ number < layout.lo + i
      constructor
      · rintro (⟨shown, early⟩ | ⟨lower, upper⟩)
        · exact ⟨shown, by omega⟩
        · have least := Nat.le_of_mul_le_mul_right lower (by decide)
          have most := Nat.lt_of_mul_lt_mul_right upper
          rw [same number least most]
          exact ⟨used, most⟩
      · rintro ⟨shown, early⟩
        by_cases old : number < layout.lo + start
        · exact .inl ⟨shown, old⟩
        · exact .inr ⟨Nat.mul_le_mul_right _ (by omega), Nat.mul_lt_mul_of_pos_right early (by decide)⟩
    · rename_i goesOn
      cases done
      have here : layout.prot (layout.lo + i) = runProt := not_not.mp goesOn
      refine ⟨recorded.covered, fun running' => ?_⟩
      rw [running] at running'
      cases running'
      refine ⟨by omega, used, fun number lower upper => ?_⟩
      by_cases last : number = layout.lo + i
      · rw [last, here]
      · exact same number lower (by omega)

theorem regionStep_recorded (recorded : Recorded layout i now) (done : (regionStep layout i now).1 = true) :
    Recorded layout (i + 1) (regionStep layout i now).2 := by
  unfold regionStep at done ⊢
  rw [pageProt inside] at done ⊢
  dsimp only at done ⊢
  cases closing : closeRun layout (layout.prot (layout.lo + i)) i now with
  | none =>
    rw [closing] at done
    cases done
  | some closed =>
    have after := closeRun_closed recorded closing
    dsimp only
    cases open_ : closed.run with
    | some run =>
      obtain ⟨start, prot⟩ := run
      dsimp only
      refine ⟨fun number => ?_, after.run⟩
      rw [after.covered]
      simp only [RunState.edge, open_]
    | none =>
      dsimp only
      have edges : closed.edge i = i := by simp only [RunState.edge, open_]
      have covered := after.covered
      rw [edges] at covered
      by_cases unused : layout.prot (layout.lo + i) = 0
      · rw [if_neg (not_not.mpr unused)]
        refine ⟨fun number => ?_, fun running => by simp [open_] at running⟩
        rw [covered]
        simp only [RunState.edge, open_]
        refine and_congr_right fun used => ?_
        have other : number ≠ layout.lo + i := by
          rintro rfl
          exact used unused
        omega
      · rw [if_pos unused]
        refine ⟨covered, fun running => ?_⟩
        cases running
        refine ⟨by omega, unused, fun number lower upper => ?_⟩
        rw [show number = layout.lo + i by omega]

theorem addRegions_covered {regions : List VmRegion} (done : addRegions layout = some regions) (number : Nat) :
    Covered regions number ↔ layout.prot number ≠ 0 := by
  unfold addRegions at done
  dsimp only at done
  split at done
  · rename_i finished
    cases done
    have start : Recorded layout 0 ⟨none, []⟩ := by
      refine ⟨fun number => ?_, by simp⟩
      constructor
      · rintro ⟨region, member, -⟩
        cases member
      · rintro ⟨used, early⟩
        have := inside number used
        change number < layout.lo + 0 at early
        omega
    rcases forUntil_range (regionStep layout) ⟨none, []⟩ (layout.npages + 1) (Recorded layout) (fun _ _ => True) start
        (fun _ _ _ recorded goes => regionStep_recorded inside recorded goes) (fun _ _ _ _ _ => trivial) with ⟨-, recorded⟩ | ⟨stopped, -⟩
    · have end_ : (forUntil (regionStep layout) (range (layout.npages + 1)) ⟨none, []⟩).2.edge (layout.npages + 1) =
          layout.npages + 1 := by
        unfold RunState.edge
        split
        · rfl
        · rename_i start prot running
          obtain ⟨started, used, same⟩ := recorded.run running
          have last := inside (layout.lo + layout.npages) (by rw [same _ (by omega) (by omega)]; exact used)
          omega
      rw [recorded.covered, end_]
      refine and_iff_left_of_imp fun used => ?_
      have := inside number used
      omega
    · rw [stopped] at finished
      cases finished
  · cases done

end Runs

end NyonOS.Elf
