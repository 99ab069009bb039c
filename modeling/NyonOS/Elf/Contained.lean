import NyonOS.Elf.Arithmetic
import NyonOS.Elf.Exact

namespace NyonOS.Elf

open Data
open Paging
open Machine Checked

/-! Whatever is in a file, the loader stays within the user's part of the address space. -/

variable {σ : Type} [FrameAllocator σ] {depth : Nat} {file : File} {oracle : Oracle} {header : Header} {segs : List Phdr} {bias : Nat}
  {argv envp : List (List UInt8)} {shared : Option Shared} {root : PAddr} {machine after : Machine σ depth} {image : ElfImage}

/-- What is known of the pages and the reads of a file whose headers have been accepted. -/
structure Contained (file : File) (oracle : Oracle) (header : Header) (segs : List Phdr) : Prop where
  user : ∀ {number}, Touched (loadBias header oracle) segs number → (number + 1) * pageSize ≤ userMax
  fixed : header.isPie = false → ∀ {number}, Touched (loadBias header oracle) segs number →
    vmExecMin ≤ number * pageSize ∧ (number + 1) * pageSize ≤ (vmLoadLimit + (pageSize - 1)) / pageSize * pageSize
  indexed : ∀ {layout}, elfLayout segs (loadBias header oracle) oracle.protMemory = .ok layout →
    ∀ {number}, Touched (loadBias header oracle) segs number → layout.lo ≤ number ∧ number - layout.lo < layout.npages
  total : ∀ {layout}, elfLayout segs (loadBias header oracle) oracle.protMemory = .ok layout →
    {number | Touched (loadBias header oracle) segs number}.ncard * pageSize ≤ elfMaxImage
  plans : ∀ {seg number}, seg ∈ segs → Touches (loadBias header oracle) number seg →
    (readPlan64 file (loadBias header oracle) seg number).value = readPlan (loadBias header oracle) seg number ∧
      ((readPlan (loadBias header oracle) seg number).want ≠ 0 →
        (readPlan (loadBias header oracle) seg number).offset + (readPlan (loadBias header oracle) seg number).want ≤ file.size)

theorem readPlan_inFile {seg : Phdr} {number : Nat} (moderate : Moderate file bias seg) (touches : Touches bias number seg)
    (some : (readPlan bias seg number).want ≠ 0) : (readPlan bias seg number).offset + (readPlan bias seg number).want ≤ file.size := by
  obtain ⟨fits, small, inFile, -, -, -⟩ := moderate
  obtain ⟨lower, upper⟩ := touches
  have image : elfMaxImage = 2 ^ 26 := by decide
  unfold readPlan segFirst segEnd at *
  unfold pageSize at *
  dsimp only at some ⊢
  split_ifs at some ⊢ <;> dsimp only at some ⊢ <;> omega

theorem HeadersOk.contained {ph : List Phdr} (sized : file.size < 2 ^ 32) (headers : HeadersOk file header ph) :
    Contained file oracle header (ph.filter Phdr.loads) := by
  have most : userMax = 2 ^ 47 := by decide
  refine ⟨?_, ?_, ?_, ?_, ?_⟩
  · rintro number ⟨seg, member, touches⟩
    have moderate : Moderate file (loadBias header oracle) seg := headers.moderate member
    have high := moderate.high
    have last := touches.2
    unfold segEnd at last
    unfold pageSize at *
    omega
  · rintro fixed number ⟨seg, member, touches⟩
    obtain ⟨low, high⟩ := (headers.segment member).fixed fixed
    obtain ⟨first, last⟩ := touches
    have zero : loadBias header oracle = 0 := by simp [loadBias, fixed]
    unfold segFirst segEnd at *
    unfold vmExecMin vmLoadLimit pageSize at *
    omega
  · rintro layout planned number ⟨seg, member, touches⟩
    obtain ⟨lower, upper⟩ := (elfLayout_planned planned).inside seg member number touches
    omega
  · intro layout planned
    have within : {number | Touched (loadBias header oracle) (ph.filter Phdr.loads) number} ⊆
        (Finset.Ico layout.lo (layout.lo + layout.npages) : Set Nat) := by
      rintro number ⟨seg, member, touches⟩
      simpa using (elfLayout_planned planned).inside seg member number touches
    have fewer := Set.ncard_le_ncard within (Finset.finite_toSet _)
    rw [Set.ncard_coe_finset, Nat.card_Ico, Nat.add_sub_cancel_left] at fewer
    calc {number | Touched (loadBias header oracle) (ph.filter Phdr.loads) number}.ncard * pageSize
        ≤ elfMaxImage / pageSize * pageSize := Nat.mul_le_mul_right _ (fewer.trans (elfLayout_planned planned).bounded)
      _ ≤ elfMaxImage := Nat.div_mul_le_self ..
  · intro seg number member touches
    have moderate : Moderate file (loadBias header oracle) seg := headers.moderate member
    exact ⟨(readPlan64_computes sized moderate touches).value, readPlan_inFile moderate touches⟩

theorem Filled.touched_entry {layout : Layout} {recorded withStack withShared : List VmRegion} {stacked : Machine σ depth}
    {pushed : Pushed σ depth} {nx : Bool} {number : Nat} (levels : depth = 3 ∨ depth = 4)
    (loadable : ∀ seg ∈ segs, Loadable depth bias seg)
    (filled : Filled file oracle header segs bias argv envp shared root machine layout recorded withStack withShared stacked pushed image after)
    (shows : Shows nx machine root fun _ => none) (touched : Touched bias segs number) :
    ∃ frame, Aligned frame ∧ after.entry root number = anonWord nx (unionProt bias segs number) frame := by
  obtain ⟨random, view, zero, shown, randomShows, top, -⟩ := filled.shown levels loadable shows
  have user : UserPage depth number := by
    obtain ⟨seg, member, touches⟩ := touched
    exact (loadable seg member).user touches
  obtain ⟨frame, backed⟩ := randomShows.backed user (shown.touched touched)
  obtain ⟨topFrame, topBacked⟩ := randomShows.backed (userPage_of_lt levels (by decide)) top
  have spaces : pushed.machine.spaces = (mapRandom oracle root withStack stacked).machine.spaces := by
    rcases @vmStackPushStrings_spec σ depth _ root argv envp (auxVector header segs bias (mapRandom oracle root withStack stacked).addr)
      topBacked.present with ⟨refused, -⟩ | ⟨pos, same, -, accepted, -, -, wrote, -⟩
    · cases refused.symm.trans filled.pushes
    · cases accepted.symm.trans filled.pushes
      exact wrote.spaces
  have alive : pushed.machine.alive root = true := by
    rw [Machine.alive, spaces]
    exact randomShows.alive
  have shares := mapShared_done alive filled.shares
  have away : ¬InShared depth shared number := by
    intro here
    have free := shares.free here
    rw [entry_congr spaces, backed.present] at free
    cases free
  exact ⟨frame, backed.aligned, by rw [shares.others away, entry_congr spaces, backed.entry]⟩

/-- Every file, of any contents and size. -/
theorem elf_load_contained (levels : depth = 3 ∨ depth = 4) (sized : file.size < 2 ^ 32) (tables : machine.Tables)
    (kernel : KernelHalf machine.kernelPml4) :
    (∀ op ∈ (elfLoad64 file oracle).ops, op.Exact) ∧ (elfHeaders64 file oracle).value = elfHeaders file oracle ∧
    (∀ {header ph}, elfHeaders file oracle = .ok (header, ph) → Contained file oracle header (ph.filter Phdr.loads) ∧
      ∀ {root created layout}, vmmCreateAddressSpace machine = some (root, created) →
        elfLayout (ph.filter Phdr.loads) (loadBias header oracle) oracle.protMemory = .ok layout →
        ∀ {number}, UserPage depth number → ¬Touched (loadBias header oracle) (ph.filter Phdr.loads) number →
          has ((loadSegments file oracle root (loadBias header oracle) layout.prot (ph.filter Phdr.loads) created).2.entry root number)
            pagePresent = false) ∧
    ∀ {image after}, elfLoadCore file oracle argv envp shared machine = (.ok image, after) →
      has (after.entry image.vs.pml4 (image.entry / pageSize)) pagePresent = true ∧
        has (after.entry image.vs.pml4 (image.entry / pageSize)) pageUser = true ∧
        has (after.entry image.vs.pml4 (image.entry / pageSize)) pageNx = false := by
  refine ⟨(elfLoad64_safe sized).exact, (elfHeaders64_computes sized).value, fun {header ph} accepted => ?_, fun {image after} accepted => ?_⟩
  · have headers := elfHeaders_ok accepted
    refine ⟨headers.contained sized, fun {root created layout} creates planned number user untouched => ?_⟩
    have shows := created_shows (vmmCreateAddressSpace_created creates) kernel tables
    rw [loadSegments_entries (fun seg member => (headers.segment member).loadable levels ((elfLayout_planned planned).addresses seg member)
      (loadBias_lt header oracle)) shows.tables shows.alive user fun seg member touches => untouched ⟨seg, member, touches⟩]
    exact shows.absent user rfl
  · obtain ⟨header, ph, root, created, layout, recorded, withStack, withShared, stacked, pushed, headers, filled, loadable, shows⟩ :=
      elfLoadCore_filled levels tables kernel accepted
    obtain ⟨seg, member, executable, lower, upper⟩ := (elfHeaders_ok headers).entry
    have touches : Touches (loadBias header oracle) (image.entry / pageSize) seg := by
      rw [filled.entry]
      exact touches_addr (by omega) (by omega)
    obtain ⟨frame, aligned, entry⟩ := filled.touched_entry levels loadable shows ⟨seg, member, touches⟩
    obtain ⟨present, user, -⟩ := anonWord_flags aligned machine.cpuHasNx (unionProt (loadBias header oracle) (ph.filter Phdr.loads)
      (image.entry / pageSize))
    have pml4 : image.vs.pml4 = root := by rw [filled.space]
    rw [pml4, entry, anonWord_nx aligned, has_unionProt]
    refine ⟨present, user, ?_⟩
    have found : ((ph.filter Phdr.loads).any fun seg =>
        decide (Touches (loadBias header oracle) (image.entry / pageSize) seg) && (segProt seg.flags).has vmProtExec) = true := by
      refine List.any_eq_true.mpr ⟨seg, member, ?_⟩
      rw [has_segProt_exec]
      simpa [touches, Phdr.executable] using executable
    rw [found]
    exact Bool.and_false _

/-- The theorem at a small program. -/
theorem elf_load_contained_overlapping : ∃ image after,
    elfLoadCore Sample.overlapping Sample.plenty [] [] none Bump.bare = (.ok image, after) ∧
      (∀ op ∈ (elfLoad64 Sample.overlapping Sample.plenty).ops, op.Exact) ∧
      has (after.entry image.vs.pml4 (image.entry / pageSize)) pageNx = false := by
  obtain ⟨image, loads⟩ := Sample.overlapping_loads
  obtain ⟨exact, -, -, entry⟩ := @elf_load_contained Bump _ 3 Sample.overlapping Sample.plenty [] [] none Bump.bare (.inl rfl) (by decide)
    Sample.bare_tables Sample.bare_kernel
  exact ⟨image, _, loads, exact, (entry loads).2.2⟩

end NyonOS.Elf
