import NyonOS.Elf.Load
import NyonOS.Paging.Offered
import NyonOS.Paging.View

namespace NyonOS.Elf

open Data List
open Paging Function

/-! What the loop over the segments leaves in the pages of the image. -/

variable {σ : Type} [FrameAllocator σ] {depth : Nat}

/-- An address lies among the bytes of a segment that come from the file. -/
def FileByte (bias : Nat) (ph : Phdr) (addr : Nat) : Prop := ph.vaddr + bias ≤ addr ∧ addr < ph.vaddr + bias + ph.filesz

instance (bias : Nat) (ph : Phdr) (addr : Nat) : Decidable (FileByte bias ph addr) := inferInstanceAs (Decidable (_ ∧ _))

/-- The segment has bytes in the page. -/
def Touches (bias : Nat) (page : Nat) (ph : Phdr) : Prop := segFirst bias ph ≤ page ∧ page < segEnd bias ph

instance (bias page : Nat) (ph : Phdr) : Decidable (Touches bias page ph) := inferInstanceAs (Decidable (_ ∧ _))

/-- The bytes of the file over what is in a page. -/
def overlay (file : File) (bias : Nat) (number : Nat) (page : Page) (ph : Phdr) : Page := fun o =>
  let addr := number * pageSize + o.val
  if FileByte bias ph addr then file.data (ph.offset + (addr - (ph.vaddr + bias))) else page o

section Overlay

variable {file : File} {bias number : Nat} {ph : Phdr} {page : Page}

theorem mem_segPages : number ∈ segPages bias ph ↔ Touches bias number ph := by
  unfold segPages Touches
  rw [mem_range'_1]
  omega

theorem touches_addr {addr : Nat} (lower : ph.vaddr + bias ≤ addr) (upper : addr < ph.vaddr + bias + ph.memsz) :
    Touches bias (addr / pageSize) ph := by
  unfold Touches segFirst segEnd pageSize
  omega

theorem readPlan_spec (touches : Touches bias number ph) (_fits : ph.filesz ≤ ph.memsz) (small : ph.filesz < 2 ^ 32) {o : Nat}
    (inside : o < 4096) :
    let plan := readPlan bias ph number
    (plan.at_ ≤ o ∧ o < plan.at_ + plan.want ↔ FileByte bias ph (number * pageSize + o)) ∧
      (FileByte bias ph (number * pageSize + o) →
        plan.offset + (o - plan.at_) = ph.offset + (number * pageSize + o - (ph.vaddr + bias))) := by
  obtain ⟨first, last⟩ := touches
  unfold segFirst segEnd at *
  unfold readPlan FileByte segEnd
  unfold pageSize at *
  dsimp only
  split_ifs <;> dsimp only <;> omega

theorem readInto_plan (touches : Touches bias number ph) (fits : ph.filesz ≤ ph.memsz) (small : ph.filesz < 2 ^ 32) :
    let plan := readPlan bias ph number
    readInto file page plan.at_ plan.offset plan.want = overlay file bias number page ph := by
  funext o
  obtain ⟨places, source⟩ := readPlan_spec touches fits small o.isLt
  unfold readInto overlay
  dsimp only
  by_cases covered : FileByte bias ph (number * pageSize + o.val)
  · rw [if_pos (places.mpr covered), if_pos covered, source covered]
  · rw [if_neg (mt places.mp covered), if_neg covered]

theorem foldl_overlay_none {segs : List Phdr} {o : Fin 4096} (none : ∀ ph ∈ segs, ¬FileByte bias ph (number * pageSize + o.val)) :
    segs.foldl (overlay file bias number) page o = page o := by
  induction segs generalizing page with
  | nil => rfl
  | cons ph rest ih =>
    rw [List.foldl_cons, ih fun other member => none other (by simp [member])]
    exact if_neg (none ph (by simp))

theorem foldl_overlay_one {before after : List Phdr} {o : Fin 4096}
    (others : ∀ other ∈ before ++ after, ¬FileByte bias other (number * pageSize + o.val)) :
    (before ++ ph :: after).foldl (overlay file bias number) page o = overlay file bias number page ph o := by
  rw [foldl_append, List.foldl_cons, foldl_overlay_none fun other member => others other (by simp [member])]
  unfold overlay
  dsimp only
  split
  · rfl
  · exact foldl_overlay_none fun other member => others other (by simp [member])

end Overlay

section

variable (file : File)

def pageLoaded (bias : Nat) (prot : Prot) (number : Nat) (ph : Phdr) : Option PageView → PageView
  | none => ⟨prot, overlay file bias number (fun _ => 0) ph⟩
  | some shown => if shown.prot.has vmProtWrite then ⟨shown.prot, overlay file bias number shown.bytes ph⟩ else shown

def pageAfter (bias : Nat) (prot : Nat → Prot) (ph : Phdr) (number : Nat) (shown : Option PageView) : Option PageView :=
  if prot number = 0 then shown else some (pageLoaded file bias (prot number) number ph shown)

def pageStep (bias : Nat) (prot : Nat → Prot) (ph : Phdr) (number : Nat) (view : View) : View :=
  update view number (pageAfter file bias prot ph number (view number))

def segStep (bias : Nat) (prot : Nat → Prot) (ph : Phdr) (view : View) : View :=
  (segPages bias ph).foldl (fun view number => pageStep file bias prot ph number view) view

end

section Loading

variable {file : File} {oracle : Oracle} {bias number : Nat} {prot : Nat → Prot} {ph : Phdr} {view : View} {nx : Bool} {root : PAddr}
  {now : Option Failure × Machine σ depth}

def Loading (nx : Bool) (root : PAddr) (now : Option Failure × Machine σ depth) (view : View) : Prop :=
  now.1 = none ∧ Shows nx now.2 root view

theorem loadPage_shows (fits : ph.filesz ≤ ph.memsz) (small : ph.filesz < 2 ^ 32) (touches : Touches bias number ph)
    (user : UserPage depth number) (loading : Loading nx root now view)
    (done : (loadPage file oracle root bias prot ph number now).1 = true) :
    Loading nx root (loadPage file oracle root bias prot ph number now).2 (pageStep file bias prot ph number view) := by
  obtain ⟨running, shows⟩ := loading
  unfold loadPage at done ⊢
  unfold pageStep pageAfter
  have plan : ∀ page, readInto file page (readPlan bias ph number).at_ (readPlan bias ph number).offset
      (readPlan bias ph number).want = overlay file bias number page ph := fun page => readInto_plan touches fits small
  dsimp only at done ⊢
  by_cases unused : prot number = 0
  · rw [if_pos unused, if_pos unused, update_eq_self]
    exact ⟨running, shows⟩
  rw [if_neg unused] at done ⊢
  rw [if_neg unused]
  cases present : has (now.2.entry root number) pagePresent with
  | true =>
    rw [present, if_pos rfl] at done
    rw [if_pos rfl]
    obtain ⟨shown, viewed⟩ : ∃ shown, view number = some shown := by
      cases viewed : view number with
      | none => cases (shows.absent user viewed).symm.trans present
      | some shown => exact ⟨shown, rfl⟩
    obtain ⟨frame, backed⟩ := shows.backed user viewed
    have writable : has (now.2.entry root number) pageWrite = shown.prot.has vmProtWrite := by
      rw [backed.entry]
      exact (anonWord_flags backed.aligned _ _).2.2.2.2.2.2
    rw [writable] at done ⊢
    rw [viewed]
    simp only [pageLoaded]
    cases writes : shown.prot.has vmProtWrite with
    | false =>
      rw [if_pos (by rfl), if_neg Bool.false_ne_true, ← viewed, update_eq_self]
      exact ⟨running, shows⟩
    | true =>
      rw [writes, if_neg (by decide)] at done
      rw [if_neg (by decide), if_pos rfl]
      split at done
      · cases done
      · rename_i reads
        rw [if_neg reads]
        refine ⟨rfl, ?_⟩
        have next := @Shows.rewrite _ _ _ nx now.2 { now.2 with
          bytes := update now.2.bytes (frameOf (now.2.entry root number))
            (overlay file bias number (now.2.bytes (frameOf (now.2.entry root number))) ph) } root view number shown
          shows user viewed rfl rfl rfl fun other different => update_of_ne different _ _
        rw [plan]
        simp only [update_self] at next
        rw [backed.frameOf, backed.bytes] at next ⊢
        exact next
  | false =>
    rw [present, if_neg Bool.false_ne_true] at done
    rw [if_neg Bool.false_ne_true]
    rw [shows.none_of_free user present]
    cases answer : now.2.frames.pmmAlloc with
    | none =>
      rw [answer] at done
      cases done
    | some pair =>
      obtain ⟨np, frames⟩ := pair
      rw [answer] at done
      dsimp only at done ⊢
      split at done
      · cases done
      · rename_i reads
        rw [if_neg reads]
        rw [plan] at done ⊢
        generalize takenIs : ({ now.2 with
          frames
          bytes := update now.2.bytes np (overlay file bias number (fun _ => 0) ph) } : Machine σ depth) = taken at done ⊢
        have took : Taken now.2 np taken := by
          subst takenIs
          exact ⟨answer, rfl, rfl, fun other different => update_of_ne different _ _, rfl, rfl⟩
        have filled : taken.bytes np = overlay file bias number (fun _ => 0) ph := by
          subst takenIs
          exact update_self ..
        obtain ⟨-, mapped⟩ := took.commit shows.tables shows.alive user (prot number)
        cases ok : (vmCommit root (number * pageSize) np 1 (prot number) true taken).1 with
        | false => simp [ok] at done
        | true =>
          obtain ⟨-, set⟩ := mapped ok
          rw [shows.cpuHasNx] at set
          have next := shows.map user took set
          rw [filled] at next
          exact ⟨rfl, next⟩

theorem loadPage_stopped (stopped : (loadPage file oracle root bias prot ph number now).1 = false) :
    (loadPage file oracle root bias prot ph number now).2.1 ≠ none := by
  unfold loadPage at stopped ⊢
  dsimp only at stopped ⊢
  cases answer : now.2.frames.pmmAlloc with
  | none =>
    rw [answer] at stopped
    split_ifs at stopped ⊢ <;> first | exact absurd stopped (by decide) | exact Option.some_ne_none _
  | some pair =>
    rw [answer] at stopped
    dsimp only at stopped ⊢
    split_ifs at stopped ⊢ <;> first | exact absurd stopped (by decide) | exact Option.some_ne_none _

/-- A program header that `elf_validate_phdrs` has let pass, as far as the loop relies on it. -/
structure Loadable (depth bias : Nat) (ph : Phdr) : Prop where
  fits : ph.filesz ≤ ph.memsz
  small : ph.filesz < 2 ^ 32
  user : ∀ {number}, Touches bias number ph → UserPage depth number

theorem loadSegment_shows (loadable : Loadable depth bias ph) (loading : Loading nx root now view)
    (done : (loadSegment file oracle root bias prot ph now).1 = true) :
    Loading nx root (loadSegment file oracle root bias prot ph now).2 (segStep file bias prot ph view) :=
  forUntil_refines (Loading nx root) (pageStep file bias prot ph)
    (fun _ member _ _ related goes => loadPage_shows loadable.fits loadable.small (mem_segPages.mp member)
      (loadable.user (mem_segPages.mp member)) related goes) done loading

theorem loadSegments_shows {segs : List Phdr} {machine : Machine σ depth} (loadable : ∀ ph ∈ segs, Loadable depth bias ph)
    (shows : Shows nx machine root view) (done : (loadSegments file oracle root bias prot segs machine).1 = none) :
    Shows nx (loadSegments file oracle root bias prot segs machine).2 root
      (segs.foldl (fun view ph => segStep file bias prot ph view) view) := by
  unfold loadSegments at done ⊢
  have finished : (forUntil (loadSegment file oracle root bias prot) segs (none, machine)).1 = true := by
    by_contra stopped
    exact forUntil_stopped (fun now => now.1 ≠ none)
      (fun ph _ now halted => forUntil_stopped (fun now => now.1 ≠ none) (fun _ _ _ => loadPage_stopped) halted)
      (Bool.eq_false_of_not_eq_true stopped) done
  exact (forUntil_refines (Loading nx root) (segStep file bias prot)
    (fun ph member _ _ related goes => loadSegment_shows (loadable ph member) related goes) finished ⟨rfl, shows⟩).2

/-! Whatever comes of a page, no other page is concerned. -/

theorem loadPage_offered (tables : now.2.Tables) (alive : now.2.alive root = true) (user : UserPage depth number) :
    Offered now.2 root number (prot number) (loadPage file oracle root bias prot ph number now).2.2 := by
  have idle : ∀ bytes, Offered now.2 root number (prot number) { now.2 with bytes } := fun bytes => .idle rfl rfl rfl rfl
  unfold loadPage
  dsimp only
  by_cases unused : prot number = 0
  · rw [if_pos unused]
    exact idle _
  rw [if_neg unused]
  cases present : has (now.2.entry root number) pagePresent with
  | true =>
    rw [if_pos rfl]
    split_ifs
    · exact idle _
    · exact idle _
    · exact idle _
  | false =>
    rw [if_neg Bool.false_ne_true]
    cases answer : now.2.frames.pmmAlloc with
    | none => exact idle _
    | some pair =>
      obtain ⟨np, frames⟩ := pair
      dsimp only
      have took : ∀ page : Page, Taken now.2 np { now.2 with frames, bytes := update now.2.bytes np page } :=
        fun page => ⟨answer, rfl, rfl, fun other different => update_of_ne different _ _, rfl, rfl⟩
      generalize readInto file (fun _ => 0) (readPlan bias ph number).at_ (readPlan bias ph number).offset
        (readPlan bias ph number).want = filled
      have offered := @Taken.offered σ _ depth now.2 root number (prot number) np _ (took filled) tables alive user
      split_ifs with fails done
      · exact .refused (took fun _ => 0) (.same (tables.alloc (took fun _ => 0).spaces (took fun _ => 0).answer).1)
      · simpa only [done, if_true] using offered
      · simpa only [done, Bool.false_eq_true, if_false] using offered

theorem loadSegments_entries {segs : List Phdr} {machine : Machine σ depth} (loadable : ∀ ph ∈ segs, Loadable depth bias ph)
    (tables : machine.Tables) (alive : machine.alive root = true) (user : UserPage depth number)
    (untouched : ∀ ph ∈ segs, ¬Touches bias number ph) :
    (loadSegments file oracle root bias prot segs machine).2.entry root number = machine.entry root number := by
  let kept := fun now : Option Failure × Machine σ depth =>
    now.2.Tables ∧ now.2.alive root = true ∧ now.2.entry root number = machine.entry root number
  have segment : ∀ ph ∈ segs, ∀ now, kept now → kept (loadSegment file oracle root bias prot ph now).2 := by
    intro ph member now before
    refine forUntil_keeps kept (fun page listed now before => ?_) before
    obtain ⟨tables, alive, same⟩ := before
    have touches := mem_segPages.mp listed
    have low := (loadable ph member).user touches
    have offered := @loadPage_offered σ _ depth file oracle bias page prot ph root now tables alive low
    refine ⟨offered.tables tables, (congrFun (offered.alive tables) root).trans alive, ?_⟩
    rw [offered.entry_other tables, same]
    rw [low.samePage user]
    rintro rfl
    exact untouched ph member touches
  exact (forUntil_keeps kept segment ⟨tables, alive, rfl⟩).2.2

end Loading

section Image

variable {file : File} {bias number : Nat} {prot : Nat → Prot} {ph : Phdr} {view : View} {segs : List Phdr}

theorem segStep_apply : segStep file bias prot ph view number =
    if Touches bias number ph then pageAfter file bias prot ph number (view number) else view number := by
  have distinct : (segPages bias ph).Nodup := nodup_range' _
  have pages := foldl_update distinct (pageAfter file bias prot ph) view number
  simp only [mem_segPages] at pages
  exact pages

theorem foldl_segStep : (segs.foldl (fun view ph => segStep file bias prot ph view) view) number =
    (segs.filter fun ph => Touches bias number ph).foldl (fun shown ph => pageAfter file bias prot ph number shown)
      (view number) := by
  induction segs generalizing view with
  | nil => rfl
  | cons ph rest ih =>
    rw [List.foldl_cons, ih, segStep_apply]
    by_cases touches : Touches bias number ph
    · rw [if_pos touches, filter_cons_of_pos (by simpa using touches), List.foldl_cons]
    · rw [if_neg touches, filter_cons_of_neg (by simpa using touches)]

/-- The segments whose bytes get into a page: all that touch it if it can be written, and
otherwise only the first. -/
def loaders (bias : Nat) (prot : Prot) (segs : List Phdr) (number : Nat) : List Phdr :=
  let touching := segs.filter fun ph => Touches bias number ph
  if prot.has vmProtWrite then touching else touching.take 1

def imageBytes (file : File) (bias : Nat) (prot : Prot) (segs : List Phdr) (number : Nat) : Page :=
  (loaders bias prot segs number).foldl (overlay file bias number) fun _ => 0

theorem foldl_pageAfter (used : prot number ≠ 0) (shown : PageView) :
    segs.foldl (fun shown ph => pageAfter file bias prot ph number shown) (some shown) =
      some ⟨shown.prot, if shown.prot.has vmProtWrite then segs.foldl (overlay file bias number) shown.bytes else shown.bytes⟩ := by
  induction segs generalizing shown with
  | nil => simp
  | cons ph rest ih =>
    rw [List.foldl_cons, pageAfter, if_neg used, ih]
    unfold pageLoaded
    cases writes : shown.prot.has vmProtWrite with
    | true | false => simp [writes]

theorem image_touched (used : prot number ≠ 0) (touched : ∃ ph ∈ segs, Touches bias number ph) :
    (segs.foldl (fun view ph => segStep file bias prot ph view) fun _ => none) number =
      some ⟨prot number, imageBytes file bias (prot number) segs number⟩ := by
  rw [foldl_segStep]
  unfold imageBytes loaders
  cases touching : segs.filter fun ph => Touches bias number ph with
  | nil =>
    obtain ⟨ph, member, touches⟩ := touched
    simp only [filter_eq_nil_iff, decide_eq_true_eq] at touching
    exact absurd touches (touching ph member)
  | cons first rest =>
    rw [List.foldl_cons, pageAfter, if_neg used, foldl_pageAfter used]
    unfold pageLoaded
    cases (prot number).has vmProtWrite with
    | true | false => simp

theorem image_untouched (untouched : ∀ ph ∈ segs, ¬Touches bias number ph) :
    (segs.foldl (fun view ph => segStep file bias prot ph view) fun _ => none) number = none := by
  rw [foldl_segStep, filter_eq_nil_iff.mpr fun ph member => by simpa using untouched ph member]
  rfl

/-- The bytes of a segment are in the image where no other segment has bytes of the file and
no earlier one keeps them out. -/
theorem imageBytes_segment {p : Prot} {before after : List Phdr} {k : Nat} (inside : k < ph.memsz)
    (open_ : p.has vmProtWrite = true ∨ ∀ other ∈ before, ¬Touches bias ((ph.vaddr + bias + k) / pageSize) other)
    (alone : ∀ other ∈ before ++ after, ¬FileByte bias other (ph.vaddr + bias + k)) {o : Fin 4096}
    (place : o.val = (ph.vaddr + bias + k) % pageSize) :
    imageBytes file bias p (before ++ ph :: after) ((ph.vaddr + bias + k) / pageSize) o =
      if k < ph.filesz then file.data (ph.offset + k) else 0 := by
  have address : (ph.vaddr + bias + k) / pageSize * pageSize + o.val = ph.vaddr + bias + k := by
    rw [place]
    exact Nat.div_add_mod' ..
  have touches : Touches bias ((ph.vaddr + bias + k) / pageSize) ph := touches_addr (by omega) (by omega)
  have only : overlay file bias ((ph.vaddr + bias + k) / pageSize) (fun _ => 0) ph o =
      if k < ph.filesz then file.data (ph.offset + k) else 0 := by
    have covered : FileByte bias ph (ph.vaddr + bias + k) ↔ k < ph.filesz := by
      unfold FileByte
      omega
    unfold overlay
    dsimp only
    rw [address, Nat.add_sub_cancel_left]
    simp only [covered]
  unfold imageBytes loaders
  rw [← only, filter_append, filter_cons_of_pos (by simpa using touches)]
  cases writes : p.has vmProtWrite with
  | true =>
    refine foldl_overlay_one fun other member => ?_
    rw [address]
    simp only [mem_append, mem_filter] at member
    exact alone other (by simp only [mem_append]; exact member.imp And.left And.left)
  | false =>
    have none := open_.resolve_left (by simp [writes])
    rw [filter_eq_nil_iff.mpr fun other member => by simpa using none other member]
    rfl

end Image

end NyonOS.Elf
