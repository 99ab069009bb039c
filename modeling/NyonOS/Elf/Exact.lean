import NyonOS.Elf.Loaded

namespace NyonOS.Elf

open Data List
open Paging
open Machine Function

/-! What is in the address space of a program that has been loaded. -/

variable {σ : Type} [FrameAllocator σ] {depth : Nat} {file : File} {oracle : Oracle} {header : Header} {segs : List Phdr} {bias : Nat}
  {argv envp : List (List UInt8)} {shared : Option Shared} {root : PAddr} {machine after : Machine σ depth} {image : ElfImage}

theorem auxVector_length (header : Header) (segs : List Phdr) (bias : Nat) (random : Option Nat) :
    (auxVector header segs bias random).length ≤ 6 := by
  have optional : ∀ found : Option (Nat × Nat), found.toList.length ≤ 1 := fun found => by cases found <;> simp
  unfold auxVector
  have first := optional ((segs.find? fun ph => ph.offset ≤ header.phoff &&
    header.phoff + header.phnum * header.phentsize ≤ ph.offset + ph.filesz).map
      fun ph => (3, ph.vaddr + bias + (header.phoff - ph.offset)))
  have last := optional (random.map fun addr => (25, addr))
  simp only [length_append, length_cons, length_nil]
  omega

/-- The steps of `elf_load_core` that must have succeeded, from the new address space on. -/
structure Filled (file : File) (oracle : Oracle) (header : Header) (segs : List Phdr) (bias : Nat) (argv envp : List (List UInt8))
    (shared : Option Shared) (root : PAddr) (machine : Machine σ depth) (layout : Layout) (recorded withStack withShared : List VmRegion)
    (stacked : Machine σ depth) (pushed : Pushed σ depth) (image : ElfImage) (after : Machine σ depth) : Prop where
  plans : elfLayout segs bias oracle.protMemory = .ok layout
  loads : (loadSegments file oracle root bias layout.prot segs machine).1 = none
  records : addRegions layout = some recorded
  setsStack : vmSetupStack root recorded (loadSegments file oracle root bias layout.prot segs machine).2 = (some withStack, stacked)
  pushes : vmStackPushStrings root argv envp (auxVector header segs bias (mapRandom oracle root withStack stacked).addr)
    (mapRandom oracle root withStack stacked).machine = some pushed
  shares : mapShared root shared (mapRandom oracle root withStack stacked).regions pushed.machine = (some withShared, after)
  space : image.vs = ⟨root, withShared⟩
  entry : image.entry = header.entry + bias

theorem elfFill_filled (accepted : elfFill file oracle header segs bias argv envp shared root machine = (.ok image, after)) :
    ∃ layout recorded withStack withShared stacked pushed,
      Filled file oracle header segs bias argv envp shared root machine layout recorded withStack withShared stacked pushed image after := by
  unfold elfFill at accepted
  cases planned : elfLayout segs bias oracle.protMemory with
  | error failure =>
    rw [planned] at accepted
    cases accepted
  | ok layout =>
    rw [planned] at accepted
    dsimp only at accepted
    cases recorded : addRegions layout with
    | none =>
      rw [recorded] at accepted
      cases accepted
    | some regions =>
      rw [recorded] at accepted
      dsimp only at accepted
      split at accepted
      · cases accepted
      · rename_i withStack stacked stack
        split at accepted
        · cases accepted
        · rename_i pushed pushes
          split at accepted
          · cases accepted
          · rename_i withShared mapped shares
            split at accepted
            · cases accepted
            · rename_i loaded
              cases accepted
              exact ⟨layout, regions, withStack, withShared, stacked, pushed, planned, loaded, recorded, stack, pushes, shares,
                rfl, rfl⟩

/-- The pages before the shared ones are added. -/
structure ImageShown (file : File) (bias : Nat) (segs : List Phdr) (random : RandomAt) (view : View) : Prop where
  touched : ∀ {number}, Touched bias segs number →
    view number = some ⟨unionProt bias segs number, imageBytes file bias (unionProt bias segs number) segs number⟩
  others : ∀ {number shown}, view number = some shown → ¬Touched bias segs number → shown.prot = protRw
  mapped : ∀ number, (view number).isSome = true ↔ Touched bias segs number ∨ InStack number ∨ random = some (number, true)

instance (number : Nat) : Decidable (InStack number) := inferInstanceAs (Decidable (_ ∧ _))

theorem withZeroed_stack {view : View} {number : Nat} : Shows.withZeroed view (stackBase / pageSize) vmStackPages protRw number =
    if InStack number then some ⟨protRw, fun _ => 0⟩ else view number := by
  have same : InStack number ↔ stackBase / pageSize ≤ number ∧ number < stackBase / pageSize + vmStackPages := by
    have top : stackTop / pageSize = stackBase / pageSize + vmStackPages := by decide
    rw [InStack, top]
  by_cases inside : InStack number
  · rw [if_pos inside]
    exact if_pos (same.mp inside)
  · rw [if_neg inside]
    exact if_neg (mt same.mpr inside)

theorem ImageShown.rewriteTop {random : RandomAt} {view : View} {contents : Page} (shown : ImageShown file bias segs random view)
    (away : ∀ number, Touched bias segs number → ¬InStack number) :
    ImageShown file bias segs random (update view topPage (some ⟨protRw, contents⟩)) := by
  have stackPage : InStack topPage := by decide
  have other : ∀ {number}, number ≠ topPage → update view topPage (some ⟨protRw, contents⟩) number = view number :=
    fun different => update_of_ne different ..
  refine ⟨fun {number} touched => ?_, fun {number seen} found untouched => ?_, fun number => ?_⟩
  · rw [other, shown.touched touched]
    rintro rfl
    exact away _ touched stackPage
  · by_cases top : number = topPage
    · rw [top, update_self] at found
      cases found
      rfl
    · exact shown.others ((other top).symm.trans found) untouched
  · by_cases top : number = topPage
    · rw [top, update_self]
      exact iff_of_true rfl (.inr (.inl stackPage))
    · rw [other top]
      exact shown.mapped number

variable {layout : Layout} {stacked : Machine σ depth} {pushed : Pushed σ depth} {nx : Bool}

theorem Filled.shown {recorded withStack withShared : List VmRegion} (levels : depth = 3 ∨ depth = 4) (loadable : ∀ seg ∈ segs, Loadable depth bias seg)
    (filled : Filled file oracle header segs bias argv envp shared root machine layout recorded withStack withShared stacked pushed image after)
    (shows : Shows nx machine root fun _ => none) :
    ∃ random view zero, ImageShown file bias segs random view ∧ Shows nx (mapRandom oracle root withStack stacked).machine root view ∧
      view topPage = some ⟨protRw, zero⟩ ∧ (∀ number, Touched bias segs number → ¬InStack number) ∧
      (∀ {number backed}, random = some (number, backed) → vmAuxvLo / pageSize ≤ number ∧ number < vmAuxvHi / pageSize) ∧
      ∀ number, Covered (mapRandom oracle root withStack stacked).regions number ↔ Touched bias segs number ∨
        (stackBottom ≤ number * pageSize ∧ number * pageSize < stackTop) ∨ ∃ backed, random = some (number, backed) := by
  have planned := elfLayout_planned filled.plans
  have loadedShows := loadSegments_shows loadable shows filled.loads
  have imageAt : ∀ {number}, Touched bias segs number →
      (segs.foldl (fun view ph => segStep file bias layout.prot ph view) fun _ => none) number =
        some ⟨unionProt bias segs number, imageBytes file bias (unionProt bias segs number) segs number⟩ := by
    intro number touched
    have used : layout.prot number ≠ 0 := by
      rw [planned.prot]
      exact unionProt_ne_zero.mpr touched
    rw [image_touched used touched, planned.prot]
  have imageOff : ∀ {number}, ¬Touched bias segs number →
      (segs.foldl (fun view ph => segStep file bias layout.prot ph view) fun _ => none) number = none :=
    fun untouched => image_untouched fun ph member touches => untouched ⟨ph, member, touches⟩
  generalize (segs.foldl (fun view ph => segStep file bias layout.prot ph view) fun _ => none) = image at loadedShows imageAt imageOff
  obtain ⟨stackAdded, stackFree, stackShows⟩ := vmSetupStack_shows levels loadedShows filled.setsStack
  obtain ⟨random, withRandom, done⟩ := @mapRandom_done σ _ depth stacked root _ nx withStack levels oracle stackShows
  have away : ∀ number, Touched bias segs number → ¬InStack number := by
    intro number touched inside
    cases (imageAt touched).symm.trans (stackFree number inside)
  have topShown : ∃ zero, withRandom topPage = some ⟨protRw, zero⟩ := by
    by_cases here : random = some (topPage, true)
    · exact (done.page topPage here).2
    · rw [done.others topPage here, withZeroed_stack, if_pos (by decide)]
      exact ⟨_, rfl⟩
  obtain ⟨zero, viewed⟩ := topShown
  refine ⟨random, withRandom, zero, ⟨?_, ?_, ?_⟩, done.shows, viewed, away, done.place, fun number => ?_⟩
  · intro number touched
    have notRandom : random ≠ some (number, true) := by
      intro here
      have free := (done.page number here).1
      rw [withZeroed_stack, if_neg (away number touched), imageAt touched] at free
      cases free
    rw [done.others number notRandom, withZeroed_stack, if_neg (away number touched), imageAt touched]
  · intro number shown found untouched
    by_cases here : random = some (number, true)
    · obtain ⟨bytes, page⟩ := (done.page number here).2
      cases page.symm.trans found
      rfl
    · rw [done.others number here, withZeroed_stack] at found
      split at found
      · cases found
        rfl
      · rw [imageOff untouched] at found
        cases found
  · intro number
    by_cases here : random = some (number, true)
    · obtain ⟨bytes, page⟩ := (done.page number here).2
      rw [page]
      exact iff_of_true rfl (.inr (.inr here))
    · rw [done.others number here, withZeroed_stack]
      by_cases inside : InStack number
      · rw [if_pos inside]
        exact iff_of_true rfl (.inr (.inl inside))
      · rw [if_neg inside]
        by_cases touched : Touched bias segs number
        · rw [imageAt touched]
          exact iff_of_true rfl (.inl touched)
        · rw [imageOff touched]
          simp [touched, inside, here]
  · rw [done.covered, stackAdded.covered, addRegions_covered (fun number used => ?_) filled.records, planned.prot]
    · rw [unionProt_ne_zero, or_assoc]
      rfl
    · rw [planned.prot] at used
      obtain ⟨ph, member, touches⟩ := unionProt_ne_zero.mp used
      exact planned.inside ph member number touches

/-- A program in memory. The last segment that has bytes of the file at an address counts,
but a page that cannot be written keeps what the first segment has put into it. -/
structure Loaded (file : File) (bias : Nat) (segs : List Phdr) (shared : Option Shared) (random : RandomAt) (nx : Bool)
    (image : ElfImage) (machine : Machine σ depth) : Prop where
  contents : ∀ {number}, Touched bias segs number → machine.bytes (frameOf (machine.entry image.vs.pml4 number)) =
    imageBytes file bias (unionProt bias segs number) segs number
  bytes : ∀ {before seg after k}, segs = before ++ seg :: after → k < seg.memsz →
    ((∃ other ∈ segs, Touches bias ((seg.vaddr + bias + k) / pageSize) other ∧ other.writable = true) ∨
      ∀ other ∈ before, ¬Touches bias ((seg.vaddr + bias + k) / pageSize) other) →
    (∀ other ∈ before ++ after, ¬FileByte bias other (seg.vaddr + bias + k)) →
    userByte machine image.vs.pml4 (seg.vaddr + bias + k) = if k < seg.filesz then file.data (seg.offset + k) else 0
  permissions : ∀ {number}, Touched bias segs number →
    has (machine.entry image.vs.pml4 number) pagePresent = true ∧ has (machine.entry image.vs.pml4 number) pageUser = true ∧
      has (machine.entry image.vs.pml4 number) pageWrite = (segs.any fun seg => Touches bias number seg && seg.writable) ∧
      has (machine.entry image.vs.pml4 number) pageNx = (nx && !segs.any fun seg => Touches bias number seg && seg.executable)
  exclusive : nx = true → ∀ {number}, UserPage depth number → has (machine.entry image.vs.pml4 number) pagePresent = true →
    ¬(has (machine.entry image.vs.pml4 number) pageWrite = true ∧ has (machine.entry image.vs.pml4 number) pageNx = false)
  mapped : ∀ {number}, UserPage depth number → (has (machine.entry image.vs.pml4 number) pagePresent = true ↔
    Touched bias segs number ∨ InStack number ∨ random = some (number, true) ∨ InShared depth shared number)
  covers : ∀ number, image.vs.Covers (number * pageSize) ↔ Touched bias segs number ∨
    (stackBottom ≤ number * pageSize ∧ number * pageSize < stackTop) ∨ (∃ backed, random = some (number, backed)) ∨
    ∃ s, Shared.used shared = some s ∧ s.virt ≤ number * pageSize ∧ number * pageSize < (s.virt + s.pages * pageSize) % 2 ^ 64
  place : ∀ {number backed}, random = some (number, backed) → vmAuxvLo / pageSize ≤ number ∧ number < vmAuxvHi / pageSize

theorem Filled.exact {recorded withStack withShared : List VmRegion} (levels : depth = 3 ∨ depth = 4) (fits : ∀ auxc ≤ 6, FitsTopPage argv envp auxc)
    (loadable : ∀ seg ∈ segs, Loadable depth bias seg)
    (filled : Filled file oracle header segs bias argv envp shared root machine layout recorded withStack withShared stacked pushed image after)
    (shows : Shows nx machine root fun _ => none) : ∃ random, Loaded file bias segs shared random nx image after := by
  have planned := elfLayout_planned filled.plans
  obtain ⟨random, view, zero, shownBefore, randomShows, top, away, place, covered⟩ := filled.shown levels loadable shows
  obtain ⟨contents, pushedShows⟩ := pushed_shows levels randomShows top (fits _ (auxVector_length ..)) filled.pushes
  have shown : ImageShown file bias segs random (update view topPage (some ⟨protRw, contents⟩)) :=
    shownBefore.rewriteTop away
  generalize update view topPage (some ⟨protRw, contents⟩) = view at pushedShows shown
  have shares := mapShared_done pushedShows.alive filled.shares
  have pml4 : image.vs.pml4 = root := by rw [filled.space]
  have userTouched : ∀ {number}, Touched bias segs number → UserPage depth number := by
    rintro number ⟨seg, member, touches⟩
    exact (loadable seg member).user touches
  -- a page that was there before the shared ones stays as it is
  have kept : ∀ {number frame shown}, Backed nx pushed.machine root number shown frame →
      ¬InShared depth shared number ∧ after.entry root number = anonWord nx shown.prot frame ∧ after.bytes frame = shown.bytes := by
    intro number frame shown backed
    have away : ¬InShared depth shared number := by
      intro here
      cases (shares.free here).symm.trans backed.present
    exact ⟨away, by rw [shares.others away, backed.entry], by rw [shares.bytes, backed.bytes]⟩
  have touchedAt : ∀ {number}, Touched bias segs number → ∃ frame, Aligned frame ∧ ¬InShared depth shared number ∧
      after.entry root number = anonWord nx (unionProt bias segs number) frame ∧
      after.bytes frame = imageBytes file bias (unionProt bias segs number) segs number := by
    intro number touched
    obtain ⟨frame, backed⟩ := pushedShows.backed (userTouched touched) (shown.touched touched)
    obtain ⟨away, entry, bytes⟩ := kept backed
    exact ⟨frame, backed.aligned, away, entry, bytes⟩
  have contents : ∀ {number}, Touched bias segs number → after.bytes (frameOf (after.entry image.vs.pml4 number)) =
      imageBytes file bias (unionProt bias segs number) segs number := by
    intro number touched
    obtain ⟨frame, aligned, -, entry, bytes⟩ := touchedAt touched
    rw [pml4, entry, anonWord_frame aligned, bytes]
  refine ⟨random, contents, ?_, ?_, ?_, ?_, ?_, place⟩
  · intro before seg later k split inside open_ alone
    have touches : Touches bias ((seg.vaddr + bias + k) / pageSize) seg := touches_addr (by omega) (by omega)
    have member : seg ∈ segs := by simp [split]
    rw [userByte, contents ⟨seg, member, touches⟩, split]
    refine imageBytes_segment inside (open_.imp_left ?_) alone rfl
    rintro ⟨other, listed, there, writes⟩
    rw [has_unionProt, any_eq_true]
    refine ⟨other, split ▸ listed, ?_⟩
    rw [has_segProt_write]
    simpa [there, Phdr.writable] using writes
  · intro number touched
    obtain ⟨frame, aligned, -, entry, -⟩ := touchedAt touched
    obtain ⟨present, user, -, -, -, -, write⟩ := anonWord_flags aligned nx (unionProt bias segs number)
    rw [pml4, entry, anonWord_nx aligned, write, has_unionProt, has_unionProt]
    simp only [has_segProt_write, has_segProt_exec]
    exact ⟨present, user, rfl, rfl⟩
  · intro hasNx number user present
    rw [pml4] at present ⊢
    by_cases here : InShared depth shared number
    · rintro ⟨-, executable⟩
      have fixed := (shares.page here).2 (pushedShows.cpuHasNx.trans hasNx)
      cases fixed.symm.trans executable
    · rw [shares.others here] at present ⊢
      cases viewed : view number with
      | none => cases (pushedShows.absent user viewed).symm.trans present
      | some seen =>
        obtain ⟨frame, backed⟩ := pushedShows.backed user viewed
        obtain ⟨-, -, -, -, -, -, write⟩ := anonWord_flags backed.aligned nx seen.prot
        rw [backed.entry, anonWord_nx backed.aligned, write, hasNx]
        have exclusive : WriteXorExec seen.prot := by
          by_cases touched : Touched bias segs number
          · cases (shown.touched touched).symm.trans viewed
            exact planned.exclusive number
          · rw [shown.others viewed touched]
            decide
        simpa [WriteXorExec] using exclusive
  · intro number user
    rw [pml4]
    by_cases here : InShared depth shared number
    · simp [(shares.page here).1, here]
    · rw [shares.others here]
      have before := shown.mapped number
      cases viewed : view number with
      | none =>
        rw [viewed] at before
        rw [pushedShows.absent user viewed]
        simpa [here] using before
      | some seen =>
        obtain ⟨frame, backed⟩ := pushedShows.backed user viewed
        rw [viewed] at before
        rw [backed.present]
        simpa [here] using before
  · intro number
    rw [filled.space]
    change Covered withShared number ↔ _
    rw [shares.covered, covered, or_assoc, or_assoc]

theorem elfLoadCore_filled (levels : depth = 3 ∨ depth = 4) (tables : machine.Tables) (kernel : KernelHalf machine.kernelPml4)
    (accepted : elfLoadCore file oracle argv envp shared machine = (.ok image, after)) :
    ∃ header ph root created layout recorded withStack withShared stacked pushed, elfHeaders file oracle = .ok (header, ph) ∧
      Filled file oracle header (ph.filter Phdr.loads) (loadBias header oracle) argv envp shared root created layout recorded withStack
        withShared stacked pushed image after ∧
      (∀ seg ∈ ph.filter Phdr.loads, Loadable depth (loadBias header oracle) seg) ∧
      Shows machine.cpuHasNx created root fun _ => none := by
  unfold elfLoadCore at accepted
  cases headers : elfHeaders file oracle with
  | error failure =>
    rw [headers] at accepted
    cases accepted
  | ok pair =>
    obtain ⟨header, ph⟩ := pair
    rw [headers] at accepted
    dsimp only at accepted
    split at accepted
    · cases accepted
    · split at accepted
      · cases accepted
      · split at accepted
        · cases accepted
        · rename_i root created creates
          obtain ⟨layout, recorded, withStack, withShared, stacked, pushed, filled⟩ := elfFill_filled accepted
          have loadable : ∀ seg ∈ ph.filter Phdr.loads, Loadable depth (loadBias header oracle) seg := fun seg member =>
            ((elfHeaders_ok headers).segment member).loadable levels ((elfLayout_planned filled.plans).addresses seg member)
              (loadBias_lt header oracle)
          exact ⟨header, ph, root, created, layout, recorded, withStack, withShared, stacked, pushed, rfl, filled, loadable,
            created_shows (vmmCreateAddressSpace_created creates) kernel tables⟩

namespace Sample

def little (width value : Nat) : List UInt8 := (range width).map fun k => UInt8.ofNat (value / 256 ^ k)

def phdr (flags offset vaddr size : Nat) : List UInt8 :=
  little 4 1 ++ little 4 flags ++ little 8 offset ++ little 8 vaddr ++ little 8 0 ++ little 8 size ++ little 8 size ++ little 8 0

/-- A program of two segments, whose entry point is the start of the first. -/
def program (first second : List UInt8) : File :=
  let bytes := [0x7F, 0x45, 0x4C, 0x46, 2, 1, 1, 0] ++ List.replicate 8 0xAA ++ little 2 2 ++ little 2 62 ++ little 4 1 ++
    little 8 0x10000 ++ little 8 64 ++ little 8 0 ++ little 4 0 ++ little 2 64 ++ little 2 56 ++ little 2 2 ++ little 6 0 ++ first ++ second
  ⟨176, fun i => bytes.getD i 0⟩

/-- Bytes 0x10018 to 0x10027 are those of both, and the page can only be read. -/
def overlapping : File := program (phdr 5 0 0x10000 0x20) (phdr 4 0 0x10018 0x10)

/-- Every read succeeds, and there is memory for everything. -/
def plenty : Oracle := ⟨fun _ _ => true, true, true, true, fun _ => 0⟩

def loaded : Except Failure ElfImage × Machine Bump 3 := elfLoadCore overlapping plenty [] [] none Bump.bare

theorem bare_tables : Bump.bare.Tables := by
  have none : ∀ root frame, Bump.bare.tableCount root frame = 0 := fun _ _ => rfl
  refine ⟨(fun space => nomatch space), (fun space => nomatch space), fun root frame => ?_, fun _ used => ?_, fun used => ?_⟩
  · rw [none]
    exact Nat.zero_le 1
  · rw [none] at used
    cases used
  · rw [none] at used
    cases used

theorem bare_kernel : KernelHalf Bump.bare.kernelPml4 := by
  intro page _
  have empty : Table.query Bump.bare.kernelPml4 page = 0#64 := rfl
  simp [empty]

theorem fits_nothing : ∀ auxc ≤ 6, FitsTopPage [] [] auxc := by
  intro auxc few pos placed
  interval_cases auxc <;> cases placed <;> decide

theorem overlapping_loads : ∃ image, elfLoadCore overlapping plenty [] [] none Bump.bare = (.ok image, loaded.2) := by
  have accepted : loaded.1.toOption.isSome = true := by decide +kernel
  obtain ⟨image, found⟩ := Option.isSome_iff_exists.mp accepted
  refine ⟨image, ?_⟩
  change loaded = _
  cases result : loaded with
  | mk answer after =>
    rw [result] at found
    cases answer with
    | error failure => cases found
    | ok image =>
      cases found
      rfl

end Sample

end NyonOS.Elf
