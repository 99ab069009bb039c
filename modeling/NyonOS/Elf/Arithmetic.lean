import NyonOS.Data.Checked
import NyonOS.Elf.Loaded

namespace NyonOS.Elf

open Data List Nat
open Paging (pageSize)
open Checked

/-! The computations of `elf_load_core` on the numbers of the headers, on words of 64 bits. The
loops over pages are taken as if no page were there before and nothing failed: what a run
computes is among this. -/

def elfValidateHdr64 (file : File) : Checked (Except Int Header) :=
  let type := file.number 16 2
  let machine := file.number 18 2
  let phoff := file.number 32 8
  let ehsize := file.number 52 2
  let phentsize := file.number 54 2
  let phnum := file.number 56 2
  if file.data 0 ≠ 0x7F ∨ file.data 1 ≠ 0x45 ∨ file.data 2 ≠ 0x4C ∨ file.data 3 ≠ 0x46 then pure (.error eBadMagic)
  else if file.data 4 ≠ 2 then pure (.error eBadClass)
  else if file.data 5 ≠ 1 then pure (.error eBadData)
  else if file.data 6 ≠ 1 then pure (.error eBadVers)
  else if machine ≠ 62 then pure (.error eBadMachine)
  else if type ≠ 2 ∧ type ≠ 3 then pure (.error eBadType)
  else if ehsize < ehdrSize then pure (.error ePhdrSize)
  else if phentsize < phdrSize then pure (.error ePhdrSize)
  else if phnum = 0 then pure (.error ePhNum)
  else if elfMaxPhnum < phnum then pure (.error ePhNum)
  else if file.size < phoff then pure (.error eOffset)
  else do
    let rest ← sub file.size phoff
    let table ← mul phnum phentsize
    if rest < table then pure (.error eOffset)
    else pure (.ok ⟨phoff, phentsize, phnum, type = 3, file.number 24 8⟩)

/-- The last checks of a program header compute nothing but the mask of the alignment. -/
def phdrFlags64 (ph : Phdr) : Checked (Option Int) := do
  let misaligned ← andThen (ph.align ≠ 0 ∧ 4096 % ph.align = 0) do
    let mask ← sub ph.align 1
    pure (decide (ph.vaddr &&& mask ≠ ph.offset &&& mask))
  if misaligned then pure (some eAlign)
  else if ph.writable ∧ ph.executable then pure (some eWx)
  else if ph.writable ∧ !ph.readable then pure (some eWx)
  else pure none

def phdrRange64 (isPie : Bool) (ph : Phdr) : Checked (Option Int) := do
  let limit ← sub (2 ^ 64 - 1) ph.memsz
  if limit < ph.vaddr then pure (some eAddr)
  else do
    let last ← add ph.vaddr ph.memsz
    if userMax < last then pure (some eAddr)
    else do
      let high ← andThen isPie do
        let moved ← add ph.vaddr vmLoadSpan
        let last ← add moved ph.memsz
        pure (decide (userMax < last))
      if high then pure (some eAddr) else phdrFlags64 ph

def phdrError64 (fileSize : Nat) (isPie : Bool) (ph : Phdr) : Checked (Option Int) :=
  if ph.type = 3 then pure (some eInterp)
  else if ph.type ≠ 1 then pure none
  else if ph.memsz < ph.filesz then pure (some eMemSz)
  else if ph.memsz = 0 then pure none
  else if ph.filesz ≠ 0 ∧ fileSize < ph.offset then pure (some eOffset)
  else do
    let short ← andThen (ph.filesz ≠ 0) do
      let rest ← sub fileSize ph.offset
      pure (decide (rest < ph.filesz))
    if short then pure (some eOffset) else phdrRange64 isPie ph

def imagePages64 : (total : Nat) → List Phdr → Checked Nat
  | total, [] => pure total
  | total, ph :: rest => do
    let up ← add ph.memsz pageSize
    let last ← sub up 1
    let sum ← add total (last / pageSize)
    imagePages64 sum rest

def entryIn64 (entry : Nat) (ph : Phdr) : Checked (Option Unit) :=
  if !ph.executable then pure none
  else if entry < ph.vaddr then pure none
  else do
    let last ← add ph.vaddr ph.memsz
    if entry < last then pure (some ()) else pure none

def elfValidatePhdrs64 (ph : List Phdr) (fileSize : Nat) (isPie : Bool) (entry : Nat) : Checked Int := do
  match ← first (phdrError64 fileSize isPie) ph with
  | some code => pure code
  | none => do
    let total ← imagePages64 0 (ph.filter Phdr.loads)
    let bytes ← mul total pageSize
    if elfMaxImage < bytes then pure eTooLarge
    else do
      let inside ← first (entryIn64 entry) (ph.filter Phdr.loads)
      pure (if inside.isSome then 0 else eEntry)

def rangeError64 (isPie : Bool) (ph : Phdr) : Checked (Option Failure) :=
  if isPie then do
    let last ← add ph.vaddr ph.memsz
    if vmLoadSpan ≤ ph.vaddr ∨ vmLoadSpan < last then pure (some ⟨eAddr, "pie segment too big"⟩) else pure none
  else if ph.vaddr < vmExecMin then pure (some (.of eAddr))
  else do
    let last ← add ph.vaddr ph.memsz
    if vmLoadLimit < last then pure (some (.of eAddr)) else pure none

/-- The loop that reads the program headers. -/
def phdrsRead64 (file : File) (oracle : Oracle) (header : Header) : List Nat → Checked (Option (List Phdr))
  | [] => pure (some [])
  | i :: rest => do
    let entry ← mul i header.phentsize
    let place ← add header.phoff entry
    let offset ← narrow place
    range offset phdrSize file.size
    if !oracle.reads offset phdrSize then pure none
    else do
      let others ← phdrsRead64 file oracle header rest
      pure (others.map (phdrRead file offset :: ·))

def elfHeaders64 (file : File) (oracle : Oracle) : Checked (Except Failure (Header × List Phdr)) :=
  if file.size < ehdrSize then pure (.error (.of eBadMagic))
  else do
    range 0 ehdrSize file.size
    if !oracle.reads 0 ehdrSize then pure (.error ⟨eOffset, "short read"⟩)
    else do
      match ← elfValidateHdr64 file with
      | .error code => pure (.error (.of code))
      | .ok header => do
        let _ ← mul header.phnum phdrSize
        if !oracle.phMemory then pure (.error ⟨eTooLarge, "out of memory"⟩)
        else do
          match ← phdrsRead64 file oracle header (List.range header.phnum) with
          | none => pure (.error ⟨eOffset, "program header read failed"⟩)
          | some ph => do
            let code ← elfValidatePhdrs64 ph file.size header.isPie header.entry
            if code ≠ 0 then pure (.error (.of code))
            else do
              match ← first (rangeError64 header.isPie) (ph.filter Phdr.loads) with
              | some failure => pure (.error failure)
              | none => pure (.ok (header, ph))

/-! From the load address on. -/

def loadBias64 (header : Header) (oracle : Oracle) : Checked Nat :=
  if header.isPie then do
    let offset ← mul (oracle.random 0 % 0x400) pageSize
    add vmLoadBase offset
  else pure 0

def roundUp64 (addr : Nat) : Checked Nat := do
  let up ← add addr pageSize
  let last ← sub up 1
  pure (last / pageSize * pageSize)

def segEnd64 (bias size : Nat) (ph : Phdr) : Checked Nat := do
  let start ← add ph.vaddr bias
  let last ← add start size
  roundUp64 last

/-- The loop for `lo` and `hi`. -/
def bounds64 (bias : Nat) : List Phdr → Nat × Nat → Checked (Option (Nat × Nat))
  | [], now => pure (some now)
  | ph :: rest, now => do
    let room ← sub userMax bias
    let limit ← sub room ph.memsz
    if limit < ph.vaddr then pure none
    else do
      let start ← add ph.vaddr bias
      let last ← segEnd64 bias ph.memsz ph
      bounds64 bias rest (min now.1 (start / pageSize * pageSize), max now.2 last)

/-- The loops over the pages of a segment, from one page to the next. -/
def eachPage64 (bias : Nat) (ph : Phdr) (body : Nat → Checked Unit) : Checked Unit := do
  let _ ← add ph.vaddr bias
  let _ ← segEnd64 bias ph.memsz ph
  each (fun number => do
    body number
    let _ ← add (number * pageSize) pageSize
    pure ()) (segPages bias ph)

def pageIndex64 (lo npages number : Nat) : Checked Unit := do
  let distance ← sub (number * pageSize) lo
  access (distance / pageSize) npages

/-- The place in the file is not computed if nothing is to be read. -/
def readPlan64 (file : File) (bias : Nat) (ph : Phdr) (number : Nat) : Checked ReadPlan := do
  let va := number * pageSize
  let fstart ← add ph.vaddr bias
  let vend ← segEnd64 bias ph.memsz ph
  let fend ← segEnd64 bias ph.filesz ph
  let readFrom := if fstart < va then va else fstart
  let readTo := if fend < vend then fend else vend
  if readFrom < readTo then do
    let skip ← sub readFrom fstart
    let left ← sub ph.filesz skip
    let want ← narrow left
    let before ← sub readFrom va
    let room ← sub pageSize before
    if min want room = 0 then pure ⟨before, ph.offset + skip, 0⟩
    else do
      let place ← add ph.offset skip
      let offset ← narrow place
      range before (min want room) pageSize
      range offset (min want room) file.size
      pure ⟨before, offset, min want room⟩
  else pure ⟨0, 0, 0⟩

def loadPage64 (file : File) (bias : Nat) (ph : Phdr) (lo npages number : Nat) : Checked Unit := do
  pageIndex64 lo npages number
  let _ ← readPlan64 file bias ph number
  pure ()

def regionBounds64 (lo npages i : Nat) : Checked Unit := do
  let _ ← andThen (i < npages) do
    access i npages
    pure true
  let offset ← mul i pageSize
  let _ ← add lo offset
  pure ()

def auxPhdr64 (header : Header) (bias high : Nat) (ph : Phdr) : Checked (Option Nat) := do
  let last ← add ph.offset ph.filesz
  if ph.offset ≤ header.phoff ∧ high ≤ last then do
    let start ← add ph.vaddr bias
    let skip ← sub header.phoff ph.offset
    let addr ← add start skip
    pure (some addr)
  else pure none

def auxVector64 (header : Header) (segs : List Phdr) (bias : Nat) : Checked Unit := do
  let table ← mul header.phnum header.phentsize
  let high ← add header.phoff table
  let _ ← first (auxPhdr64 header bias high) segs
  let _ ← add header.entry bias
  pure ()

/-- Once the bounds of the image are known. -/
def elfFill64 (file : File) (header : Header) (segs : List Phdr) (bias lo hi : Nat) : Checked Unit := do
  let bytes ← sub hi lo
  let npages := bytes / pageSize
  if npages = 0 ∨ elfMaxImage / pageSize < npages then pure ()
  else do
    each (fun ph => eachPage64 bias ph (pageIndex64 lo npages)) segs
    each (fun ph => eachPage64 bias ph (loadPage64 file bias ph lo npages)) segs
    each (regionBounds64 lo npages) (List.range (npages + 1))
    auxVector64 header segs bias

def elfLoad64 (file : File) (oracle : Oracle) : Checked Unit := do
  match ← elfHeaders64 file oracle with
  | .error _ => pure ()
  | .ok (header, ph) => do
    let bias ← loadBias64 header oracle
    let limit ← sub userMax vmLoadSpan
    if header.isPie ∧ limit ≤ bias then pure ()
    else do
      match ← bounds64 bias (ph.filter Phdr.loads) (2 ^ 64 - 1, 0) with
      | none => pure ()
      | some (lo, hi) => if lo = 2 ^ 64 - 1 then pure () else elfFill64 file header (ph.filter Phdr.loads) bias lo hi

/-! The header. -/

theorem File.number_lt (file : File) (at_ count : Nat) : file.number at_ count < 256 ^ count := by
  induction count with
  | zero => simp [File.number]
  | succ count ih =>
    have byte := (file.data (at_ + count)).toNat_lt
    have most : (file.data (at_ + count)).toNat * 256 ^ count ≤ 255 * 256 ^ count := Nat.mul_le_mul_right _ (by omega)
    rw [File.number, pow_succ]
    omega

section Headers

variable {file : File} {oracle : Oracle} {header : Header} {ph : Phdr} {phs segs : List Phdr} {size entry : Nat} {isPie : Bool}

theorem elfValidateHdr64_computes : Computes (elfValidateHdr64 file) (elfValidateHdr file) := by
  unfold elfValidateHdr64 elfValidateHdr
  dsimp only
  iterate 9 refine .ite (fun _ => .pure _) fun _ => ?_
  refine .ite (fun _ => .pure _) fun few => ?_
  by_cases beyond : file.size < file.number 32 8
  · rw [if_pos beyond, if_pos (.inl beyond)]
    exact .pure _
  · rw [if_neg beyond]
    refine (Computes.sub (Nat.not_lt.mp beyond)).bind ((Computes.mul ?_).bind ?_)
    · have size := file.number_lt 54 2
      have most : file.number 56 2 * file.number 54 2 ≤ elfMaxPhnum * 256 ^ 2 :=
        Nat.mul_le_mul (Nat.not_lt.mp few) size.le
      have bound : elfMaxPhnum * 256 ^ 2 < 2 ^ 64 := by decide
      omega
    · simp only [beyond, false_or]
      exact .ite (fun _ => .pure _) fun _ => .pure _

/-- The numbers of a program header have at most 64 bits. -/
structure Phdr.Word (ph : Phdr) : Prop where
  offset : ph.offset < 2 ^ 64
  vaddr : ph.vaddr < 2 ^ 64
  memsz : ph.memsz < 2 ^ 64

theorem phdrRead_word (file : File) (at_ : Nat) : (phdrRead file at_).Word := by
  have word : (256 : Nat) ^ 8 = 2 ^ 64 := by decide
  exact ⟨word ▸ file.number_lt _ 8, word ▸ file.number_lt _ 8, word ▸ file.number_lt _ 8⟩

theorem phdrFlags64_computes : Computes (phdrFlags64 ph)
    (if ph.align ≠ 0 ∧ 4096 % ph.align = 0 ∧ ph.vaddr &&& (ph.align - 1) ≠ ph.offset &&& (ph.align - 1) then some eAlign
    else if ph.writable ∧ ph.executable then some eWx
    else if ph.writable ∧ !ph.readable then some eWx
    else none) := by
  unfold phdrFlags64
  simp only [← and_assoc]
  refine .check ?_ (.pure _) fun _ => ?_
  · refine .andThen fun aligned => ?_
    exact (Computes.sub (Nat.pos_of_ne_zero aligned.1)).bind (.pure _)
  exact .ite (fun _ => .pure _) fun _ => .ite (fun _ => .pure _) fun _ => .pure _

theorem phdrError64_computes (word : ph.Word) : Computes (phdrError64 size isPie ph) (phdrError size isPie ph) := by
  have span : vmLoadSpan + userMax < 2 ^ 64 := by decide
  have memsz := word.memsz
  unfold phdrError64 phdrError
  iterate 4 refine .ite (fun _ => .pure _) fun _ => ?_
  refine .ite (fun _ => .pure _) fun outside => ?_
  refine .check ?_ (.pure _) fun _ => ?_
  · refine .andThen fun filled => ?_
    exact (Computes.sub (Nat.not_lt.mp fun beyond => outside ⟨filled, beyond⟩)).bind (.pure _)
  unfold phdrRange64
  refine (Computes.sub (le_sub_one_of_lt memsz)).bind (.ite (fun _ => .pure _) fun wraps => ?_)
  refine (Computes.add (by omega)).bind (.ite (fun _ => .pure _) fun high => ?_)
  refine .check ?_ (.pure _) fun _ => ?_
  · refine .andThen fun _ => ?_
    exact (Computes.add (by omega)).bind ((Computes.add (by omega)).bind (.pure _))
  exact phdrFlags64_computes

theorem imagePages64_computes {total : Nat} (user : ∀ ph ∈ segs, ph.memsz ≤ userMax) (small : total + segs.length * 2 ^ 36 < 2 ^ 63) :
    Computes (imagePages64 total segs) (total + (segs.map fun ph => (ph.memsz + 4095) / 4096).sum) := by
  have most : userMax = 2 ^ 47 := by decide
  induction segs generalizing total with
  | nil => exact .pure _
  | cons ph rest ih =>
    have first := user ph (by simp)
    rw [length_cons] at small
    rw [map_cons, sum_cons, ← Nat.add_assoc]
    refine (Computes.add (show ph.memsz + pageSize < 2 ^ 64 by unfold pageSize; omega)).bind ?_
    refine (Computes.sub (show 1 ≤ ph.memsz + pageSize by unfold pageSize; omega)).bind ?_
    have last : ph.memsz + pageSize - 1 = ph.memsz + 4095 := rfl
    rw [last]
    refine (Computes.add (show total + (ph.memsz + 4095) / pageSize < 2 ^ 64 by unfold pageSize; omega)).bind ?_
    exact ih (fun later member => user later (by simp [member])) (by unfold pageSize; omega)

theorem entryIn64_computes (user : ph.vaddr + ph.memsz ≤ userMax) : Computes (entryIn64 entry ph)
    (if (ph.executable && ph.vaddr ≤ entry && entry < ph.vaddr + ph.memsz) = true then some () else none) := by
  have most : userMax < 2 ^ 64 := by decide
  unfold entryIn64
  cases executable : ph.executable with
  | false => exact .pure none
  | true =>
    rw [if_neg (by decide)]
    by_cases below : entry < ph.vaddr
    · rw [if_pos below, if_neg (by simp [below])]
      exact .pure none
    · rw [if_neg below]
      refine (Computes.add (user.trans_lt most)).bind ?_
      simp only [Nat.not_lt.mp below, decide_true, Bool.true_and, decide_eq_true_eq]
      exact .ite (fun _ => .pure _) fun _ => .pure _

theorem isSome_findSome? {α : Type} (test : α → Bool) (items : List α) :
    (items.findSome? fun item => if test item = true then some () else none).isSome = items.any test := by
  induction items with
  | nil => rfl
  | cons item rest ih =>
    rw [findSome?_cons, any_cons, ← ih]
    cases test item <;> rfl

theorem elfValidatePhdrs64_computes (words : ∀ ph ∈ phs, ph.Word) (few : phs.length ≤ elfMaxPhnum) :
    Computes (elfValidatePhdrs64 phs size isPie entry) (elfValidatePhdrs phs size isPie entry) := by
  unfold elfValidatePhdrs64 elfValidatePhdrs
  refine (Computes.first fun ph member => phdrError64_computes (words ph member)).bind ?_
  cases checked : phs.findSome? (phdrError size isPie) with
  | some code => exact .pure code
  | none =>
    have user : ∀ ph ∈ phs.filter Phdr.loads, ph.vaddr + ph.memsz ≤ userMax := by
      intro ph member
      obtain ⟨listed, loads⟩ := mem_filter.mp member
      exact (phdrError_none loads (findSome?_eq_none_iff.mp checked ph listed)).user
    have short : (phs.filter Phdr.loads).length ≤ 64 := (length_filter_le ..).trans few
    have shares : ((phs.filter Phdr.loads).map fun ph => (ph.memsz + 4095) / 4096).sum ≤ 64 * 2 ^ 36 := by
      refine (sum_le_card_nsmul _ (2 ^ 36) fun share member => ?_).trans ?_
      · obtain ⟨ph, listed, rfl⟩ := mem_map.mp member
        have high := user ph listed
        have most : userMax = 2 ^ 47 := by decide
        omega
      · rw [length_map, smul_eq_mul]
        omega
    have total := @imagePages64_computes (phs.filter Phdr.loads) 0 (fun ph member => le_of_add_le_right (user ph member)) (by omega)
    rw [Nat.zero_add] at total
    refine total.bind ((Computes.mul (by unfold pageSize; omega)).bind (.ite (fun _ => .pure _) fun _ => ?_))
    refine (Computes.first fun ph member => entryIn64_computes (user ph member)).bind ?_
    rw [isSome_findSome?]
    exact .pure _

theorem rangeError64_computes (user : ph.vaddr + ph.memsz ≤ userMax) : Computes (rangeError64 isPie ph) (rangeError isPie ph) := by
  have most : userMax < 2 ^ 64 := by decide
  unfold rangeError64 rangeError
  refine .ite (fun _ => ?_) fun _ => .ite (fun _ => .pure _) fun _ => ?_
  · exact (Computes.add (user.trans_lt most)).bind (.ite (fun _ => .pure _) fun _ => .pure _)
  · exact (Computes.add (user.trans_lt most)).bind (.ite (fun _ => .pure _) fun _ => .pure _)

theorem phdrsRead64_computes (sized : file.size < 2 ^ 32) (ok : HeaderOk file header) {indices : List Nat}
    (listed : ∀ i ∈ indices, i < header.phnum) : Computes (phdrsRead64 file oracle header indices)
    (if (!indices.all fun i => oracle.reads (header.phoff + i * header.phentsize) phdrSize) = true then none
    else some (indices.map fun i => phdrRead file (header.phoff + i * header.phentsize))) := by
  induction indices with
  | nil => exact .pure _
  | cons i rest ih =>
    have table := ok.table
    have room : i * header.phentsize + header.phentsize ≤ header.phnum * header.phentsize := by
      rw [← succ_mul]
      exact Nat.mul_le_mul_right _ (listed i (by simp))
    have entry := ok.phentsize
    refine (Computes.mul (by omega)).bind ((Computes.add (by omega)).bind ((Computes.narrow (by omega)).bind ?_))
    refine (Computes.range (by omega)).bind ?_
    cases reads : oracle.reads (header.phoff + i * header.phentsize) phdrSize with
    | false =>
      rw [if_pos (by rfl), all_cons, reads]
      exact .pure none
    | true =>
      rw [if_neg (by decide), all_cons, reads, Bool.true_and]
      refine (ih fun later member => listed later (by simp [member])).bind ?_
      cases rest.all fun i => oracle.reads (header.phoff + i * header.phentsize) phdrSize with
      | false => exact .pure none
      | true => exact .pure _

theorem elfHeaders64_computes (sized : file.size < 2 ^ 32) : Computes (elfHeaders64 file oracle) (elfHeaders file oracle) := by
  unfold elfHeaders64 elfHeaders
  refine .ite (fun _ => .pure _) fun long => ?_
  refine (Computes.range (by omega)).bind (.ite (fun _ => .pure _) fun _ => ?_)
  refine elfValidateHdr64_computes.bind ?_
  cases validated : elfValidateHdr file with
  | error code => exact .pure _
  | ok header =>
    have ok := elfValidateHdr_ok validated
    have few := ok.phnum
    refine (Computes.mul (by unfold phdrSize elfMaxPhnum at *; omega)).bind (.ite (fun _ => .pure _) fun _ => ?_)
    refine (phdrsRead64_computes sized ok fun i member => mem_range.mp member).bind ?_
    cases (List.range header.phnum).all fun i => oracle.reads (header.phoff + i * header.phentsize) phdrSize with
    | false => exact .pure _
    | true =>
      have words : ∀ ph ∈ (List.range header.phnum).map fun i => phdrRead file (header.phoff + i * header.phentsize), ph.Word := by
        intro ph member
        obtain ⟨i, -, rfl⟩ := mem_map.mp member
        exact phdrRead_word ..
      have count : ((List.range header.phnum).map fun i => phdrRead file (header.phoff + i * header.phentsize)).length ≤ elfMaxPhnum := by
        rw [length_map, length_range]
        exact few
      simp only [Bool.not_true, Bool.false_eq_true, if_false]
      generalize ((List.range header.phnum).map fun i => phdrRead file (header.phoff + i * header.phentsize)) = phs at words count ⊢
      refine (elfValidatePhdrs64_computes words count).bind (.ite (fun _ => .pure _) fun valid => ?_)
      have checked := (elfValidatePhdrs_ok (not_not.mp valid)).1
      refine (Computes.first fun ph member => rangeError64_computes ?_).bind ?_
      · obtain ⟨listed, loads⟩ := mem_filter.mp member
        exact (phdrError_none loads (checked ph listed)).user
      · cases (phs.filter Phdr.loads).findSome? (rangeError header.isPie) with
        | some | none => exact .pure _

end Headers

/-! The segments of a file that has been accepted. -/

section Segments

variable {file : File} {oracle : Oracle} {header : Header} {ph : Phdr} {segs : List Phdr} {bias lo hi number : Nat}

/-- As far as the computations rely on it. -/
structure Moderate (file : File) (bias : Nat) (ph : Phdr) : Prop where
  fits : ph.filesz ≤ ph.memsz
  small : ph.memsz ≤ elfMaxImage
  inFile : ph.filesz ≠ 0 → ph.offset + ph.filesz ≤ file.size
  offset : ph.offset < 2 ^ 64
  high : ph.vaddr + bias + ph.memsz ≤ userMax
  near : bias ≤ userMax

theorem HeadersOk.moderate {phs : List Phdr} (headers : HeadersOk file header phs) (member : ph ∈ phs.filter Phdr.loads) :
    Moderate file (loadBias header oracle) ph := by
  obtain ⟨-, fits, small, inFile, user, span, -, -⟩ := headers.segment member
  have near := loadBias_lt header oracle
  have most : userMax = 2 ^ 47 := by decide
  refine ⟨fits, small, inFile, ?_, ?_, by omega⟩
  · obtain ⟨i, -, rfl⟩ := mem_map.mp (headers.read ▸ (mem_filter.mp member).1)
    exact (phdrRead_word ..).offset
  · cases isPie : header.isPie with
    | true =>
      have low := span isPie
      unfold vmLoadSpan at low
      omega
    | false =>
      have zero : loadBias header oracle = 0 := by simp [loadBias, isPie]
      omega

theorem loadBias64_computes : Computes (loadBias64 header oracle) (loadBias header oracle) := by
  have random := mod_lt (oracle.random 0) (show 0x400 > 0 by decide)
  unfold loadBias64 loadBias
  refine .ite (fun _ => ?_) fun _ => .pure 0
  exact (Computes.mul (by unfold pageSize; omega)).bind (.add (by unfold pageSize vmLoadBase; omega))

theorem segEnd64_computes {size : Nat} (low : ph.vaddr + bias + size < 2 ^ 63) :
    Computes (segEnd64 bias size ph) ((ph.vaddr + bias + size + (pageSize - 1)) / pageSize * pageSize) := by
  refine (Computes.add (by omega)).bind ((Computes.add (by omega)).bind ?_)
  refine (Computes.add (by unfold pageSize; omega)).bind ((Computes.sub (by unfold pageSize; omega)).bind ?_)
  exact .pure _

theorem bounds64_computes (moderate : ∀ ph ∈ segs, Moderate file bias ph) (now : Nat × Nat) : Computes (bounds64 bias segs now)
    (some ((segs.map fun ph => segFirst bias ph * pageSize).foldl min now.1, (segs.map fun ph => segEnd bias ph * pageSize).foldl max now.2)) := by
  have most : userMax = 2 ^ 47 := by decide
  induction segs generalizing now with
  | nil => exact .pure _
  | cons ph rest ih =>
    obtain ⟨-, -, -, -, high, near⟩ := moderate ph (by simp)
    refine (Computes.sub near).bind ((Computes.sub (by omega)).bind ?_)
    rw [if_neg (by omega)]
    refine (Computes.add (by omega)).bind ((segEnd64_computes (by omega)).bind ?_)
    exact ih (fun later member => moderate later (by simp [member])) _

theorem foldl_max_lt {bound start : Nat} {numbers : List Nat} (low : start < bound) (below : ∀ number ∈ numbers, number < bound) :
    numbers.foldl max start < bound := by
  induction numbers generalizing start with
  | nil => exact low
  | cons number rest ih =>
    exact ih (Nat.max_lt.mpr ⟨low, below number (by simp)⟩) fun later member => below later (by simp [member])

theorem eachPage64_safe {body : Nat → Checked Unit} (moderate : Moderate file bias ph)
    (step : ∀ number, Touches bias number ph → Safe (body number)) : Safe (eachPage64 bias ph body) := by
  have most : userMax = 2 ^ 47 := by decide
  have high := moderate.high
  refine (Computes.add (by omega)).bind ((segEnd64_computes (by omega)).bind (Computes.each fun number member => ?_))
  have touches := mem_segPages.mp member
  refine (step number touches).bind ((Computes.add ?_).bind (.pure ()))
  have last := touches.2
  unfold segEnd pageSize at last
  unfold pageSize
  omega

theorem pageIndex64_safe (first : lo ≤ segFirst bias ph * pageSize) (last : segEnd bias ph * pageSize ≤ hi)
    (touches : Touches bias number ph) : Safe (pageIndex64 lo ((hi - lo) / pageSize) number) := by
  have lower : lo ≤ number * pageSize := first.trans (Nat.mul_le_mul_right _ touches.1)
  have upper : (number + 1) * pageSize ≤ hi := (Nat.mul_le_mul_right _ touches.2).trans last
  refine (Computes.sub lower).bind (.access ?_)
  calc (number * pageSize - lo) / pageSize < (number * pageSize - lo) / pageSize + 1 := lt_succ_self _
    _ = (number * pageSize - lo + pageSize) / pageSize := (add_div_right _ (by decide)).symm
    _ ≤ (hi - lo) / pageSize := Nat.div_le_div_right (by rw [succ_mul] at upper; omega)

theorem readPlan64_computes (sized : file.size < 2 ^ 32) (moderate : Moderate file bias ph) (touches : Touches bias number ph) :
    Computes (readPlan64 file bias ph number) (readPlan bias ph number) := by
  have most : userMax = 2 ^ 47 := by decide
  have image : elfMaxImage = 2 ^ 26 := by decide
  obtain ⟨fits, small, inFile, -, high, -⟩ := moderate
  obtain ⟨lower, upper⟩ := touches
  unfold readPlan64 readPlan
  refine (Computes.add (by omega)).bind ((segEnd64_computes (by omega)).bind ((segEnd64_computes (by omega)).bind ?_))
  rw [← segEnd]
  dsimp only
  -- the bytes that are skipped belong to the segment, and the first one that is read is in the page
  generalize fromIs : (if ph.vaddr + bias < number * pageSize then number * pageSize else ph.vaddr + bias) = readFrom
  have start : readFrom = number * pageSize ∧ ph.vaddr + bias < number * pageSize ∨
      readFrom = ph.vaddr + bias ∧ number * pageSize ≤ ph.vaddr + bias := by
    split_ifs at fromIs <;> omega
  have place : number * pageSize ≤ readFrom ∧ ph.vaddr + bias ≤ readFrom ∧ readFrom - number * pageSize < pageSize := by
    unfold segFirst pageSize at *
    omega
  generalize toIs : (if (ph.vaddr + bias + ph.filesz + (pageSize - 1)) / pageSize * pageSize < segEnd bias ph * pageSize then
    (ph.vaddr + bias + ph.filesz + (pageSize - 1)) / pageSize * pageSize else segEnd bias ph * pageSize) = readTo
  have stop : readTo ≤ (ph.vaddr + bias + ph.filesz + (pageSize - 1)) / pageSize * pageSize := by
    split_ifs at toIs <;> omega
  refine .ite (fun some => ?_) fun _ => .pure _
  have skipped : readFrom - (ph.vaddr + bias) ≤ ph.filesz := by
    unfold pageSize at *
    omega
  refine (Computes.sub place.2.1).bind ((Computes.sub skipped).bind ((Computes.narrow (by omega)).bind ?_))
  refine (Computes.sub place.1).bind ((Computes.sub place.2.2.le).bind ?_)
  rw [mod_eq_of_lt (show ph.filesz - (readFrom - (ph.vaddr + bias)) < 2 ^ 32 by omega)]
  generalize wantIs : min (ph.filesz - (readFrom - (ph.vaddr + bias))) (pageSize - (readFrom - number * pageSize)) = want
  by_cases nothing : want = 0
  · rw [if_pos nothing, nothing]
    exact .pure _
  · rw [if_neg nothing]
    have filled := inFile (by omega)
    refine (Computes.add (by omega)).bind ((Computes.narrow (by omega)).bind ?_)
    exact (Computes.range (by omega)).bind ((Computes.range (by omega)).bind (.pure _))

theorem regionBounds64_safe {npages i : Nat} (inside : i ≤ npages) (low : lo + npages * pageSize < 2 ^ 64) :
    Safe (regionBounds64 lo npages i) := by
  have most : i * pageSize ≤ npages * pageSize := Nat.mul_le_mul_right _ inside
  refine (@Computes.andThen (i < npages) True _ _ _ fun below => ?_).bind ?_
  · exact (Computes.access below).bind (.pure true)
  · exact (Computes.mul (by omega)).bind ((Computes.add (by omega)).bind (.pure ()))

theorem auxVector64_safe (sized : file.size < 2 ^ 32) (ok : HeaderOk file header) (moderate : ∀ ph ∈ segs, Moderate file bias ph)
    (entry : header.entry + bias < 2 ^ 64) : Safe (auxVector64 header segs bias) := by
  have most : userMax = 2 ^ 47 := by decide
  have table := ok.table
  refine (Computes.mul (by omega)).bind ((Computes.add (by omega)).bind ?_)
  have found : ∀ ph ∈ segs, Computes (auxPhdr64 header bias (header.phoff + header.phnum * header.phentsize) ph)
      (if ph.offset ≤ header.phoff ∧ header.phoff + header.phnum * header.phentsize ≤ ph.offset + ph.filesz then
        some (ph.vaddr + bias + (header.phoff - ph.offset)) else none) := by
    intro ph member
    obtain ⟨-, -, inFile, offset, high, -⟩ := moderate ph member
    have last : ph.offset + ph.filesz < 2 ^ 64 := by
      by_cases filled : ph.filesz = 0
      · omega
      · have inside := inFile filled
        omega
    refine (Computes.add last).bind (.ite (fun covers => ?_) fun _ => .pure none)
    exact (Computes.add (by omega)).bind ((Computes.sub covers.1).bind ((Computes.add (by omega)).bind (.pure _)))
  exact (Computes.first found).bind ((Computes.add entry).bind (.pure ()))

theorem elfFill64_safe (sized : file.size < 2 ^ 32) (ok : HeaderOk file header) (moderate : ∀ ph ∈ segs, Moderate file bias ph)
    (entry : header.entry + bias < 2 ^ 64) (bounds : ∀ ph ∈ segs, lo ≤ segFirst bias ph * pageSize ∧ segEnd bias ph * pageSize ≤ hi)
    (order : lo ≤ hi) (low : hi < 2 ^ 64) : Safe (elfFill64 file header segs bias lo hi) := by
  refine (Computes.sub order).bind (.either (fun _ => .pure ()) fun _ => ?_)
  refine (Computes.each fun ph member => eachPage64_safe (moderate ph member) fun number touches => ?_).bind ?_
  · exact pageIndex64_safe (bounds ph member).1 (bounds ph member).2 touches
  refine (Computes.each fun ph member => eachPage64_safe (moderate ph member) fun number touches => ?_).bind ?_
  · refine (pageIndex64_safe (bounds ph member).1 (bounds ph member).2 touches).bind ?_
    exact (readPlan64_computes sized (moderate ph member) touches).bind (.pure ())
  refine (Computes.each fun i member => regionBounds64_safe ?_ ?_).bind (auxVector64_safe sized ok moderate entry)
  · exact le_of_lt_succ (mem_range.mp member)
  · have whole : (hi - lo) / pageSize * pageSize ≤ hi - lo := div_mul_le_self ..
    omega

theorem elfLoad64_safe (sized : file.size < 2 ^ 32) : Safe (elfLoad64 file oracle) := by
  have most : userMax = 2 ^ 47 := by decide
  refine (elfHeaders64_computes sized).bind ?_
  cases accepted : elfHeaders file oracle with
  | error failure => exact .pure ()
  | ok pair =>
    obtain ⟨header, phs⟩ := pair
    have headers := elfHeaders_ok accepted
    have moderate : ∀ ph ∈ phs.filter Phdr.loads, Moderate file (loadBias header oracle) ph :=
      fun ph member => headers.moderate member
    refine loadBias64_computes.bind ((Computes.sub (by decide)).bind (.either (fun _ => .pure ()) fun _ => ?_))
    refine (bounds64_computes moderate _).bind (.either (fun _ => .pure ()) fun _ => ?_)
    obtain ⟨seg, member, -, -, inside⟩ := headers.entry
    have lower : ∀ ph ∈ phs.filter Phdr.loads, ((phs.filter Phdr.loads).map fun ph => segFirst (loadBias header oracle) ph * pageSize).foldl
        min (2 ^ 64 - 1) ≤ segFirst (loadBias header oracle) ph * pageSize := fun ph member =>
      foldl_min_le _ (mem_cons_of_mem _ (mem_map.mpr ⟨ph, member, rfl⟩))
    have upper : ∀ ph ∈ phs.filter Phdr.loads, segEnd (loadBias header oracle) ph * pageSize ≤
        ((phs.filter Phdr.loads).map fun ph => segEnd (loadBias header oracle) ph * pageSize).foldl max 0 := fun ph member =>
      le_foldl_max.2 _ (mem_map.mpr ⟨ph, member, rfl⟩)
    refine elfFill64_safe sized headers.table moderate ?_ (fun ph member => ⟨lower ph member, upper ph member⟩) ?_ ?_
    · have high := (moderate seg member).high
      omega
    · refine (lower seg member).trans ((Nat.mul_le_mul_right _ ?_).trans (upper seg member))
      unfold segFirst segEnd
      exact Nat.div_le_div_right (by omega)
    · refine foldl_max_lt (by decide) fun last member => ?_
      obtain ⟨ph, listed, rfl⟩ := mem_map.mp member
      have high := (moderate ph listed).high
      have whole := div_mul_le_self (ph.vaddr + loadBias header oracle + ph.memsz + (pageSize - 1)) pageSize
      unfold segEnd
      unfold pageSize at *
      omega

end Segments

end NyonOS.Elf
