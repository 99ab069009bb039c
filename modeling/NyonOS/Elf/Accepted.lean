import NyonOS.Elf.Header

namespace NyonOS.Elf

open List

/-! What is known of a file whose headers have been accepted. -/

theorem passed_ok {ε α : Type} {failed : Prop} [Decidable failed] {code : ε} {rest : Except ε α} {value : α}
    (accepted : (if failed then .error code else rest) = .ok value) : ¬failed ∧ rest = .ok value := by
  split at accepted
  · cases accepted
  · exact ⟨by assumption, accepted⟩

theorem passed_none {ε : Type} {failed : Prop} [Decidable failed] {code : ε} {rest : Option ε}
    (accepted : (if failed then some code else rest) = none) : ¬failed ∧ rest = none := by
  split at accepted
  · cases accepted
  · exact ⟨by assumption, accepted⟩

variable {file : File} {oracle : Oracle} {header : Header} {ph : List Phdr} {seg : Phdr}

structure HeaderOk (file : File) (header : Header) : Prop where
  phentsize : phdrSize ≤ header.phentsize
  phnum : header.phnum ≤ elfMaxPhnum
  table : header.phoff + header.phnum * header.phentsize ≤ file.size

theorem elfValidateHdr_ok (accepted : elfValidateHdr file = .ok header) : HeaderOk file header := by
  unfold elfValidateHdr at accepted
  obtain ⟨-, accepted⟩ := passed_ok accepted
  obtain ⟨-, accepted⟩ := passed_ok accepted
  obtain ⟨-, accepted⟩ := passed_ok accepted
  obtain ⟨-, accepted⟩ := passed_ok accepted
  obtain ⟨-, accepted⟩ := passed_ok accepted
  obtain ⟨-, accepted⟩ := passed_ok accepted
  obtain ⟨-, accepted⟩ := passed_ok accepted
  obtain ⟨phentsize, accepted⟩ := passed_ok accepted
  obtain ⟨-, accepted⟩ := passed_ok accepted
  obtain ⟨phnum, accepted⟩ := passed_ok accepted
  obtain ⟨table, accepted⟩ := passed_ok accepted
  cases accepted
  refine ⟨Nat.not_lt.mp phentsize, Nat.not_lt.mp phnum, ?_⟩
  dsimp only
  omega

structure HeadersOk (file : File) (header : Header) (ph : List Phdr) : Prop where
  size : ehdrSize ≤ file.size
  table : HeaderOk file header
  checked : ∀ seg ∈ ph, phdrError file.size header.isPie seg = none
  total : ((ph.filter Phdr.loads).map fun seg => (seg.memsz + 4095) / 4096).sum * 4096 ≤ elfMaxImage
  entry : ∃ seg ∈ ph.filter Phdr.loads, seg.executable = true ∧ seg.vaddr ≤ header.entry ∧ header.entry < seg.vaddr + seg.memsz
  ranges : ∀ seg ∈ ph.filter Phdr.loads, rangeError header.isPie seg = none
  read : ph = (List.range header.phnum).map fun i => phdrRead file (header.phoff + i * header.phentsize)

theorem phdrError_ne_zero {size : Nat} {isPie : Bool} {code : Int} (error : phdrError size isPie seg = some code) : code ≠ 0 := by
  have step : ∀ {failed : Prop} [Decidable failed] {this : Int} {rest : Option Int},
      (if failed then some this else rest) = some code → this ≠ 0 → (rest = some code → code ≠ 0) → code ≠ 0 := by
    intro failed _ this rest found nonzero otherwise
    split at found
    · cases found
      exact nonzero
    · exact otherwise found
  unfold phdrError at error
  refine step error (by decide) fun error => ?_
  split at error
  · cases error
  refine step error (by decide) fun error => ?_
  split at error
  · cases error
  refine step error (by decide) fun error => step error (by decide) fun error => step error (by decide) fun error =>
    step error (by decide) fun error => step error (by decide) fun error => step error (by decide) fun error =>
    step error (by decide) fun error => step error (by decide) fun error => ?_
  cases error

theorem elfValidatePhdrs_ok {size entry : Nat} {isPie : Bool} (accepted : elfValidatePhdrs ph size isPie entry = 0) :
    (∀ seg ∈ ph, phdrError size isPie seg = none) ∧
      ((ph.filter Phdr.loads).map fun seg => (seg.memsz + 4095) / 4096).sum * 4096 ≤ elfMaxImage ∧
      ∃ seg ∈ ph.filter Phdr.loads, seg.executable = true ∧ seg.vaddr ≤ entry ∧ entry < seg.vaddr + seg.memsz := by
  unfold elfValidatePhdrs at accepted
  cases found : ph.findSome? (phdrError size isPie) with
  | some code =>
    rw [found] at accepted
    obtain ⟨seg, -, error⟩ := exists_of_findSome?_eq_some found
    dsimp only at accepted
    exact absurd accepted (phdrError_ne_zero error)
  | none =>
    rw [found] at accepted
    dsimp only at accepted
    split at accepted
    · cases accepted
    · rename_i small
      split at accepted
      · rename_i inside
        simp only [any_eq_true, Bool.and_eq_true, decide_eq_true_eq] at inside
        obtain ⟨seg, member, ⟨executable, lower⟩, upper⟩ := inside
        exact ⟨findSome?_eq_none_iff.mp found, Nat.not_lt.mp small, seg, member, executable, lower, upper⟩
      · cases accepted

theorem elfHeaders_ok (accepted : elfHeaders file oracle = .ok (header, ph)) : HeadersOk file header ph := by
  unfold elfHeaders at accepted
  split at accepted
  · cases accepted
  · rename_i size
    split at accepted
    · cases accepted
    · split at accepted
      · cases accepted
      · rename_i found validated
        split at accepted
        · cases accepted
        · split at accepted
          · cases accepted
          · dsimp only at accepted
            split at accepted
            · cases accepted
            · rename_i valid
              split at accepted
              · cases accepted
              · rename_i ranges
                cases accepted
                obtain ⟨checked, total, entry⟩ := elfValidatePhdrs_ok (not_not.mp valid)
                exact ⟨Nat.not_lt.mp size, elfValidateHdr_ok validated, checked, total, entry,
                  findSome?_eq_none_iff.mp ranges, rfl⟩

/-- A segment of an accepted file. -/
structure SegmentOk (file : File) (isPie : Bool) (seg : Phdr) : Prop where
  nonempty : 0 < seg.memsz
  fits : seg.filesz ≤ seg.memsz
  small : seg.memsz ≤ elfMaxImage
  inFile : seg.filesz ≠ 0 → seg.offset + seg.filesz ≤ file.size
  user : seg.vaddr + seg.memsz ≤ userMax
  span : isPie = true → seg.vaddr + seg.memsz ≤ vmLoadSpan
  fixed : isPie = false → vmExecMin ≤ seg.vaddr ∧ seg.vaddr + seg.memsz ≤ vmLoadLimit
  exclusive : ¬(seg.writable = true ∧ seg.executable = true)

/-- What the checks of a single program header leave. -/
structure PhdrOk (size : Nat) (seg : Phdr) : Prop where
  fits : seg.filesz ≤ seg.memsz
  inFile : seg.filesz ≠ 0 → seg.offset + seg.filesz ≤ size
  user : seg.vaddr + seg.memsz ≤ userMax
  exclusive : ¬(seg.writable = true ∧ seg.executable = true)

theorem phdrError_none {size : Nat} {isPie : Bool} (loads : seg.loads = true) (checked : phdrError size isPie seg = none) :
    PhdrOk size seg := by
  simp only [Phdr.loads, Bool.and_eq_true, beq_iff_eq, bne_iff_ne, ne_eq] at loads
  unfold phdrError at checked
  obtain ⟨-, checked⟩ := passed_none checked
  rw [if_neg (not_not.mpr loads.1)] at checked
  obtain ⟨fits, checked⟩ := passed_none checked
  rw [if_neg loads.2] at checked
  obtain ⟨outside, checked⟩ := passed_none checked
  obtain ⟨short, checked⟩ := passed_none checked
  obtain ⟨-, checked⟩ := passed_none checked
  obtain ⟨high, checked⟩ := passed_none checked
  obtain ⟨-, checked⟩ := passed_none checked
  obtain ⟨-, checked⟩ := passed_none checked
  obtain ⟨wx, -⟩ := passed_none checked
  refine ⟨Nat.not_lt.mp fits, fun filled => ?_, Nat.not_lt.mp high, wx⟩
  have inside : ¬size < seg.offset := fun beyond => outside ⟨filled, beyond⟩
  have long : ¬size - seg.offset < seg.filesz := fun beyond => short ⟨filled, beyond⟩
  omega

theorem HeadersOk.segment (headers : HeadersOk file header ph) (member : seg ∈ ph.filter Phdr.loads) :
    SegmentOk file header.isPie seg := by
  obtain ⟨listed, loads⟩ := mem_filter.mp member
  obtain ⟨fits, inFile, user, exclusive⟩ := phdrError_none loads (headers.checked seg listed)
  have range := headers.ranges seg member
  have share : (seg.memsz + 4095) / 4096 ≤ ((ph.filter Phdr.loads).map fun seg => (seg.memsz + 4095) / 4096).sum :=
    le_sum_of_mem (mem_map_of_mem member)
  have total := headers.total
  have nonempty : seg.memsz ≠ 0 := by
    simp only [Phdr.loads, Bool.and_eq_true, bne_iff_ne, ne_eq] at loads
    exact loads.2
  unfold rangeError at range
  refine ⟨Nat.pos_of_ne_zero nonempty, fits, by omega, inFile, user, fun isPie => ?_, fun isPie => ?_, exclusive⟩
  · rw [isPie, if_pos rfl] at range
    obtain ⟨within, -⟩ := passed_none range
    omega
  · rw [isPie, if_neg Bool.false_ne_true] at range
    obtain ⟨lower, range⟩ := passed_none range
    obtain ⟨upper, -⟩ := passed_none range
    omega

end NyonOS.Elf
