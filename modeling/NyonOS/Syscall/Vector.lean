import NyonOS.User.Strings

namespace NyonOS.Syscall

open Data List Nat Option
open User Function

/-! Argument vectors of `execve`. -/

/-- A pointer to a block of the heap. -/
abbrev Ptr := ℕ+

/-- What `exec_free_vec` frees before the array, if it finds the NULL in time. -/
def execFreeVec (vec : Nat → Option Ptr) : (fuel i : Nat) → Option (List Ptr)
  | 0, _ => none
  | fuel + 1, i =>
    match vec i with
    | none => some []
    | some p => (execFreeVec vec fuel (i + 1)).map (p :: ·)

/-- The loop over the bytes of a string, in the `left` bytes that there is room for. -/
def copyString (char : Nat → Option Byte) : (left i : Nat) → List Byte
  | 0, _ => []
  | left + 1, i =>
    match char i with
    | none => []
    | some c => if c = 0#8 then [] else c :: copyString char left (i + 1)

/-- How `exec_copy_vec` ends: with an array, its words, and the strings behind them; or with NULL, when it has called `exec_free_vec`,
or has allocated nothing. -/
inductive VecResult
  | vector (array : Ptr) (vec : Nat → Option Ptr) (strings : List (Ptr × List Byte))
  | freed (array : Ptr) (vec : Nat → Option Ptr) (strings : List (Ptr × List Byte))
  | nothing

/-- The user's memory, as far as it can be read: the entries of the vector, of which 0 is the last, and the bytes at an address; the
result of each `kmalloc`; and what is in the array before anything is stored. -/
structure VecInput where
  word : Nat → Option Nat
  char : Nat → Nat → Option Byte
  kmalloc : Nat → Option Ptr
  fresh : Nat → Option Ptr

/-- The loop over the entries, `left` entries before the last one that fits. -/
def copyEntries (input : VecInput) (array : Ptr) : (left n : Nat) → (Nat → Option Ptr) → List (Ptr × List Byte) → VecResult
  | 0, n, out, strings =>
    match input.word n with
    | some 0 => .vector array (update out n none) strings
    | _ => .freed array out strings
  | left + 1, n, out, strings =>
    match input.word n with
    | none => .freed array out strings
    | some up =>
      if up = 0 then .vector array (update out n none) strings
      else if (input.char up 0).isNone then .freed array out strings
      else
        match input.kmalloc (n + 1) with
        | none => .freed array out strings
        | some s =>
          copyEntries input array left (n + 1) (update out n (some s)) (strings ++ [(s, copyString (input.char up) 511 0)])

def execCopyVec (nullVec : Bool) (input : VecInput) : VecResult :=
  match input.kmalloc 0 with
  | none => .nothing
  | some array => if nullVec then .vector array (update input.fresh 0 none) [] else copyEntries input array 256 0 input.fresh []

/-- The text is a string of the user, up to its first 511 bytes. -/
def Truncated (char : Nat → Option Byte) (text : List Byte) : Prop :=
  Reads char 0 text ∧ (text.length = 511 ∨ text.length < 511 ∧ char text.length = some 0#8)

/-- An array that ends with NULL and has at most 256 strings of the user; or what was allocated has been freed, and nothing else. -/
def VecResult.Exact (input : VecInput) : VecResult → Prop
  | .vector _ vec strings => strings.length ≤ 256 ∧ (∀ k ≤ strings.length, vec k = (strings.map Prod.fst)[k]?) ∧
      ∀ k s, strings[k]? = some s → ∃ up, input.word k = some up ∧ Truncated (input.char up) s.2
  | .freed array vec strings => ∃ fuel blocks, execFreeVec vec fuel 0 = some blocks ∧ (blocks ++ [array]).Perm (array :: strings.map Prod.fst)
  | .nothing => True

/-- An entry that is copied. -/
def VecInput.Copied (input : VecInput) (k : Nat) : Prop :=
  ∃ up, input.word k = some up ∧ up ≠ 0 ∧ (input.char up 0).isSome ∧ (input.kmalloc (k + 1)).isSome

/-- There is no unmapped page before the end of the string, in its first 511 bytes. -/
def Readable (char : Nat → Option Byte) : Prop := ∀ k < 511, char k = none → ∃ j < k, char j = some 0#8

/-- At the end of the vector all strings can be read; where the copying fails, the array happens to hold NULL. -/
def VecInput.EndsWell (input : VecInput) (n : Nat) : Prop :=
  (input.word n = some 0 → ∀ k < n, ∀ up, input.word k = some up → Readable (input.char up)) ∧
    (input.word n ≠ some 0 → n = 256 ∨ ¬ input.Copied n → input.fresh n = none)

section Strings

variable {char : Nat → Option Byte}

theorem copyString_reads (left i : Nat) : Reads char i (copyString char left i) ∧ ((copyString char left i).length = left ∨
    (copyString char left i).length < left ∧
      (char (i + (copyString char left i).length) = none ∨ char (i + (copyString char left i).length) = some 0#8)) := by
  induction left generalizing i with
  | zero => exact ⟨.nil, .inl rfl⟩
  | succ left ih =>
    rw [copyString]
    cases found : char i with
    | none => exact ⟨.nil, .inr ⟨succ_pos _, .inl found⟩⟩
    | some c =>
      dsimp only
      by_cases zero : c = 0#8
      · rw [if_pos zero]
        exact ⟨.nil, .inr ⟨succ_pos _, .inr (zero ▸ found)⟩⟩
      · obtain ⟨reads, ends⟩ := ih (i + 1)
        rw [if_neg zero]
        refine ⟨.cons found zero reads, ?_⟩
        rcases ends with all | ⟨short, last⟩
        · exact .inl (congrArg (· + 1) all)
        · rw [Nat.add_assoc, Nat.add_comm 1] at last
          exact .inr ⟨succ_lt_succ short, last⟩

theorem truncated_iff : Truncated char (copyString char 511 0) ↔ Readable char := by
  obtain ⟨reads, ends⟩ := @copyString_reads char 511 0
  simp only [Nat.zero_add] at ends
  generalize copyString char 511 0 = text at reads ends
  have inside : ∀ k < text.length, ∃ byte, char k = some byte ∧ byte ≠ 0#8 := fun k less => by
    have := reads k _ (getElem?_eq_getElem less)
    rw [Nat.zero_add] at this
    exact ⟨_, this⟩
  refine ⟨fun ⟨_, whole⟩ k bound none_ => ?_, fun readable => ⟨reads, ends.imp_right fun ⟨short, last⟩ => ⟨short, ?_⟩⟩⟩
  · have after : ¬ k < text.length := fun less => by
      obtain ⟨byte, found, -⟩ := inside k less
      cases none_.symm.trans found
    rcases whole with all | ⟨short, zero⟩
    · omega
    · refine ⟨text.length, Nat.lt_of_le_of_ne (Nat.not_lt.mp after) fun same => ?_, zero⟩
      rw [same, none_] at zero
      cases zero
  · refine last.resolve_left fun none_ => ?_
    obtain ⟨j, before, zero⟩ := readable _ short none_
    obtain ⟨byte, found, some_⟩ := inside j before
    exact some_ (Option.some.inj (found.symm.trans zero))

end Strings

section Freeing

variable {vec : Nat → Option Ptr}

theorem execFreeVec_stops {fuel i : Nat} {blocks : List Ptr} (freed : execFreeVec vec fuel i = some blocks) : vec (i + blocks.length) = none := by
  induction fuel generalizing i blocks with
  | zero => cases freed
  | succ fuel ih =>
    rw [execFreeVec] at freed
    cases here : vec i with
    | none =>
      rw [here] at freed
      cases freed
      exact here
    | some p =>
      rw [here] at freed
      obtain ⟨rest, tail, rfl⟩ := map_eq_some_iff.mp freed
      have := ih tail
      rwa [Nat.add_assoc, Nat.add_comm 1] at this

theorem execFreeVec_all {blocks : List Ptr} {i : Nat} (holds : ∀ k ≤ blocks.length, vec (i + k) = blocks[k]?) :
    execFreeVec vec (blocks.length + 1) i = some blocks := by
  induction blocks generalizing i with
  | nil =>
    have := holds 0 (Nat.le_refl 0)
    rw [execFreeVec, show vec i = none from this]
  | cons p rest ih =>
    have tail := @ih (i + 1) fun k inside => by
      rw [Nat.add_assoc, Nat.add_comm 1]
      exact holds (k + 1) (succ_le_succ inside)
    rw [execFreeVec, show vec i = some p from holds 0 (Nat.zero_le _)]
    dsimp only
    rw [length_cons, tail]
    rfl

end Freeing

/-- The array after `n` entries. -/
structure Filled (input : VecInput) (n : Nat) (out : Nat → Option Ptr) (strings : List (Ptr × List Byte)) : Prop where
  length : strings.length = n
  stored : ∀ k < n, out k = (strings.map Prod.fst)[k]?
  fresh : ∀ k ≥ n, out k = input.fresh k
  texts : ∀ k s, strings[k]? = some s → ∃ up, input.word k = some up ∧ s.2 = copyString (input.char up) 511 0
  copied : ∀ k < n, input.Copied k

namespace Filled

variable {input : VecInput} {n left : Nat} {out : Nat → Option Ptr} {strings : List (Ptr × List Byte)} {array : Ptr}

section

variable (filled : Filled input n out strings)
include filled

theorem freed_iff : (VecResult.freed array out strings).Exact input ↔ input.fresh n = none := by
  have length : (strings.map Prod.fst).length = n := by rw [length_map, filled.length]
  constructor
  · rintro ⟨fuel, blocks, freed, same⟩
    have stops := execFreeVec_stops freed
    have lengths := same.length_eq
    rw [length_append, length_singleton, length_cons, length] at lengths
    rw [Nat.zero_add, Nat.succ.inj lengths, filled.fresh n (Nat.le_refl n)] at stops
    exact stops
  · intro ends
    refine ⟨_, _, @execFreeVec_all out (strings.map Prod.fst) 0 fun k inside => ?_, perm_append_comm⟩
    rw [Nat.zero_add]
    rcases Nat.lt_or_eq_of_le (length ▸ inside) with less | rfl
    · exact filled.stored k less
    · rw [filled.fresh k (Nat.le_refl k), ends, getElem?_eq_none (Nat.le_of_eq length)]

theorem vector_iff (most : n ≤ 256) : (VecResult.vector array (update out n none) strings).Exact input ↔
      ∀ k < n, ∀ up, input.word k = some up → Readable (input.char up) := by
  have length : (strings.map Prod.fst).length = n := by rw [length_map, filled.length]
  constructor
  · rintro ⟨-, -, exact_⟩ k inside up word
    obtain ⟨s, found⟩ : ∃ s, strings[k]? = some s := ⟨_, getElem?_eq_getElem (filled.length.symm ▸ inside)⟩
    obtain ⟨up', word', truncated⟩ := exact_ k s found
    obtain ⟨up'', word'', text⟩ := filled.texts k s found
    cases word.symm.trans word'
    cases word.symm.trans word''
    rw [text] at truncated
    exact truncated_iff.mp truncated
  · intro readable
    refine ⟨filled.length.symm ▸ most, fun k inside => ?_, fun k s found => ?_⟩
    · rcases Nat.lt_or_eq_of_le (filled.length ▸ inside) with less | rfl
      · rw [update_of_ne (Nat.ne_of_lt less)]
        exact filled.stored k less
      · rw [update_self, getElem?_eq_none (Nat.le_of_eq length)]
    · obtain ⟨up, word, text⟩ := filled.texts k s found
      refine ⟨up, word, ?_⟩
      rw [text]
      exact truncated_iff.mpr (readable k (filled.length ▸ (List.getElem?_eq_some_iff.mp found).1) up word)

theorem next {up : Nat} {s : Ptr} (word : input.word n = some up) (copied : input.Copied n) :
    Filled input (n + 1) (update out n (some s)) (strings ++ [(s, copyString (input.char up) 511 0)]) := by
  have length : (strings.map Prod.fst).length = n := by rw [length_map, filled.length]
  refine ⟨by rw [length_append, filled.length]; rfl, fun k inside => ?_, fun k later => ?_, fun k t found => ?_, fun k inside => ?_⟩
  · rw [map_append]
    rcases Nat.lt_or_eq_of_le (le_of_lt_succ inside) with less | rfl
    · rw [update_of_ne (Nat.ne_of_lt less), getElem?_append_left (length.symm ▸ less)]
      exact filled.stored k less
    · rw [update_self, getElem?_append_right (Nat.le_of_eq length), length, Nat.sub_self]
      rfl
  · rw [update_of_ne (by omega)]
    exact filled.fresh k (by omega)
  · rcases Nat.lt_or_ge k n with less | more
    · rw [getElem?_append_left (filled.length.symm ▸ less)] at found
      exact filled.texts k t found
    · rw [getElem?_append_right (filled.length.symm ▸ more), filled.length, getElem?_singleton] at found
      split_ifs at found with last
      cases found
      exact ⟨up, (by omega : k = n) ▸ word, rfl⟩
  · rcases Nat.lt_or_eq_of_le (le_of_lt_succ inside) with less | rfl
    · exact filled.copied k less
    · exact copied

theorem stop_iff (most : n ≤ 256) (stops : n = 256 ∨ ¬ input.Copied n) :
    (∀ m ≥ n, m ≤ 256 → (∀ k < m, input.Copied k) → input.EndsWell m) ↔ input.EndsWell n := by
  refine ⟨fun all => all n (Nat.le_refl n) most filled.copied, fun here m later bound copied => ?_⟩
  rcases Nat.lt_or_eq_of_le later with more | rfl
  · rcases stops with last | not_
    · omega
    · exact absurd (copied n more) not_
  · exact here

theorem fail_iff (most : n ≤ 256) (fails : input.word n ≠ some 0) (stops : n = 256 ∨ ¬ input.Copied n) :
    (VecResult.freed array out strings).Exact input ↔ ∀ m ≥ n, m ≤ 256 → (∀ k < m, input.Copied k) → input.EndsWell m := by
  rw [filled.stop_iff most stops, filled.freed_iff]
  exact ⟨fun fresh => ⟨fun ends => absurd ends fails, fun _ _ => fresh⟩, fun well => well.2 fails stops⟩

theorem end_iff (most : n ≤ 256) (ends : input.word n = some 0) :
    (VecResult.vector array (update out n none) strings).Exact input ↔
      ∀ m ≥ n, m ≤ 256 → (∀ k < m, input.Copied k) → input.EndsWell m := by
  have stops : ¬ input.Copied n := fun ⟨up, word, some_, _⟩ => some_ (Option.some.inj (word.symm.trans ends))
  rw [filled.stop_iff most (.inr stops), filled.vector_iff most]
  exact ⟨fun readable => ⟨fun _ => readable, fun fails => absurd ends fails⟩, fun well => well.1 ends⟩

theorem copyEntries_iff (total : n + left = 256) :
    (copyEntries input array left n out strings).Exact input ↔ ∀ m ≥ n, m ≤ 256 → (∀ k < m, input.Copied k) → input.EndsWell m := by
  induction left generalizing n out strings with
  | zero =>
    rw [copyEntries]
    split
    · exact filled.end_iff (Nat.le_of_eq total) ‹_›
    · exact filled.fail_iff (Nat.le_of_eq total) ‹_› (.inl total)
  | succ left ih =>
    have most : n ≤ 256 := by omega
    rw [copyEntries]
    cases word : input.word n with
    | none =>
      refine filled.fail_iff most (by rw [word]; nofun) (.inr fun ⟨up, word', _⟩ => ?_)
      cases word.symm.trans word'
    | some up =>
      have same : ∀ {up'}, input.word n = some up' → up' = up := fun word' => Option.some.inj (word'.symm.trans word)
      dsimp only
      by_cases zero : up = 0
      · rw [if_pos zero]
        exact filled.end_iff most (zero ▸ word)
      have goes : input.word n ≠ some 0 := fun ends => zero (same ends).symm
      rw [if_neg zero]
      by_cases unreadable : (input.char up 0).isNone = true
      · rw [if_pos unreadable]
        refine filled.fail_iff most goes (.inr fun ⟨up', word', _, readable, _⟩ => ?_)
        rw [same word', isNone_iff_eq_none.mp unreadable] at readable
        cases readable
      rw [if_neg unreadable]
      cases allocated : input.kmalloc (n + 1) with
      | none =>
        refine filled.fail_iff most goes (.inr fun ⟨_, _, _, _, some_⟩ => ?_)
        rw [allocated] at some_
        cases some_
      | some s =>
        have copied : input.Copied n := ⟨up, word, zero, by simpa [isSome_iff_ne_none] using unreadable, by rw [allocated]; rfl⟩
        refine (ih (filled.next word copied) (by omega)).trans ⟨fun later m from_ bound before => ?_, fun all m from_ => all m (by omega)⟩
        rcases Nat.lt_or_eq_of_le from_ with more | rfl
        · exact later m more bound before
        · exact ⟨fun ends => absurd ends goes, fun _ stops => stops.elim (by omega) (absurd copied)⟩

end

end Filled

/-- The vector is copied, or released, exactly as it should be if and only if it ends well wherever its copying ends. -/
theorem execCopyVec_exact_iff (nullVec : Bool) (input : VecInput) : (execCopyVec nullVec input).Exact input ↔
    input.kmalloc 0 = none ∨ nullVec = true ∨ ∀ n ≤ 256, (∀ k < n, input.Copied k) → input.EndsWell n := by
  have start : Filled input 0 input.fresh [] := ⟨rfl, nofun, fun _ _ => rfl, nofun, nofun⟩
  unfold execCopyVec
  cases input.kmalloc 0 with
  | none => exact iff_of_true trivial (.inl rfl)
  | some array =>
    cases nullVec with
    | true => exact iff_of_true ((start.vector_iff (by decide)).mpr nofun) (.inr (.inl rfl))
    | false =>
      refine (start.copyEntries_iff rfl).trans ⟨fun all => .inr (.inr fun n => all n (Nat.zero_le n)), fun ends n _ => ?_⟩
      rcases ends with failed | null | all
      · cases failed
      · cases null
      · exact all n

/-- A vector whose first entry cannot be read, in an array that holds a pointer. -/
def unreadable : VecInput := ⟨fun _ => none, fun _ _ => none, fun _ => some 1, fun i => if i = 0 then some 7 else none⟩

/-- A vector of one string, of which the second byte cannot be read. -/
def halfString : VecInput :=
  ⟨fun i => if i = 0 then some 4096 else some 0, fun _ i => if i = 0 then some 0x61#8 else none, fun i => some (i.succPNat), fun _ => none⟩

/-- A pointer that was never allocated is freed; and a string is cut where it cannot be read. -/
theorem garbage_freed : execFreeVec unreadable.fresh 2 0 = some [7] ∧ ¬ (execCopyVec false unreadable).Exact unreadable ∧
    ¬ (execCopyVec false halfString).Exact halfString := by
  refine ⟨by decide, fun released => ?_, fun copied => ?_⟩
  · have start : Filled unreadable 0 unreadable.fresh [] := ⟨rfl, nofun, fun _ _ => rfl, nofun, nofun⟩
    exact absurd (start.freed_iff.mp (show (VecResult.freed 1 unreadable.fresh []).Exact unreadable from released)) (by decide)
  · obtain ⟨-, -, texts⟩ := show (VecResult.vector 1 _ [(2, [0x61#8])]).Exact halfString from copied
    obtain ⟨up, word, -, whole | ⟨-, zero⟩⟩ := texts 0 _ rfl
    · cases whole
    · cases zero

end NyonOS.Syscall
