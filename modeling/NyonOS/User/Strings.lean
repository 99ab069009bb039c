import NyonOS.Abi
import NyonOS.User.Copy

namespace NyonOS.User

open Abi List Nat
open Data

/-! Strings from user space. Byte `i` of a source is missing if its page is not mapped; every function stores
bytes one after the other from the start of its destination, and its second result lists them. -/

/-- `user_copy_str`, started with `copy_abort` clear. A fault makes `usermode_recover_copy` set it and step over the `lodsb`: the old
`al` is stored once more, and the loop ends. The first result is `copy_abort` afterwards. -/
def userCopyStr (source : Nat → Option Byte) : (rdx i : Nat) → (al : Byte) → Bool × List Byte
  | 0, _, _ => (false, [])
  | rdx + 1, i, al =>
    match source i with
    | none => (true, [al])
    | some byte =>
      if byte = 0#8 then (false, [byte])
      else
        let rest := userCopyStr source rdx (i + 1) byte
        (rest.1, byte :: rest.2)

/-- `strnlen` from byte `n` on; a fault in the kernel is a panic. -/
def strnlen (source : Nat → Option Byte) : (max n : Nat) → Option Nat
  | 0, n => some n
  | max + 1, n =>
    match source n with
    | none => none
    | some byte => if byte = 0#8 then some n else strnlen source max (n + 1)

/-- What `memcpy` copies. -/
def bytesOf (source : Nat → Option Byte) (n : Nat) : List Byte := (range n).map fun i => (source i).getD 0#8

/-- `copyinstr`. There is no result after a panic; `ring3` says whether there is a user task, `al` is what the register holds. -/
def copyinstr (ring3 : Bool) (dst src : Address) (source : Nat → Option Byte) (max : Nat) (al : Byte) : Option Bool × List Byte :=
  if dst = 0 ∨ src = 0 ∨ max = 0 then (some false, [])
  else if !ring3 then
    match strnlen source max 0 with
    | none => (none, [])
    | some i => (some true, bytesOf source i ++ [0#8])
  else if !userRangeOk src 1 then (some false, [])
  else
    let copied := userCopyStr source max 0 al
    (some !copied.1, copied.2)

def copyPath (inUser : Bool) (out up : Address) (source : Nat → Option Byte) (outMax : Nat) (al : Byte) : Option Int × List Byte :=
  if !inUser then
    match strnlen source outMax 0 with
    | none => (none, [])
    | some i =>
      match if i = outMax then source i else some 0#8 with
      | none => (none, [])
      | some next =>
        if next ≠ 0#8 then (some enametoolong, [])
        else (some (if i ≠ 0 then 0 else efault), bytesOf source i ++ [0#8])
  else
    let copied := copyinstr true out up source outMax al
    if copied.1 ≠ some true then (some efault, copied.2)
    else
      let n := (copied.2.take outMax).findIdx (· == 0#8)
      if n = outMax then (some enametoolong, copied.2)
      else (some (if copied.2.head? ≠ some 0#8 then 0 else efault), copied.2)

/-- The destination holds a string within its first `max` bytes, which is that of the source. -/
def Terminated (source : Nat → Option Byte) (max : Nat) (written : List Byte) : Prop :=
  ∃ n < max, written[n]? = some 0#8 ∧ ∀ i ≤ n, written[i]? = source i

/-- Nothing is written outside of the destination, and success means a string. -/
def CopySafe (source : Nat → Option Byte) (max : Nat) (result : Option Bool × List Byte) : Prop :=
  result.2.length ≤ max ∧ (result.1 = some true → Terminated source max result.2)

/-- The source ends before `max` bytes: with a NUL, or at a page that is not mapped. -/
def Stops (source : Nat → Option Byte) (max : Nat) : Prop := ∃ n < max, source n = none ∨ source n = some 0#8

section Loops

variable {source : Nat → Option Byte} {text : List Byte} {n i : Nat}

/-- Bytes in a row, none of them NUL. -/
def Reads (source : Nat → Option Byte) (i : Nat) (text : List Byte) : Prop :=
  ∀ k byte, text[k]? = some byte → source (i + k) = some byte ∧ byte ≠ 0#8

theorem Reads.nil : Reads source i [] := fun _ _ found => nomatch found

theorem Reads.cons {byte : Byte} (found : source i = some byte) (some_ : byte ≠ 0#8) (reads : Reads source (i + 1) text) :
    Reads source i (byte :: text) := fun k other at_ => by
  cases k with
  | zero =>
    cases at_
    exact ⟨found, some_⟩
  | succ k =>
    rw [← Nat.add_assoc, Nat.add_right_comm]
    exact reads k other at_

/-- How both loops end: after `max` bytes, at a page that is not mapped, or at a NUL. -/
theorem loops_end (source : Nat → Option Byte) (max i : Nat) : ∃ text, Reads source i text ∧
    ((text.length = max ∧ strnlen source max i = some (i + max) ∧ ∀ al, userCopyStr source max i al = (false, text)) ∨
      text.length < max ∧
        (source (i + text.length) = none ∧ strnlen source max i = none ∧ (∀ al, ∃ old, userCopyStr source max i al = (true, text ++ [old])) ∨
          source (i + text.length) = some 0#8 ∧ strnlen source max i = some (i + text.length) ∧
            ∀ al, userCopyStr source max i al = (false, text ++ [0#8]))) := by
  induction max generalizing i with
  | zero => exact ⟨[], .nil, .inl ⟨rfl, rfl, fun _ => rfl⟩⟩
  | succ max ih =>
    cases found : source i with
    | none => exact ⟨[], .nil, .inr ⟨succ_pos _, .inl ⟨found, by simp [strnlen, found], fun al => ⟨al, by simp [userCopyStr, found]⟩⟩⟩⟩
    | some byte =>
      by_cases zero : byte = 0#8
      · subst zero
        exact ⟨[], .nil, .inr ⟨succ_pos _, .inr ⟨found, by simp [strnlen, found], fun al => by simp [userCopyStr, found]⟩⟩⟩
      · have length : strnlen source (max + 1) i = strnlen source max (i + 1) := by
          simp [strnlen, found, zero]
        have copy : ∀ al, userCopyStr source (max + 1) i al =
            ((userCopyStr source max (i + 1) byte).1, byte :: (userCopyStr source max (i + 1) byte).2) := fun al => by
          simp [userCopyStr, found, zero]
        obtain ⟨text, reads, rest⟩ := ih (i + 1)
        refine ⟨byte :: text, .cons found zero reads, ?_⟩
        simp only [length, copy, length_cons, ← Nat.add_assoc, Nat.add_right_comm i _ 1]
        rcases rest with ⟨same, all, copied⟩ | ⟨less, ⟨none_, panics, copied⟩ | ⟨nul, short, copied⟩⟩
        · exact .inl ⟨congrArg (· + 1) same, all, fun _ => by rw [copied]⟩
        · obtain ⟨old, copied⟩ := copied byte
          exact .inr ⟨succ_lt_succ less, .inl ⟨none_, panics, fun _ => ⟨old, by rw [copied]; rfl⟩⟩⟩
        · exact .inr ⟨succ_lt_succ less, .inr ⟨nul, short, fun _ => by rw [copied]; rfl⟩⟩

theorem bytesOf_text (reads : Reads source 0 text) : bytesOf source text.length = text := by
  refine ext_getElem (by simp [bytesOf]) fun k _ inside => ?_
  have found := (reads k _ (getElem?_eq_getElem inside)).1
  rw [Nat.zero_add] at found
  simp [bytesOf, found]

theorem Reads.not_stops (reads : Reads source 0 text) : ¬ Stops source text.length := by
  rintro ⟨n, inside, stops⟩
  obtain ⟨found, some_⟩ := reads n _ (getElem?_eq_getElem inside)
  rw [Nat.zero_add] at found
  rcases stops with none_ | zero
  · cases none_.symm.trans found
  · exact some_ (Option.some.inj (found.symm.trans zero))

theorem Reads.terminated (reads : Reads source 0 text) (zero : source text.length = some 0#8) (inside : text.length < n) :
    Terminated source n (text ++ [0#8]) := by
  refine ⟨text.length, inside, getElem?_concat_length, fun i before => ?_⟩
  rcases Nat.lt_or_eq_of_le before with less | rfl
  · rw [getElem?_append_left less, getElem?_eq_getElem less]
    have found := (reads i _ (getElem?_eq_getElem less)).1
    rw [Nat.zero_add] at found
    exact found.symm
  · rw [getElem?_concat_length, zero]

end Loops

/-- The calls for which `copyinstr` is safe. -/
def CopyFits (ring3 : Bool) (dst src : Address) (source : Nat → Option Byte) (max : Nat) : Prop :=
  dst = 0 ∨ src = 0 ∨ max = 0 ∨ (ring3 = true ∧ userRangeOk src 1 = false) ∨ Stops source max

section Copies

variable {dst src : Address} {source : Nat → Option Byte} {max : Nat} {al : Byte}

theorem copySafe_kernel : CopySafe source max (match strnlen source max 0 with
    | none => (none, [])
    | some i => (some true, bytesOf source i ++ [0#8])) ↔ Stops source max := by
  obtain ⟨text, reads, ⟨rfl, all, -⟩ | ⟨inside, ⟨none_, panics, -⟩ | ⟨zero, short, -⟩⟩⟩ := loops_end source max 0
  · rw [all, Nat.zero_add]
    dsimp only
    rw [bytesOf_text reads]
    refine iff_of_false (fun safe => ?_) reads.not_stops
    have long := safe.1
    rw [length_append, length_singleton] at long
    omega
  · rw [panics]
    exact iff_of_true ⟨Nat.zero_le _, fun wrong => nomatch wrong⟩ ⟨_, inside, .inl (by rwa [Nat.zero_add] at none_)⟩
  · rw [Nat.zero_add] at zero short
    rw [short]
    dsimp only
    rw [bytesOf_text reads]
    refine iff_of_true ⟨?_, fun _ => reads.terminated zero inside⟩ ⟨_, inside, .inr zero⟩
    rw [length_append, length_singleton]
    exact inside

theorem copySafe_user : (userCopyStr source max 0 al).2.length ≤ max ∧
    (CopySafe source max (some !(userCopyStr source max 0 al).1, (userCopyStr source max 0 al).2) ↔ Stops source max) := by
  obtain ⟨text, reads, ⟨rfl, -, copied⟩ | ⟨inside, ⟨none_, -, copied⟩ | ⟨zero, -, copied⟩⟩⟩ := loops_end source max 0
  · rw [copied]
    refine ⟨Nat.le_refl _, iff_of_false (fun safe => ?_) reads.not_stops⟩
    obtain ⟨k, -, nul, -⟩ := safe.2 rfl
    exact (reads k _ nul).2 rfl
  · obtain ⟨old, copied⟩ := copied al
    have fits : (text ++ [old]).length ≤ max := by
      rw [length_append, length_singleton]
      exact inside
    rw [copied]
    exact ⟨fits, iff_of_true ⟨fits, fun wrong => nomatch wrong⟩ ⟨_, inside, .inl (by rwa [Nat.zero_add] at none_)⟩⟩
  · rw [Nat.zero_add] at zero
    have fits : (text ++ [0#8]).length ≤ max := by
      rw [length_append, length_singleton]
      exact inside
    rw [copied]
    exact ⟨fits, iff_of_true ⟨fits, fun _ => reads.terminated zero inside⟩ ⟨_, inside, .inr zero⟩⟩

theorem copySafe_iff (ring3 : Bool) : CopySafe source max (copyinstr ring3 dst src source max al) ↔ CopyFits ring3 dst src source max := by
  unfold copyinstr CopyFits
  by_cases null : dst = 0 ∨ src = 0 ∨ max = 0
  · rw [if_pos null]
    exact iff_of_true ⟨Nat.zero_le _, fun wrong => nomatch wrong⟩ (by tauto)
  rw [if_neg null]
  cases ring3 with
  | false =>
    rw [if_pos (by decide), copySafe_kernel]
    simp only [Bool.false_eq_true, false_and, false_or]
    tauto
  | true =>
    rw [if_neg (by decide)]
    cases ok : userRangeOk src 1 with
    | false =>
      rw [if_pos (by decide)]
      exact iff_of_true ⟨Nat.zero_le _, fun wrong => nomatch wrong⟩ (.inr (.inr (.inr (.inl ⟨rfl, rfl⟩))))
    | true =>
      rw [if_neg (by decide)]
      refine copySafe_user.2.trans ?_
      simp only [Bool.true_eq_false, and_false, false_or]
      tauto

theorem copyinstr_user_length : (copyinstr true dst src source max al).2.length ≤ max := by
  unfold copyinstr
  split_ifs
  · exact Nat.zero_le _
  · contradiction
  · exact Nat.zero_le _
  · exact copySafe_user.1

theorem copyPath_kernel_iff : (copyPath false dst src source max al).2.length ≤ max ↔ Stops source max ∨ source max ≠ some 0#8 := by
  unfold copyPath
  rw [if_pos (by decide)]
  obtain ⟨text, reads, ⟨rfl, all, -⟩ | ⟨inside, ⟨none_, panics, -⟩ | ⟨zero, short, -⟩⟩⟩ := loops_end source max 0
  · rw [all, Nat.zero_add]
    dsimp only
    rw [if_pos rfl, bytesOf_text reads]
    cases next : source text.length with
    | none => exact iff_of_true (Nat.zero_le _) (.inr (fun wrong => nomatch wrong))
    | some byte =>
      dsimp only
      by_cases nul : byte = 0#8
      · subst nul
        rw [if_neg (fun wrong => wrong rfl)]
        refine iff_of_false ?_ (not_or.mpr ⟨reads.not_stops, fun wrong => wrong rfl⟩)
        rw [length_append, length_singleton]
        omega
      · rw [if_pos nul]
        exact iff_of_true (Nat.zero_le _) (.inr fun same => nul (Option.some.inj same))
  · rw [panics]
    exact iff_of_true (Nat.zero_le _) (.inl ⟨_, inside, .inl (by rwa [Nat.zero_add] at none_)⟩)
  · rw [Nat.zero_add] at zero short
    rw [short]
    dsimp only
    rw [if_neg (Nat.ne_of_lt inside)]
    dsimp only
    rw [if_neg (fun wrong => wrong rfl), bytesOf_text reads]
    refine iff_of_true ?_ (.inl ⟨_, inside, .inr zero⟩)
    rw [length_append, length_singleton]
    exact inside

end Copies

/-- A path of 512 bytes. -/
def longPath (i : Nat) : Option Byte := if i < 512 then some 0x61#8 else some 0#8

end NyonOS.User
