import Mathlib

namespace NyonOS.Kprintf

open Function List

/-! Formatted output. A string is the list of the characters before its NUL. -/

structure FmtSink where
  buf : Nat → Char
  cap : Nat
  len : Nat

def sinkPutc (s : FmtSink) (c : Char) : FmtSink :=
  { s with buf := if s.len + 1 < s.cap then update s.buf s.len c else s.buf, len := s.len + 1 }

def digit (upper : Bool) (n : Nat) : Char := (if upper then "0123456789ABCDEF" else "0123456789abcdef").toList.getD n '0'

/-- The digits `put_unsigned` stores, the lowest first, in a buffer with room for `left` more. -/
def putDigits (base : Nat) (upper : Bool) : (left v : Nat) → List Char
  | 0, _ => []
  | left + 1, v => digit upper (v % base) :: if v / base = 0 then [] else putDigits base upper left (v / base)

/-- `put_unsigned`: the characters handed to `sink_putc`, in order. -/
def putUnsigned (v : BitVec 64) (base : Nat) (upper : Bool) (minDigits : Nat) (pad : Char) : List Char :=
  if v = 0 then ['0']
  else
    let buf := putDigits base upper 24 v.toNat
    (buf ++ List.replicate (min minDigits 24 - buf.length) pad).reverse

def putSigned (v : BitVec 64) (minDigits : Nat) (pad : Char) : List Char :=
  if v.toInt < 0 then '-' :: putUnsigned (-(v + 1) + 1) 10 false minDigits pad else putUnsigned v 10 false minDigits pad

/-- An argument slot: a word, or a pointer to a string. -/
inductive Arg
  | word (v : BitVec 64)
  | text (s : Option (List Char))

def vaWord : List Arg → Option (BitVec 64 × List Arg)
  | .word v :: args => some (v, args)
  | _ => none

def vaText : List Arg → Option (Option (List Char) × List Arg)
  | .text s :: args => some (s, args)
  | _ => none

def isDigit (c : Char) : Bool := '0' ≤ c && c ≤ '9'

section

variable (fmt : List Char)

def number : Nat × List Char :=
  ((fmt.takeWhile isDigit).foldl (fun n c => n * 10 + (c.toNat - 48)) 0, fmt.dropWhile isDigit)

def starPrecision (args : List Arg) : Option (Option Nat × List Char × List Arg) :=
  (vaWord args).map fun (v, args) => (if (v.setWidth 32).toInt < 0 then none else some (v.setWidth 32).toNat, fmt, args)

/-- `prec`, which is `none` for -1. -/
def precision (args : List Arg) : Option (Option Nat × List Char × List Arg) :=
  match fmt with
  | '*' :: fmt => starPrecision fmt args
  | '.' :: '*' :: fmt => starPrecision fmt args
  | '.' :: fmt => some (some (number fmt).1, (number fmt).2, args)
  | fmt => some (none, fmt, args)

def longness : Nat × List Char :=
  match fmt.dropWhile (· = 'l') with
  | 'z' :: fmt => (1, fmt)
  | rest => ((fmt.takeWhile (· = 'l')).length, rest)

end

def zeroPad : List Char → Bool × List Char
  | '0' :: fmt => (true, fmt)
  | fmt => (false, fmt)

def signedArg (longness : Nat) (v : BitVec 64) : BitVec 64 := if longness = 0 then (v.setWidth 32).signExtend 64 else v

def unsignedArg (longness : Nat) (v : BitVec 64) : BitVec 64 := if longness = 0 then (v.setWidth 32).setWidth 64 else v

/-- The `switch` of `kvformat`. -/
def convert (prec : Option Nat) (long : Nat) (zero : Bool) (width : Nat) (c : Char) (args : List Arg) : Option (List Char × List Arg) :=
  let minDigits := max (prec.getD 0) width
  let pad := if zero then '0' else ' '
  match c with
  | 'd' | 'i' => (vaWord args).map fun (v, args) => (putSigned (signedArg long v) minDigits pad, args)
  | 'u' => (vaWord args).map fun (v, args) => (putUnsigned (unsignedArg long v) 10 false minDigits pad, args)
  | 'x' | 'X' => (vaWord args).map fun (v, args) => (putUnsigned (unsignedArg long v) 16 (c = 'X') minDigits pad, args)
  | 'p' => (vaWord args).map fun (v, args) => ('0' :: 'x' :: putUnsigned v 16 false minDigits pad, args)
  | 's' => (vaText args).map fun (s, args) =>
    let str := s.getD "(null)".toList
    let str := str.take (prec.getD str.length)
    (List.replicate (width - str.length) ' ' ++ str, args)
  | 'c' => (vaWord args).map fun (v, args) => ([Char.ofNat (v.toNat % 256)], args)
  | '%' => some (['%'], args)
  | c => some (['%', c], args)

/-- One directive, after its `%`; none where the argument does not match, or the terminator would be stepped over. -/
def directive (fmt : List Char) (args : List Arg) : Option (List Char × List Char × List Arg) := do
  let (prec, fmt, args) ← precision fmt args
  let (long, fmt) := longness fmt
  let (zero, fmt) := zeroPad fmt
  match number fmt with
  | (_, []) => none
  | (width, c :: fmt) => (convert prec long zero width c args).map fun (out, args) => (out, fmt, args)

/-- `kvformat`: the characters handed to `sink_putc`. -/
def kvformat : (fuel : Nat) → (fmt : List Char) → List Arg → Option (List Char)
  | _, [], _ => some []
  | 0, _, _ => none
  | fuel + 1, c :: fmt, args =>
    if c ≠ '%' then (kvformat fuel fmt args).map (c :: ·)
    else if fmt = [] then some []
    else (directive fmt args).bind fun (out, fmt, args) => (kvformat fuel fmt args).map (out ++ ·)

def vsnprintf (buf : Nat → Char) (size : Nat) (fmt : List Char) (args : List Arg) : Option (Int × (Nat → Char)) :=
  (kvformat fmt.length fmt args).map fun out =>
    let s := out.foldl sinkPutc ⟨buf, size, 0⟩
    ((BitVec.ofNat 32 s.len).toInt,
      if size ≠ 0 then update s.buf (if s.len < size then s.len else size - 1) '\x00' else s.buf)

/-! Formats as they are written, and what each piece stands for. -/

inductive Length
  | none
  | l
  | ll
  | z
  deriving DecidableEq

def Length.chars : Length → List Char
  | .none => []
  | .l => ['l']
  | .ll => ['l', 'l']
  | .z => ['z']

abbrev Digits := List (Fin 10)

def Digits.chars (ds : Digits) : List Char := ds.map fun d : Fin 10 => digit false d.val

def Digits.value (ds : Digits) : Nat := ds.foldl (fun n (d : Fin 10) => n * 10 + d.val) 0

/-- What stands between the `%` and the letter; a width does not start with the zero flag. -/
structure Mods where
  zero : Bool
  width : Digits
  prec : Option Digits
  length : Length
  flag : ∀ d ∈ width.head?, d ≠ 0

def Mods.chars (m : Mods) : List Char :=
  (if m.zero then ['0'] else []) ++ m.width.chars ++ (match m.prec with | none => [] | some ds => '.' :: ds.chars) ++ m.length.chars

/-- Zero flag and width do not come together with precision and length. -/
def Mods.InOrder (m : Mods) : Prop := (m.zero = false ∧ m.width = []) ∨ (m.prec = none ∧ m.length = .none)

inductive Number
  | d | i | u | x | upperX | p
  deriving DecidableEq

def Number.letter : Number → Char
  | .d => 'd'
  | .i => 'i'
  | .u => 'u'
  | .x => 'x'
  | .upperX => 'X'
  | .p => 'p'

def Number.base : Number → Nat
  | .d | .i | .u => 10
  | _ => 16

/-- The number an argument stands for. -/
def Number.denoted (kind : Number) (length : Length) (v : BitVec 64) : Int :=
  match kind with
  | .d | .i => if length = .none then (v.setWidth 32).toInt else v.toInt
  | .p => v.toNat
  | _ => if length = .none then (v.setWidth 32).toNat else v.toNat

def Number.sign (kind : Number) (n : Int) : List Char := if n < 0 then ['-'] else if kind = .p then ['0', 'x'] else []

inductive Piece
  | plain (c : Char) (ordinary : c ≠ '%')
  | percent
  | number (mods : Mods) (kind : Number) (v : BitVec 64)
  | text (mods : Mods) (s : Option (List Char))
  | char (mods : Mods) (v : BitVec 64)

namespace Piece

def chars : Piece → List Char
  | plain c _ => [c]
  | percent => ['%', '%']
  | number mods kind _ => '%' :: mods.chars ++ [kind.letter]
  | text mods _ => '%' :: mods.chars ++ ['s']
  | char mods _ => '%' :: mods.chars ++ ['c']

def args : Piece → List Arg
  | number _ _ v | char _ v => [.word v]
  | text _ s => [.text s]
  | _ => []

def shown (mods : Mods) (s : Option (List Char)) : List Char :=
  (s.getD "(null)".toList).take ((mods.prec.map Digits.value).getD (s.getD "(null)".toList).length)

/-- A number is blanks, a sign and digits that denote it, and at least as long as the width. -/
def Yields (piece : Piece) (out : List Char) : Prop :=
  match piece with
  | plain c _ => out = [c]
  | percent => out = ['%']
  | number mods kind v => mods.width.value ≤ out.length ∧ ∃ blanks, ∃ ds : List Nat, ds ≠ [] ∧ (∀ d ∈ ds, d < kind.base) ∧
      Nat.ofDigits kind.base ds = (kind.denoted mods.length v).natAbs ∧
      out = List.replicate blanks ' ' ++ kind.sign (kind.denoted mods.length v) ++ (ds.map (digit (kind = .upperX))).reverse
  | text mods s => out = List.replicate (mods.width.value - (shown mods s).length) ' ' ++ shown mods s
  | char mods v => out = List.replicate (mods.width.value - 1) ' ' ++ [Char.ofNat (v.toNat % 256)]

/-- A number has at most 24 columns, and 0 no width; a sign is not followed by blanks. -/
def Plain (piece : Piece) : Prop :=
  match piece with
  | plain _ _ | percent => True
  | number mods kind v => mods.InOrder ∧ mods.width.value ≤ 24 ∧ (kind.denoted mods.length v = 0 → mods.width.value ≤ 1) ∧
      (kind.denoted mods.length v < 0 ∨ kind = .p → mods.zero = true ∨
        max ((mods.prec.map Digits.value).getD 0) mods.width.value ≤ (Nat.digits kind.base (kind.denoted mods.length v).natAbs).length)
  | text mods _ => mods.InOrder
  | char mods _ => mods.InOrder ∧ mods.width.value ≤ 1

def longest : Piece → Nat
  | number _ _ _ => 26
  | text mods s => max mods.width.value (shown mods s).length
  | _ => 1

end Piece

inductive Yield : List Piece → List Char → Prop
  | nil : Yield [] []
  | cons {piece : Piece} {pieces : List Piece} {out more : List Char} (first : piece.Yields out) (rest : Yield pieces more) :
      Yield (piece :: pieces) (out ++ more)

/-- The buffer holds as much of the text as there is room for, ended by a NUL, and nothing else changed. -/
structure Printed (before : Nat → Char) (size : Nat) (out : List Char) (after : Nat → Char) : Prop where
  outside : ∀ i, size ≤ i → after i = before i
  text : ∀ i c, i + 1 < size → out[i]? = some c → after i = c
  ended : size ≠ 0 → after (min out.length (size - 1)) = '\x00'

section

variable {s : FmtSink} {out : List Char} {base left n : Nat} {upper : Bool}

theorem foldl_sinkPutc : (out.foldl sinkPutc s).len = s.len + out.length ∧
    (∀ i, (i < s.len ∨ s.cap ≤ i + 1) → (out.foldl sinkPutc s).buf i = s.buf i) ∧
    ∀ i c, s.len + i + 1 < s.cap → out[i]? = some c → (out.foldl sinkPutc s).buf (s.len + i) = c := by
  induction out generalizing s with
  | nil => simp
  | cons c out ih =>
    obtain ⟨len, outside, inside⟩ := @ih (sinkPutc s c)
    refine ⟨by rw [List.foldl_cons, len]; simp [sinkPutc]; omega, fun i away => ?_, fun i c' room at_ => ?_⟩
    · rw [List.foldl_cons, outside i (by simp [sinkPutc]; omega)]
      by_cases room : s.len + 1 < s.cap
      · simp [sinkPutc, room, update_of_ne (show i ≠ s.len by omega)]
      · simp [sinkPutc, room]
    · cases i with
      | zero =>
        obtain rfl : c = c' := by simpa using at_
        rw [List.foldl_cons, outside _ (by simp [sinkPutc])]
        simp [sinkPutc, show s.len + 1 < s.cap by omega]
      | succ i =>
        have := inside i c' (by simp [sinkPutc]; omega) (by simpa using at_)
        rwa [List.foldl_cons, show s.len + (i + 1) = (sinkPutc s c).len + i by simp [sinkPutc]; omega]

theorem printed (buf : Nat → Char) (size : Nat) (out : List Char) : Printed buf size out
    (let s := out.foldl sinkPutc ⟨buf, size, 0⟩
      if size ≠ 0 then update s.buf (if s.len < size then s.len else size - 1) '\x00' else s.buf) := by
  obtain ⟨len, outside, inside⟩ := @foldl_sinkPutc ⟨buf, size, 0⟩ out
  have last : (if out.length < size then out.length else size - 1) = if size = 0 then size - 1 else min out.length (size - 1) := by
    split_ifs <;> omega
  by_cases none_ : size = 0
  · subst none_
    exact ⟨fun i _ => by simpa using outside i (.inr (by simp)), fun i c room => by omega, fun some_ => absurd rfl some_⟩
  · simp only [len, Nat.zero_add, last, if_neg none_, if_pos (show size ≠ 0 from none_)]
    refine ⟨fun i high => ?_, fun i c room at_ => ?_, fun _ => update_self ..⟩
    · rw [update_of_ne (by omega)]
      exact outside i (.inr (by simp; omega))
    · have bound := (List.getElem?_eq_some_iff.mp at_).1
      rw [update_of_ne (by omega)]
      simpa using inside i c (by simpa using room) at_

theorem putDigits_eq (two : 1 < base) (some_ : n ≠ 0) (fits : n < base ^ left) : putDigits base upper left n = (Nat.digits base n).map (digit upper) := by
  induction left generalizing n with
  | zero => simp at fits; omega
  | succ left ih =>
    rw [putDigits, Nat.digits_def' two (Nat.pos_of_ne_zero some_), map_cons]
    by_cases last : n / base = 0
    · simp [last]
    · rw [if_neg last, ih last (Nat.div_lt_of_lt_mul (by rwa [pow_succ'] at fits))]

theorem putUnsigned_eq {v : BitVec 64} {m : Nat} {pad : Char} (ten : 10 ≤ base) (some_ : v.toNat ≠ 0) :
    putUnsigned v base upper m pad = List.replicate (min m 24 - (Nat.digits base v.toNat).length) pad ++
      ((Nat.digits base v.toNat).map (digit upper)).reverse ∧ (Nat.digits base v.toNat).length ≤ 24 := by
  have fits : v.toNat < base ^ 24 := by
    have big : 10 ^ 24 ≤ base ^ 24 := Nat.pow_le_pow_left ten 24
    have := v.isLt
    omega
  have differ : v ≠ 0 := fun none_ => some_ (by simp [none_])
  refine ⟨?_, (Nat.digits_length_le_iff (by omega) _).mpr fits⟩
  rw [putUnsigned, if_neg differ, putDigits_eq (by omega) some_ fits]
  simp

end

/-- The number `put_unsigned` is called with. -/
def Number.word (kind : Number) (long : Nat) (v : BitVec 64) : BitVec 64 :=
  match kind with
  | .d | .i => if (signedArg long v).toInt < 0 then -(signedArg long v + 1) + 1 else signedArg long v
  | .p => v
  | _ => unsignedArg long v

def Length.long : Length → Nat
  | .none => 0
  | .l | .z => 1
  | .ll => 2

section

variable {kind : Number} {length : Length} {v : BitVec 64} {zero : Bool} {c : Char} {rest : List Char} {args : List Arg}

theorem toNat_magnitude (v : BitVec 64) : (if v.toInt < 0 then -(v + 1) + 1 else v).toNat = v.toInt.natAbs := by
  have same : -(v + 1) + 1 = -v := by ring
  rw [same]
  split
  · rw [BitVec.toInt_eq_toNat_cond] at *
    rw [BitVec.toNat_neg]
    have := v.isLt
    split at * <;> omega
  · rw [BitVec.toInt_eq_toNat_cond] at *
    split at * <;> omega

theorem signedArg_toInt : (signedArg length.long v).toInt = if length = .none then (v.setWidth 32).toInt else v.toInt := by
  cases length <;> simp [signedArg, Length.long, BitVec.toInt_signExtend_of_le]

theorem unsignedArg_toNat : (unsignedArg length.long v).toNat = if length = .none then (v.setWidth 32).toNat else v.toNat := by
  cases length <;> simp [unsignedArg, Length.long]
  omega

theorem word_toNat (kind : Number) (length : Length) (v : BitVec 64) :
    (kind.word length.long v).toNat = (kind.denoted length v).natAbs := by
  cases kind with
  | d | i => rw [Number.denoted, ← signedArg_toInt, Number.word, toNat_magnitude]
  | p => rfl
  | u | x | upperX =>
    simp only [Number.word, unsignedArg_toNat, Number.denoted]
    split <;> rfl

theorem convert_number (prec : Option Nat) (width : Nat) : convert prec length.long zero width kind.letter (.word v :: args) =
    some (kind.sign (kind.denoted length v) ++ putUnsigned (kind.word length.long v) kind.base (kind = .upperX) (max (prec.getD 0) width)
      (if zero then '0' else ' '), args) := by
  cases kind with
  | d | i =>
    simp only [convert, Number.letter, vaWord, Option.map_some, putSigned, Number.sign, Number.denoted, ← signedArg_toInt, Number.word, Number.base]
    split <;> simp
  | u | x | upperX | p =>
    rw [Number.sign, if_neg (by cases length <;> simp [Number.denoted] <;> omega)]
    rfl

theorem digit_zero (upper : Bool) : digit upper 0 = '0' := by cases upper <;> rfl

theorem ten_le_base (kind : Number) : 10 ≤ kind.base := by cases kind <;> decide

theorem sign_length (n : Int) : (kind.sign n).length ≤ 2 := by
  simp only [Number.sign]
  split_ifs <;> simp

theorem number_yields {mods : Mods} (plain : (Piece.number mods kind v).Plain) :
    let out := kind.sign (kind.denoted mods.length v) ++ putUnsigned (kind.word mods.length.long v) kind.base (kind = .upperX)
      (max ((mods.prec.map Digits.value).getD 0) mods.width.value) (if mods.zero then '0' else ' ')
    (Piece.number mods kind v).Yields out ∧ out.length ≤ 26 := by
  obtain ⟨-, narrow, zero, signed⟩ := plain
  have word := word_toNat kind mods.length v
  have ten := ten_le_base kind
  have short := @sign_length kind (kind.denoted mods.length v)
  simp only [Piece.Yields]
  generalize (mods.prec.map Digits.value).getD 0 = prec at *
  generalize kind.denoted mods.length v = n at *
  by_cases none_ : n = 0
  · subst none_
    have wordZero : kind.word mods.length.long v = 0 := BitVec.eq_of_toNat_eq (by simpa using word)
    simp only [wordZero, putUnsigned, if_true]
    refine ⟨⟨by simp; have := zero rfl; omega, 0, [0], by simp, by simp; omega, by simp, by simp [digit_zero]⟩, by simp; omega⟩
  · obtain ⟨eq, fits⟩ := @putUnsigned_eq _ (kind = .upperX) _ (max prec mods.width.value) (if mods.zero then '0' else ' ') ten
      (by rw [word]; omega : (kind.word mods.length.long v).toNat ≠ 0)
    rw [word] at eq fits
    have below : ∀ d ∈ Nat.digits kind.base n.natAbs, d < kind.base := fun d mem => Nat.digits_lt_base (by omega) mem
    have nonempty : Nat.digits kind.base n.natAbs ≠ [] := Nat.digits_ne_nil_iff_ne_zero.mpr (by omega)
    simp only [eq]
    generalize hds : Nat.digits kind.base n.natAbs = ds at *
    have value : Nat.ofDigits kind.base ds = n.natAbs := by rw [← hds, Nat.ofDigits_digits]
    refine ⟨⟨by simp; omega, ?_⟩, by simp; omega⟩
    cases flag : mods.zero with
    | true =>
      refine ⟨0, ds ++ List.replicate (min (max prec mods.width.value) 24 - ds.length) 0, by simp [nonempty], ?_, ?_, ?_⟩
      · intro d mem
        rcases mem_append.mp mem with mem | mem
        · exact below d mem
        · rw [eq_of_mem_replicate mem]
          omega
      · rw [Nat.ofDigits_append_replicate_zero, value]
      · simp [digit_zero]
    | false =>
      by_cases bare : n < 0 ∨ kind = .p
      · have full : max prec mods.width.value ≤ ds.length := by simpa [flag] using signed bare
        refine ⟨0, ds, nonempty, below, value, ?_⟩
        simp [show min (max prec mods.width.value) 24 - ds.length = 0 by omega]
      · have unsigned : kind.sign n = [] := by
          rw [not_or] at bare
          rw [Number.sign, if_neg bare.1, if_neg bare.2]
        exact ⟨min (max prec mods.width.value) 24 - ds.length, ds, nonempty, below, value, by simp [unsigned]⟩

/-- A conversion letter is none of the characters that modify a conversion. -/
def Letter (c : Char) : Prop := isDigit c = false ∧ c ≠ 'l' ∧ c ≠ 'z' ∧ c ≠ '*' ∧ c ≠ '.'

theorem letter_letter (kind : Number) : Letter kind.letter := by
  cases kind <;> simp [Letter, Number.letter] <;> decide

theorem number_chars (ds : Digits) (stop : isDigit c = false) : number (ds.chars ++ c :: rest) = (ds.value, c :: rest) := by
  have all : ∀ c ∈ ds.chars, isDigit c = true := by
    intro c mem
    obtain ⟨d, -, rfl⟩ := mem_map.mp mem
    exact (by decide : ∀ d : Fin 10, isDigit (digit false d.val) = true) d
  have one : ∀ d : Fin 10, (digit false d).toNat - 48 = d.val := by decide
  rw [number, takeWhile_append_of_pos all, dropWhile_append_of_pos all]
  simp [stop, Digits.chars, Digits.value, foldl_map, one]

theorem longness_chars (l : c ≠ 'l') (z : c ≠ 'z') : longness (length.chars ++ c :: rest) = (length.long, c :: rest) := by
  cases length <;> simp [longness, Length.chars, Length.long, l, z]

theorem zeroPad_other (zero : c ≠ '0') : zeroPad (c :: rest) = (false, c :: rest) := by simp [zeroPad, zero]

theorem digit_other (d : Fin 10) : digit false d.val ≠ '*' ∧ digit false d.val ≠ '.' ∧ digit false d.val ≠ 'l' ∧ digit false d.val ≠ 'z' ∧
    (digit false d.val = '0' → d = 0) := by
  revert d
  decide

theorem precision_chars (ds : Digits) (letter : Letter c) :
    precision ('.' :: (ds.chars ++ (length.chars ++ c :: rest))) args = some (some ds.value, length.chars ++ c :: rest, args) := by
  obtain ⟨c', rest', next, stop, star⟩ : ∃ c' rest', length.chars ++ c :: rest = c' :: rest' ∧ isDigit c' = false ∧ c' ≠ '*' := by
    cases length with
    | none => exact ⟨c, rest, rfl, letter.1, letter.2.2.2.1⟩
    | l | ll | z => exact ⟨_, _, rfl, by decide, by decide⟩
  have dotted : ∀ fmt : List Char, fmt.head? ≠ some '*' → precision ('.' :: fmt) args = some (some (number fmt).1, (number fmt).2, args) := by
    intro fmt head
    cases fmt with
    | nil => rfl
    | cons c fmt => simp [precision, show c ≠ '*' by simpa using head]
  rw [next, dotted, number_chars ds stop]
  cases ds with
  | nil => simpa [Digits.chars] using star
  | cons d ds => simpa [Digits.chars] using (digit_other d).1

theorem directive_of {fmt f₁ f₂ f₃ : List Char} {prec : Option Nat} {long width : Nat} {now : List Arg}
    (first : precision fmt args = some (prec, f₁, now)) (second : longness f₁ = (long, f₂)) (third : zeroPad f₂ = (zero, f₃))
    (last : number f₃ = (width, c :: rest)) :
    directive fmt args = (convert prec long zero width c now).map fun (out, args) => (out, rest, args) := by
  simp [directive, first, second, third, last]

theorem directive_eq {mods : Mods} (inOrder : mods.InOrder) (letter : Letter c) :
    directive (mods.chars ++ c :: rest) args =
      (convert (mods.prec.map Digits.value) mods.length.long mods.zero mods.width.value c args).map fun (out, args) => (out, rest, args) := by
  have ⟨stop, l, z, star, dot⟩ := letter
  have noZero : c ≠ '0' := fun same => by
    rw [same] at stop
    cases stop
  rcases inOrder with ⟨zero, width⟩ | ⟨prec, length⟩
  · rw [zero, width]
    refine directive_of ?_ (longness_chars l z) (zeroPad_other noZero) (number_chars [] stop)
    cases prec : mods.prec with
    | none => cases length : mods.length <;> simp [Mods.chars, zero, width, prec, length, Digits.chars, Length.chars, precision, star, dot]
    | some ds => simpa [Mods.chars, zero, width, prec, Digits.chars] using precision_chars ds letter
  · have chars : mods.chars ++ c :: rest = (if mods.zero then ['0'] else []) ++ (mods.width.chars ++ c :: rest) := by
      simp [Mods.chars, prec, length, Length.chars]
    obtain ⟨c', rest', next, star', dot', l', z'⟩ : ∃ c' rest', mods.chars ++ c :: rest = c' :: rest' ∧ c' ≠ '*' ∧ c' ≠ '.' ∧ c' ≠ 'l' ∧ c' ≠ 'z' := by
      rw [chars]
      cases mods.zero with
      | true => exact ⟨'0', _, rfl, by decide⟩
      | false =>
        cases mods.width with
        | nil => exact ⟨c, rest, rfl, star, dot, l, z⟩
        | cons d ds => exact ⟨_, _, rfl, (digit_other d).1, (digit_other d).2.1, (digit_other d).2.2.1, (digit_other d).2.2.2.1⟩
    have bare : precision (mods.chars ++ c :: rest) args = some (none, mods.chars ++ c :: rest, args) := by
      rw [next]
      simp [precision, star', dot']
    have none_ : longness (mods.chars ++ c :: rest) = (0, mods.chars ++ c :: rest) := by
      rw [next]
      exact @longness_chars .none _ _ l' z'
    rw [prec, length]
    refine directive_of bare none_ ?_ (number_chars mods.width stop)
    rw [chars]
    cases mods.zero with
    | true => rfl
    | false =>
      cases width : mods.width with
      | nil => exact zeroPad_other noZero
      | cons d ds => exact zeroPad_other fun same => mods.flag d (by simp [width]) ((digit_other d).2.2.2.2 same)

theorem directive_piece {piece : Piece} {more : List Char} (plain : piece.Plain) : ∃ out, piece.Yields out ∧ out.length ≤ piece.longest ∧
    ∀ fuel, kvformat (fuel + 1) (piece.chars ++ more) (piece.args ++ args) = (kvformat fuel more args).map (out ++ ·) := by
  have step : ∀ {mods : Mods} {c : Char} {out : List Char} {arg : Arg}, mods.InOrder → Letter c →
      convert (mods.prec.map Digits.value) mods.length.long mods.zero mods.width.value c (arg :: args) = some (out, args) → ∀ fuel,
      kvformat (fuel + 1) ('%' :: mods.chars ++ [c] ++ more) (arg :: args) = (kvformat fuel more args).map (out ++ ·) := by
    intro mods c out arg inOrder letter converted fuel
    rw [cons_append, cons_append, append_assoc, kvformat, if_neg (by simp), if_neg (by simp), singleton_append,
      directive_eq inOrder letter, converted]
    rfl
  cases piece with
  | plain c ordinary => exact ⟨[c], rfl, Nat.le_refl _, fun fuel => by simp [Piece.chars, Piece.args, kvformat, ordinary]⟩
  | percent => exact ⟨['%'], rfl, Nat.le_refl _, fun fuel => rfl⟩
  | number mods kind v =>
    have yields := number_yields plain
    exact ⟨_, yields.1, yields.2, step plain.1 (letter_letter kind) (convert_number ..)⟩
  | text mods s =>
    refine ⟨_, rfl, ?_, step plain (by simp [Letter, isDigit]) ?_⟩
    · simp [Piece.longest]; omega
    · rfl
  | char mods v =>
    obtain ⟨inOrder, narrow⟩ := plain
    refine ⟨_, rfl, ?_, step inOrder (by simp [Letter, isDigit]) ?_⟩
    · simp [Piece.longest, narrow]
    · rw [show mods.width.value - 1 = 0 by omega]
      rfl

theorem kvformat_pieces {pieces : List Piece} (plain : ∀ piece ∈ pieces, piece.Plain) {fuel : Nat} (enough : (pieces.flatMap Piece.chars).length ≤ fuel) :
    ∃ out, Yield pieces out ∧ out.length ≤ (pieces.map Piece.longest).sum ∧
      kvformat fuel (pieces.flatMap Piece.chars) (pieces.flatMap Piece.args) = some out := by
  induction pieces generalizing fuel with
  | nil => exact ⟨[], .nil, Nat.le_refl _, by cases fuel <;> rfl⟩
  | cons piece pieces ih =>
    obtain ⟨out, yields, short, went⟩ := @directive_piece (pieces.flatMap Piece.args) piece (pieces.flatMap Piece.chars) (plain piece (by simp))
    have some_ : 0 < piece.chars.length := by cases piece <;> simp [Piece.chars]
    obtain ⟨fuel, rfl⟩ : ∃ more, fuel = more + 1 := ⟨fuel - 1, by simp at enough; omega⟩
    obtain ⟨more, rest, length, formatted⟩ := @ih (fun piece mem => plain piece (by simp [mem])) fuel (by simp at enough ⊢; omega)
    exact ⟨out ++ more, .cons yields rest, by simp; omega, by simp [went, formatted]⟩

end

/-- The piece `%08x` or `%08lx`. -/
def hex (length : Length) : Piece := .number ⟨true, [8], none, length, by decide⟩ .x 255#64

end NyonOS.Kprintf
