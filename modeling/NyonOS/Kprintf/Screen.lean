import NyonOS.Data.Run

namespace NyonOS.Kprintf

open Data List

/-! The console on the framebuffer: where pixels are written. Colours change no place. -/

structure Frame where
  width : Nat
  height : Nat
  home : Nat

/-- `written` and `drawn` record the pixels stored to and the calls of `draw_char`. -/
structure Screen where
  x : Nat
  y : Nat
  ansiState : Nat
  params : List Char
  written : List Nat
  drawn : List (Char × Nat × Nat)

abbrev wrap (n : Nat) : Nat := n % 2 ^ 32

section

variable (f : Frame)

section

variable (s : Screen)

def paint (cells : List (Nat × Nat)) : Screen :=
  { s with written := cells.map (fun cell => wrap (cell.2 * f.width + cell.1)) ++ s.written }

def rows (y n : Nat) : List Nat := ((range n).map fun row => wrap (y + row)).takeWhile (· < f.height)

def cols (x n : Nat) : List Nat := ((range n).map fun col => wrap (x + col)).takeWhile (· < f.width)

def drawChar (c : Char) (x y : Nat) : Screen :=
  { paint f s (cols f x 8 ×ˢ rows f y 16) with drawn := (c, x, y) :: s.drawn }

def screenScroll : Screen :=
  if f.height ≤ 16 then s
  else { paint f s (range f.width ×ˢ range f.height) with y := if f.height ≤ s.y then f.height - 16 else s.y }

def screenNewline : Screen :=
  let s := { s with x := f.home, y := wrap (s.y + 16) }
  if f.height < wrap (s.y + 16) then screenScroll f s else s

def pushInt (v : List Int) (cur : Int) : List Int := if v.length < 8 then v ++ [(BitVec.ofInt 32 cur).toInt] else v

def ansiInts (params : List Char) : List Int :=
  let done := params.foldl (fun (v, (cur : Int)) c =>
    if '0' ≤ c ∧ c ≤ '9' then (v, max cur 0 * 10 + (c.toNat - 48 : Nat)) else if c = ';' then (pushInt v cur, -1) else (v, cur)) ([], -1)
  if 0 ≤ done.2 then pushInt done.1 done.2 else done.1

/-- The first parameter, -1 where there is none. -/
def firstParam (params : List Char) : Int := (ansiInts params).head?.getD (-1)

def ansiEraseRange (x₀ x₁ : Nat) : Screen := paint f s (List.range' x₀ (min x₁ f.width - x₀) ×ˢ rows f s.y 16)

/-- What `ansi_run` does for every final character but `m`, which sets the colours. -/
def ansiRun (final : Char) : Screen :=
  let p₀ := firstParam s.params
  let count := if 1 < p₀ then p₀.toNat else 1
  let step := wrap (count * 16)
  let hstep := wrap (count * 8)
  match final with
  | 'J' =>
    if p₀ = 2 then { paint f s (range f.width ×ˢ range f.height) with x := f.home, y := 0 }
    else if p₀ = 1 then
      paint f s ((range (min (wrap (s.y + 16)) f.height)).flatMap fun y =>
        (range (min (if y < s.y then f.width else wrap (s.x + 8)) f.width)).map fun x => (x, y))
    else paint f (ansiEraseRange f s s.x f.width) (range f.width ×ˢ List.range' (wrap (s.y + 16)) (f.height - wrap (s.y + 16)))
  | 'K' =>
    if p₀ = 1 then ansiEraseRange f s f.home (wrap (s.x + 8))
    else if p₀ = 2 then ansiEraseRange f s f.home f.width
    else ansiEraseRange f s s.x f.width
  | 'A' => if step ≤ s.y then { s with y := s.y - step } else s
  | 'B' =>
    let y := wrap (s.y + step)
    { s with y := if f.height < wrap (y + 16) then f.height - 16 else y }
  | 'C' =>
    let x := wrap (s.x + hstep)
    { s with x := if f.width < wrap (x + 8) then f.width - 8 else x }
  | 'D' => { s with x := if wrap (f.home + hstep) ≤ s.x then s.x - hstep else f.home }
  | 'G' =>
    let x := if 1 ≤ p₀ then wrap (f.home + (p₀ - 1).toNat * 8) else s.x
    { s with x := if f.width < wrap (x + 8) then f.width - 8 else x }
  | 'H' | 'f' => { s with x := f.home, y := 0 }
  | _ => s

def Printable (c : Char) : Prop := 32 ≤ c.toNat ∧ c.toNat ≤ 126

instance (c : Char) : Decidable (Printable c) := inferInstanceAs (Decidable (_ ∧ _))

/-- The end of `screen_char`, for a printable character. -/
def putGlyph (c : Char) : Screen :=
  let s := if f.width < wrap (s.x + 8) then screenNewline f s else s
  if f.height < wrap (s.y + 16) then s else { drawChar f s c s.x s.y with x := wrap (s.x + 8) }

def tabStop : Nat := wrap (f.home + wrap ((wrap (s.x + 2 ^ 32 - f.home) / 8 + 8) / 8 * 8) * 8)

def screenChar (c : Char) : Screen :=
  if s.ansiState = 2 then
    if 0x40 ≤ c.toNat ∧ c.toNat ≤ 0x7e then ansiRun f { s with ansiState := 0 } c
    else if '0' ≤ c ∧ c ≤ '9' ∨ c = ';' ∨ c = '?' then
      if s.params.length < 15 then { s with params := s.params ++ [c] } else s
    else { s with ansiState := 0 }
  else if s.ansiState = 1 then if c = '[' then { s with ansiState := 2, params := [] } else { s with ansiState := 0 }
  else if c.toNat = 27 then { s with ansiState := 1 }
  else if c = '\n' then screenNewline f s
  else if c = '\r' then { s with x := f.home }
  else if c = '\t' then
    if f.width < wrap (tabStop f s + 8) then screenNewline f { s with x := tabStop f s } else { s with x := tabStop f s }
  else if c.toNat = 8 then
    if wrap (f.home + 8) ≤ s.x then drawChar f { s with x := s.x - 8 } ' ' (s.x - 8) s.y else s
  else if ¬ Printable c then s
  else putGlyph f s c

/-- `kprintf_attach`, with the home column `kprintf_home` sets. -/
def attached : Screen := ⟨f.home, 0, 0, [], [], []⟩

def Fits : Prop := s.x + 8 ≤ f.width ∧ s.y + 16 ≤ f.height

/-- The cursor a glyph is drawn at. -/
def place : Screen := if s.x + 8 ≤ f.width then s else screenNewline f s

end

structure Shown (s : Screen) : Prop where
  inside : ∀ i ∈ s.written, i < f.width * f.height
  stored : s.params.length < 16
  cursor : Fits f s ∨ Fits f (screenNewline f s)
  prints : ∀ c, s.ansiState = 0 → Printable c →
    Fits f (place f s) ∧ (screenChar f s c).drawn = (c, (place f s).x, (place f s).y) :: s.drawn

/-- A sequence that moves the cursor down or sideways has no huge parameter. -/
def Modest (c : Char) (s : Screen) : Prop := s.ansiState = 2 → c ∈ ['B', 'C', 'D', 'G'] → firstParam s.params ≤ 2 ^ 27

structure Placed (s : Screen) : Prop where
  row : 16 ∣ s.y
  low : s.y + 16 ≤ f.height
  left : f.home ≤ s.x
  right : s.x ≤ f.width
  stored : s.params.length < 16
  inside : ∀ i ∈ s.written, i < f.width * f.height

end

/-- The framebuffer has whole rows of glyphs, two at least, and at most 2^32 pixels. -/
structure Frame.Whole (f : Frame) : Prop where
  rows : 16 ∣ f.height
  two : 32 ≤ f.height
  column : f.home + 8 ≤ f.width
  small : f.width * f.height ≤ 2 ^ 32

section

variable {f : Frame} {s : Screen} {cells : List (Nat × Nat)} {c : Char}

theorem Frame.Whole.bounds (whole : f.Whole) : f.width ≤ 2 ^ 27 ∧ f.height ≤ 2 ^ 29 := by
  have := whole.small
  have wide : 8 * f.height ≤ f.width * f.height := Nat.mul_le_mul_right _ (by have := whole.column; omega)
  have tall : f.width * 32 ≤ f.width * f.height := Nat.mul_le_mul_left _ whole.two
  omega

theorem rows_low {y n i : Nat} (mem : i ∈ rows f y n) : i < f.height := by simpa using mem_takeWhile_imp mem

theorem cols_low {x n i : Nat} (mem : i ∈ cols f x n) : i < f.width := by simpa using mem_takeWhile_imp mem

section

variable (before : ∀ i ∈ s.written, i < f.width * f.height)
include before

theorem paint_inside (all : ∀ cell ∈ cells, cell.1 < f.width ∧ cell.2 < f.height) :
    ∀ i ∈ (paint f s cells).written, i < f.width * f.height := by
  intro i mem
  rcases mem_append.mp mem with new | old
  · obtain ⟨⟨x, y⟩, cell, rfl⟩ := mem_map.mp new
    obtain ⟨left, low⟩ := all _ cell
    have next : (y + 1) * f.width ≤ f.height * f.width := Nat.mul_le_mul_right _ low
    rw [Nat.succ_mul, Nat.mul_comm f.height] at next
    exact Nat.lt_of_le_of_lt (Nat.mod_le _ _) (by dsimp only at *; omega)
  · exact before i old

theorem draw_inside (c : Char) (x y : Nat) : ∀ i ∈ (drawChar f s c x y).written, i < f.width * f.height := by
  apply paint_inside before
  intro cell mem
  exact ⟨cols_low (mem_product.mp mem).1, rows_low (mem_product.mp mem).2⟩

theorem full_inside : ∀ i ∈ (paint f s (range f.width ×ˢ range f.height)).written, i < f.width * f.height := by
  apply paint_inside before
  intro cell mem
  simpa using mem_product.mp mem

theorem erase_inside (x₀ x₁ : Nat) : ∀ i ∈ (ansiEraseRange f s x₀ x₁).written, i < f.width * f.height := by
  apply paint_inside before
  intro cell mem
  obtain ⟨x, y⟩ := mem_product.mp mem
  exact ⟨by have := mem_range'_1.mp x; omega, rows_low y⟩

end

theorem wrap_eq {n : Nat} (low : n < 2 ^ 32) : wrap n = n := Nat.mod_eq_of_lt low

section

variable (whole : f.Whole)
include whole

theorem newline_eq (row : 16 ∣ s.y) (low : s.y + 16 ≤ f.height) : screenNewline f s =
    if s.y + 16 = f.height then { paint f { s with x := f.home, y := f.height } (range f.width ×ˢ range f.height) with y := f.height - 16 }
    else { s with x := f.home, y := s.y + 16 } := by
  have ⟨_, tall⟩ := whole.bounds
  have := whole.rows
  have := whole.two
  rw [screenNewline, wrap_eq (show s.y + 16 < 2 ^ 32 by omega), wrap_eq (by dsimp only; omega)]
  by_cases bottom : s.y + 16 = f.height
  · simp [bottom, screenScroll, show ¬ f.height ≤ 16 by omega]
  · rw [if_neg (by dsimp only; omega), if_neg bottom]

/-- Everything but the column, which a newline sets. -/
theorem Placed.newline (row : 16 ∣ s.y) (low : s.y + 16 ≤ f.height) (stored : s.params.length < 16)
    (inside : ∀ i ∈ s.written, i < f.width * f.height) :
    Placed f (screenNewline f s) ∧ (screenNewline f s).x = f.home ∧ (screenNewline f s).drawn = s.drawn := by
  have := whole.rows
  have := whole.two
  have := whole.column
  rw [newline_eq whole row low]
  by_cases bottom : s.y + 16 = f.height
  · rw [if_pos bottom]
    exact ⟨⟨by dsimp only; omega, by dsimp only; omega, Nat.le_refl _, by simp [paint]; omega, stored, full_inside inside⟩, rfl, rfl⟩
  · rw [if_neg bottom]
    exact ⟨⟨by dsimp only; omega, by dsimp only; omega, Nat.le_refl _, by dsimp only; omega, stored, inside⟩, rfl, rfl⟩

variable (placed : Placed f s)
include placed

/-- The cursor after a sequence; what it paints lies inside. -/
theorem Placed.run (modest : c ∈ ['B', 'C', 'D', 'G'] → firstParam s.params ≤ 2 ^ 27) : Placed f (ansiRun f s c) := by
  have ⟨wide, tall⟩ := whole.bounds
  have := whole.rows
  have := whole.two
  have := whole.column
  obtain ⟨row, low, left, right, stored, inside⟩ := placed
  have count : c ∈ ['B', 'C', 'D', 'G'] → (if 1 < firstParam s.params then (firstParam s.params).toNat else 1) ≤ 2 ^ 27 := fun mem => by
    have := modest mem
    split <;> omega
  simp only [ansiRun, wrap]
  generalize hn : (if 1 < firstParam s.params then (firstParam s.params).toNat else 1) = n at *
  split
  · split_ifs
    · exact ⟨by simp, by simp; omega, Nat.le_refl _, by simp; omega, stored, full_inside inside⟩
    · refine ⟨row, low, left, right, stored, paint_inside inside fun cell mem => ?_⟩
      simp at mem
      obtain ⟨y, low, x, left, rfl⟩ := mem
      exact ⟨by omega, low.2⟩
    · refine ⟨row, low, left, right, stored, paint_inside (erase_inside inside _ _) fun cell mem => ?_⟩
      obtain ⟨x, y⟩ := mem_product.mp mem
      exact ⟨mem_range.mp x, by have := mem_range'_1.mp y; omega⟩
  · split_ifs <;> exact ⟨row, low, left, right, stored, erase_inside inside _ _⟩
  · split_ifs
    · exact ⟨by dsimp only; omega, by dsimp only; omega, left, right, stored, inside⟩
    · exact ⟨row, low, left, right, stored, inside⟩
  · have := count (by simp)
    refine ⟨?_, ?_, left, right, stored, inside⟩ <;> dsimp only <;> split_ifs <;> omega
  · have := count (by simp)
    refine ⟨row, low, ?_, ?_, stored, inside⟩ <;> dsimp only <;> split_ifs <;> omega
  · have := count (by simp)
    refine ⟨row, low, ?_, ?_, stored, inside⟩ <;> dsimp only <;> split_ifs <;> omega
  · have := modest (by simp)
    refine ⟨row, low, ?_, ?_, stored, inside⟩ <;> dsimp only <;> split_ifs <;> omega
  · exact ⟨Nat.dvd_zero _, by dsimp only; omega, Nat.le_refl _, by dsimp only; omega, stored, inside⟩
  · exact ⟨Nat.dvd_zero _, by dsimp only; omega, Nat.le_refl _, by dsimp only; omega, stored, inside⟩
  · exact ⟨row, low, left, right, stored, inside⟩

theorem Placed.place : Placed f (place f s) ∧ Fits f (place f s) ∧ (Kprintf.place f s).drawn = s.drawn := by
  rw [Kprintf.place]
  by_cases fits : s.x + 8 ≤ f.width
  · simpa [fits, Fits] using ⟨placed, placed.low⟩
  · obtain ⟨after, column, drawn⟩ := Placed.newline whole placed.row placed.low placed.stored placed.inside
    simpa [fits, Fits, column, drawn] using ⟨after, whole.column, after.low⟩

theorem Placed.glyph (c : Char) :
    putGlyph f s c = { drawChar f (Kprintf.place f s) c (Kprintf.place f s).x (Kprintf.place f s).y with x := (Kprintf.place f s).x + 8 } := by
  have ⟨wide, tall⟩ := whole.bounds
  have := placed.right
  obtain ⟨-, ⟨right, low⟩, -⟩ := placed.place whole
  have same : (if f.width < wrap (s.x + 8) then screenNewline f s else s) = Kprintf.place f s := by
    rw [wrap_eq (by omega), Kprintf.place]
    split_ifs <;> first | rfl | omega
  rw [putGlyph, same, wrap_eq (by omega), wrap_eq (by omega), if_neg (by omega)]

theorem Placed.tab (fits : ¬ f.width < wrap (tabStop f s + 8)) : Placed f { s with x := tabStop f s } := by
  have ⟨wide, tall⟩ := whole.bounds
  obtain ⟨row, low, left, right, stored, inside⟩ := placed
  refine ⟨row, low, ?_, ?_, stored, inside⟩ <;> simp only [tabStop, wrap] at * <;> omega

theorem Placed.step (modest : Modest c s) : Placed f (screenChar f s c) := by
  have ⟨wide, tall⟩ := whole.bounds
  have := whole.column
  have ⟨row, low, left, right, stored, inside⟩ := placed
  rw [screenChar]
  split_ifs with sequence final digit room escape open_ esc newline return_ tab full erase back printable
  · exact Placed.run whole ⟨row, low, left, right, stored, inside⟩ (modest sequence)
  · exact ⟨row, low, left, right, by simp; omega, inside⟩
  · exact placed
  · exact ⟨row, low, left, right, stored, inside⟩
  · exact ⟨row, low, left, right, by simp, inside⟩
  · exact ⟨row, low, left, right, stored, inside⟩
  · exact ⟨row, low, left, right, stored, inside⟩
  · exact (Placed.newline whole row low stored inside).1
  · exact ⟨row, low, Nat.le_refl _, by dsimp only; omega, stored, inside⟩
  · exact (@Placed.newline f { s with x := tabStop f s } whole row low stored inside).1
  · exact placed.tab whole full
  · rw [wrap_eq (by omega)] at back
    exact ⟨row, low, by simp only [drawChar, paint]; omega, by simp only [drawChar, paint]; omega, stored, @draw_inside f { s with x := s.x - 8 } inside ' ' _ _⟩
  · exact placed
  · obtain ⟨⟨row, low, left, right, stored, inside⟩, fits, -⟩ := placed.place whole
    rw [placed.glyph whole]
    exact ⟨row, low, by dsimp only; omega, fits.1, stored, draw_inside inside c _ _⟩
  · exact placed

theorem Placed.shown : Shown f s := by
  obtain ⟨after, fits, drawn⟩ := placed.place whole
  refine ⟨placed.inside, placed.stored, ?_, fun c plain printable => ⟨fits, ?_⟩⟩
  · by_cases here : s.x + 8 ≤ f.width
    · exact .inl ⟨here, placed.low⟩
    · exact .inr (by simpa [Kprintf.place, here] using fits)
  · have keys : c.toNat ≠ 27 ∧ c.toNat ≠ 8 ∧ c ≠ '\n' ∧ c ≠ '\r' ∧ c ≠ '\t' := by
      have := printable.1
      refine ⟨by omega, by omega, ?_, ?_, ?_⟩ <;> rintro rfl <;> revert this <;> decide
    simp [screenChar, plain, keys, printable, placed.glyph whole, drawChar, drawn]

end

end

def vga : Frame := ⟨16, 32, 0⟩

end NyonOS.Kprintf
