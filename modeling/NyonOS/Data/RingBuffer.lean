import Mathlib

namespace NyonOS.Data

open List Nat

/-! A queue in a circular buffer. -/

/-- The front is at `head`; what comes after the last cell is at the beginning. -/
structure RingBuffer (α : Type) where
  cells : Nat → α
  cap : Nat
  head : Nat
  count : Nat
  inside : head < cap
  fits : count ≤ cap

variable {α : Type}

/-- `n` cells in a row. -/
def slice (cells : Nat → α) (start n : Nat) : List α := (range n).map fun i => cells (start + i)

/-- `n` cells of a buffer that goes on at its beginning. -/
def window (cells : Nat → α) (cap start n : Nat) : List α := (range n).map fun i => cells ((start + i) % cap)

def RingBuffer.contents (r : RingBuffer α) : List α := window r.cells r.cap r.head r.count

section Windows

variable {cells cells' : Nat → α} {cap start n m : Nat}

@[simp]
theorem length_slice : (slice cells start n).length = n := by
  simp [slice]

@[simp]
theorem length_window : (window cells cap start n).length = n := by
  simp [window]

theorem slice_add : slice cells start (n + m) = slice cells start n ++ slice cells (start + n) m := by
  simp only [slice, range_add, map_append, map_map, Function.comp_def, Nat.add_assoc]

theorem window_add : window cells cap start (n + m) = window cells cap start n ++ window cells cap (start + n) m := by
  simp only [window, range_add, map_append, map_map, Function.comp_def, Nat.add_assoc]

theorem slice_congr (same : ∀ i < n, cells (start + i) = cells' (start + i)) : slice cells start n = slice cells' start n :=
  map_congr_left fun i member => same i (mem_range.mp member)

theorem window_congr (same : ∀ i < n, cells ((start + i) % cap) = cells' ((start + i) % cap)) :
    window cells cap start n = window cells' cap start n :=
  map_congr_left fun i member => same i (mem_range.mp member)

theorem window_mod : window cells cap (start % cap) n = window cells cap start n := by
  refine map_congr_left fun i _ => ?_
  rw [mod_add_mod]

theorem window_eq_slice (short : start + n ≤ cap) : window cells cap start n = slice cells start n := by
  refine map_congr_left fun i member => ?_
  have bound := mem_range.mp member
  rw [mod_eq_of_lt (by omega)]

theorem window_split (inside : start < cap) (most : n ≤ cap) : window cells cap start n =
    slice cells start (min (cap - start) n) ++ slice cells 0 (n - min (cap - start) n) := by
  rcases Nat.le_total n (cap - start) with short | long
  · rw [Nat.min_eq_right short, Nat.sub_self, window_eq_slice (by omega)]
    exact (append_nil _).symm
  · have parts : n = (cap - start) + (n - (cap - start)) := by omega
    rw [Nat.min_eq_left long]
    conv_lhs => rw [parts]
    rw [window_add, window_eq_slice (by omega)]
    have around : window cells cap (start + (cap - start)) (n - (cap - start)) = slice cells 0 (n - (cap - start)) := by
      rw [show start + (cap - start) = cap by omega, ← window_mod, mod_self]
      exact window_eq_slice (by omega)
    rw [around]

theorem window_apart (cap start : Nat) {i j : Nat} (differ : i < j) (near : j < i + cap) : (start + i) % cap ≠ (start + j) % cap := by
  intro same
  have multiple : cap ∣ j - i := by
    have := (modEq_iff_dvd' (show start + i ≤ start + j by omega)).mp same
    rwa [Nat.add_sub_add_left] at this
  exact absurd (le_of_dvd (by omega) multiple) (by omega)

end Windows

namespace RingBuffer

variable {r : RingBuffer α} {n : Nat}

@[simp]
theorem length_contents (r : RingBuffer α) : r.contents.length = r.count := length_window

theorem contents_eq_nil : r.contents = [] ↔ r.count = 0 := by
  rw [← length_eq_zero_iff, length_contents]

/-- The place after the last element. -/
def tail (r : RingBuffer α) : Nat := (r.head + r.count) % r.cap

theorem tail_lt (r : RingBuffer α) : r.tail < r.cap := mod_lt _ (zero_lt_of_lt r.inside)

/-- The first `n` elements, in the two parts in which they lie in the buffer. -/
theorem take_contents (enough : n ≤ r.count) : r.contents.take n =
    slice r.cells r.head (min (r.cap - r.head) n) ++ slice r.cells 0 (n - min (r.cap - r.head) n) := by
  have most := r.fits
  rw [← window_split r.inside (by omega), contents, show r.count = n + (r.count - n) by omega, window_add]
  exact take_left' length_window

/-- The first elements are taken out. -/
def pop (r : RingBuffer α) (n : Nat) : RingBuffer α where
  cells := r.cells
  cap := r.cap
  head := (r.head + n) % r.cap
  count := r.count - n
  inside := mod_lt _ (zero_lt_of_lt r.inside)
  fits := (sub_le ..).trans r.fits

theorem contents_pop (enough : n ≤ r.count) : (r.pop n).contents = r.contents.drop n := by
  unfold contents pop
  dsimp only
  rw [window_mod]
  conv_rhs => rw [show r.count = n + (r.count - n) by omega, window_add]
  exact (drop_left' length_window).symm

/-- The cells change. -/
def setCells (r : RingBuffer α) (cells : Nat → α) : RingBuffer α := { r with cells := cells }

/-- Elements are added behind the last one; what they are is in the cells. -/
def push (r : RingBuffer α) (n : Nat) (room : r.count + n ≤ r.cap) : RingBuffer α := { r with count := r.count + n, fits := room }

theorem contents_push (room : r.count + n ≤ r.cap) :
    (r.push n room).contents = r.contents ++ window r.cells r.cap r.tail n := by
  unfold contents push tail
  dsimp only
  rw [window_add, window_mod]

theorem contents_setCells {cells : Nat → α} (room : r.count + n ≤ r.cap)
    (outside : ∀ i, ¬(r.tail ≤ i ∧ i < r.tail + min (r.cap - r.tail) n) → ¬i < n - min (r.cap - r.tail) n →
      cells i = r.cells i) : (r.setCells cells).contents = r.contents := by
  have tail := r.tail_lt
  have after : ∀ j, (r.head + (r.count + j)) % r.cap = (r.tail + j) % r.cap := by
    intro j
    rw [RingBuffer.tail, mod_add_mod, Nat.add_assoc]
  refine window_congr fun i bound => ?_
  change i < r.count at bound
  change cells ((r.head + i) % r.cap) = r.cells ((r.head + i) % r.cap)
  refine outside _ ?_ ?_
  · rintro ⟨least, most⟩
    have place := window_apart r.cap r.head (i := i)
      (j := r.count + ((r.head + i) % r.cap - r.tail)) (by omega) (by omega)
    rw [after, Nat.add_sub_cancel' least, mod_mod] at place
    exact place rfl
  · intro low
    have place := window_apart r.cap r.head (i := i)
      (j := r.count + (r.cap - r.tail + (r.head + i) % r.cap)) (by omega) (by omega)
    rw [after, show r.tail + (r.cap - r.tail + (r.head + i) % r.cap) = r.cap + (r.head + i) % r.cap by omega,
      add_mod_left, mod_mod] at place
    exact place rfl

end RingBuffer

end NyonOS.Data
