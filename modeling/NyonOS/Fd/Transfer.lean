import NyonOS.Abi

namespace NyonOS.Fd

open Abi

/-! The loops of `fd_read` and `fd_write` around the handlers of an object. -/

variable {σ : Type}

/-- The loop of `fd_write`. A handler gets the bytes from `start` on, how many they are, and a
position. A wait is there if the object has one and the descriptor is blocking; what it returns,
and what others have made of the object by then, may differ from one wait to the next. The
result is missing as long as the loop goes on. -/
def writeLoop (writeAt : σ → (start len pos : Nat) → Int × σ) (wait : Option ((waits : Nat) → σ → Int × σ)) (len pos : Nat) :
    (rounds waits : Nat) → σ → (total : Nat) → Option Int × σ
  | 0, _, o, _ => (none, o)
  | rounds + 1, waits, o, total =>
    let wrote := writeAt o total ((2 ^ 32 + len - total % 2 ^ 32) % 2 ^ 32) ((pos + total) % 2 ^ 64)
    if wrote.1 < 0 then
      match if wrote.1 = eagain then wait else none with
      | none => (some (if total = 0 then wrote.1 else total), wrote.2)
      | some wait =>
        let waited := wait waits wrote.2
        if waited.1 < 0 then (some (if total = 0 then waited.1 else total), waited.2)
        else writeLoop writeAt (some wait) len pos rounds (waits + 1) waited.2 total
    else if wrote.1 = 0 then (some total, wrote.2)
    else writeLoop writeAt wait len pos rounds waits wrote.2 (total + wrote.1.toNat)

/-- The loop of `fd_read` for objects that are no files. -/
def readLoop (readAt : σ → Int × σ) (wait : Option ((waits : Nat) → σ → Int × σ)) :
    (rounds waits : Nat) → σ → Option Int × σ
  | 0, _, o => (none, o)
  | rounds + 1, waits, o =>
    let read := readAt o
    match if read.1 = eagain then wait else none with
    | none => (some read.1, read.2)
    | some wait =>
      let waited := wait waits read.2
      if waited.1 < 0 then (some waited.1, waited.2) else readLoop readAt (some wait) rounds (waits + 1) waited.2

section Rounds

variable {writeAt : σ → (start len pos : Nat) → Int × σ} {wait : (waits : Nat) → σ → Int × σ} {len pos rounds waits total : Nat}
  {o o' o'' : σ}

theorem writeLoop_again {w : Int}
    (again : writeAt o total ((2 ^ 32 + len - total % 2 ^ 32) % 2 ^ 32) ((pos + total) % 2 ^ 64) = (eagain, o'))
    (waited : wait waits o' = (w, o'')) (fine : 0 ≤ w) :
    writeLoop writeAt (some wait) len pos (rounds + 1) waits o total =
      writeLoop writeAt (some wait) len pos rounds (waits + 1) o'' total := by
  rw [writeLoop, again]
  dsimp only
  rw [if_pos (by decide : eagain < 0), if_pos rfl]
  dsimp only
  rw [waited, if_neg (by omega)]

theorem writeLoop_failed {wait : Option ((waits : Nat) → σ → Int × σ)} {r : Int}
    (failed : writeAt o total ((2 ^ 32 + len - total % 2 ^ 32) % 2 ^ 32) ((pos + total) % 2 ^ 64) = (r, o'))
    (negative : r < 0) (last : wait = none ∨ r ≠ eagain) :
    writeLoop writeAt wait len pos (rounds + 1) waits o total = (some (if total = 0 then r else total), o') := by
  have none_ : (if r = eagain then wait else none) = none := by
    rcases last with gone | other
    · rw [gone, ite_self]
    · exact if_neg other
  rw [writeLoop, failed]
  dsimp only
  rw [if_pos negative, none_]

theorem writeLoop_more {wait : Option ((waits : Nat) → σ → Int × σ)} {n : Nat}
    (wrote : writeAt o total ((2 ^ 32 + len - total % 2 ^ 32) % 2 ^ 32) ((pos + total) % 2 ^ 64) = (↑n, o')) (some_ : n ≠ 0) :
    writeLoop writeAt wait len pos (rounds + 1) waits o total = writeLoop writeAt wait len pos rounds waits o' (total + n) := by
  rw [writeLoop, wrote]
  dsimp only
  rw [if_neg (by omega), if_neg (by omega), Int.toNat_natCast]

theorem writeLoop_ended {wait : Option ((waits : Nat) → σ → Int × σ)}
    (wrote : writeAt o total ((2 ^ 32 + len - total % 2 ^ 32) % 2 ^ 32) ((pos + total) % 2 ^ 64) = (0, o')) :
    writeLoop writeAt wait len pos (rounds + 1) waits o total = (some ↑total, o') := by
  rw [writeLoop, wrote]
  dsimp only
  rw [if_neg (by decide), if_pos rfl]

theorem writeLoop_negative {r : Int} (result : (writeLoop writeAt none len pos rounds waits o total).1 = some r) (negative : r < 0) :
    ∃ o start n at_, r = (writeAt o start n at_).1 := by
  induction rounds generalizing o total with
  | zero => cases result
  | succ rounds ih =>
    rw [writeLoop] at result
    dsimp only at result
    generalize there : writeAt o total ((2 ^ 32 + len - total % 2 ^ 32) % 2 ^ 32) ((pos + total) % 2 ^ 64) = wrote at result
    have none_ : (if wrote.1 = eagain then (none : Option ((waits : Nat) → σ → Int × σ)) else none) = none := ite_self _
    rw [none_] at result
    by_cases failed : wrote.1 < 0
    · rw [if_pos failed] at result
      have same : (if total = 0 then wrote.1 else total) = r := Option.some.inj result
      by_cases first : total = 0
      · rw [if_pos first] at same
        exact ⟨o, total, _, _, by rw [there, same]⟩
      · rw [if_neg first] at same
        omega
    · rw [if_neg failed] at result
      by_cases ended : wrote.1 = 0
      · rw [if_pos ended] at result
        have same : (total : Int) = r := Option.some.inj result
        omega
      · rw [if_neg ended] at result
        exact ih result

theorem writeLoop_congr {pos' : Nat} {wait : Option ((waits : Nat) → σ → Int × σ)}
    (same : ∀ o start n total, writeAt o start n ((pos + total) % 2 ^ 64) = writeAt o start n ((pos' + total) % 2 ^ 64)) :
    writeLoop writeAt wait len pos rounds waits o total = writeLoop writeAt wait len pos' rounds waits o total := by
  induction rounds generalizing o total waits wait with
  | zero => rfl
  | succ rounds ih =>
    rw [writeLoop, writeLoop, same]
    simp only [ih]

end Rounds

end NyonOS.Fd
