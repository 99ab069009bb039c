import NyonOS.Abi
import NyonOS.Data.Bytes
import NyonOS.Data.Run

namespace NyonOS.Keyboard

open Abi Data List

/-! Canonical input: the ring of typed bytes, and reads of lines from it. -/

structure Typed where
  cells : Nat → Byte
  head : Nat
  tail : Nat
  owner : Nat

/-- `keyboard_buffer_push` in canonical mode. -/
def keyboardBufferPush (k : Typed) (c : Byte) : Bool × Typed :=
  if c = 8#8 then
    if k.head = k.tail then (false, k)
    else
      let prev := (k.head + 255) % 256
      if k.cells prev = 10#8 then (false, k) else (true, { k with head := prev })
  else
    let next := (k.head + 1) % 256
    if next = k.tail then (false, k)
    else (true, { k with cells := Function.update k.cells k.head c, head := next })

/-- The loop of `keyboard_has_char` and `keyboard_line_ready`. -/
def scan (k : Typed) (c : Byte) : (fuel i : Nat) → Bool
  | 0, _ => false
  | fuel + 1, i => if i = k.head then false else if k.cells i = c then true else scan k c fuel ((i + 1) % 256)

def keyboardHasChar (k : Typed) (c : Byte) : Bool := if c = 0#8 then false else scan k c 256 k.tail

def keyboardLineReady (k : Typed) : Bool := if (k.head + 1) % 256 = k.tail then true else scan k 10#8 256 k.tail

def ttyInputReady (eof : Byte) (k : Typed) : Bool := keyboardLineReady k || (eof ≠ 0#8 && keyboardHasChar k eof)

def keyboardBufferPop (k : Typed) : Option (Byte × Typed) :=
  if k.head = k.tail then none else some (k.cells k.tail, { k with tail := (k.tail + 1) % 256 })

def keyboardTryPop : (fuel : Nat) → Typed → Option (Byte × Typed)
  | 0, _ => none
  | fuel + 1, k =>
    match keyboardBufferPop k with
    | none => none
    | some (c, k) => if c ≠ 0#8 then some (c, k) else keyboardTryPop fuel k

/-- What a read returns that has stored the bytes `s`. -/
def stored (s : List Byte) (k : Typed) : (Int × List Byte) × Typed := ((if s = [] then eagain else s.length, s), k)

/-- The loop of a canonical `console_read_at`, with room for `left` more bytes. -/
def readLine (eof : Byte) : (left : Nat) → List Byte → Typed → (Int × List Byte) × Typed
  | 0, s, k => stored s k
  | left + 1, s, k =>
    match keyboardTryPop 256 k with
    | none => stored s k
    | some (c, k) =>
      if eof ≠ 0#8 ∧ c = eof then ((s.length, s), k)
      else if c = 10#8 then stored (s ++ [c]) k
      else readLine eof left (s ++ [c]) k

/-- `console_read_at` in canonical mode, called by the task `me`. -/
def consoleReadAt (eof : Byte) (k : Typed) (me len : Nat) : (Int × List Byte) × Typed :=
  if len = 0 then ((0, []), k)
  else
    let owner := if k.owner = 0 ∧ me ≠ 0 then me else k.owner
    let k := { k with owner }
    if owner ≠ me then ((eio, []), k)
    else if !ttyInputReady eof k then ((eagain, []), k)
    else readLine eof len [] k

/-! The line editor that is meant. -/

/-- The finished lines, each with the bytes still to be read and whether it was ended by the EOF character, and the current one. -/
structure Editor where
  lines : List (List Byte × Bool)
  current : List Byte

def Editor.type (eof : Byte) (e : Editor) (c : Byte) : Editor :=
  if c = 8#8 then { e with current := e.current.dropLast }
  else if c = 10#8 then ⟨e.lines ++ [(e.current ++ [c], false)], []⟩
  else if c = eof then ⟨e.lines ++ [(e.current, true)], []⟩
  else { e with current := e.current ++ [c] }

def Editor.read (e : Editor) (len : Nat) : (Int × List Byte) × Editor :=
  if len = 0 then ((0, []), e)
  else
    match e.lines with
    | [] => ((eagain, []), e)
    | (text, byEof) :: rest =>
      (((text.take len).length, text.take len), { e with lines := if len < text.length then (text.drop len, byEof) :: rest else rest })

inductive LineCall
  | push (c : Byte)
  | read (me len : Nat)

def LineCall.act (eof : Byte) (call : LineCall) (now : Typed × Editor) : Typed × Editor :=
  match call with
  | .push c => ((keyboardBufferPush now.1 c).2, now.2.type eof c)
  | .read me len => ((consoleReadAt eof now.1 me len).2, (now.2.read len).2)

/-- The character that stands after a line's text. -/
def mark (eof : Byte) (byEof : Bool) : List Byte := if byEof then [eof] else []

/-- What is in the ring. -/
def Editor.bytes (eof : Byte) (e : Editor) : List Byte := e.lines.flatMap (fun line => line.1 ++ mark eof line.2) ++ e.current

/-- Fewer than 255 bytes are buffered; no NUL is typed, and no newline that is also the EOF character; a backspace does not meet an EOF
character; a read is made by the owner, and does not end just before an EOF character. -/
def LineCall.Plain (eof : Byte) (call : LineCall) (now : Typed × Editor) : Prop :=
  (now.2.bytes eof).length < 255 ∧
  match call with
  | .push c => c ≠ 0#8 ∧ (c = 10#8 → c ≠ eof) ∧ (c = 8#8 → now.2.current = [] → ∀ line ∈ now.2.lines.getLast?, line.2 = false)
  | .read me len => (now.1.owner = 0 ∨ now.1.owner = me) ∧ ∀ line ∈ now.2.lines.head?, line.2 = true → line.1 = [] ∨ line.1.length ≠ len

/-- The ring holds these bytes. -/
structure Buffered (k : Typed) (l : List Byte) : Prop where
  short : l.length < 256
  low : k.tail < 256
  head : k.head = (k.tail + l.length) % 256
  cells : ∀ i b, l[i]? = some b → k.cells ((k.tail + i) % 256) = b

namespace Buffered

variable {k : Typed} {l pre : List Byte} {b c eof : Byte}

theorem push (buffered : Buffered k l) (room : l.length < 255) (other : c ≠ 8#8) : Buffered (keyboardBufferPush k c).2 (l ++ [c]) := by
  obtain ⟨-, low, head, cells⟩ := buffered
  have next : (k.head + 1) % 256 ≠ k.tail := by omega
  simp only [keyboardBufferPush, if_neg other, if_neg next]
  refine ⟨by simp; omega, low, by simp; omega, fun i b at_ => ?_⟩
  rcases Nat.lt_trichotomy i l.length with less | rfl | more
  · rw [getElem?_append_left less] at at_
    have away : (k.tail + i) % 256 ≠ k.head := by omega
    simpa [Function.update_of_ne away] using cells i b at_
  · simp at at_
    simp [head, at_]
  · rw [getElem?_eq_none (by simp; omega)] at at_
    cases at_

theorem backspace_none (buffered : Buffered k []) : keyboardBufferPush k 8#8 = (false, k) := by
  have := buffered.head
  have := buffered.low
  simp [keyboardBufferPush, show k.head = k.tail by simp at *; omega]

theorem backspace (buffered : Buffered k (l ++ [b])) : keyboardBufferPush k 8#8 =
    if b = 10#8 then (false, k) else (true, { k with head := (k.tail + l.length) % 256 }) := by
  obtain ⟨short, low, head, cells⟩ := buffered
  have last := cells l.length b (by simp)
  simp only [length_append, length_singleton] at short head
  simp only [keyboardBufferPush, if_true, if_neg (show k.head ≠ k.tail by omega), show (k.head + 255) % 256 = (k.tail + l.length) % 256 by omega, last]

theorem shorter (buffered : Buffered k (l ++ [b])) : Buffered { k with head := (k.tail + l.length) % 256 } l := by
  obtain ⟨short, low, head, cells⟩ := buffered
  refine ⟨by simp at short; omega, low, rfl, fun i b at_ => cells i b ?_⟩
  rw [getElem?_append_left (List.getElem?_eq_some_iff.mp at_).1, at_]

theorem pop (buffered : Buffered k (c :: l)) (some_ : c ≠ 0#8) : keyboardTryPop 256 k = some (c, { k with tail := (k.tail + 1) % 256 }) ∧
    Buffered { k with tail := (k.tail + 1) % 256 } l := by
  obtain ⟨short, low, head, cells⟩ := buffered
  simp only [length_cons] at short head
  have first := cells 0 c rfl
  rw [Nat.add_zero, Nat.mod_eq_of_lt low] at first
  refine ⟨?_, by omega, by dsimp only; omega, by dsimp only; omega, fun i b at_ => ?_⟩
  · simp [keyboardTryPop, keyboardBufferPop, show k.head ≠ k.tail by omega, first, some_]
  · have := cells (i + 1) b at_
    rwa [show (k.tail + (i + 1)) % 256 = ((k.tail + 1) % 256 + i) % 256 by omega] at this

theorem scan_eq (buffered : Buffered k (pre ++ l)) {fuel : Nat} (enough : l.length ≤ fuel) :
    scan k c fuel ((k.tail + pre.length) % 256) = decide (c ∈ l) := by
  induction l generalizing pre fuel with
  | nil =>
    have here : (k.tail + pre.length) % 256 = k.head := by simpa using buffered.head.symm
    cases fuel <;> simp [scan, here]
  | cons b l ih =>
    obtain ⟨fuel, rfl⟩ : ∃ more, fuel = more + 1 := ⟨fuel - 1, by simp at enough; omega⟩
    have short := buffered.short
    have head := buffered.head
    simp only [length_append, length_cons] at short head
    have here := buffered.cells pre.length b (by simp)
    have step := @ih (pre ++ [b]) (by simpa using buffered) fuel (by simpa using enough)
    rw [length_append, length_singleton] at step
    rw [scan, if_neg (by omega), here, show ((k.tail + pre.length) % 256 + 1) % 256 = (k.tail + (pre.length + 1)) % 256 by omega, step]
    by_cases same : b = c
    · simp [same]
    · simp [same, Ne.symm same]

theorem ready (buffered : Buffered k l) (room : l.length < 255) : ttyInputReady eof k = decide (10#8 ∈ l ∨ eof ≠ 0#8 ∧ eof ∈ l) := by
  have scans : ∀ c, scan k c 256 k.tail = decide (c ∈ l) := fun c => by
    have := @scan_eq k l [] c (by simpa using buffered) 256 (Nat.le_of_lt buffered.short)
    simpa [Nat.mod_eq_of_lt buffered.low] using this
  have head := buffered.head
  have low := buffered.low
  rw [ttyInputReady, keyboardLineReady, keyboardHasChar, if_neg (by omega), scans, scans]
  by_cases none_ : eof = 0#8 <;> simp [none_]

theorem owned (buffered : Buffered k l) (owner : Nat) : Buffered { k with owner } l := ⟨buffered.short, buffered.low, buffered.head, buffered.cells⟩

end Buffered

/-- A byte that ends no line and is not dropped. -/
def Ordinary (eof b : Byte) : Prop := b ≠ 0#8 ∧ b ≠ 10#8 ∧ b ≠ eof

inductive Finished (eof : Byte) : List Byte × Bool → Prop
  | newline {t : List Byte} (ordinary : ∀ b ∈ t, Ordinary eof b) (other : 10#8 ≠ eof) : Finished eof (t ++ [10#8], false)
  | eof {t : List Byte} (ordinary : ∀ b ∈ t, Ordinary eof b) (some_ : eof ≠ 0#8) (other : eof ≠ 10#8) : Finished eof (t, true)

section

variable {eof : Byte} {k : Typed} {s t rest : List Byte} {len : Nat}

theorem readLine_ordinary (ordinary : ∀ b ∈ t, Ordinary eof b) (left : Nat) (buffered : Buffered k (t ++ rest)) :
    ∃ k', readLine eof (t.length + left) s k = readLine eof left (s ++ t) k' ∧ Buffered k' rest := by
  induction t generalizing s k with
  | nil => exact ⟨k, by simp, buffered⟩
  | cons b t ih =>
    obtain ⟨some_, line, other⟩ := ordinary b (by simp)
    obtain ⟨popped, after⟩ := buffered.pop some_
    obtain ⟨k', went, held⟩ := @ih _ (s ++ [b]) (fun b mem => ordinary b (by simp [mem])) after
    refine ⟨k', ?_, held⟩
    rw [length_cons, Nat.add_right_comm, readLine, popped]
    simpa [other, line] using went

theorem readLine_part (ordinary : ∀ b ∈ t, Ordinary eof b) (some_ : 0 < len) (fits : len ≤ t.length) (buffered : Buffered k (t ++ rest)) :
    ∃ k', readLine eof len [] k = (((len : Int), t.take len), k') ∧ Buffered k' (t.drop len ++ rest) := by
  have parts : t.take len ++ (t.drop len ++ rest) = t ++ rest := by rw [← append_assoc, take_append_drop]
  obtain ⟨k', went, held⟩ := @readLine_ordinary eof k [] (t.take len) _ (fun b mem => ordinary b (mem_of_mem_take mem)) 0 (parts ▸ buffered)
  have count : (t.take len).length = len := by simp [fits]
  have nonempty : t.take len ≠ [] := ne_nil_of_length_pos (by omega)
  rw [count] at went
  exact ⟨k', by simpa [readLine, stored, nonempty, count] using went, held⟩

theorem Finished.drop {line : List Byte × Bool} (finished : Finished eof line) (less : len < line.1.length) : Finished eof (line.1.drop len, line.2) := by
  cases finished with
  | @newline t ordinary other =>
    have short : len ≤ t.length := by simp at less; omega
    rw [drop_append_of_le_length short]
    exact .newline (fun b mem => ordinary b (mem_of_mem_drop mem)) other
  | eof ordinary some_ other => exact .eof (fun b mem => ordinary b (mem_of_mem_drop mem)) some_ other

theorem Finished.read {line : List Byte × Bool} (finished : Finished eof line) (some_ : 0 < len)
    (apart : line.2 = true → line.1 = [] ∨ line.1.length ≠ len) (buffered : Buffered k (line.1 ++ mark eof line.2 ++ rest)) :
    ∃ k', readLine eof len [] k = ((((line.1.take len).length : Int), line.1.take len), k') ∧
      Buffered k' ((if len < line.1.length then line.1.drop len ++ mark eof line.2 else []) ++ rest) := by
  cases finished with
  | @newline t ordinary other =>
    rw [show mark eof false = [] from rfl, append_nil] at *
    by_cases fits : len ≤ t.length
    · obtain ⟨k', went, held⟩ := @readLine_part _ _ t ([10#8] ++ rest) _ ordinary some_ fits (by simpa using buffered)
      refine ⟨k', by simp [went, take_append_of_le_length fits, fits], ?_⟩
      simpa [drop_append_of_le_length fits, Nat.lt_succ_of_le fits] using held
    · obtain ⟨left, rfl⟩ : ∃ left, len = t.length + (left + 1) := ⟨len - t.length - 1, by omega⟩
      obtain ⟨k', went, held⟩ := @readLine_ordinary _ _ [] t ([10#8] ++ rest) ordinary (left + 1) (by simpa using buffered)
      obtain ⟨popped, after⟩ := Buffered.pop held (by decide)
      refine ⟨{ k' with tail := (k'.tail + 1) % 256 }, ?_, ?_⟩
      · rw [went, readLine, popped, take_of_length_le (by simp)]
        simp [other, stored]
      · rw [if_neg (by simp)]
        exact after
  | @eof t ordinary valid other =>
    rw [show mark eof true = [eof] from rfl] at *
    by_cases fits : len < t.length
    · obtain ⟨k', went, held⟩ := @readLine_part _ _ t ([eof] ++ rest) _ ordinary some_ (Nat.le_of_lt fits) (by simpa using buffered)
      refine ⟨k', by simp [went, Nat.le_of_lt fits], ?_⟩
      simpa [fits] using held
    · have more : t.length < len := by
        rcases apart rfl with none_ | differ
        · simpa [show t = [] from none_] using some_
        · have : t.length ≠ len := differ
          omega
      obtain ⟨left, rfl⟩ : ∃ left, len = t.length + (left + 1) := ⟨len - t.length - 1, by omega⟩
      obtain ⟨k', went, held⟩ := @readLine_ordinary _ _ [] t ([eof] ++ rest) ordinary (left + 1) (by simpa using buffered)
      obtain ⟨popped, after⟩ := Buffered.pop held valid
      refine ⟨{ k' with tail := (k'.tail + 1) % 256 }, ?_, ?_⟩
      · rw [went, readLine, popped, take_of_length_le (by simp)]
        simp [valid]
      · rw [if_neg fits]
        exact after

end

/-- The ring holds the editor's lines. -/
structure Holds (eof : Byte) (now : Typed × Editor) : Prop where
  buffered : Buffered now.1 (now.2.bytes eof)
  finished : ∀ line ∈ now.2.lines, Finished eof line
  current : ∀ b ∈ now.2.current, Ordinary eof b

namespace Holds

variable {eof : Byte} {now : Typed × Editor}

theorem ready (holds : Holds eof now) (room : (now.2.bytes eof).length < 255) (owner : Nat) :
    ttyInputReady eof { now.1 with owner } = decide (now.2.lines ≠ []) := by
  rw [(holds.buffered.owned owner).ready room]
  congr 1
  cases lines : now.2.lines with
  | nil =>
    have line : 10#8 ∉ now.2.current := fun mem => (holds.current _ mem).2.1 rfl
    have none_ : eof ∉ now.2.current := fun mem => (holds.current _ mem).2.2 rfl
    simp [Editor.bytes, lines, line, none_]
  | cons line rest =>
    have first := holds.finished line (by simp [lines])
    cases first with
    | newline ordinary other => simp [Editor.bytes, lines]
    | eof ordinary some_ other => simp [Editor.bytes, lines, mark, some_]

theorem read {me len : Nat} (holds : Holds eof now) (plain : (LineCall.read me len).Plain eof now) :
    (consoleReadAt eof now.1 me len).1 = (now.2.read len).1 ∧ Holds eof ((LineCall.read me len).act eof now) := by
  obtain ⟨room, mine, apart⟩ := plain
  by_cases none_ : len = 0
  · simpa [LineCall.act, consoleReadAt, Editor.read, none_] using holds
  · have owns : (if now.1.owner = 0 ∧ me ≠ 0 then me else now.1.owner) = me := by
      split_ifs <;> omega
    have enter : consoleReadAt eof now.1 me len =
        if now.2.lines = [] then ((eagain, []), { now.1 with owner := me }) else readLine eof len [] { now.1 with owner := me } := by
      simp only [consoleReadAt, if_neg none_, owns, ready holds room]
      by_cases empty : now.2.lines = [] <;> simp [empty]
    rw [LineCall.act, enter, Editor.read, if_neg none_]
    cases lines : now.2.lines with
    | nil => exact ⟨by simp, by simpa using ⟨holds.buffered.owned me, holds.finished, holds.current⟩⟩
    | cons line rest =>
      have first := holds.finished line (by simp [lines])
      have held : Buffered { now.1 with owner := me } (line.1 ++ mark eof line.2 ++ Editor.bytes eof ⟨rest, now.2.current⟩) := by
        simpa [Editor.bytes, lines] using holds.buffered.owned me
      obtain ⟨k', went, after⟩ := first.read (Nat.pos_of_ne_zero none_) (apart line (by simp [lines])) held
      refine ⟨by simp [went], ?_, ?_, holds.current⟩
      · by_cases less : len < line.1.length <;> simpa [went, less, Editor.bytes] using after
      · intro other mem
        by_cases less : len < line.1.length
        · rcases (by simpa [less] using mem : other = (line.1.drop len, line.2) ∨ other ∈ rest) with rfl | mem
          · exact first.drop less
          · exact holds.finished other (by simp [lines, mem])
        · exact holds.finished other (by simp [lines, (by simpa [less] using mem : other ∈ rest)])

theorem push {c : Byte} (holds : Holds eof now) (plain : (LineCall.push c).Plain eof now) : Holds eof ((LineCall.push c).act eof now) := by
  obtain ⟨room, some_, newline, back⟩ := plain
  by_cases erase : c = 8#8
  · subst erase
    rcases eq_nil_or_concat now.2.current with none_ | ⟨cur, b, last⟩
    · have unchanged : keyboardBufferPush now.1 8#8 = (false, now.1) := by
        have buffered := holds.buffered
        rcases eq_nil_or_concat now.2.lines with empty | ⟨lines, line, last⟩
        · exact Buffered.backspace_none (by simpa [Editor.bytes, none_, empty] using buffered)
        · have ended := back rfl none_ line (by simp [last])
          have finished := holds.finished line (by simp [last])
          cases finished with
          | @newline t ordinary other =>
            rw [@Buffered.backspace _ (lines.flatMap (fun line => line.1 ++ mark eof line.2) ++ t) 10#8
              (by simpa [Editor.bytes, none_, last, mark] using buffered)]
            rfl
          | eof => cases ended
      have same : now.2.type eof 8#8 = now.2 := by
        rw [Editor.type, if_pos rfl, none_, dropLast_nil, ← none_]
      simpa [LineCall.act, unchanged, same] using holds
    · have buffered : Buffered now.1 (now.2.lines.flatMap (fun line => line.1 ++ mark eof line.2) ++ cur ++ [b]) := by
        simpa [Editor.bytes, last] using holds.buffered
      have inside := (holds.current b (by simp [last])).2.1
      refine ⟨?_, holds.finished, fun b mem => holds.current b (mem_of_mem_dropLast mem)⟩
      simpa [LineCall.act, Editor.type, buffered.backspace, inside, Editor.bytes, last] using buffered.shorter
  · have buffered := holds.buffered.push room erase
    by_cases line : c = 10#8
    · subst line
      refine ⟨by simpa [LineCall.act, Editor.type, Editor.bytes, mark] using buffered, ?_, by simp [LineCall.act, Editor.type]⟩
      intro line mem
      rcases (by simpa [LineCall.act, Editor.type] using mem : line ∈ now.2.lines ∨ line = (now.2.current ++ [10#8], false)) with mem | rfl
      · exact holds.finished line mem
      · exact .newline holds.current (newline rfl)
    · by_cases ends : c = eof
      · subst ends
        refine ⟨by simpa [LineCall.act, Editor.type, Editor.bytes, mark, erase, line] using buffered, ?_, by simp [LineCall.act, Editor.type, erase, line]⟩
        intro line' mem
        rcases (by simpa [LineCall.act, Editor.type, erase, line] using mem : line' ∈ now.2.lines ∨ line' = (now.2.current, true)) with mem | rfl
        · exact holds.finished line' mem
        · exact .eof holds.current some_ line
      · refine ⟨by simpa [LineCall.act, Editor.type, Editor.bytes, erase, line, ends] using buffered,
          by simpa [LineCall.act, Editor.type, erase, line, ends] using holds.finished, ?_⟩
        intro b mem
        rcases (by simpa [LineCall.act, Editor.type, erase, line, ends] using mem : b ∈ now.2.current ∨ b = c) with mem | rfl
        · exact holds.current b mem
        · exact ⟨some_, line, ends⟩

theorem step (call : LineCall) (holds : Holds eof now) (plain : call.Plain eof now) : Holds eof (call.act eof now) := by
  cases call with
  | push c => exact holds.push plain
  | read me len => exact (holds.read plain).2

end Holds

/-- The console before the first key. -/
def console : Typed × Editor := (⟨fun _ => 0#8, 0, 0, 0⟩, ⟨[], []⟩)

theorem Holds.console (eof : Byte) : Holds eof console := ⟨⟨by simp [Keyboard.console, Editor.bytes], by decide, rfl, by simp [Keyboard.console, Editor.bytes]⟩, nofun, nofun⟩

/-- Reads answer as the line editor's do, and what they do not return stays in the ring, in every run of calls that are all plain. -/
theorem reads_as_editor {eof : Byte} {now : Typed × Editor}
    (run : Run (fun call before after => after = LineCall.act eof call before) (LineCall.Plain eof) console now) :
    Buffered now.1 (now.2.bytes eof) ∧
      ∀ me len, (LineCall.read me len).Plain eof now → (consoleReadAt eof now.1 me len).1 = (now.2.read len).1 := by
  have holds : Holds eof now := by
    apply run.invariant (Holds.console eof)
    intro call before after holds plain taken
    rw [taken]
    exact holds.step call plain
  exact ⟨holds.buffered, fun me len plain => (holds.read plain).1⟩

def typedLine : List LineCall := [.push 97#8, .push 8#8, .push 98#8, .push 10#8]

theorem typedLine_plain : Meets (LineCall.act 4#8) (LineCall.Plain 4#8) typedLine console := by
  simp [typedLine, Meets, LineCall.Plain, LineCall.act, Editor.type, Editor.bytes, console, mark]

theorem reads_as_editor_line : (consoleReadAt 4#8 (play (LineCall.act 4#8) typedLine console).1 1 9).1 = (2, [98#8, 10#8]) :=
  (reads_as_editor (@Run.play _ _ (fun call before after => after = LineCall.act 4#8 call before) _ _ _ _ (fun _ _ => rfl) _ .start typedLine_plain)).2 1 9 ⟨by decide, by decide, by decide⟩

/-- A backspace takes the EOF character of a finished line back. -/
theorem backspace_unfinishes : let now := play (LineCall.act 4#8) [.push 97#8, .push 4#8, .push 8#8] console
    (consoleReadAt 4#8 now.1 1 9).1 = (eagain, []) ∧ (now.2.read 9).1 = (1, [97#8]) := by
  decide

end NyonOS.Keyboard
