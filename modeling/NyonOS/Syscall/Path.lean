import NyonOS.Data.RingBuffer

namespace NyonOS.Syscall

open Data Function List Nat

/-! Paths of system calls: `path_join` puts the working directory and a path together. -/

/-- The bytes of a string before its NUL. -/
abbrev Str := { bytes : List UInt8 // 0 ∉ bytes }

def slash : UInt8 := 0x2F

def dot : UInt8 := 0x2E

/-- The output buffer, and how much of it has been written. -/
structure Out where
  cells : Nat → UInt8
  n : Nat

/-- `out[n++] = byte`. -/
def Out.put (out : Out) (byte : UInt8) : Out := ⟨update out.cells out.n byte, out.n + 1⟩

def Out.puts (out : Out) (bytes : List UInt8) : Out := bytes.foldl Out.put out

/-- `while (n > 1 && out[n - 1] != '/') n--`. -/
def backUp (cells : Nat → UInt8) : Nat → Nat
  | 0 => 0
  | n + 1 => if 1 < n + 1 ∧ cells n ≠ slash then backUp cells n else n + 1

/-- A component that is not empty; there may be no room for it. -/
def component (max : Nat) (out : Out) (name : List UInt8) : Option Out :=
  if name = [dot] then some out
  else if name = [dot, dot] then some (if 1 < out.n then { out with n := backUp out.cells (out.n - 1) } else out)
  else if out.n + name.length + 2 ≥ max then none
  else some ((if 1 < out.n then out.put slash else out).puts name)

/-- The loop over one of the two strings. Every round takes at least one byte of it, so that
there are at most as many rounds as bytes. The buffer comes back also where the function has
to give up. -/
def walk (max : Nat) : (fuel : Nat) → List UInt8 → Out → Bool × Out
  | 0, _, out => (true, out)
  | fuel + 1, p, out =>
    let rest := p.dropWhile (· == slash)
    let name := rest.takeWhile (· != slash)
    if name = [] then (true, out)
    else
      match component max out name with
      | none => (false, out)
      | some next => walk max fuel (rest.dropWhile (· != slash)) next

/-- `path_join`: the length that is returned, and the buffer. -/
def pathJoin (cwd input : Str) (cells : Nat → UInt8) (max : Nat) : Nat × (Nat → UInt8) :=
  if max < 2 then (0, cells)
  else
    let start := Out.put ⟨cells, 0⟩ slash
    let first := if input.1.head? = some slash then (true, start) else walk max cwd.1.length cwd.1 start
    if first.1 = false then (0, first.2.cells)
    else
      let second := walk max input.1.length input.1 first.2
      if second.1 = false then (0, second.2.cells)
      else (second.2.n, update second.2.cells second.2.n 0)

/-! What the result should be. -/

/-- The components of a path that are not empty. -/
def names (p : List UInt8) : List (List UInt8) := (p.splitOnP (· == slash)).filter (· ≠ [])

/-- A component is entered into the list of directories, the last one in front. -/
def enter (dirs : List (List UInt8)) (name : List UInt8) : List (List UInt8) :=
  if name = [dot] then dirs else if name = [dot, dot] then dirs.tail else name :: dirs

/-- The components that count: those of the path alone, if it is absolute. -/
def given (cwd input : Str) : List (List UInt8) :=
  if input.1.head? = some slash then names input.1 else names cwd.1 ++ names input.1

def resolve (parts : List (List UInt8)) : List (List UInt8) := (parts.foldl enter []).reverse

/-- The path with these components. -/
def pathText (dirs : List (List UInt8)) : List UInt8 := slash :: [slash].intercalate dirs

/-- The buffer holds a string of this length, and it is the path that is meant. -/
structure Normalised (cwd input : Str) (max n : Nat) (cells : Nat → UInt8) : Prop where
  short : n < max
  ended : cells n = 0
  whole : ∀ i < n, cells i ≠ 0
  text : slice cells 0 n = pathText (resolve (given cwd input))

/-! When it is. -/

/-- How many `..` it takes to empty the buffer, and whether there is a slash at its end. -/
structure Shape where
  owed : Nat
  slashed : Bool
deriving DecidableEq

def Shape.step (shape : Shape) (name : List UInt8) : Shape :=
  if name = [dot] then shape
  else if name = [dot, dot] then (if shape.owed ≤ 1 then ⟨0, false⟩ else ⟨shape.owed - 1, true⟩)
  else ⟨shape.owed + (if shape.slashed then 2 else 1), false⟩

/-- After the last `..` that empties the buffer there is no other one. -/
def straight : (shape : Shape) → (clean : Bool) → List (List UInt8) → Bool
  | _, clean, [] => clean
  | shape, clean, name :: rest =>
    straight (shape.step name) (if name = [dot, dot] then decide (shape.owed ≤ 1) else clean) rest

section Names

variable {p : List UInt8}

theorem names_nil : names [] = [] := by decide

theorem names_slash : names (slash :: p) = names p := by
  have split_ : (slash :: p).splitOnP (· == slash) = [] :: p.splitOnP (· == slash) :=
    @List.splitOnP_append_cons_of_forall_mem _ (· == slash) [] nofun slash (by decide) p
  rw [names, split_, filter_cons_of_neg (by simp), names]

theorem names_dropWhile : names (p.dropWhile (· == slash)) = names p := by
  induction p with
  | nil => rfl
  | cons byte rest ih =>
    by_cases here : byte = slash
    · rw [dropWhile_cons_of_pos (by simpa using here), ih, here, names_slash]
    · rw [dropWhile_cons_of_neg (by simpa using here)]

theorem names_takeWhile (some_ : p.takeWhile (· != slash) ≠ []) :
    names p = p.takeWhile (· != slash) :: names (p.dropWhile (· != slash)) := by
  have plain : ∀ byte ∈ p.takeWhile (· != slash), (byte == slash) = false := fun byte member => by
    simpa using mem_takeWhile_imp member
  have parts := takeWhile_append_dropWhile (p := (· != slash)) (l := p)
  cases after : p.dropWhile (· != slash) with
  | nil =>
    rw [after, append_nil] at parts
    have single : p.splitOnP (· == slash) = [p.takeWhile (· != slash)] := by
      conv_lhs => rw [← parts]
      exact splitOnP_eq_singleton plain
    rw [names, single, names_nil, filter_cons_of_pos (by simpa using some_), filter_nil]
  | cons byte rest =>
    have at_ : byte = slash := by
      have stops := head_dropWhile_not (p := (· != slash)) (l := p) (by rw [after]; exact cons_ne_nil _ _)
      simpa [after] using stops
    subst at_
    rw [after] at parts
    have split_ : p.splitOnP (· == slash) = p.takeWhile (· != slash) :: rest.splitOnP (· == slash) := by
      conv_lhs => rw [← parts]
      exact splitOnP_append_cons_of_forall_mem plain slash (by decide) rest
    rw [names, split_, names_slash, filter_cons_of_pos (by simpa using some_), names]

theorem names_of_empty (empty : (p.dropWhile (· == slash)).takeWhile (· != slash) = []) : names p = [] := by
  rw [← names_dropWhile]
  cases rest : p.dropWhile (· == slash) with
  | nil => exact names_nil
  | cons byte tail =>
    have starts := head_dropWhile_not (p := (· == slash)) (l := p) (by rw [rest]; exact cons_ne_nil _ _)
    rw [rest, takeWhile_cons_of_pos (by simpa [rest] using starts)] at empty
    cases empty

theorem rest_shorter (some_ : (p.dropWhile (· == slash)).takeWhile (· != slash) ≠ []) :
    ((p.dropWhile (· == slash)).dropWhile (· != slash)).length < p.length := by
  have parts := congrArg List.length (takeWhile_append_dropWhile (p := (· != slash)) (l := p.dropWhile (· == slash)))
  rw [length_append] at parts
  have positive := length_pos_iff.mpr some_
  have less := (dropWhile_suffix (l := p) (· == slash)).length_le
  omega

theorem names_plain {fuel : Nat} (enough : p.length ≤ fuel) : ∀ name ∈ names p, name ≠ [] ∧ slash ∉ name ∧ name ⊆ p := by
  induction fuel generalizing p with
  | zero =>
    rw [length_eq_zero_iff.mp (le_zero.mp enough), names_nil]
    exact nofun
  | succ fuel ih =>
    by_cases empty : (p.dropWhile (· == slash)).takeWhile (· != slash) = []
    · rw [names_of_empty empty]
      exact nofun
    · have within := (dropWhile_suffix (l := p) (· == slash)).subset
      rw [← names_dropWhile, names_takeWhile empty]
      intro name member
      rcases mem_cons.mp member with rfl | later
      · refine ⟨empty, fun inside => ?_, fun byte inside => within ((List.takeWhile_prefix _).subset inside)⟩
        have := mem_takeWhile_imp inside
        simp at this
      · have shorter := rest_shorter empty
        obtain ⟨some_, plain, below⟩ := ih (by omega) name later
        exact ⟨some_, plain, fun byte inside => within ((dropWhile_suffix _).subset (below inside))⟩

def components (max : Nat) : List (List UInt8) → Out → Bool × Out
  | [], out => (true, out)
  | name :: rest, out =>
    match component max out name with
    | none => (false, out)
    | some next => components max rest next

theorem walk_eq {max fuel : Nat} {out : Out} (enough : p.length ≤ fuel) : walk max fuel p out = components max (names p) out := by
  induction fuel generalizing p out with
  | zero =>
    rw [length_eq_zero_iff.mp (le_zero.mp enough), names_nil]
    rfl
  | succ fuel ih =>
    unfold walk
    dsimp only
    by_cases empty : (p.dropWhile (· == slash)).takeWhile (· != slash) = []
    · rw [if_pos empty, names_of_empty empty]
      rfl
    · have shorter := rest_shorter empty
      rw [if_neg empty, ← @names_dropWhile p, names_takeWhile empty, components]
      cases component max out ((p.dropWhile (· == slash)).takeWhile (· != slash)) with
      | none => rfl
      | some next => exact ih (by omega)

theorem components_append {max : Nat} {first second : List (List UInt8)} {out : Out} :
    components max (first ++ second) out =
      if (components max first out).1 = false then components max first out else components max second (components max first out).2 := by
  induction first generalizing out with
  | nil => rfl
  | cons name rest ih =>
    rw [cons_append, components, components]
    cases component max out name with
    | none => rfl
    | some next => exact ih

theorem pathJoin_eq {cwd input : Str} {cells : Nat → UInt8} {max : Nat} (large : 2 ≤ max) :
    pathJoin cwd input cells max =
      let done := components max (given cwd input) (Out.put ⟨cells, 0⟩ slash)
      if done.1 = false then (0, done.2.cells) else (done.2.n, update done.2.cells done.2.n 0) := by
  unfold pathJoin given
  rw [if_neg (Nat.not_lt.mpr large)]
  dsimp only
  by_cases absolute : input.1.head? = some slash
  · rw [if_pos absolute, if_pos absolute, if_neg (fun wrong : true = false => nomatch wrong), walk_eq (Nat.le_refl _)]
  · rw [if_neg absolute, if_neg absolute, walk_eq (Nat.le_refl _), walk_eq (Nat.le_refl _), components_append]
    by_cases failed : (components max (names cwd.1) (Out.put ⟨cells, 0⟩ slash)).1 = false
    · rw [if_pos failed, if_pos failed, if_pos failed]
    · rw [if_neg failed, if_neg failed]

end Names

/-! What is in the buffer. -/

def textOf : List (List UInt8 × Nat) → List UInt8
  | [] => [slash]
  | (name, slashes) :: below => textOf below ++ name ++ List.replicate slashes slash

/-- One more slash after the last name. -/
def bump : List (List UInt8 × Nat) → List (List UInt8 × Nat)
  | [] => []
  | (name, slashes) :: below => (name, slashes + 1) :: below

/-- `..` takes a name away, unless there is more than one slash to take. -/
def popName : List (List UInt8 × Nat) → List (List UInt8 × Nat)
  | [] => []
  | (name, slashes) :: below => if 2 ≤ slashes then (name, slashes - 1) :: below else below

/-- Names are proper, and all but the last are followed by slashes. -/
structure Chunks (chunks : List (List UInt8 × Nat)) : Prop where
  plain : ∀ chunk ∈ chunks, chunk.1 ≠ [] ∧ slash ∉ chunk.1 ∧ 0 ∉ chunk.1
  parted : ∀ chunk ∈ chunks.tail, 1 ≤ chunk.2

section Texts

variable {chunks : List (List UInt8 × Nat)} {name : List UInt8} {slashes : Nat}

theorem textOf_bump (some_ : chunks ≠ []) : textOf (bump chunks) = textOf chunks ++ [slash] := by
  cases chunks with
  | nil => exact absurd rfl some_
  | cons chunk below =>
    rw [bump, textOf, textOf, replicate_succ', ← append_assoc]

theorem Chunks.below {chunk : List UInt8 × Nat} (proper : Chunks (chunk :: chunks)) : Chunks chunks :=
  ⟨fun other member => proper.plain other (mem_cons_of_mem _ member),
    fun other member => proper.parted other (mem_of_mem_tail member)⟩

theorem mem_bump {chunk : List UInt8 × Nat} (member : chunk ∈ bump chunks) :
    1 ≤ chunk.2 ∧ (chunk.1, chunk.2 - 1) ∈ chunks.head? ∨ chunk ∈ chunks.tail := by
  cases chunks with
  | nil => cases member
  | cons first below =>
    rcases mem_cons.mp member with rfl | later
    · exact .inl ⟨Nat.le_add_left .., rfl⟩
    · exact .inr later

section

variable (proper : Chunks chunks)
include proper

theorem Chunks.bump_parted : ∀ chunk ∈ bump chunks, 1 ≤ chunk.2 := by
  intro chunk member
  rcases mem_bump member with ⟨positive, -⟩ | later
  · exact positive
  · exact proper.parted chunk later

theorem Chunks.bump_plain : ∀ chunk ∈ bump chunks, chunk.1 ≠ [] ∧ slash ∉ chunk.1 ∧ 0 ∉ chunk.1 := by
  intro chunk member
  rcases mem_bump member with ⟨-, first⟩ | later
  · exact proper.plain (chunk.1, chunk.2 - 1) (mem_of_mem_head? first)
  · exact proper.plain chunk (mem_of_mem_tail later)

theorem Chunks.push (plain : name ≠ [] ∧ slash ∉ name ∧ 0 ∉ name) : Chunks ((name, 0) :: bump chunks) :=
  ⟨forall_mem_cons.mpr ⟨plain, proper.bump_plain⟩, proper.bump_parted⟩

theorem Chunks.pop : Chunks (popName chunks) := by
  cases chunks with
  | nil => exact proper
  | cons chunk below =>
    rw [popName]
    split_ifs with several
    · exact ⟨forall_mem_cons.mpr ⟨proper.plain chunk mem_cons_self, proper.below.plain⟩, proper.parted⟩
    · exact proper.below

end

theorem textOf_ends (parted : ∀ chunk ∈ chunks.head?, 1 ≤ chunk.2) : (textOf chunks).getLast? = some slash := by
  cases chunks with
  | nil => rfl
  | cons chunk below =>
    obtain ⟨slashes, more⟩ : ∃ slashes, chunk.2 = slashes + 1 := ⟨chunk.2 - 1, by have := parted chunk rfl; omega⟩
    rw [textOf, more, replicate_succ', ← append_assoc, getLast?_concat]

theorem Chunks.pop_slashed (proper : Chunks chunks) : ∀ chunk ∈ (popName chunks).head?, 1 ≤ chunk.2 := by
  cases chunks with
  | nil => exact nofun
  | cons chunk below =>
    intro left first
    rw [popName] at first
    split_ifs at first with several
    · cases first
      exact le_sub_one_of_lt several
    · exact proper.parted left (mem_of_mem_head? first)

/-- What `..` takes from the text: a last byte, and what stands before it up to a slash. -/
theorem textOf_pop (proper : Chunks chunks) (some_ : chunks ≠ []) :
    ∃ taken byte, textOf chunks = textOf (popName chunks) ++ taken ++ [byte] ∧ slash ∉ taken ∧
      (textOf (popName chunks)).getLast? = some slash := by
  cases chunks with
  | nil => exact absurd rfl some_
  | cons chunk below =>
    obtain ⟨name, slashes⟩ := chunk
    obtain ⟨nonempty, plain, -⟩ := proper.plain _ mem_cons_self
    have ends := textOf_ends proper.pop_slashed
    rcases slashes with - | - | slashes
    · refine ⟨name.dropLast, name.getLast nonempty, ?_, fun inside => plain (mem_of_mem_dropLast inside), ends⟩
      rw [popName, if_neg (by decide), textOf, replicate_zero, append_nil, append_assoc, dropLast_append_getLast]
    · exact ⟨name, slash, rfl, plain, ends⟩
    · refine ⟨[], slash, ?_, nofun, ends⟩
      rw [popName, if_pos (by omega), textOf, textOf, append_nil, replicate_succ', ← append_assoc]
      rfl

theorem textOf_positive : 1 ≤ (textOf chunks).length := by
  induction chunks with
  | nil => exact Nat.le_refl _
  | cons chunk below ih =>
    rw [textOf, length_append, length_append]
    omega

theorem textOf_long (proper : Chunks chunks) : 1 < (textOf chunks).length ↔ chunks ≠ [] := by
  cases chunks with
  | nil => decide
  | cons chunk below =>
    have named := length_pos_iff.mpr (proper.plain chunk mem_cons_self).1
    have less := @textOf_positive below
    refine ⟨fun _ => cons_ne_nil _ _, fun _ => ?_⟩
    rw [textOf, length_append, length_append]
    omega

theorem textOf_whole (proper : Chunks chunks) : 0 ∉ textOf chunks := by
  induction chunks with
  | nil => decide
  | cons chunk below ih =>
    intro inside
    rcases mem_append.mp inside with before | after
    · rcases mem_append.mp before with lower | named
      · exact ih proper.below lower
      · exact (proper.plain chunk mem_cons_self).2.2 named
    · exact absurd (eq_of_mem_replicate after) (by decide)

end Texts

/-! Single slashes. -/

def Single (text : List UInt8) : Prop := text.IsChain fun a b => ¬ (a = slash ∧ b = slash)

section Singles

variable {chunks : List (List UInt8 × Nat)} {dirs : List (List UInt8)} {name : List UInt8}

theorem single_plain (plain : slash ∉ name) : Single name := by
  induction name with
  | nil => exact .nil
  | cons byte rest ih =>
    exact List.IsChain.cons (ih fun later => plain (mem_cons_of_mem _ later))
      fun next _ both => plain (both.1 ▸ mem_cons_self)

theorem Single.extend {text : List UInt8} (single : Single text) (nonempty : name ≠ []) (plain : slash ∉ name) :
    Single (text ++ name ++ [slash]) := by
  refine isChain_append.mpr ⟨isChain_append.mpr ⟨single, single_plain plain, ?_⟩, .singleton _, ?_⟩
  · exact fun a _ b first both => plain (both.2 ▸ mem_of_mem_head? first)
  · intro a last b _ both
    rw [getLast?_append_of_ne_nil _ nonempty] at last
    exact plain (both.1 ▸ mem_of_getLast? last)

theorem textOf_single (plain : ∀ name ∈ dirs, name ≠ [] ∧ slash ∉ name) : Single (textOf (dirs.map (·, 1))) := by
  induction dirs with
  | nil => exact .singleton _
  | cons name below ih =>
    obtain ⟨nonempty, free⟩ := plain name mem_cons_self
    exact (ih fun name member => plain name (mem_cons_of_mem _ member)).extend nonempty free

theorem textOf_double {chunk : List UInt8 × Nat} (member : chunk ∈ chunks) (several : 2 ≤ chunk.2) : ¬ Single (textOf chunks) := by
  induction chunks with
  | nil => cases member
  | cons first below ih =>
    intro single
    obtain ⟨lower, here, -⟩ := isChain_append.mp single
    rcases mem_cons.mp member with rfl | later
    · obtain ⟨more, eq⟩ : ∃ more, chunk.2 = more + 1 + 1 := ⟨chunk.2 - 2, by omega⟩
      rw [eq] at here
      exact (isChain_cons_cons.mp here).1 ⟨rfl, rfl⟩
    · exact ih later (isChain_append.mp lower).1

theorem textOf_flatMap : textOf (dirs.map (·, 1)) = slash :: dirs.reverse.flatMap (· ++ [slash]) := by
  induction dirs with
  | nil => rfl
  | cons name below ih =>
    rw [map_cons, textOf, ih, reverse_cons, flatMap_append, flatMap_singleton, ← cons_append, append_assoc]
    rfl

theorem intercalate_slash (some_ : dirs ≠ []) : [slash].intercalate dirs ++ [slash] = dirs.flatMap (· ++ [slash]) := by
  induction dirs with
  | nil => exact absurd rfl some_
  | cons name rest ih =>
    cases rest with
    | nil => simp
    | cons next rest =>
      rw [flatMap_cons, ← ih (cons_ne_nil _ _)]
      simp

theorem pathText_slash (some_ : dirs ≠ []) : pathText dirs.reverse ++ [slash] = textOf (dirs.map (·, 1)) := by
  rw [textOf_flatMap, pathText, cons_append, intercalate_slash (reverse_ne_nil_iff.mpr some_)]

theorem textOf_eq_iff (proper : Chunks chunks) (plain : ∀ name ∈ dirs, name ≠ [] ∧ slash ∉ name) :
    (bump chunks = dirs.map (·, 1) → textOf chunks = pathText dirs.reverse) ∧
      ((∃ chunk ∈ bump chunks, 2 ≤ chunk.2) → textOf chunks ≠ pathText dirs.reverse) := by
  by_cases none_ : dirs = []
  · subst none_
    refine ⟨fun same => ?_, fun ⟨chunk, member, _⟩ same => ?_⟩
    · cases chunks with
      | nil => rfl
      | cons chunk below => cases same
    · have empty := (textOf_long proper).not.mp (by rw [same]; decide)
      rw [not_not.mp empty] at member
      cases member
  · have some_ : bump chunks ≠ [] → chunks ≠ [] := fun nonempty empty => nonempty (by rw [empty]; rfl)
    refine ⟨fun same => ?_, fun ⟨chunk, member, several⟩ same => ?_⟩
    · have slashed := textOf_bump (some_ (by rw [same]; exact fun empty => none_ (map_eq_nil_iff.mp empty)))
      rw [same, ← pathText_slash none_] at slashed
      exact (append_cancel_right slashed).symm
    · refine textOf_double member several ?_
      rw [textOf_bump (some_ (ne_nil_of_mem member)), same, pathText_slash none_]
      exact textOf_single plain

end Singles

/-! The buffer. -/

section Buffer

variable {chunks : List (List UInt8 × Nat)} {out : Out} {max n : Nat} {name : List UInt8} {cells : Nat → UInt8}

theorem slice_put {byte : UInt8} : slice (out.put byte).cells 0 (out.put byte).n = slice out.cells 0 out.n ++ [byte] := by
  have before : slice (update out.cells out.n byte) 0 out.n = slice out.cells 0 out.n :=
    slice_congr fun i bound => update_of_ne (by omega) _ _
  change slice (update out.cells out.n byte) 0 (out.n + 1) = _
  rw [slice_add, before]
  simp [slice]

theorem slice_puts {bytes : List UInt8} : slice (out.puts bytes).cells 0 (out.puts bytes).n = slice out.cells 0 out.n ++ bytes := by
  induction bytes generalizing out with
  | nil => exact (append_nil _).symm
  | cons byte rest ih =>
    have step := @ih (out.put byte)
    rw [slice_put, append_assoc] at step
    exact step

theorem puts_outside {bytes : List UInt8} {i : Nat} (outside : out.n + bytes.length ≤ i) : (out.puts bytes).cells i = out.cells i := by
  induction bytes generalizing out with
  | nil => rfl
  | cons byte rest ih =>
    rw [length_cons] at outside
    have step := @ih (out.put byte) (by change out.n + 1 + rest.length ≤ i; omega)
    exact step.trans (update_of_ne (by omega) _ _)

theorem slice_front {front rest : List UInt8} (text : slice cells 0 n = front ++ rest) : slice cells 0 front.length = front := by
  have lengths := congrArg List.length text
  rw [length_slice, length_append] at lengths
  rw [lengths, slice_add] at text
  exact (append_inj text length_slice).1

theorem slice_last {front : List UInt8} {byte : UInt8} (text : slice cells 0 n = front ++ [byte]) :
    ∃ last, n = last + 1 ∧ slice cells 0 last = front ∧ cells last = byte := by
  have lengths := congrArg List.length text
  rw [length_slice, length_append, length_singleton] at lengths
  subst lengths
  rw [slice_add] at text
  obtain ⟨before, last⟩ := append_inj text length_slice
  refine ⟨front.length, rfl, before, ?_⟩
  simpa [slice] using last

theorem backUp_plain {front taken : List UInt8} (ends : front.getLast? = some slash) (plain : slash ∉ taken)
    (text : slice cells 0 n = front ++ taken) : backUp cells n = front.length := by
  induction taken using List.reverseRecOn generalizing n with
  | nil =>
    have whole := dropLast_append_getLast? slash ends
    rw [append_nil, ← whole] at text
    obtain ⟨last, rfl, -, here⟩ := slice_last text
    have lengths := congrArg List.length text
    rw [length_slice, whole] at lengths
    rw [backUp, if_neg fun both => both.2 here, lengths]
  | append_singleton rest byte ih =>
    rw [← append_assoc] at text
    obtain ⟨last, rfl, before, here⟩ := slice_last text
    have lengths := congrArg List.length before
    have positive : front ≠ [] := fun empty => by rw [empty] at ends; cases ends
    have long := length_pos_iff.mpr positive
    rw [length_slice, length_append] at lengths
    have other : cells last ≠ slash := fun same => plain (by rw [← same, here]; exact mem_append_right _ (mem_singleton_self _))
    rw [backUp, if_pos ⟨by omega, other⟩]
    exact ih (fun inside => plain (mem_append_left _ inside)) before

end Buffer

/-- What is in the buffer when some components have been taken, and the reference has these directories. -/
structure Track (max : Nat) (cells : Nat → UInt8) (dirs : List (List UInt8)) (shape : Shape) (clean : Bool)
    (chunks : List (List UInt8 × Nat)) (out : Out) : Prop where
  text : slice out.cells 0 out.n = textOf chunks
  fits : out.n < max
  outside : ∀ i ≥ max, out.cells i = cells i
  proper : Chunks chunks
  plain : ∀ name ∈ dirs, name ≠ [] ∧ slash ∉ name
  owed : shape.owed = (chunks.map fun chunk => 1 ⊔ chunk.2).sum
  slashed : shape.slashed = chunks.head?.any fun chunk => decide (1 ≤ chunk.2)
  few : dirs.length ≤ shape.owed
  even : clean = true → bump chunks = dirs.map (·, 1)
  rough : clean = false → ∃ chunk ∈ bump chunks, 2 ≤ chunk.2

section Tracking

variable {max : Nat} {cells : Nat → UInt8} {dirs : List (List UInt8)} {shape : Shape} {clean : Bool}
  {chunks : List (List UInt8 × Nat)} {out : Out} {name : List UInt8}

theorem Track.long (track : Track max cells dirs shape clean chunks out) : 1 < out.n ↔ chunks ≠ [] := by
  rw [← textOf_long track.proper, ← track.text, length_slice]

theorem owed_bump : ((bump chunks).map fun chunk => 1 ⊔ chunk.2).sum =
    (chunks.map fun chunk => 1 ⊔ chunk.2).sum + if (chunks.head?.any fun chunk => decide (1 ≤ chunk.2)) then 1 else 0 := by
  cases chunks with
  | nil => rfl
  | cons chunk below =>
    obtain ⟨name, slashes⟩ := chunk
    rw [bump, map_cons, map_cons, sum_cons, sum_cons]
    rcases slashes with - | slashes
    · rfl
    · simp
      omega

theorem Track.push (track : Track max cells dirs shape clean chunks out) (plain : name ≠ [] ∧ slash ∉ name ∧ 0 ∉ name)
    (room : out.n + name.length + 2 < max) :
    Track max cells (name :: dirs) ⟨shape.owed + if shape.slashed then 2 else 1, false⟩ clean ((name, 0) :: bump chunks)
      ((if 1 < out.n then out.put slash else out).puts name) := by
  have text : slice (if 1 < out.n then out.put slash else out).cells 0 (if 1 < out.n then out.put slash else out).n =
      textOf (bump chunks) := by
    by_cases some_ : chunks = []
    · subst some_
      rw [if_neg (track.long.not.mpr (not_not.mpr rfl)), track.text]
      rfl
    · rw [if_pos (track.long.mpr some_), slice_put, track.text, textOf_bump some_]
  have whole : slice ((if 1 < out.n then out.put slash else out).puts name).cells 0
      ((if 1 < out.n then out.put slash else out).puts name).n = textOf ((name, 0) :: bump chunks) := by
    rw [slice_puts, text, textOf, replicate_zero, append_nil]
  have at_ : (if 1 < out.n then out.put slash else out).n ≤ out.n + 1 := by
    split_ifs
    · exact Nat.le_refl _
    · exact Nat.le_add_right ..
  have lengths := congrArg List.length whole
  have before := congrArg List.length text
  rw [length_slice] at lengths before
  rw [textOf, length_append, length_append, length_replicate] at lengths
  refine ⟨whole, by omega, fun i large => ?_, track.proper.push plain, ?_, ?_, rfl, ?_, fun even => ?_, fun rough => ?_⟩
  · rw [puts_outside (by omega), ← track.outside i large]
    have := track.fits
    split_ifs
    · exact update_of_ne (by omega) _ _
    · rfl
  · exact forall_mem_cons.mpr ⟨⟨plain.1, plain.2.1⟩, track.plain⟩
  · rw [map_cons, sum_cons, owed_bump, ← track.slashed, ← track.owed]
    change shape.owed + (if shape.slashed then 2 else 1) = 1 + _
    split_ifs <;> omega
  · have := track.few
    change dirs.length + 1 ≤ shape.owed + (if shape.slashed then 2 else 1)
    split_ifs <;> omega
  · rw [bump, track.even even, map_cons]
  · obtain ⟨chunk, member, several⟩ := track.rough rough
    exact ⟨chunk, mem_cons_of_mem _ member, several⟩

theorem owed_pop (some_ : chunks ≠ []) : ((popName chunks).map fun chunk => 1 ⊔ chunk.2).sum + 1 = (chunks.map fun chunk => 1 ⊔ chunk.2).sum := by
  cases chunks with
  | nil => exact absurd rfl some_
  | cons chunk below =>
    rw [popName]
    split_ifs with several
    · simp only [map_cons, sum_cons]
      omega
    · simp only [map_cons, sum_cons]
      omega

theorem owed_zero (none_ : (chunks.map fun chunk => 1 ⊔ chunk.2).sum = 0) : chunks = [] := by
  cases chunks with
  | nil => rfl
  | cons chunk below =>
    simp only [map_cons, sum_cons] at none_
    omega

section

variable (track : Track max cells dirs shape clean chunks out)
include track

theorem Track.pop (some_ : chunks ≠ []) :
    Track max cells dirs.tail (if shape.owed ≤ 1 then ⟨0, false⟩ else ⟨shape.owed - 1, true⟩) (decide (shape.owed ≤ 1))
      (popName chunks) { out with n := backUp out.cells (out.n - 1) } := by
  obtain ⟨taken, byte, whole, plain, ends⟩ := textOf_pop track.proper some_
  obtain ⟨last, at_, before, -⟩ := slice_last (track.text.trans whole)
  have stops : backUp out.cells (out.n - 1) = (textOf (popName chunks)).length := by
    rw [at_]
    exact backUp_plain ends plain before
  have lengths := congrArg List.length before
  rw [length_slice, length_append] at lengths
  have fits := track.fits
  have few := track.few
  have owed := owed_pop some_
  rw [← track.owed] at owed
  have text : slice out.cells 0 (backUp out.cells (out.n - 1)) = textOf (popName chunks) := by
    rw [stops]
    exact slice_front before
  have short : backUp out.cells (out.n - 1) < max := by omega
  have tail : ∀ name ∈ dirs.tail, name ≠ [] ∧ slash ∉ name := fun name member => track.plain name (mem_of_mem_tail member)
  by_cases last_ : shape.owed ≤ 1
  · have left := @owed_zero (popName chunks) (by omega)
    have none_ : dirs.tail = [] := length_eq_zero_iff.mp (by rw [length_tail]; omega)
    rw [if_pos last_, decide_eq_true last_]
    refine ⟨text, short, track.outside, track.proper.pop, tail, ?_, ?_, ?_, fun _ => ?_, nofun⟩
    · rw [left]
      rfl
    · rw [left]
      rfl
    · rw [none_]
      exact Nat.le_refl _
    · rw [left, none_]
      rfl
  · rw [if_neg last_, decide_eq_false last_]
    have slashed := track.proper.pop_slashed
    cases rest : popName chunks with
    | nil =>
      rw [rest] at owed
      exact absurd owed (by change ¬ 0 + 1 = shape.owed; omega)
    | cons first below =>
      rw [rest] at slashed owed text
      have positive := slashed first rfl
      refine ⟨text, short, track.outside, rest ▸ track.proper.pop, tail, Nat.sub_eq_of_eq_add owed.symm, (decide_eq_true positive).symm, ?_, nofun,
        fun _ => ⟨(first.1, first.2 + 1), mem_cons_self, succ_le_succ positive⟩⟩
      rw [length_tail]
      change dirs.length - 1 ≤ shape.owed - 1
      omega

theorem Track.component {next : Out}
    (plain : name ≠ [] ∧ slash ∉ name ∧ 0 ∉ name) (taken : component max out name = some next) :
    ∃ chunks, Track max cells (enter dirs name) (shape.step name)
      (if name = [dot, dot] then decide (shape.owed ≤ 1) else clean) chunks next := by
  unfold Syscall.component at taken
  unfold enter Shape.step
  by_cases same : name = [dot]
  · rw [if_pos same] at taken
    have other : name ≠ [dot, dot] := by rw [same]; decide
    rw [if_pos same, if_pos same, if_neg other, ← Option.some.inj taken]
    exact ⟨chunks, track⟩
  · rw [if_neg same] at taken
    rw [if_neg same, if_neg same]
    by_cases parent : name = [dot, dot]
    · rw [if_pos parent] at taken
      rw [if_pos parent, if_pos parent, if_pos parent, ← Option.some.inj taken]
      by_cases some_ : chunks = []
      · subst some_
        have owed : shape.owed = 0 := track.owed
        have few := track.few
        have none_ : dirs = [] := length_eq_zero_iff.mp (by omega)
        subst none_
        rw [if_neg (track.long.not.mpr (not_not.mpr rfl)), if_pos (by omega), decide_eq_true (by omega)]
        exact ⟨[], track.text, track.fits, track.outside, track.proper, nofun, rfl, rfl, Nat.le_refl _, fun _ => rfl, nofun⟩
      · rw [if_pos (track.long.mpr some_)]
        exact ⟨popName chunks, track.pop some_⟩
    · rw [if_neg parent] at taken
      rw [if_neg parent, if_neg parent, if_neg parent]
      by_cases room : out.n + name.length + 2 ≥ max
      · rw [if_pos room] at taken
        cases taken
      · rw [if_neg room] at taken
        rw [← Option.some.inj taken]
        exact ⟨(name, 0) :: bump chunks, track.push plain (by omega)⟩

theorem Track.components {parts : List (List UInt8)} (plain : ∀ name ∈ parts, name ≠ [] ∧ slash ∉ name ∧ 0 ∉ name) :
    (∀ i ≥ max, (components max parts out).2.cells i = cells i) ∧
      ((components max parts out).1 = true → ∃ chunks shape',
        Track max cells (parts.foldl enter dirs) shape' (straight shape clean parts) chunks (components max parts out).2) := by
  induction parts generalizing dirs shape clean chunks out with
  | nil => exact ⟨track.outside, fun _ => ⟨chunks, shape, track⟩⟩
  | cons name rest ih =>
    rw [Syscall.components]
    cases taken : Syscall.component max out name with
    | none => exact ⟨track.outside, nofun⟩
    | some next =>
      obtain ⟨chunks', track'⟩ := track.component (plain name mem_cons_self) taken
      exact ih track' fun name member => plain name (mem_cons_of_mem _ member)

theorem Track.text_iff : slice (update out.cells out.n 0) 0 out.n = pathText dirs.reverse ↔ clean = true := by
  have before : slice (update out.cells out.n 0) 0 out.n = textOf chunks :=
    (slice_congr fun i bound => update_of_ne (by omega) _ _).trans track.text
  obtain ⟨right, wrong⟩ := textOf_eq_iff track.proper track.plain
  rw [before]
  cases clean with
  | true => exact ⟨fun _ => rfl, fun _ => right (track.even rfl)⟩
  | false => exact ⟨fun same => absurd same (wrong (track.rough rfl)), nofun⟩

theorem Track.whole {i : Nat} (bound : i < out.n) : update out.cells out.n 0 i ≠ 0 := by
  rw [update_of_ne (by omega)]
  intro zero
  refine textOf_whole track.proper ?_
  rw [← track.text, ← zero]
  exact mem_map.mpr ⟨i, mem_range.mpr bound, by rw [Nat.zero_add]⟩

end

end Tracking

theorem given_plain {cwd input : Str} : ∀ name ∈ given cwd input, name ≠ [] ∧ slash ∉ name ∧ 0 ∉ name := by
  have proper : ∀ p : Str, ∀ name ∈ names p.1, name ≠ [] ∧ slash ∉ name ∧ 0 ∉ name := fun p name member =>
    have ⟨some_, plain, within⟩ := names_plain (Nat.le_refl _) name member
    ⟨some_, plain, fun zero => p.2 (within zero)⟩
  intro name member
  unfold given at member
  split_ifs at member
  · exact proper input name member
  · rcases mem_append.mp member with first | second
    · exact proper cwd name first
    · exact proper input name second

/-- `path_join` never writes behind the buffer. A path that it returns is the one that is meant if
and only if each `..` after which names are left comes before a `..` that leaves none. -/
theorem pathJoin_normalised_iff (cwd input : Str) (cells : Nat → UInt8) (max : Nat) :
    (∀ i ≥ max, (pathJoin cwd input cells max).2 i = cells i) ∧ (0 < (pathJoin cwd input cells max).1 →
        (Normalised cwd input max (pathJoin cwd input cells max).1 (pathJoin cwd input cells max).2 ↔
          straight ⟨0, false⟩ true (given cwd input) = true)) := by
  by_cases small : max < 2
  · rw [pathJoin, if_pos small]
    exact ⟨fun _ _ => rfl, fun positive => absurd positive (Nat.lt_irrefl 0)⟩
  have start : Track max cells [] ⟨0, false⟩ true [] (Out.put ⟨cells, 0⟩ slash) :=
    ⟨rfl, Nat.not_lt.mp small, fun i outside => update_of_ne (Nat.pos_iff_ne_zero.mp (by omega)) _ _, ⟨nofun, nofun⟩, nofun, rfl, rfl,
      Nat.le_refl _, fun _ => rfl, nofun⟩
  obtain ⟨outside, tracked⟩ := start.components (@given_plain cwd input)
  rw [pathJoin_eq (Nat.not_lt.mp small)]
  dsimp only
  by_cases failed : (components max (given cwd input) (Out.put ⟨cells, 0⟩ slash)).1 = false
  · rw [if_pos failed]
    exact ⟨outside, fun positive => absurd positive (Nat.lt_irrefl 0)⟩
  · rw [if_neg failed]
    obtain ⟨chunks, shape, track⟩ := tracked (Bool.not_eq_false _ ▸ failed)
    generalize (components max (given cwd input) (Out.put ⟨cells, 0⟩ slash)).2 = out at outside track
    refine ⟨fun i large => (update_of_ne (by have := track.fits; omega) _ _).trans (outside i large), fun _ => ?_⟩
    refine ⟨fun normal => track.text_iff.mp normal.text, fun clean => ?_⟩
    exact ⟨track.fits, update_self .., fun i bound => track.whole bound, track.text_iff.mpr clean⟩

/-- A `..` that goes back to the root leaves no trace. -/
theorem pathJoin_normalised_root :
    let result := pathJoin ⟨[slash, 0x61], by decide⟩ ⟨[dot, dot, slash, 0x62], by decide⟩ (fun _ => 0) 256
    Normalised ⟨[slash, 0x61], by decide⟩ ⟨[dot, dot, slash, 0x62], by decide⟩ 256 result.1 result.2 :=
  ((pathJoin_normalised_iff ⟨[slash, 0x61], by decide⟩ ⟨[dot, dot, slash, 0x62], by decide⟩ (fun _ => 0) 256).2
    (by decide +kernel)).mpr (by decide +kernel)

/-- Going up from `/a/b` leaves a slash, and the next name is put after another one. -/
theorem parent_keeps_slash :
    let up : Str := ⟨[0x61, slash, 0x62, slash, dot, dot], by decide⟩
    let across : Str := ⟨[0x61, slash, 0x62, slash, dot, dot, slash, 0x63], by decide⟩
    let result := fun input : Str => pathJoin ⟨[slash], by decide⟩ input (fun _ => 0) 256
    slice (result up).2 0 (result up).1 = [slash, 0x61, slash] ∧
      slice (result across).2 0 (result across).1 = [slash, 0x61, slash, slash, 0x63] ∧
      ¬ Normalised ⟨[slash], by decide⟩ up 256 (result up).1 (result up).2 ∧
      ¬ Normalised ⟨[slash], by decide⟩ across 256 (result across).1 (result across).2 := by
  refine ⟨by decide +kernel, by decide +kernel, fun normal => ?_, fun normal => ?_⟩
  · exact absurd normal.text (by decide +kernel)
  · exact absurd normal.text (by decide +kernel)

end NyonOS.Syscall
