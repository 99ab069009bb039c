import NyonOS.Data.Traverse
import NyonOS.Paging.Space

namespace NyonOS.Paging

open Data Function

/-! The two ways to fill a child's address space. -/

variable {σ : Type} [FrameAllocator σ] {depth : Nat}

/-- What the traversal of the parent changes besides the parent's own entries. -/
structure Fork (σ : Type) (depth : Nat) where
  dst : Table depth
  frames : Frames σ
  share : PAddr → Nat
  bytes : PAddr → Page
  done : Nat

/-- A page both traversals look at. -/
def userPage (word : Word) : Bool := has word pagePresent && has word pageUser

def copiedFlags : Word :=
  pagePresent ||| pageUser ||| pageWrite ||| pagePwt ||| pagePcd ||| pageNx

/-- `vmm_map_frames(dst, v, phys, 1, ...)`. -/
def Fork.mapPage (cpuHasNx : Bool) (page : Nat) (phys : PAddr) (flags : Word) (exec owned : Bool)
    (fork : Fork σ depth) : Bool × Fork σ depth :=
  let mapped := vmmMapIn false (page * pageSize) phys 1 (mapFramesFlags cpuHasNx flags exec owned)
    fork.dst fork.frames
  (mapped.1, { fork with dst := mapped.2.1, frames := mapped.2.2 })

/-- The body of `share_user_level` at level 1. -/
def sharePage (cpuHasNx : Bool) (page : Nat) (e : Word) (fork : Fork σ depth) : Bool × Word × Fork σ depth :=
  if !has e pagePresent then (true, e, fork)
  else if !has e pageUser then (true, e, fork)
  else
    let phys := frameOf e
    let owned := has e pageOwned
    if has e pagePinned then
      let nf := e &&& copiedFlags
      let mapped := fork.mapPage cpuHasNx page phys nf (!has e pageNx) false
      if !mapped.1 then (false, e, mapped.2)
      else (true, e, { mapped.2 with done := mapped.2.done + 1 })
    else
      let se := e &&& ~~~pageWrite ||| pageCow
      let nf := se &&& copiedFlags ||| pageCow
      let wasShared := has e pageSharedRef
      let se := if owned then se ||| pageSharedRef else se
      let nf := if owned then nf ||| pageSharedRef else nf
      let mapped := fork.mapPage cpuHasNx page phys nf (!has se pageNx) false
      if !mapped.1 then (false, se, mapped.2)
      else
        let fork := mapped.2
        let share :=
          if owned then
            let share := if !wasShared then pmmShareRef fork.frames.totalPages fork.share phys else fork.share
            pmmShareRef fork.frames.totalPages share phys
          else fork.share
        (true, se, { fork with share, done := fork.done + 1 })

def clonePage (cpuHasNx : Bool) (page : Nat) (e : Word) (fork : Fork σ depth) : Bool × Word × Fork σ depth :=
  if !has e pagePresent then (true, e, fork)
  else if !has e pageUser then (true, e, fork)
  else
    match fork.frames.pmmAlloc with
    | none => (false, e, fork)
    | some (np, frames) =>
      let bytes := update fork.bytes np (fork.bytes (frameOf e))
      let nf := e &&& (pagePresent ||| pageWrite ||| pagePwt ||| pagePcd ||| pageNx)
      let mapped := { fork with frames, bytes }.mapPage cpuHasNx page np nf (!has e pageNx) true
      if !mapped.1 then (false, e, { mapped.2 with frames := mapped.2.frames.pmmFree np })
      else (true, e, { mapped.2 with done := mapped.2.done + 1 })

section

variable (page : Nat → Word → Fork σ depth → Bool × Word × Fork σ depth)

/-- Runs a traversal over the parent with a given body for its pages. -/
def Machine.forkWith (src dst : PAddr) (machine : Machine σ depth) : Bool × Nat × Machine σ depth :=
  match machine.spaces dst with
  | .absent => (false, 0, machine)
  | .node link table =>
    let walked := (machine.spaces src).traverse (·.user) page 0
      { dst := table, frames := machine.frames, share := machine.share, bytes := machine.bytes
        done := 0 }
    let fork := walked.2.2
    (walked.1, fork.done, { machine with
      spaces := update (update machine.spaces src walked.2.1) dst (.node link fork.dst)
      frames := fork.frames
      share := fork.share
      bytes := fork.bytes })

def vmmShareUserSpace (src dst : PAddr) (machine : Machine σ depth) : Bool × Machine σ depth :=
  let forked := machine.forkWith (sharePage machine.cpuHasNx) src dst
  (forked.1, { forked.2.2 with cowSharedTotal := forked.2.2.cowSharedTotal + forked.2.1 })

def vmmCloneUserSpace (src dst : PAddr) (machine : Machine σ depth) : Bool × Machine σ depth :=
  let forked := machine.forkWith (clonePage machine.cpuHasNx) src dst
  (forked.1, forked.2.2)

/-- What no fork touches. -/
structure ForkKeeps (src dst : PAddr) (before after : Machine σ depth) : Prop where
  kernelPml4 : after.kernelPml4 = before.kernelPml4
  cpuHasNx : after.cpuHasNx = before.cpuHasNx
  cowOn : after.cowOn = before.cowOn
  spaces : ∀ {other}, other ≠ src → other ≠ dst → after.spaces other = before.spaces other
  alive : after.alive = before.alive

theorem traverse_alive {τ : Type} (leaf : Nat → Word → τ → Bool × Word × τ) (tree : Tree (depth + 1))
    (base : Nat) (context : τ) :
    (tree.traverse (·.user) leaf base context).2.1 = .absent ↔ tree = .absent := by
  cases tree with
  | absent => simp [Radix.traverse]
  | node link table =>
    have shape : ∃ after, (Radix.traverse (·.user) leaf (.node link table : Tree (depth + 1)) base
        context).2.1 = .node link after := Radix.traverse_node link table base context
    obtain ⟨after, shape⟩ := shape
    simp [shape]

theorem forkWith_keeps (src dst : PAddr)
    (machine : Machine σ depth) : ForkKeeps src dst machine (machine.forkWith page src dst).2.2 := by
  cases space : machine.spaces dst with
  | absent =>
    simp only [Machine.forkWith, space]
    exact ⟨rfl, rfl, rfl, fun _ _ => rfl, rfl⟩
  | node link table =>
    simp only [Machine.forkWith, space]
    refine ⟨rfl, rfl, rfl, fun notSrc notDst => ?_, funext fun place => ?_⟩
    · simp only [update_of_ne notDst, update_of_ne notSrc]
    · by_cases isDst : place = dst
      · simp [Machine.alive, isDst, space]
      by_cases isSrc : place = src
      · subst isSrc
        refine Machine.alive_congr ?_
        simp only [update_of_ne isDst, update_self, traverse_alive]
      · simp [Machine.alive, isDst, isSrc]

end

theorem vmmShareUserSpace_keeps (src dst : PAddr) (machine : Machine σ depth) :
    ForkKeeps src dst machine (vmmShareUserSpace src dst machine).2 := by
  have keeps := forkWith_keeps (sharePage machine.cpuHasNx) src dst machine
  exact ⟨keeps.kernelPml4, keeps.cpuHasNx, keeps.cowOn, keeps.spaces, keeps.alive⟩

/-! Both traversals visit the user pages of the lower half in order. -/

section Traversal

variable {τ : Type} {leaf : Nat → Word → τ → Bool × Word × τ} {link : Link}

theorem query_of_get {table : Table depth} {page : Nat} {word : Word}
    (found : (table (Radix.digit 512 depth page)).get page = some word) :
    table.query page = word ∧ table.Reaches page := by
  rw [Table.query, Table.Reaches, found]
  exact ⟨rfl, rfl⟩

theorem visitStep_table (entered : link.user = true) {now : Table depth} (root : UserRoot now)
    (skip : ∀ page word context, userPage word = false →
      leaf page word context = (true, word, context)) (page : Nat) (context : τ) :
    (userPage (now.query page) = false ∧
      Radix.visitStep (·.user) leaf page ((.node link now : Tree (depth + 1)), context) =
        (true, .node link now, context)) ∨
    (LowPage depth page ∧ now.Reaches page ∧ userPage (now.query page) = true ∧
      Radix.visitStep (·.user) leaf page ((.node link now : Tree (depth + 1)), context) =
        ((leaf page (now.query page) context).1, .node link (now.write page (leaf page (now.query page) context).2.1),
          (leaf page (now.query page) context).2.2)) := by
  have here : Radix.visit (·.user) (.node link now : Tree (depth + 1)) page =
      (now (Radix.digit 512 depth page)).visit (·.user) page := by
    rw [Radix.visit, if_pos entered]
  cases visited : (now (Radix.digit 512 depth page)).visit (·.user) page with
  | none =>
    refine .inl ⟨?_, by simp only [Radix.visitStep, here, visited]⟩
    by_cases low : LowPage depth page
    · rw [Radix.visit_eq_get (root.user _ low)] at visited
      simp [Table.query, visited, userPage]
    · simp [userPage, (root.kernel page low).1]
  | some word =>
    have found := Radix.get_of_visit visited
    obtain ⟨query, reached⟩ := query_of_get found
    cases user : userPage word with
    | false =>
      refine .inl ⟨by rw [query, user], ?_⟩
      simp only [Radix.visitStep, here, visited, skip page word context user]
      rw [Radix.set_of_get (show Radix.get (.node link now : Tree (depth + 1)) page = _ from found)]
    | true =>
      refine .inr ⟨?_, reached, by rw [query, user], ?_⟩
      · by_contra high
        have kernel := (root.kernel page high).1
        rw [query] at kernel
        simp [userPage, kernel] at user
      · simp only [Radix.visitStep, here, visited, query]
        rfl

/-- What a traversal leaves alone in the tables it goes through. -/
structure SameTables (before after : Table depth) : Prop where
  root : UserRoot after
  count : ∀ frame, after.userCount frame = before.userCount frame
  reaches : ∀ page, after.Reaches page ↔ before.Reaches page

theorem SameTables.write {before now : Table depth} (same : SameTables before now) {page : Nat}
    (low : LowPage depth page) (word : Word) : SameTables before (now.write page word) :=
  ⟨same.root.write low word, fun frame => (userCount_write now low word frame).trans (same.count frame),
    fun other => (reaches_write now page word other).trans (same.reaches other)⟩

/-- The invariant rule for a traversal of the user pages of an address space:
`reached n` holds when the pages below `n` are done, `left n` when the traversal
gave up at page `n`. -/
theorem traverse_user (entered : link.user = true) {table : Table depth} (root : UserRoot table)
    (skip : ∀ page word context, userPage word = false → leaf page word context = (true, word, context))
    (context : τ) (reached left : Nat → Table depth → τ → Prop) (initial : reached 0 table context)
    (idle : ∀ page now context, reached page now context → userPage (now.query page) = false →
      reached (page + 1) now context)
    (visit : ∀ page < 512 ^ (depth + 1), ∀ now context, SameTables table now → LowPage depth page →
      now.Reaches page → userPage (now.query page) = true → reached page now context →
      ((leaf page (now.query page) context).1 = true →
        reached (page + 1) (now.write page (leaf page (now.query page) context).2.1)
          (leaf page (now.query page) context).2.2) ∧
      ((leaf page (now.query page) context).1 = false →
        left page (now.write page (leaf page (now.query page) context).2.1) (leaf page (now.query page) context).2.2)) :
    ∃ ok after rest, (.node link table : Tree (depth + 1)).traverse (·.user) leaf 0 context =
        (ok, .node link after, rest) ∧ SameTables table after ∧
      (ok = true ∧ reached (512 ^ (depth + 1)) after rest ∨
        ok = false ∧ ∃ page < 512 ^ (depth + 1), left page after rest) := by
  rw [Radix.traverse_zero]
  have loop := forUntil_range (Radix.visitStep (·.user) leaf)
    ((.node link table : Tree (depth + 1)), context) (512 ^ (depth + 1))
    (fun page now => ∃ after, now.1 = .node link after ∧ SameTables table after ∧ reached page after now.2)
    (fun page now => ∃ after, now.1 = .node link after ∧ SameTables table after ∧ left page after now.2)
    ⟨table, rfl, ⟨root, fun _ => rfl, fun _ => Iff.rfl⟩, initial⟩ ?_ ?_
  · generalize forUntil (Radix.visitStep (·.user) leaf) (List.range (512 ^ (depth + 1)))
      ((.node link table : Tree (depth + 1)), context) = done at loop
    obtain ⟨ok, tree, rest⟩ := done
    rcases loop with ⟨finished, after, rfl, same, holds⟩ | ⟨stopped, page, bound, after, rfl, same, holds⟩
    · exact ⟨ok, after, rest, rfl, same, .inl ⟨finished, holds⟩⟩
    · exact ⟨ok, after, rest, rfl, same, .inr ⟨stopped, page, bound, holds⟩⟩
  · rintro page bound ⟨_, context⟩ ⟨now, rfl, same, holds⟩ go
    rcases visitStep_table entered same.root skip page context with
      ⟨other, step⟩ | ⟨low, there, user, step⟩
    · rw [step]
      exact ⟨now, rfl, same, idle page now context holds other⟩
    · rw [step] at go ⊢
      exact ⟨_, rfl, same.write low _, (visit page bound now context same low there user holds).1 go⟩
  · rintro page bound ⟨_, context⟩ ⟨now, rfl, same, holds⟩ stop
    rcases visitStep_table entered same.root skip page context with
      ⟨other, step⟩ | ⟨low, there, user, step⟩
    · rw [step] at stop
      contradiction
    · rw [step] at stop ⊢
      exact ⟨_, rfl, same.write low _, (visit page bound now context same low there user holds).2 stop⟩

end Traversal

end NyonOS.Paging
