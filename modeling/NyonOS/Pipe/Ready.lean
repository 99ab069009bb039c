import NyonOS.Fd.Transfer
import NyonOS.Pipe.Stream

namespace NyonOS.Pipe

open Abi
open Data

/-! When a pipe is said to be writable, and when it is. -/

/-- A look of `pipe_wait_writable` at the pair: what it returns, or that the task has to sleep. -/
def lookWritable (signalled : Bool) (p : Pair) : Option Int :=
  if signalled then some eintr else if p.cap - p.count > 0 ∨ p.readEnds = 0 then some 0 else none

/-- `pipe_wait_writable`, by what it finds whenever it looks: the result and the pair at that time,
unless the task sleeps after the last look. -/
def pipeWaitWritable : List (Bool × Pair) → Option (Int × Pair)
  | [] => none
  | (signalled, p) :: later =>
    match lookWritable signalled p with
    | some result => some (result, p)
    | none => pipeWaitWritable later

/-- The events of `pipe_poll_write`. -/
def pipePollWrite (p : Pair) (events revents : BitVec 16) : BitVec 16 :=
  let revents := if events &&& pollout ≠ 0 ∧ p.cap - p.count > 0 then revents ||| pollout else revents
  if p.readEnds = 0 then revents ||| pollerr else revents

/-- A pipe that is said to be writable takes the bytes, and a writer that cannot write them sleeps. -/
structure ReadinessMatches (p : Pair) (ubuf : UserBuffer) (len : Nat) : Prop where
  waited : ∀ looks, pipeWaitWritable looks = some (0, p) → (pipeWriteAt p ubuf len).1 ≠ eagain
  polled : ∀ events, pipePollWrite p events 0 &&& pollout ≠ 0 → (pipeWriteAt p ubuf len).1 ≠ eagain
  sleeps : (pipeWriteAt p ubuf len).1 = eagain → lookWritable false p = none

section Ready

variable {p : Pair} {ubuf : UserBuffer} {len : Nat}

theorem pipeWaitWritable_found {looks : List (Bool × Pair)} (returned : pipeWaitWritable looks = some (0, p)) :
    p.cap - p.count > 0 ∨ p.readEnds = 0 := by
  induction looks with
  | nil => cases returned
  | cons look later ih =>
    unfold pipeWaitWritable lookWritable at returned
    by_cases signalled : look.1 = true
    · rw [if_pos signalled] at returned
      cases returned
    · rw [if_neg signalled] at returned
      by_cases ready : look.2.cap - look.2.count > 0 ∨ look.2.readEnds = 0
      · rw [if_pos ready] at returned
        cases returned
        exact ready
      · rw [if_neg ready] at returned
        exact ih returned

theorem pipePollWrite_found {events : BitVec 16} (reported : pipePollWrite p events 0 &&& pollout ≠ 0) : p.cap - p.count > 0 := by
  by_contra full
  have none_ : ¬ (events &&& pollout ≠ 0 ∧ p.cap - p.count > 0) := fun both => full both.2
  unfold pipePollWrite at reported
  rw [if_neg none_] at reported
  split_ifs at reported
  · exact reported (by decide)
  · exact reported (by decide)

theorem pipeWriteAt_eagain (buffer : ubuf.null = false) : (pipeWriteAt p ubuf len).1 = eagain ↔
    len ≠ 0 ∧ p.readEnds ≠ 0 ∧ (p.cap - p.count = 0 ∨ len ≤ pipeBuf ∧ p.cap - p.count < len) := by
  unfold pipeWriteAt
  by_cases empty : len = 0
  · rw [if_pos (.inr empty)]
    exact ⟨(fun same => nomatch same), fun ⟨some_, _⟩ => absurd empty some_⟩
  rw [if_neg (by rw [buffer]; exact fun either => either.elim nofun empty)]
  by_cases broken : p.readEnds = 0
  · rw [if_pos broken]
    exact ⟨(fun same => nomatch same), fun ⟨_, open_, _⟩ => absurd broken open_⟩
  rw [if_neg broken]
  by_cases full : p.cap - p.count = 0
  · rw [if_pos full]
    exact ⟨fun _ => ⟨empty, broken, .inl full⟩, fun _ => rfl⟩
  rw [if_neg full]
  by_cases large : len ≤ pipeBuf ∧ p.cap - p.count < len
  · rw [if_pos large]
    exact ⟨fun _ => ⟨empty, broken, .inr large⟩, fun _ => rfl⟩
  rw [if_neg large]
  refine ⟨fun same => ?_, fun ⟨_, _, either⟩ => absurd either (not_or.mpr ⟨full, large⟩)⟩
  dsimp only at same
  split_ifs at same
  · cases same
  · have positive : (0 : Int) ≤ (min len (p.cap - p.count) : Nat) := Int.natCast_nonneg _
    have negative : ((min len (p.cap - p.count) : Nat) : Int) = eagain := same
    exact absurd (negative ▸ positive) (by decide)

/-- A pipe is as writable as it is said to be unless there is some room, but too little for a write that
must not be split. -/
theorem readiness_matches_iff (p : Pair) (ubuf : UserBuffer) (len : Nat) (buffer : ubuf.null = false) :
    ReadinessMatches p ubuf len ↔ ¬ (p.readEnds ≠ 0 ∧ 0 < p.cap - p.count ∧ p.cap - p.count < len ∧ len ≤ pipeBuf) := by
  constructor
  · rintro matches_ ⟨open_, some_, small, atomic⟩
    refine matches_.waited [(false, p)] ?_ ((pipeWriteAt_eagain buffer).mpr ⟨by omega, open_, .inr ⟨atomic, small⟩⟩)
    unfold pipeWaitWritable lookWritable
    rw [if_neg (fun wrong : false = true => nomatch wrong), if_pos (.inl some_)]
  · intro apart
    have full : (pipeWriteAt p ubuf len).1 = eagain → p.readEnds ≠ 0 ∧ p.cap - p.count = 0 := fun again => by
      obtain ⟨-, open_, full | ⟨atomic, small⟩⟩ := (pipeWriteAt_eagain buffer).mp again
      · exact ⟨open_, full⟩
      · refine ⟨open_, Nat.eq_zero_of_not_pos fun some_ => ?_⟩
        exact apart ⟨open_, some_, small, atomic⟩
    refine ⟨fun looks returned again => ?_, fun events reported again => ?_, fun again => ?_⟩
    · have := full again
      rcases pipeWaitWritable_found returned with some_ | broken
      · omega
      · exact this.1 broken
    · have := full again
      have := pipePollWrite_found reported
      omega
    · obtain ⟨open_, none_⟩ := full again
      unfold lookWritable
      rw [if_neg (fun wrong : false = true => nomatch wrong), if_neg (not_or.mpr ⟨by omega, open_⟩)]

/-- An empty pipe takes what it is said to take. -/
theorem readiness_matches_empty : ReadinessMatches (.create fun _ => 0#8) (.filled 7#8) 2048 :=
  (readiness_matches_iff (.create fun _ => 0#8) (.filled 7#8) 2048 rfl).mpr (by decide)

/-- All bytes of the pipe but one are in use, by a write that may be split. -/
def nearlyFull : Pair := (pipeWriteAt (.create fun _ => 0#8) (.filled 7#8) 65535).2

variable {cells : Nat → Byte} {byte : Byte}

theorem copyBytes_filled {start offset n : Nat} :
    (copyBytes (UserBuffer.filled byte).source n cells start offset).1 = true := by
  induction n generalizing cells start offset with
  | zero => rfl
  | succ n ih => exact ih

theorem copyin_filled {start offset n : Nat} : ((UserBuffer.filled byte).copyin cells start offset n).1 = true := by
  unfold UserBuffer.copyin
  split_ifs with none_ refused
  · rfl
  · cases refused
  · exact copyBytes_filled

theorem copyRing_filled {n : Nat} : (p.copyRing (.filled byte) n).1 = true := by
  unfold Pair.copyRing
  dsimp only
  rw [copyin_filled, if_neg (by decide)]
  split_ifs
  · exact copyin_filled
  · rfl

theorem nearlyFull_room : nearlyFull.cap - nearlyFull.count = 1 ∧ nearlyFull.readEnds = 1 := by
  unfold nearlyFull pipeWriteAt
  rw [if_neg (by decide), if_neg (by decide), if_neg (by decide), if_neg (by decide)]
  dsimp only
  rw [copyRing_filled, if_neg (by decide)]
  exact ⟨by decide, rfl⟩

theorem writeLoop_spins (small : len < 2 ^ 32) (again : pipeWriteAt p ubuf len = (eagain, p)) (ready : lookWritable false p = some 0)
    (rounds waits : Nat) : (Fd.writeLoop (fun p _ len _ => pipeWriteAt p ubuf len)
      (some fun _ p => ((lookWritable false p).getD 0, p)) len 0 rounds waits p 0).1 = none := by
  induction rounds generalizing waits with
  | zero => rfl
  | succ rounds ih =>
    have whole : (2 ^ 32 + len - 0 % 2 ^ 32) % 2 ^ 32 = len := by omega
    rw [Fd.writeLoop_again (by rw [whole]; exact again) (congrArg (fun look => (look.getD 0, p)) ready) (Int.le_refl _)]
    exact ih (waits + 1)

/-- One byte is free: the pipe is reported to be writable, a write of two bytes is turned down, and
`fd_write` goes on asking for ever without sleeping. -/
theorem writer_spins : lookWritable false nearlyFull = some 0 ∧ pipePollWrite nearlyFull pollout 0 = pollout ∧
      (pipeWriteAt nearlyFull (.filled 7#8) 2).1 = eagain ∧ ¬ ReadinessMatches nearlyFull (.filled 7#8) 2 ∧
      ∀ rounds waits, (Fd.writeLoop (fun p _ len _ => pipeWriteAt p (.filled 7#8) len)
        (some fun _ p => ((lookWritable false p).getD 0, p)) 2 0 rounds waits nearlyFull 0).1 = none := by
  obtain ⟨room, open_⟩ := nearlyFull_room
  have ready : lookWritable false nearlyFull = some 0 := by
    unfold lookWritable
    rw [if_neg (fun wrong : false = true => nomatch wrong), if_pos (.inl (by omega))]
  have again : pipeWriteAt nearlyFull (.filled 7#8) 2 = (eagain, nearlyFull) := by
    unfold pipeWriteAt
    rw [if_neg (by decide), if_neg (by omega), if_neg (by omega), if_pos ⟨by decide, by omega⟩]
  have reported : pipePollWrite nearlyFull pollout 0 = pollout := by
    unfold pipePollWrite
    rw [if_neg (by omega : nearlyFull.readEnds ≠ 0), if_pos ⟨by decide, by omega⟩]
    rfl
  refine ⟨ready, reported, congrArg Prod.fst again, fun matches_ => ?_, writeLoop_spins (by decide) again ready⟩
  exact matches_.polled pollout (by rw [reported]; decide) (congrArg Prod.fst again)

end Ready

end NyonOS.Pipe
