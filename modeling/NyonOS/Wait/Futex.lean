import NyonOS.Data.Run
import NyonOS.Wait.Channel

namespace NyonOS.Wait

open Abi Option
open Data Function

/-! A task in `task_futex_wait`, and another one that changes the word and wakes. -/

structure Futex where
  self : Nat
  addr : Chan
  expected : BitVec 32
  value : BitVec 32
  deadline : Nat
  readable : Bool

inductive WaiterPc
  | seen
  | register (gen : BitVec 64)
  | check (gen : BitVec 64)
  | clear
  | read
  | fault
  | differs
  | unregister (woken : Bool)
  | sleep
  | leave
  | returned (result : Int)

inductive WakerPc
  | store
  | scan (scan : Scan)

structure FutexState where
  waits : Waits
  word : BitVec 32
  ticks : Nat
  waiter : WaiterPc
  waker : WakerPc

namespace FutexState

def setWaiter (s : FutexState) (pc : WaiterPc) : FutexState := { s with waiter := pc }

/-- The sections of `task_futex_wait` that take the task off the channel. -/
def withdraw (s : FutexState) (self : Nat) (wakeTick : Nat) : FutexState :=
  { s with waits := { s.waits with
      blocked := update s.waits.blocked self false
      waitChan := update s.waits.waitChan self 0
      wakeTick := update s.waits.wakeTick self wakeTick } }

/-- The next step of `task_futex_wait`. -/
def wait (f : Futex) (s : FutexState) : Option FutexState :=
  match s.waiter with
  | .seen => some (s.setWaiter (.register (s.waits.wakeGen f.self)))
  | .register gen => some ({ s with waits := s.waits.register f.self f.addr f.deadline }.setWaiter (.check gen))
  | .check gen => some (s.setWaiter (if s.waits.wakeGen f.self ≠ gen then .clear else .read))
  | .clear => some ({ s with waits := s.waits.unblock f.self }.setWaiter .read)
  | .read =>
    if f.addr = 0 ∨ !f.readable then some (s.setWaiter .fault)
    else some (s.setWaiter (if s.word ≠ f.expected then .differs else .sleep))
  -- the deadline stays in the task here
  | .fault => some ((s.withdraw f.self (s.waits.wakeTick f.self)).setWaiter (.returned efault))
  | .differs => some (s.setWaiter (.unregister !s.waits.blocked f.self))
  | .unregister woken => some ((s.withdraw f.self 0).setWaiter (.returned (if woken then 0 else eagain)))
  | .sleep => if s.waits.blocked f.self then none else some (s.setWaiter .leave)
  | .leave =>
    some ({ s with waits := s.waits.leave f.self }.setWaiter
      (.returned (if f.deadline ≠ 0 ∧ f.deadline ≤ s.ticks then etimedout else 0)))
  | .returned _ => none

/-- The next step of the task that stores the value and calls `task_wake_chan`. -/
def wake (f : Futex) (s : FutexState) : FutexState :=
  match s.waker with
  | .store => { s with word := f.value, waker := .scan (.start f.addr) }
  | .scan scan => { s with waits := (scan.step f.addr s.waits).1, waker := .scan (scan.step f.addr s.waits).2 }

/-- Time goes on, and `task_tick` may release the task. -/
def tick (f : Futex) (s : FutexState) (released : Bool) : FutexState :=
  { s with
    ticks := s.ticks + 1
    waits := if released then (s.waits.bumpGen f.self).unblock f.self else s.waits }

end FutexState

inductive FutexMove
  | waiter
  | waker
  | tick (released : Bool)

inductive FutexStep (f : Futex) : FutexMove → FutexState → FutexState → Prop
  | waiter {s s' : FutexState} (goes : s.wait f = some s') : FutexStep f .waiter s s'
  | waker {s : FutexState} : FutexStep f .waker s (s.wake f)
  | tick {s : FutexState} {released : Bool} : FutexStep f (.tick released) s (s.tick f released)

/-- Both calls are just about to begin. -/
structure FutexStart (f : Futex) (s : FutexState) : Prop where
  inside : f.self < taskMax
  alive : s.waits.inUse f.self = true
  waiter : s.waiter = .seen
  waker : s.waker = .store

/-- The waker has finished. -/
def FutexState.Finished (s : FutexState) : Prop := s.waker = .scan .done

/-- The state after some steps of the waiter alone. -/
def FutexState.alone (f : Futex) : (n : Nat) → FutexState → FutexState
  | 0, s => s
  | n + 1, s => alone f n ((s.wait f).getD s)

def WaiterPc.registered : WaiterPc → Bool
  | check _ => true
  | clear => true
  | read => true
  | differs => true
  | sleep => true
  | _ => false

structure FutexInv (f : Futex) (s : FutexState) : Prop where
  inside : f.self < taskMax
  alive : s.waits.inUse f.self = true
  stored : s.waker ≠ .store → s.word = f.value
  registered : s.waiter.registered = true → s.waits.waitChan f.self = f.addr
  valid : s.waiter = .sleep → f.addr ≠ 0
  watched : s.waiter = .sleep → s.waits.blocked f.self = true →
    s.waker = .store ∨ ∃ scan, s.waker = .scan scan ∧ scan.Reaches f.self

namespace FutexInv

variable {f : Futex} {s s' : FutexState}

theorem start (start : FutexStart f s) : FutexInv f s where
  inside := start.inside
  alive := start.alive
  stored away := absurd start.waker away
  registered here := by
    rw [start.waiter] at here
    cases here
  valid here := nomatch start.waiter.symm.trans here
  watched here := nomatch start.waiter.symm.trans here

theorem onward {waits : Waits} {pc : WaiterPc} (inv : FutexInv f s) (inUse : waits.inUse = s.waits.inUse)
    (registered : pc.registered = true → waits.waitChan f.self = f.addr) (awake : pc ≠ .sleep) :
    FutexInv f ({ s with waits := waits }.setWaiter pc) where
  inside := inv.inside
  alive := (congrFun inUse f.self).trans inv.alive
  stored := inv.stored
  registered := registered
  valid here := absurd here awake
  watched here := absurd here awake

theorem wait (differ : f.value ≠ f.expected) (inv : FutexInv f s) (goes : s.wait f = some s') : FutexInv f s' := by
  unfold FutexState.wait at goes
  cases here : s.waiter with
  | seen | fault | differs | unregister | leave =>
    rw [here] at goes
    cases goes
    exact inv.onward rfl nofun nofun
  | register gen =>
    rw [here] at goes
    cases goes
    exact inv.onward rfl (fun _ => update_self ..) nofun
  | check gen =>
    rw [here] at goes
    cases goes
    refine inv.onward rfl (fun _ => inv.registered (by rw [here]; rfl)) ?_
    split
    · nofun
    · nofun
  | clear =>
    rw [here] at goes
    cases goes
    exact inv.onward rfl (fun _ => inv.registered (by rw [here]; rfl)) nofun
  | read =>
    rw [here] at goes
    dsimp only at goes
    have registered : s.waits.waitChan f.self = f.addr := inv.registered (by rw [here]; rfl)
    split at goes
    · cases goes
      exact inv.onward rfl nofun nofun
    · rename_i valid
      cases goes
      by_cases changed : s.word ≠ f.expected
      · rw [if_pos changed]
        exact inv.onward rfl (fun _ => registered) nofun
      · rw [if_neg changed]
        refine ⟨inv.inside, inv.alive, inv.stored, fun _ => registered, fun _ zero => valid (.inl zero), fun _ _ => .inl ?_⟩
        by_contra stored
        rw [inv.stored stored] at changed
        exact changed differ
  | sleep =>
    rw [here] at goes
    obtain ⟨-, same⟩ := ite_none_left_eq_some.mp goes
    cases same
    exact inv.onward rfl nofun nofun
  | returned result =>
    rw [here] at goes
    cases goes

theorem wake (inv : FutexInv f s) : FutexInv f (s.wake f) := by
  unfold FutexState.wake
  cases here : s.waker with
  | store =>
    refine ⟨inv.inside, inv.alive, fun _ => rfl, inv.registered, inv.valid, fun asleep _ => .inr ⟨_, rfl, ?_⟩⟩
    exact (Scan.ahead_start (inv.valid asleep)).reaches
  | scan scan =>
    have stored := inv.stored (by rw [here]; nofun)
    have same : (scan.step f.addr s.waits).1.waitChan = s.waits.waitChan ∧
        (scan.step f.addr s.waits).1.inUse = s.waits.inUse := Scan.step_waits
    refine ⟨inv.inside, (congrFun same.2 _).trans inv.alive, fun _ => stored,
      fun registered => (congrFun same.1 _).trans (inv.registered registered), inv.valid,
      fun asleep blocked => .inr ⟨_, rfl, ?_⟩⟩
    have holds : scan ≠ .release f.self := by
      rintro rfl
      have released : ((Scan.release f.self).step f.addr s.waits).1.blocked f.self = false := update_self ..
      exact nomatch released.symm.trans blocked
    have before : s.waits.blocked f.self = true := Scan.step_blocked blocked
    rcases inv.watched asleep before with none_ | ⟨other, there, reaches⟩
    · rw [here] at none_
      cases none_
    · rw [here] at there
      cases there
      refine reaches.step inv.inside ?_ holds
      rw [Waits.waitsOn, inv.alive, inv.registered (by rw [asleep]; rfl)]
      simp

theorem tick {released : Bool} (inv : FutexInv f s) : FutexInv f (s.tick f released) := by
  unfold FutexState.tick
  cases released with
  | false => exact ⟨inv.inside, inv.alive, inv.stored, inv.registered, inv.valid, inv.watched⟩
  | true =>
    refine ⟨inv.inside, inv.alive, inv.stored, inv.registered, inv.valid, fun _ blocked => ?_⟩
    have cleared : ((s.waits.bumpGen f.self).unblock f.self).blocked f.self = false := update_self ..
    exact nomatch cleared.symm.trans blocked

theorem step {move : FutexMove} (differ : f.value ≠ f.expected) (inv : FutexInv f s) (taken : FutexStep f move s s') :
    FutexInv f s' := by
  cases taken with
  | waiter goes => exact inv.wait differ goes
  | waker => exact inv.wake
  | tick => exact inv.tick

end FutexInv

/-- How many steps a task in `task_futex_wait` has still to take at most. -/
def WaiterPc.rank : WaiterPc → Nat
  | seen => 9
  | register _ => 8
  | check _ => 7
  | clear => 6
  | read => 5
  | fault => 4
  | differs => 4
  | unregister _ => 3
  | sleep => 2
  | leave => 1
  | returned _ => 0

section Alone

variable {f : Futex} {s : FutexState}

/-- Once the waker has finished, the waiter always has a step to take, and comes nearer to
its end with it. -/
theorem wait_progress (inv : FutexInv f s) (finished : s.Finished) (busy : s.waiter.rank ≠ 0) :
    ∃ s', s.wait f = some s' ∧ s'.Finished ∧ s'.waiter.rank < s.waiter.rank := by
  unfold FutexState.wait
  cases here : s.waiter with
  | seen | register | clear | fault | differs | unregister | leave =>
    exact ⟨_, rfl, finished, by simp [FutexState.setWaiter, WaiterPc.rank]⟩
  | check gen =>
    refine ⟨_, rfl, finished, ?_⟩
    dsimp only [FutexState.setWaiter]
    split
    · simp [WaiterPc.rank]
    · simp [WaiterPc.rank]
  | read =>
    dsimp only
    split
    · exact ⟨_, rfl, finished, by simp [FutexState.setWaiter, WaiterPc.rank]⟩
    · refine ⟨_, rfl, finished, ?_⟩
      dsimp only [FutexState.setWaiter]
      split
      · decide
      · decide
  | sleep =>
    have free : s.waits.blocked f.self = false := by
      by_contra blocked
      rcases inv.watched here (by simpa using blocked) with none_ | ⟨scan, there, reaches⟩
      · rw [finished] at none_
        cases none_
      · rw [finished] at there
        cases there
        exact reaches
    dsimp only
    rw [free]
    exact ⟨_, rfl, finished, by simp [FutexState.setWaiter, WaiterPc.rank]⟩
  | returned result =>
    rw [here] at busy
    exact absurd rfl busy

theorem alone_returns (differ : f.value ≠ f.expected) (inv : FutexInv f s) (finished : s.Finished) :
    ∃ n result, (s.alone f n).waiter = .returned result := by
  induction rank : s.waiter.rank using Nat.strong_induction_on generalizing s with
  | _ rank ih =>
    subst rank
    by_cases busy : s.waiter.rank = 0
    · refine ⟨0, ?_⟩
      cases here : s.waiter with
      | returned result => exact ⟨result, here⟩
      | _ =>
        rw [here] at busy
        cases busy
    · obtain ⟨s', goes, finished', nearer⟩ := wait_progress inv finished busy
      obtain ⟨n, result, returns⟩ := ih _ nearer (inv.wait differ goes) finished' rfl
      refine ⟨n + 1, result, ?_⟩
      unfold FutexState.alone
      rw [goes]
      exact returns

end Alone

/-- A futex wait loses no wake-up: when the waker has finished, the waiter is not blocked in
its sleep, and returns after steps of its own. -/
theorem futex_wakes_waiter {f : Futex} {before now : FutexState} (differ : f.value ≠ f.expected) (start : FutexStart f before)
    (run : Run (FutexStep f) (fun _ _ => True) before now) (finished : now.Finished) :
    (now.waiter = .sleep → now.waits.blocked f.self = false) ∧ ∃ n result, (now.alone f n).waiter = .returned result := by
  have inv : FutexInv f now :=
    run.invariant (FutexInv.start start) fun _ _ _ inv _ taken => inv.step differ taken
  refine ⟨fun asleep => ?_, alone_returns differ inv finished⟩
  obtain ⟨s', goes, -⟩ := wait_progress inv finished (by rw [asleep]; decide)
  unfold FutexState.wait at goes
  rw [asleep] at goes
  exact Bool.eq_false_iff.mpr (ite_none_left_eq_some.mp goes).1

theorem waker_finishes {f : Futex} {before s : FutexState} {scan : Scan} (scanning : s.waker = .scan scan)
    (run : Run (FutexStep f) (fun _ _ => True) before s) :
    ∃ now, Run (FutexStep f) (fun _ _ => True) before now ∧ now.Finished ∧ now.waiter = s.waiter := by
  induction rank : scan.rank using Nat.strong_induction_on generalizing s scan with
  | _ rank ih =>
    subst rank
    by_cases busy : scan = .done
    · subst busy
      exact ⟨s, run, scanning, rfl⟩
    · have next : (s.wake f).waker = .scan (scan.step f.addr s.waits).2 ∧ (s.wake f).waiter = s.waiter := by
        unfold FutexState.wake
        rw [scanning]
        exact ⟨rfl, rfl⟩
      obtain ⟨now, run', finished, waiter⟩ := ih _ (Scan.step_rank busy) next.1 (run.next trivial .waker) rfl
      exact ⟨now, run', finished, waiter.trans next.2⟩

/-- The word is 5, and the waker stores 6. -/
def fiveToSix : Futex := ⟨1, 0x1000, 5, 6, 0, true⟩

def atFive : FutexState := ⟨⟨fun _ => true, fun _ => 0, fun _ => 0, fun _ => false, fun _ => 0, 0⟩, 5, 0, .seen, .store⟩

/-- The waiter has registered, has read a 5 and sleeps when the waker comes. -/
theorem futex_wakes_waiter_asleep : ∃ now, Run (FutexStep fiveToSix) (fun _ _ => True) atFive now ∧ now.Finished ∧
    now.waiter = .sleep ∧ now.waits.blocked 1 = false ∧ ∃ n result, (now.alone fiveToSix n).waiter = .returned result := by
  have start : FutexStart fiveToSix atFive := ⟨by decide, rfl, rfl, rfl⟩
  have goes : ∀ {s : FutexState}, (s.wait fiveToSix).isSome = true →
      FutexStep fiveToSix .waiter s ((s.wait fiveToSix).getD s) := by
    intro s goes
    refine .waiter ?_
    rw [getD_of_ne_none (isSome_iff_ne_none.mp goes)]
  have slept : Run (FutexStep fiveToSix) (fun _ _ => True) atFive _ := (((Run.start.next trivial (goes (s := atFive) rfl)).next trivial (goes rfl)).next trivial
    (goes rfl)).next trivial (goes rfl)
  obtain ⟨now, run, finished, waiter⟩ := waker_finishes rfl (slept.next trivial .waker)
  have asleep : now.waiter = .sleep := waiter.trans rfl
  have general := futex_wakes_waiter (by decide) start run finished
  exact ⟨now, run, finished, asleep, general.1 asleep, general.2⟩

end NyonOS.Wait
