import NyonOS.Pipe.Stream
import NyonOS.Wait.Channel

namespace NyonOS.Pipe

open Abi Option
open Data
open Wait Function

/-! Readers, writers and closers of one pipe that sleep and wake each other, on any number
of processors. The sections under `pipe_lock` and under `sched_lock` are one step each, and
so is every access to the task table outside them. -/

/-- Where a task is. Those that wait for the pipe to become readable are in
`pipe_wait_readable`, the others in `pipe_wait_writable`. -/
inductive Pc
  | out
  | wake (scan : Scan)
  | test (isRead : Bool)
  | seen (isRead : Bool)
  | register (isRead : Bool) (gen : BitVec 64)
  | check (isRead : Bool) (gen : BitVec 64)
  | clear (isRead : Bool)
  | sleep (isRead : Bool)
  | leave (isRead : Bool)
deriving DecidableEq

/-- The caller goes on when `task_wake_chan` is done. -/
def Pc.afterScan : Scan → Pc
  | .done => out
  | scan => wake scan

/-- Which end a waiting task holds. -/
def Pc.waitsFor : Pc → Option Bool
  | out => none
  | wake _ => none
  | test isRead => some isRead
  | seen isRead => some isRead
  | register isRead _ => some isRead
  | check isRead _ => some isRead
  | clear isRead => some isRead
  | sleep isRead => some isRead
  | leave isRead => some isRead

/-- The readiness test of `pipe_wait_readable` and `pipe_wait_writable`. -/
def Stream.ready (s : Stream) (isRead : Bool) : Bool :=
  match s.pair with
  | none => false
  | some p =>
    if isRead then decide (0 < p.count) || p.writeEnds == 0
    else decide (0 < p.cap - p.count) || p.readEnds == 0

/-- The address of the pipe's channel is `chan`. -/
structure World where
  stream : Stream
  waits : Waits
  chan : Chan
  pc : Nat → Pc

inductive Move
  | call (t : Nat) (c : PipeCall)
  | enter (t : Nat) (isRead : Bool)
  | interrupt (t : Nat)
  | go (t : Nat)

namespace World

variable (w : World)

def goto (t : Nat) (pc : Pc) : World := { w with pc := update w.pc t pc }

/-- Whether a call goes on to `task_wake_chan`. -/
def wakes (result : Int) (s : Stream) : PipeCall → Bool
  | .close _ => s.pair.isSome
  | _ => decide (0 < result)

/-- After a call: back to the caller, or on to `task_wake_chan`. -/
def called (t : Nat) (c : PipeCall) (result : Int) (s : Stream) : World :=
  { w with stream := s }.goto t (if wakes result s c then .afterScan (.start w.chan) else .out)

/-- The next step of a task in the middle of a function. -/
def go (t : Nat) : Option World :=
  match w.pc t with
  | .out => none
  | .wake scan =>
    let next := scan.step w.chan w.waits
    some ({ w with waits := next.1 }.goto t (.afterScan next.2))
  | .test isRead => some (w.goto t (if w.stream.ready isRead then .out else .seen isRead))
  | .seen isRead => some (w.goto t (.register isRead (w.waits.wakeGen t)))
  | .register isRead gen => some ({ w with waits := w.waits.register t w.chan 0 }.goto t (.check isRead gen))
  | .check isRead gen => some (w.goto t (if w.waits.wakeGen t ≠ gen then .clear isRead else .sleep isRead))
  | .clear isRead => some ({ w with waits := w.waits.unblock t }.goto t (.sleep isRead))
  | .sleep isRead => if w.waits.blocked t then none else some (w.goto t (.leave isRead))
  | .leave isRead => some ({ w with waits := w.waits.leave t }.goto t (.test isRead))

/-- An end is open, and when it is closed nobody holds it any more. -/
def Permits : PipeCall → Prop
  | .close isRead => ∀ t, (w.pc t).waitsFor ≠ some isRead
  | _ => True

end World

/-- A live task that is in none of the functions may call one of them. -/
inductive Takes : Move → World → World → Prop
  | call {w : World} {t : Nat} {c : PipeCall} {result : Int} {s : Stream} (idle : w.pc t = .out) (inside : t < taskMax)
      (alive : w.waits.inUse t = true) (permits : w.Permits c) (acts : w.stream.act c = some (result, s)) :
      Takes (.call t c) w (w.called t c result s)
  | enter {w : World} {t : Nat} {isRead : Bool} (idle : w.pc t = .out) (inside : t < taskMax)
      (alive : w.waits.inUse t = true) (isOpen : (if isRead then w.stream.readOpen else w.stream.writeOpen) = true) :
      Takes (.enter t isRead) w (w.goto t (.test isRead))
  | interrupt {w : World} {t : Nat} {isRead : Bool} (here : w.pc t = .test isRead) : Takes (.interrupt t) w (w.goto t .out)
  | go {w w' : World} {t : Nat} (goes : w.go t = some w') : Takes (.go t) w w'

/-- A new pipe that no task has to do with yet. -/
structure Fresh (w : World) : Prop where
  stream : ∃ cells, w.stream = .create cells
  chan : w.chan ≠ 0
  out : ∀ t, w.pc t = .out

/-- `u` is still to wake `r`. -/
def StillToWake (w : World) (r u : Nat) : Prop := ∃ scan, w.pc u = .wake scan ∧ scan.Reaches r

/-- Nobody sleeps on the pipe that could go on, unless another task is still to wake it. -/
def NoneForgotten (w : World) : Prop :=
  ∀ r isRead, w.pc r = .sleep isRead → w.waits.blocked r = true → w.stream.ready isRead = true →
    ∃ u, u ≠ r ∧ StillToWake w r u

/-- A task has found the pipe not ready and has not registered on its channel yet. -/
def Pc.gap : Pc → Option Bool
  | .seen isRead => some isRead
  | .register isRead _ => some isRead
  | _ => none

/-- `task_wake_chan` does not look at a task that is about to register. -/
def LooksOutside : Move → World → Prop
  | .go u, w => ∀ i, w.pc u = .wake (.look i) → (w.pc i).gap = none
  | _, _ => True

/-- A task that is registered, and goes to sleep unless it is woken. -/
inductive Expects (w : World) (r : Nat) : Bool → Prop
  | check {isRead : Bool} (here : w.pc r = .check isRead (w.waits.wakeGen r)) (blocked : w.waits.blocked r = true) :
      Expects w r isRead
  | sleep {isRead : Bool} (here : w.pc r = .sleep isRead) (blocked : w.waits.blocked r = true) : Expects w r isRead

def Pc.registered : Pc → Bool
  | .check _ _ => true
  | .clear _ => true
  | .sleep _ => true
  | _ => false

theorem Pc.afterScan_wake {scan : Scan} {r : Nat} (reaches : scan.Reaches r) : afterScan scan = .wake scan := by
  cases scan with
  | look | bump | release => rfl
  | done => exact reaches.elim

theorem Pc.afterScan_idle (scan : Scan) :
    (afterScan scan).waitsFor = none ∧ (afterScan scan).registered = false ∧ (afterScan scan).gap = none := by
  cases scan with
  | look | bump | release | done => exact ⟨rfl, rfl, rfl⟩

/-- A scan may be about to release a task for an earlier sleep. That counts for a task that
sleeps, but not for one that is about to. -/
structure Watched (w : World) : Prop where
  chan : w.chan ≠ 0
  flowing : Flowing w.stream
  alive : ∀ {t}, w.pc t ≠ .out → t < taskMax ∧ w.waits.inUse t = true
  holds : ∀ {t isRead}, (w.pc t).waitsFor = some isRead → (if isRead then w.stream.readOpen else w.stream.writeOpen) = true
  registered : ∀ {t}, (w.pc t).registered = true → w.waits.waitChan t = w.chan
  gap : ∀ {r isRead}, (w.pc r).gap = some isRead → w.stream.ready isRead = true →
    ∃ u scan, w.pc u = .wake scan ∧ scan.Ahead r
  watched : ∀ {r isRead}, Expects w r isRead → w.stream.ready isRead = true → ∃ u scan, w.pc u = .wake scan ∧ scan.Reaches r

variable {w : World} {isRead : Bool}

theorem Expects.registered {r : Nat} (expects : Expects w r isRead) : (w.pc r).registered = true := by
  cases expects with
  | check here | sleep here => rw [here]; rfl

variable {t : Nat} {pc : Pc}

theorem World.goto_self : (w.goto t pc).pc t = pc := update_self ..

theorem World.goto_other {r : Nat} (differ : r ≠ t) : (w.goto t pc).pc r = w.pc r :=
  update_of_ne differ ..

theorem Expects.goto (expects : Expects (w.goto t pc) t isRead) : pc.registered = true := by
  have registered := expects.registered
  rwa [World.goto_self] at registered

theorem Expects.other {waits : Waits} {r : Nat} (differ : r ≠ t)
    (expects : Expects ({ w with waits := waits }.goto t pc) r isRead) (blocked : waits.blocked r = true → w.waits.blocked r = true)
    (gen : waits.wakeGen r = w.waits.wakeGen r) : Expects w r isRead := by
  cases expects with
  | check here stays =>
    rw [World.goto_other differ] at here
    change w.pc r = .check isRead (waits.wakeGen r) at here
    rw [gen] at here
    exact .check here (blocked stays)
  | sleep here stays =>
    rw [World.goto_other differ] at here
    exact .sleep here (blocked stays)

namespace Watched

variable {w w' : World} {t r : Nat} {isRead : Bool}

theorem noneForgotten (watched : Watched w) : NoneForgotten w := by
  intro r isRead here blocked ready
  obtain ⟨u, scan, there, reaches⟩ := watched.watched (.sleep here blocked) ready
  refine ⟨u, ?_, scan, there, reaches⟩
  rintro rfl
  rw [here] at there
  cases there

theorem fresh (fresh : Fresh w) : Watched w where
  chan := fresh.chan
  flowing := by
    obtain ⟨cells, same⟩ := fresh.stream
    rw [same]
    exact .create
  alive busy := absurd (fresh.out _) busy
  holds waits := by
    rw [fresh.out] at waits
    cases waits
  registered here := by
    rw [fresh.out] at here
    cases here
  gap here := by
    rw [fresh.out] at here
    cases here
  watched expects := by
    have here := expects.registered
    rw [fresh.out] at here
    cases here

variable {pc : Pc}

theorem move {waits : Waits} (watched : Watched w) (busy : w.pc t ≠ .out) (inUse : waits.inUse = w.waits.inUse)
    (chans : ∀ other, other ≠ t → waits.waitChan other = w.waits.waitChan other)
    (holds : ∀ {isRead}, pc.waitsFor = some isRead → (w.pc t).waitsFor = some isRead)
    (registered : pc.registered = true → waits.waitChan t = w.chan)
    (gap : ∀ {r isRead}, (({ w with waits := waits }.goto t pc).pc r).gap = some isRead → w.stream.ready isRead = true →
      ∃ u scan, ({ w with waits := waits }.goto t pc).pc u = .wake scan ∧ scan.Ahead r)
    (expected : ∀ {r isRead}, Expects ({ w with waits := waits }.goto t pc) r isRead → w.stream.ready isRead = true →
      ∃ u scan, ({ w with waits := waits }.goto t pc).pc u = .wake scan ∧ scan.Reaches r) :
    Watched ({ w with waits := waits }.goto t pc) where
  chan := watched.chan
  flowing := watched.flowing
  alive {other} away := by
    change other < taskMax ∧ waits.inUse other = true
    rw [inUse]
    by_cases here : other = t
    · subst here
      exact watched.alive busy
    · rw [World.goto_other here] at away
      exact watched.alive away
  holds {other isRead} waiting := by
    by_cases here : other = t
    · subst here
      rw [World.goto_self] at waiting
      exact watched.holds (holds waiting)
    · rw [World.goto_other here] at waiting
      exact watched.holds waiting
  registered {other} waiting := by
    change waits.waitChan other = w.chan
    by_cases here : other = t
    · subst here
      rw [World.goto_self] at waiting
      exact registered waiting
    · rw [World.goto_other here] at waiting
      rw [chans other here]
      exact watched.registered waiting
  gap here ready := gap here ready
  watched expects ready := expected expects ready

theorem own {waits : Waits} (watched : Watched w) (busy : w.pc t ≠ .out) (quiet : ∀ scan, w.pc t ≠ .wake scan)
    (inUse : waits.inUse = w.waits.inUse)
    (others : ∀ other, other ≠ t → waits.waitChan other = w.waits.waitChan other ∧
      waits.blocked other = w.waits.blocked other ∧ waits.wakeGen other = w.waits.wakeGen other)
    (holds : ∀ {isRead}, pc.waitsFor = some isRead → (w.pc t).waitsFor = some isRead)
    (registered : pc.registered = true → waits.waitChan t = w.chan)
    (gap : ∀ {isRead}, pc.gap = some isRead → w.stream.ready isRead = true → (w.pc t).gap = some isRead)
    (expected : ∀ {isRead}, Expects ({ w with waits := waits }.goto t pc) t isRead →
      Expects w t isRead ∨ (w.pc t).gap = some isRead) : Watched ({ w with waits := waits }.goto t pc) := by
  have still : ∀ {u scan}, w.pc u = .wake scan → ({ w with waits := waits }.goto t pc).pc u = .wake scan := by
    intro u scan there
    rw [World.goto_other ?_]
    · exact there
    · rintro rfl
      exact quiet scan there
  refine watched.move busy inUse (fun other differ => (others other differ).1) holds registered (fun {r isRead} here ready => ?_)
    fun {r isRead} expects ready => ?_
  · have before : (w.pc r).gap = some isRead := by
      by_cases same : r = t
      · subst same
        rw [World.goto_self] at here
        exact gap here ready
      · rwa [World.goto_other same] at here
    obtain ⟨u, scan, there, ahead⟩ := watched.gap before ready
    exact ⟨u, scan, still there, ahead⟩
  · have before : Expects w r isRead ∨ (w.pc r).gap = some isRead := by
      by_cases same : r = t
      · subst same
        exact expected expects
      · obtain ⟨-, blocked, gen⟩ := others r same
        exact .inl (expects.other same (fun stays => blocked.symm.trans stays) gen)
    rcases before with before | before
    · obtain ⟨u, scan, there, reaches⟩ := watched.watched before ready
      exact ⟨u, scan, still there, reaches⟩
    · obtain ⟨u, scan, there, ahead⟩ := watched.gap before ready
      exact ⟨u, scan, still there, ahead.reaches⟩

/-- After a step of a scan a task expects to be woken only if it did before, or the scan is
just about to release it. -/
theorem expects_scan {scan : Scan} (differ : r ≠ t)
    (expects : Expects ({ w with waits := (scan.step w.chan w.waits).1 }.goto t pc) r isRead) :
    scan = .bump r ∨ Expects w r isRead ∧ scan ≠ .release r := by
  have stays : (scan.step w.chan w.waits).1.blocked r = true := by
    cases expects with
    | check here stays | sleep here stays => exact stays
  cases scan with
  | look | done => exact .inr ⟨expects.other differ (fun stays => stays) rfl, by simp⟩
  | bump i =>
    by_cases here : i = r
    · subst here
      exact .inl rfl
    · refine .inr ⟨expects.other differ (fun stays => stays) ?_, by simp⟩
      exact update_of_ne (Ne.symm here) ..
  | release i =>
    change update w.waits.blocked i false r = true at stays
    have away : r ≠ i := by
      rintro rfl
      rw [update_self] at stays
      cases stays
    rw [update_of_ne away] at stays
    refine .inr ⟨expects.other differ (fun _ => stays) rfl, ?_⟩
    rintro ⟨rfl⟩
    exact away rfl

theorem scan {scan : Scan} (watched : Watched w) (here : w.pc t = .wake scan)
    (outside : ∀ i, scan = .look i → (w.pc i).gap = none) :
    Watched ({ w with waits := (scan.step w.chan w.waits).1 }.goto t (.afterScan (scan.step w.chan w.waits).2)) := by
  have busy : w.pc t ≠ .out := by
    rw [here]
    simp
  obtain ⟨noWait, noRegister, noGap⟩ := Pc.afterScan_idle (scan.step w.chan w.waits).2
  refine watched.move busy Scan.step_waits.2 (fun other _ => congrFun Scan.step_waits.1 other) (fun waits => ?_) (fun registered => ?_)
    (fun {r isRead} gap ready => ?_) fun {r isRead} expects ready => ?_
  · rw [noWait] at waits
    cases waits
  · rw [noRegister] at registered
    cases registered
  · have differ : r ≠ t := by
      rintro rfl
      rw [World.goto_self, noGap] at gap
      cases gap
    rw [World.goto_other differ] at gap
    obtain ⟨u, other, there, ahead⟩ := watched.gap gap ready
    by_cases same : u = t
    · subst same
      have equal : other = scan := by
        rw [here] at there
        cases there
        rfl
      subst equal
      have inside : r < taskMax := (watched.alive fun out => by rw [out] at gap; cases gap).1
      have looks : other ≠ .look r := by
        rintro rfl
        rw [outside r rfl] at gap
        cases gap
      have onward : (other.step w.chan w.waits).2.Ahead r := ahead.step inside looks
      exact ⟨u, _, World.goto_self.trans (Pc.afterScan_wake onward.reaches), onward⟩
    · exact ⟨u, other, (World.goto_other same).trans there, ahead⟩
  · have differ : r ≠ t := by
      rintro rfl
      have registered := expects.registered
      rw [World.goto_self, noRegister] at registered
      cases registered
    rcases expects_scan differ expects with rfl | ⟨before, holds⟩
    · have onward : (Scan.step w.chan w.waits (.bump r)).2.Reaches r := Nat.le_refl r
      exact ⟨t, _, World.goto_self.trans (Pc.afterScan_wake onward), onward⟩
    · obtain ⟨u, other, there, reaches⟩ := watched.watched before ready
      by_cases same : u = t
      · subst same
        have equal : other = scan := by
          rw [here] at there
          cases there
          rfl
        subst equal
        have alive := watched.alive (t := r) fun out => by
          have registered := before.registered
          rw [out] at registered
          cases registered
        have waits : w.waits.waitsOn w.chan r = true := by
          rw [Waits.waitsOn, alive.2, watched.registered before.registered]
          simp
        have onward := reaches.step alive.1 waits holds
        exact ⟨u, _, World.goto_self.trans (Pc.afterScan_wake onward), onward⟩
      · exact ⟨u, other, (World.goto_other same).trans there, reaches⟩

/-- A waiting task takes one step in `pipe_wait_readable`, `pipe_wait_writable` or `task_wait`. -/
theorem go (watched : Watched w) (outside : LooksOutside (.go t) w) (goes : w.go t = some w') : Watched w' := by
  unfold World.go at goes
  cases here : w.pc t with
  | out =>
    rw [here] at goes
    cases goes
  | wake scan =>
    rw [here] at goes
    cases goes
    refine watched.scan here fun i looks => outside i ?_
    rw [here, looks]
  | test isRead =>
    rw [here] at goes
    cases goes
    refine watched.own (by simp [here]) (by simp [here]) rfl (fun _ _ => ⟨rfl, rfl, rfl⟩) ?_ ?_ ?_ ?_
    · intro other waits
      rw [here]
      split at waits
      · cases waits
      · exact waits
    · intro registered
      split at registered
      · cases registered
      · cases registered
    · intro other gap ready
      split at gap
      · cases gap
      · rename_i notReady
        cases gap
        exact absurd ready notReady
    · intro other expects
      have registered := expects.goto
      split at registered
      · cases registered
      · cases registered
  | seen isRead =>
    rw [here] at goes
    cases goes
    refine watched.own (by simp [here]) (by simp [here]) rfl (fun _ _ => ⟨rfl, rfl, rfl⟩) ?_ nofun ?_ ?_
    · intro other waits
      rw [here]
      exact waits
    · intro other gap _
      rw [here]
      exact gap
    · intro other expects
      exact nomatch expects.goto
  | register isRead gen =>
    rw [here] at goes
    cases goes
    refine watched.own (by simp [here]) (by simp [here]) rfl ?_ ?_ (fun _ => update_self ..) nofun ?_
    · intro other differ
      exact ⟨update_of_ne differ .., update_of_ne differ .., rfl⟩
    · intro other waits
      rw [here]
      exact waits
    · intro other expects
      refine .inr ?_
      rw [here]
      cases expects with
      | check at_ =>
        rw [World.goto_self] at at_
        obtain ⟨rfl, -⟩ := Pc.check.inj at_
        rfl
      | sleep at_ => exact nomatch World.goto_self.symm.trans at_
  | check isRead gen =>
    rw [here] at goes
    cases goes
    refine watched.own (by simp [here]) (by simp [here]) rfl (fun _ _ => ⟨rfl, rfl, rfl⟩) ?_ ?_ ?_ ?_
    · intro other waits
      rw [here]
      split at waits
      · exact waits
      · exact waits
    · intro _
      refine watched.registered ?_
      rw [here]
      rfl
    · intro other gap
      split at gap
      · cases gap
      · cases gap
    · intro other expects
      refine .inl ?_
      cases expects with
      | check at_ =>
        rw [World.goto_self] at at_
        split at at_
        · cases at_
        · cases at_
      | sleep at_ blocked =>
        rw [World.goto_self] at at_
        split at at_
        · cases at_
        · rename_i same
          cases at_
          rw [not_not] at same
          rw [← same] at here
          exact .check here blocked
  | clear isRead =>
    rw [here] at goes
    cases goes
    refine watched.own (by simp [here]) (by simp [here]) rfl ?_ ?_ ?_ nofun ?_
    · intro other differ
      exact ⟨rfl, update_of_ne differ .., rfl⟩
    · intro other waits
      rw [here]
      exact waits
    · intro _
      refine watched.registered ?_
      rw [here]
      rfl
    · intro other expects
      cases expects with
      | check at_ => exact nomatch World.goto_self.symm.trans at_
      | sleep at_ blocked =>
        have cleared : (w.waits.unblock t).blocked t = false := update_self ..
        exact nomatch cleared.symm.trans blocked
  | sleep isRead =>
    rw [here] at goes
    obtain ⟨-, same⟩ := ite_none_left_eq_some.mp goes
    cases same
    refine watched.own (by simp [here]) (by simp [here]) rfl (fun _ _ => ⟨rfl, rfl, rfl⟩) ?_ nofun nofun ?_
    · intro other waits
      rw [here]
      exact waits
    · intro other expects
      exact nomatch expects.goto
  | leave isRead =>
    rw [here] at goes
    cases goes
    refine watched.own (by simp [here]) (by simp [here]) rfl ?_ ?_ nofun nofun ?_
    · intro other differ
      exact ⟨update_of_ne differ .., rfl, rfl⟩
    · intro other waits
      rw [here]
      exact waits
    · intro other expects
      exact nomatch expects.goto

theorem arrive (watched : Watched w) (idle : w.pc t = .out) (inside : t < taskMax) (alive : w.waits.inUse t = true)
    (holds : ∀ {isRead}, pc.waitsFor = some isRead → (if isRead then w.stream.readOpen else w.stream.writeOpen) = true)
    (registered : pc.registered = false) (gap : pc.gap = none) : Watched (w.goto t pc) := by
  have still : ∀ {u scan}, w.pc u = .wake scan → (w.goto t pc).pc u = .wake scan := by
    intro u scan there
    rw [World.goto_other ?_]
    · exact there
    · rintro rfl
      rw [idle] at there
      cases there
  refine ⟨watched.chan, watched.flowing, fun {other} away => ?_, fun {other isRead} waits => ?_, fun {other} waits => ?_,
    fun {r isRead} waits ready => ?_, fun {r isRead} expects ready => ?_⟩
  · by_cases here : other = t
    · subst here
      exact ⟨inside, alive⟩
    · rw [World.goto_other here] at away
      exact watched.alive away
  · by_cases here : other = t
    · subst here
      rw [World.goto_self] at waits
      exact holds waits
    · rw [World.goto_other here] at waits
      exact watched.holds waits
  · by_cases here : other = t
    · subst here
      rw [World.goto_self, registered] at waits
      cases waits
    · rw [World.goto_other here] at waits
      exact watched.registered waits
  · have differ : r ≠ t := by
      rintro rfl
      rw [World.goto_self, gap] at waits
      cases waits
    rw [World.goto_other differ] at waits
    obtain ⟨u, scan, there, ahead⟩ := watched.gap waits ready
    exact ⟨u, scan, still there, ahead⟩
  · have differ : r ≠ t := by
      rintro rfl
      have here := expects.goto
      rw [registered] at here
      cases here
    have before : Expects w r isRead := expects.other differ (fun stays => stays) rfl
    obtain ⟨u, scan, there, reaches⟩ := watched.watched before ready
    exact ⟨u, scan, still there, reaches⟩

variable {s : Stream}

theorem stream (watched : Watched w) (flowing : Flowing s)
    (ends : ∀ {t isRead}, (w.pc t).waitsFor = some isRead → (if isRead then s.readOpen else s.writeOpen) = true)
    (ready : ∀ isRead, s.ready isRead = true → w.stream.ready isRead = true) : Watched { w with stream := s } where
  chan := watched.chan
  flowing := flowing
  alive := watched.alive
  holds := ends
  registered := watched.registered
  gap waits now := watched.gap waits (ready _ now)
  watched expects now := by
    refine watched.watched ?_ (ready _ now)
    cases expects with
    | check here blocked => exact .check here blocked
    | sleep here blocked => exact .sleep here blocked

theorem announce (watched : Watched w) (idle : w.pc t = .out) (inside : t < taskMax)
    (alive : w.waits.inUse t = true) (flowing : Flowing s)
    (ends : ∀ {t isRead}, (w.pc t).waitsFor = some isRead → (if isRead then s.readOpen else s.writeOpen) = true) :
    Watched ({ w with stream := s }.goto t (.afterScan (.start w.chan))) := by
  have ahead : ∀ r, (Scan.start w.chan).Ahead r := fun r => Scan.ahead_start watched.chan
  have here : ({ w with stream := s }.goto t (.afterScan (.start w.chan))).pc t = .wake (.start w.chan) :=
    World.goto_self.trans (Pc.afterScan_wake (ahead 0).reaches)
  obtain ⟨noWait, noRegister, -⟩ := Pc.afterScan_idle (.start w.chan)
  refine ⟨watched.chan, flowing, fun {other} away => ?_, fun {other isRead} waits => ?_, fun {other} waits => ?_,
    fun {r isRead} _ _ => ⟨t, _, here, ahead r⟩, fun {r isRead} _ _ => ⟨t, _, here, (ahead r).reaches⟩⟩
  · by_cases same : other = t
    · subst same
      exact ⟨inside, alive⟩
    · rw [World.goto_other same] at away
      exact watched.alive away
  · by_cases same : other = t
    · subst same
      rw [World.goto_self, noWait] at waits
      cases waits
    · rw [World.goto_other same] at waits
      exact ends waits
  · by_cases same : other = t
    · subst same
      rw [World.goto_self, noRegister] at waits
      cases waits
    · rw [World.goto_other same] at waits
      exact watched.registered waits

variable {c : PipeCall} {result : Int}

theorem ends_call (watched : Watched w) (permits : w.Permits c)
    (acts : w.stream.act c = some (result, s)) (waits : (w.pc t).waitsFor = some isRead) :
    (if isRead then s.readOpen else s.writeOpen) = true := by
  have before := watched.holds waits
  obtain ⟨p, found, ⟨ubuf, len, -, -, rfl⟩ | ⟨ubuf, len, -, -, rfl⟩ | ⟨closed, rfl, -, open_, rfl⟩⟩ := Flowing.act_cases acts
  · exact before
  · exact before
  · have other : isRead ≠ closed := by
      rintro rfl
      exact permits t waits
    cases isRead with
    | true =>
      have closed_ : closed = false := by simpa using Ne.symm other
      subst closed_
      simpa using before
    | false =>
      have closed_ : closed = true := by simpa using Ne.symm other
      subst closed_
      simpa using before

theorem ready_same {p p' : Pair} (before : w.stream.pair = some p) (after : s.pair = some p')
    (same : SameEnds p p') (contents : p'.contents = p.contents) : s.ready isRead = w.stream.ready isRead := by
  have count : p'.count = p.count := by
    rw [← RingBuffer.length_contents, contents, RingBuffer.length_contents]
  unfold Stream.ready
  rw [before, after]
  dsimp only
  rw [count, same.cap, same.readEnds, same.writeEnds]

theorem ready_call (acts : w.stream.act c = some (result, s))
    (quiet : World.wakes result s c = false) (now : s.ready isRead = true) : w.stream.ready isRead = true := by
  obtain ⟨p, found, ⟨ubuf, len, rfl, rfl, rfl⟩ | ⟨ubuf, len, rfl, rfl, rfl⟩ | ⟨closed, rfl, rfl, -, rfl⟩⟩ := Flowing.act_cases acts
  · rcases pipeReadAt_cases p ubuf len with ⟨nothing, -⟩ | ⟨moved, -⟩
    · have contents : (pipeReadAt p ubuf len).2.2.contents = p.contents := by
        rw [nothing]
      rwa [ready_same found rfl pipeReadAt_ends contents] at now
    · exact nomatch quiet.symm.trans (decide_eq_true moved)
  · rcases pipeWriteAt_cases p ubuf len with ⟨kept, -⟩ | ⟨count, grown, -⟩
    · rwa [ready_same found rfl pipeWriteAt_ends kept] at now
    · -- nothing has been accepted after all
      have none_ : min len (p.cap - p.count) = 0 := by
        have quiet := of_decide_eq_false quiet
        omega
      rw [none_] at grown
      have kept : (pipeWriteAt p ubuf len).2.contents = p.contents := grown.trans (List.append_nil _)
      rwa [ready_same found rfl pipeWriteAt_ends kept] at now
  · have gone : pipeClose p closed = none := by simpa [World.wakes] using quiet
    rw [Stream.ready] at now
    dsimp only at now
    rw [gone] at now
    cases now

theorem called (watched : Watched w) (idle : w.pc t = .out)
    (inside : t < taskMax) (alive : w.waits.inUse t = true) (permits : w.Permits c)
    (acts : w.stream.act c = some (result, s)) : Watched (w.called t c result s) := by
  have flowing := watched.flowing.step acts
  unfold World.called
  split
  · exact watched.announce idle inside alive flowing fun waits => watched.ends_call permits acts waits
  · rename_i quiet
    have changed : Watched { w with stream := s } :=
      watched.stream flowing (fun waits => watched.ends_call permits acts waits)
        fun isRead now => ready_call acts (by simpa using quiet) now
    exact changed.arrive idle inside alive nofun rfl rfl

theorem step {move : Move} (watched : Watched w) (outside : LooksOutside move w) (takes : Takes move w w') : Watched w' := by
  cases takes with
  | call idle inside alive permits acts => exact watched.called idle inside alive permits acts
  | enter idle inside alive isOpen =>
    refine watched.arrive idle inside alive (fun waits => ?_) rfl rfl
    cases waits
    exact isOpen
  | @interrupt _ t isRead here =>
    refine watched.own (by simp [here]) (by simp [here]) rfl (fun _ _ => ⟨rfl, rfl, rfl⟩) nofun nofun nofun ?_
    intro other expects
    exact nomatch expects.goto
  | go goes => exact watched.go outside goes

end Watched

/-- No wake-up is lost as long as `task_wake_chan` looks at no task between its test and its
registration. -/
theorem pipe_wakes_sleepers {start now : World} (fresh : Fresh start) (run : Run Takes LooksOutside start now) :
    NoneForgotten now :=
  (run.invariant (Watched.fresh fresh) fun _ _ _ watched outside takes => watched.step outside takes).noneForgotten

/-- A kernel in which every slot is in use and nobody waits. -/
def quietWorld : World where
  stream := emptyPipe
  waits := ⟨fun _ => true, fun _ => 0, fun _ => 0, fun _ => false, fun _ => 0, 0⟩
  chan := 4096
  pc := fun _ => .out

theorem quietWorld_fresh : Fresh quietWorld := ⟨⟨_, rfl⟩, by decide, fun _ => rfl⟩

/-- The state after the next step of a task. -/
def World.stepped (w : World) (t : Nat) : World := (w.go t).getD w

theorem Takes.stepped (goes : (w.go t).isSome = true) : Takes (.go t) w (w.stepped t) := by
  refine .go ?_
  rw [World.stepped, getD_of_ne_none (isSome_iff_ne_none.mp goes)]

theorem World.stepped_other {u : Nat} (differ : u ≠ t) : (w.stepped t).pc u = w.pc u := by
  unfold World.stepped World.go
  cases w.pc t with
  | out => rfl
  | sleep isRead =>
    dsimp only
    split
    · rfl
    · exact goto_other differ
  | _ => exact goto_other differ

/-- Task 1 calls `pipe_wait_readable`. -/
def reading : World := quietWorld.goto 1 (.test true)

/-- A task writes a byte and is about to look for sleepers. -/
def World.writes (w : World) : World := { w with stream := emptyPipe.after (.write (.filled 7#8) 1) }.goto 2 (.wake (.look 0))

theorem Takes.writes (empty : w.stream = emptyPipe) (idle : w.pc 2 = .out) (alive : w.waits.inUse 2 = true)
    (chan : w.chan ≠ 0) : Takes (.call 2 (.write (.filled 7#8) 1)) w w.writes := by
  have acts : w.stream.act (.write (.filled 7#8) 1) = some (1, emptyPipe.after (.write (.filled 7#8) 1)) := by
    rw [empty]
    rfl
  have permits : w.Permits (.write (.filled 7#8) 1) := trivial
  have taken := Takes.call idle (by decide) alive permits acts
  unfold World.called Scan.start at taken
  rw [if_neg chan] at taken
  exact taken

/-- The reader has tested the pipe, loaded its generation, registered and checked. -/
def asleep : World := (((reading.stepped 1).stepped 1).stepped 1).stepped 1

/-- A reader that has gone to sleep before the writer comes will be woken. -/
theorem pipe_wakes_sleepers_write : (asleep.pc 1 = .sleep true ∧ Run Takes LooksOutside quietWorld asleep.writes) ∧
    NoneForgotten asleep.writes := by
  have own : ∀ {pc : Pc}, pc.waitsFor = some true → ∀ w : World, w.pc 1 = pc → LooksOutside (.go 1) w := by
    intro pc waits w here i looks
    rw [here] at looks
    subst looks
    cases waits
  have entered : Takes (.enter 1 true) quietWorld reading := .enter rfl (by decide) rfl rfl
  have first := (Run.start.next (by trivial) entered).next (own rfl _ rfl) (.stepped rfl)
  have slept : Run Takes LooksOutside quietWorld asleep :=
    ((first.next (own rfl _ rfl) (.stepped rfl)).next (own rfl _ rfl) (.stepped rfl)).next (own rfl _ rfl) (.stepped rfl)
  have run := slept.next (by trivial) (.writes rfl rfl rfl (by decide))
  exact ⟨⟨rfl, run⟩, pipe_wakes_sleepers quietWorld_fresh run⟩

theorem scan_finds_nobody {start : World} {u i : Nat} (nobody : ∀ i, w.waits.waitsOn w.chan i = false)
    (run : Run Takes (fun _ _ => True) start (w.goto u (.wake (.look i)))) :
    Run Takes (fun _ _ => True) start (w.goto u .out) := by
  have step : Takes (.go u) (w.goto u (.wake (.look i))) (w.goto u (.afterScan (.after i))) := by
    refine .go ?_
    have looks : (Scan.look i).step w.chan w.waits = (w.waits, .after i) := by
      unfold Scan.step
      dsimp only
      rw [nobody i]
      rfl
    unfold World.go
    rw [World.goto_self]
    change some (World.goto { w.goto u (.wake (.look i)) with waits := ((Scan.look i).step w.chan w.waits).1 } u
      (.afterScan ((Scan.look i).step w.chan w.waits).2)) = _
    rw [looks]
    unfold World.goto
    simp only [update_idem]
  have next := run.next trivial step
  unfold Scan.after at next
  split at next
  · exact scan_finds_nobody nobody next
  · exact next
termination_by taskMax - i

/-- The writer has come while the reader was between its test and its registration. -/
def forgotten : World :=
  (((({ reading.stepped 1 with stream := emptyPipe.after (.write (.filled 7#8) 1) }.goto 2 .out).stepped 1).stepped 1).stepped 1)

/-- Task 1 sleeps although there is a byte in the pipe, and nobody will wake it. -/
theorem reader_forgotten : Fresh quietWorld ∧ Run Takes (fun _ _ => True) quietWorld forgotten ∧
    (forgotten.stream.buffered = some [7#8] ∧ forgotten.pc 1 = .sleep true ∧ forgotten.waits.blocked 1 = true ∧
      ∀ u, u ≠ 1 → forgotten.pc u = .out) ∧ ¬NoneForgotten forgotten := by
  have entered : Takes (.enter 1 true) quietWorld reading := .enter rfl (by decide) rfl rfl
  have tested : Run Takes (fun _ _ => True) quietWorld (reading.stepped 1) :=
    (Run.start.next trivial entered).next trivial (.stepped rfl)
  have looked := scan_finds_nobody (fun _ => rfl) (tested.next trivial (.writes rfl rfl rfl (by decide)))
  have run : Run Takes (fun _ _ => True) quietWorld forgotten :=
    ((looked.next trivial (.stepped rfl)).next trivial (.stepped rfl)).next trivial (.stepped rfl)
  have others : ∀ u, u ≠ 1 → forgotten.pc u = .out := by
    intro u differ
    unfold forgotten
    rw [World.stepped_other differ, World.stepped_other differ, World.stepped_other differ]
    by_cases writer : u = 2
    · subst writer
      exact World.goto_self
    · rw [World.goto_other writer]
      have before : (reading.stepped 1).pc u = .out := (World.stepped_other differ).trans (World.goto_other differ)
      exact before
  refine ⟨quietWorld_fresh, run, ⟨by decide, rfl, rfl, others⟩, fun none_ => ?_⟩
  obtain ⟨u, differ, scan, there, -⟩ := none_ 1 true rfl rfl rfl
  rw [others u differ] at there
  cases there

end NyonOS.Pipe
