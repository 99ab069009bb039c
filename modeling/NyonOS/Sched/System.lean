import NyonOS.Data.Run
import NyonOS.Sched.Table

namespace NyonOS.Sched

open Abi
open Data Function

/-! The processors and tasks that work on the table. A section under `sched_lock` is one
step, and leaving the kernel stack of the old task is another. -/

/-- Where a processor is: at the code of its current task, between a section that may have
changed the current task and `task_resume`, at the end of `task_exit_code` with no task to
resume, or halted inside of `task_switch_to`, where it keeps `sched_lock`. -/
inductive Phase
  | runs
  | leaves
  | parks
  | halts
deriving DecidableEq

/-- Where a task is, as far as children are concerned. -/
inductive Pc
  | run
  /-- In `task_wait_child`, asleep. -/
  | asleep (want : BitVec 32)
  /-- In `task_wait_child`, before its next round. -/
  | awake (want : BitVec 32)
  /-- In `task_wait_child`, between the two sections. -/
  | collect (want : BitVec 32) (slot : Nat) (pid : Pid) (status : BitVec 32)
  /-- In `fork_common`, before `task_wait_vfork_child`. -/
  | vforked (child : Pid)
  | vforkAsleep (child : Pid)
deriving DecidableEq

structure System (n : Nat) where
  table : Table n
  phase : Fin n → Phase
  /-- The slot whose kernel stack the processor is on. -/
  stack : Fin n → Option Nat
  pc : Nat → Pc

inductive Move (n : Nat)
  | spawn (me : Fin n) (kind : SpawnKind) (allocated : Bool)
  | fork (me : Fin n) (vfork allocated copied : Bool)
  | switch (me : Fin n) (forceAway : Bool) (signal : Option Nat)
  | exit (me : Fin n) (code : BitVec 64)
  | resume (me : Fin n)
  | park (me : Fin n) (allocated : Bool)
  | reap (me : Fin n)
  | wake (i : Nat)
  | sleep (me : Fin n) (chan : Option Nat)
  | leave (me : Fin n)
  | exec (me : Fin n)
  | wait (me : Fin n) (want : BitVec 32) (noHang : Bool)
  | again (me : Fin n)
  | collect (me : Fin n) (copied : Bool)
  | rise (me : Fin n)
  | vforkWait (me : Fin n)

namespace System

variable {n : Nat}

/-- The processor executes the code of its current task, and `sched_lock` can be taken. -/
structure Ready (s : System n) (me : Fin n) : Prop where
  runs : s.phase me = .runs
  free : ∀ cpu, s.phase cpu ≠ .halts

instance (s : System n) (me : Fin n) : Decidable (s.Ready me) :=
  decidable_of_iff (s.phase me = .runs ∧ ∀ cpu, s.phase cpu ≠ .halts) ⟨fun ready => ⟨ready.1, ready.2⟩, fun ready => ⟨ready.1, ready.2⟩⟩

section

variable (s : System n) (me : Fin n)

def self : Nat := s.table.current me

def slot : Slot n := s.table.slots (s.self me)

def goto (i : Nat) (pc : Pc) : System n := { s with pc := update s.pc i pc }

def setPhase (phase : Phase) : System n := { s with phase := update s.phase me phase }

def setSelf (slot : Slot n) : System n := { s with table := s.table.setSlot (s.self me) slot }

end

/-- A new task starts at the beginning. -/
def spawn (s : System n) (me : Fin n) (kind : SpawnKind) (allocated : Bool) : System n :=
  let spawned := s.table.taskSpawn me kind allocated
  match spawned.2 with
  | none => { s with table := spawned.1 }
  | some i => { s with table := spawned.1 }.goto i .run

/-- `fork_common` and `sys_clone` up to the wait of the parent; the pid is copied to user
memory in between. -/
def fork (s : System n) (me : Fin n) (vfork allocated copied : Bool) : System n :=
  let spawned := s.spawn me (.child (s.slot me).pid) allocated
  if (s.table.taskSpawn me (.child (s.slot me).pid) allocated).2.isSome ∧ vfork ∧ copied then
    spawned.goto (s.self me) (.vforked spawned.table.nextPid)
  else spawned

/-- The section of `task_switch_to`. -/
def switch (s : System n) (me : Fin n) (forceAway : Bool) (signal : Option Nat) : System n :=
  match s.table.taskSwitchTo me forceAway signal with
  | some table => { s with table }.setPhase me .leaves
  | none => { s with table := s.table.resumes me forceAway }.setPhase me .halts

def exit (s : System n) (me : Fin n) (code : BitVec 64) : System n :=
  let exited := s.table.taskExitCode me code
  { s with table := exited.1 }.setPhase me (if exited.2 then .leaves else .parks)

/-- A round of `task_wait_child` up to the release of `sched_lock`. -/
def waitRound (s : System n) (me : Fin n) (want : BitVec 32) (noHang : Bool) : System n :=
  let reaped := s.table.taskReapZombies me
  let self := reaped.slots (s.self me)
  match reaped.deadChild self.pid want with
  | some i =>
    { s with table := reaped }.goto (s.self me)
      (.collect want i (reaped.slots i).pid (waitStatus ((reaped.slots i).exitCode.setWidth 32)))
  | none =>
    if noHang then { s with table := reaped }.goto (s.self me) .run
    else { s with table := reaped.setSlot (s.self me) { self with waitChan := .child, blocked := true } }.goto
      (s.self me) (.asleep want)

/-- `task_wait_vfork_child` up to the release of `sched_lock`. -/
def vforkWait (s : System n) (me : Fin n) (child : Pid) : System n :=
  if (List.range taskMax).any fun i => 0 < i && (s.table.slots i).zombie && (s.table.slots i).pid == child then
    s.goto (s.self me) .run
  else
    (s.setSelf me { s.slot me with vforkChild := child, waitChan := .vfork, blocked := true }).goto (s.self me)
      (.vforkAsleep child)

end System

/-- The steps of the processors. The idle tasks never exit, and only programs make system
calls. -/
inductive Step {n : Nat} : Move n → System n → System n → Prop
  | spawn {s : System n} {me : Fin n} {kind : SpawnKind} {allocated : Bool} (ready : s.Ready me)
      (here : s.pc (s.self me) = .run) (kernel : ∀ parent, kind ≠ .child parent) :
      Step (.spawn me kind allocated) s (s.spawn me kind allocated)
  | fork {s : System n} {me : Fin n} {vfork allocated copied : Bool} (ready : s.Ready me)
      (here : s.pc (s.self me) = .run) (user : (s.slot me).user = true) :
      Step (.fork me vfork allocated copied) s (s.fork me vfork allocated copied)
  | switch {s : System n} {me : Fin n} {forceAway : Bool} {signal : Option Nat} (ready : s.Ready me) :
      Step (.switch me forceAway signal) s (s.switch me forceAway signal)
  | exit {s : System n} {me : Fin n} {code : BitVec 64} (ready : s.Ready me) (here : s.pc (s.self me) = .run)
      (notIdle : s.self me ≠ s.table.idleSlot me) : Step (.exit me code) s (s.exit me code)
  | resume {s : System n} {me : Fin n} (here : s.phase me = .leaves) :
      Step (.resume me) s ({ s with stack := update s.stack me (some (s.self me)) }.setPhase me .runs)
  /-- The processor waits for interrupts on a stack of its own, if there is memory for one. -/
  | park {s : System n} {me : Fin n} {allocated : Bool} (here : s.phase me = .parks) :
      Step (.park me allocated) s
        ({ s with stack := update s.stack me (if allocated then none else s.stack me) }.setPhase me .runs)
  | reap {s : System n} {me : Fin n} (ready : s.Ready me) :
      Step (.reap me) s { s with table := s.table.taskReapZombies me }
  | wake {s : System n} {i : Nat} : Step (.wake i) s { s with table := s.table.setSlot i { s.table.slots i with blocked := false } }
  /-- The waits that have nothing to do with children; `task_block_current` has no channel. -/
  | sleep {s : System n} {me : Fin n} {chan : Option Nat} (ready : s.Ready me) (here : s.pc (s.self me) = .run) :
      Step (.sleep me chan) s
        (s.setSelf me { s.slot me with blocked := true, waitChan := (chan.map Chan.other).getD (s.slot me).waitChan })
  | leave {s : System n} {me : Fin n} (runs : s.phase me = .runs) (here : s.pc (s.self me) = .run) :
      Step (.leave me) s (s.setSelf me { s.slot me with blocked := false, waitChan := .null })
  | exec {s : System n} {me : Fin n} (runs : s.phase me = .runs) (here : s.pc (s.self me) = .run)
      (user : (s.slot me).user = true) :
      Step (.exec me) s
        (s.setSelf me { s.slot me with exitCode := 0, zombie := false, blocked := false, waitChan := .null })
  | wait {s : System n} {me : Fin n} {want : BitVec 32} {noHang : Bool} (ready : s.Ready me)
      (here : s.pc (s.self me) = .run) (user : (s.slot me).user = true) :
      Step (.wait me want noHang) s (s.waitRound me want noHang)
  | again {s : System n} {me : Fin n} {want : BitVec 32} (ready : s.Ready me) (here : s.pc (s.self me) = .awake want) :
      Step (.again me) s (s.waitRound me want false)
  /-- The second section of `task_wait_child`, whether the status could be copied or not. -/
  | collect {s : System n} {me : Fin n} {want status : BitVec 32} {i : Nat} {pid : Pid} {copied : Bool} (ready : s.Ready me)
      (here : s.pc (s.self me) = .collect want i pid status) :
      Step (.collect me copied) s
        ({ s with table := s.table.setSlot i (s.table.slots i).taskRelease }.goto (s.self me) .run)
  | rise {s : System n} {me : Fin n} {want : BitVec 32} (runs : s.phase me = .runs)
      (here : s.pc (s.self me) = .asleep want) (woken : (s.slot me).blocked = false) :
      Step (.rise me) s ((s.setSelf me { s.slot me with waitChan := .null }).goto (s.self me) (.awake want))
  | vforkRise {s : System n} {me : Fin n} {child : Pid} (runs : s.phase me = .runs)
      (here : s.pc (s.self me) = .vforkAsleep child) (woken : (s.slot me).blocked = false) :
      Step (.rise me) s ((s.setSelf me { s.slot me with waitChan := .null, vforkChild := 0 }).goto (s.self me) .run)
  | vforkWait {s : System n} {me : Fin n} {child : Pid} (ready : s.Ready me)
      (here : s.pc (s.self me) = .vforked child) : Step (.vforkWait me) s (s.vforkWait me child)

end NyonOS.Sched
