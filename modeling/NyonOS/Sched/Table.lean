import NyonOS.Abi

namespace NyonOS.Sched

open Abi

/-! The task table and what is done to it under `sched_lock`, by any number of processors. -/

abbrev Pid := BitVec 32

/-- What `wait_chan` points to: nothing, a field of the task itself, or anything else. -/
inductive Chan
  | null
  | child
  | vfork
  | other (addr : Nat)
deriving DecidableEq

/-- The fields of a task that scheduling, dying and waiting for children work on. Of the
pointers `frame`, `stack_base` and `pml4` only whether they are set is kept. -/
structure Slot (n : Nat) where
  frame : Bool
  stack : Bool
  user : Bool
  inUse : Bool
  zombie : Bool
  blocked : Bool
  stopped : Bool
  running : Bool
  cpu : Option (Fin n)
  sigTerminate : Bool
  exitCode : BitVec 64
  pid : Pid
  parentPid : Pid
  vforkChild : Pid
  waitChan : Chan
  childChan : Chan
  vforkChan : Chan

structure Table (n : Nat) where
  slots : Nat → Slot n
  current : Fin n → Nat
  idleSlot : Fin n → Nat
  nextPid : Pid

/-- How a task comes into being: by `task_spawn`, as a program of its own, or as the child
of a task. -/
inductive SpawnKind
  | task
  | program
  | child (parent : Pid)

namespace Slot

variable {n : Nat}

def taskRelease (slot : Slot n) : Slot n :=
  { slot with
    cpu := none
    running := false
    sigTerminate := false
    user := false
    stack := false
    frame := false
    zombie := false
    blocked := false
    parentPid := 0
    childChan := .child
    vforkChild := 0
    vforkChan := .vfork
    waitChan := .null
    exitCode := 0 }

/-- What all the spawning functions write. -/
def taken (slot : Slot n) (pid : Pid) : Slot n :=
  { slot with
    stack := true
    frame := true
    inUse := true
    zombie := false
    blocked := false
    vforkChild := 0
    vforkChan := .vfork
    waitChan := .null
    running := false
    sigTerminate := false
    cpu := none
    pid }

/-- `task_spawn` leaves the parent, the channel and the exit code as they are. -/
def spawned (slot : Slot n) (pid : Pid) : SpawnKind → Slot n
  | .task => slot.taken pid
  | .program => { slot.taken pid with parentPid := 0, childChan := .child, user := true, exitCode := 0 }
  | .child parent => { slot.taken pid with parentPid := parent, childChan := .child, user := true, exitCode := 0 }

/-- The loop over the children of a task that dies. -/
def orphaned (pid : Pid) (slot : Slot n) : Slot n := if slot.parentPid = pid then { slot with parentPid := 0 } else slot

/-- The task is the parent, and waits for a child. -/
def awaits (slot : Slot n) (parent : Pid) : Bool := slot.inUse && slot.pid == parent && slot.waitChan == slot.childChan

def awaitsVfork (slot : Slot n) (child : Pid) : Bool :=
  slot.inUse && slot.vforkChild == child && slot.waitChan == slot.vforkChan

/-- The loop of `task_zombify_locked` over the parent. -/
def parentWoken (parent : Pid) (slot : Slot n) : Slot n := if slot.awaits parent then { slot with blocked := false } else slot

/-- The loop of `task_exit_code` over the parent. -/
def parentReleased (parent : Pid) (slot : Slot n) : Slot n :=
  if slot.awaits parent then { slot with vforkChild := 0, blocked := false } else slot

def vforkReleased (child : Pid) (slot : Slot n) : Slot n :=
  if slot.awaitsVfork child then { slot with vforkChild := 0, blocked := false } else slot

variable (slot : Slot n)

def zombified : Slot n :=
  { slot with inUse := false, zombie := true, blocked := false, frame := false, running := false }

/-- What `task_exit_code` writes in its own slot: it goes on running. -/
def exited : Slot n := { slot with inUse := false, blocked := false, zombie := true, frame := false }

/-- What `task_sig_check` does, if it comes upon a signal with the default action. -/
def sigChecked : Option Nat → Slot n
  | none => slot
  | some s => { slot with exitCode := BitVec.ofNat 64 (128 + s), sigTerminate := true }

end Slot

namespace Table

variable {n : Nat}

section

variable (t : Table n)

def setSlot (i : Nat) (slot : Slot n) : Table n := { t with slots := Function.update t.slots i slot }

/-- A loop over all tasks but the first, which changes each in its own slot. -/
def each (body : Slot n → Slot n) : Table n :=
  { t with slots := fun i => if 0 < i ∧ i < taskMax then body (t.slots i) else t.slots i }

section

variable (me : Fin n)

def reaps (i : Nat) : Bool :=
  0 < i && i < taskMax && (t.slots i).zombie && i != t.current me && (t.slots i).parentPid == 0

def taskReapZombies : Table n :=
  { t with slots := fun i => if t.reaps me i then (t.slots i).taskRelease else t.slots i }

def freeSlot : Option Nat :=
  (List.range taskMax).find? fun i => 0 < i && !(t.slots i).inUse && !(t.slots i).zombie

/-- The section of the spawning functions, with the slot that has been filled; all that
can fail before that is one flag. -/
def taskSpawn (kind : SpawnKind) (allocated : Bool) : Table n × Option Nat :=
  let reaped := t.taskReapZombies me
  match reaped.freeSlot with
  | none => (reaped, none)
  | some i =>
    if allocated then
      ({ reaped.setSlot i ((reaped.slots i).spawned (t.nextPid + 1) kind) with nextPid := t.nextPid + 1 }, some i)
    else (reaped, none)

/-- The slots in the order in which they are searched, the current one last. -/
def order : List Nat :=
  (List.range taskMax).map fun i => (t.current me + (i + 1)) % taskMax

def runnable (i : Nat) : Bool :=
  (t.slots i).inUse && !(t.slots i).blocked && !(t.slots i).running &&
    ((t.slots i).cpu == none || (t.slots i).cpu == some me)

def pickNext : Option Nat :=
  (t.order me).find? fun i => t.runnable me i && !(t.slots i).stopped &&
    !(decide (t.idleSlot me < taskMax) && i == t.idleSlot me)

/-- The second search of `task_switch_to`, when the current task gives way. -/
def pickAway (next : Option Nat) (forceAway : Bool) : Option Nat :=
  if next = some (t.current me) ∧ forceAway then ((t.order me).find? (t.runnable me)).or next else next

end

def taskZombifyLocked (i : Nat) : Table n :=
  if !(t.slots i).inUse ∨ (t.slots i).zombie then t
  else
    let orphans := t.each (Slot.orphaned (t.slots i).pid)
    let woken := orphans.each (Slot.parentWoken (orphans.slots i).parentPid)
    woken.setSlot i (woken.slots i).zombified

end

/-- The tasks that a signal has ended are taken away before one is resumed. -/
def zombifyTerminated (me : Fin n) : (fuel : Nat) → Table n → Option Nat → Table n × Option Nat
  | 0, t, next => (t, next)
  | _ + 1, t, none => (t, none)
  | fuel + 1, t, some i =>
    if i ≠ t.current me ∧ (t.slots i).sigTerminate then
      zombifyTerminated me fuel (t.taskZombifyLocked i) ((t.taskZombifyLocked i).pickNext me)
    else (t, some i)

variable (t : Table n)

section

variable (me : Fin n)

def orIdle : Option Nat → Option Nat
  | some i => some i
  | none =>
    if t.idleSlot me < taskMax ∧ (t.slots (t.idleSlot me)).inUse ∧ !(t.slots (t.idleSlot me)).running ∧
        t.idleSlot me ≠ t.current me then
      some (t.idleSlot me)
    else none

def setRunning (i : Nat) (running : Bool) : Table n := t.setSlot i { t.slots i with running }

def setCurrent (i : Nat) : Table n := { t with current := Function.update t.current me i }

def makeCurrent : Option Nat → Table n
  | none => t
  | some i =>
    if i = t.current me then t
    else ((t.setRunning (t.current me) false).setRunning i true).setCurrent me i

/-- `task_switch_to` up to the test of the frame that is resumed. -/
def resumes (forceAway : Bool) : Table n :=
  let saved := t.setSlot (t.current me) { t.slots (t.current me) with frame := true }
  let reaped := saved.taskReapZombies me
  let picked := zombifyTerminated me (taskMax + 1) reaped (reaped.pickAway me (reaped.pickNext me) forceAway)
  picked.1.makeCurrent me (picked.1.orIdle me picked.2)

/-- The section of `task_switch_to`; without a saved frame the processor halts in it. -/
def taskSwitchTo (forceAway : Bool) (signal : Option Nat) : Option (Table n) :=
  let resumed := t.resumes me forceAway
  let next := resumed.current me
  if (resumed.slots next).frame then some (resumed.setSlot next ((resumed.slots next).sigChecked signal)) else none

/-- The wake-ups and the release of the children in `task_exit_code`. -/
def mourned (self : Slot n) : Table n :=
  let parent := if self.parentPid = 0 then t else t.each (Slot.parentReleased self.parentPid)
  (parent.each (Slot.vforkReleased self.pid)).each (Slot.orphaned self.pid)

/-- `task_exit_code` up to the search for the next task. -/
def buried (code : BitVec 64) : Table n :=
  let self := t.current me
  let coded := t.setSlot self { t.slots self with exitCode := code }
  let mourned := coded.mourned (t.slots self)
  mourned.setSlot self (mourned.slots self).exited

def exitNext : Option Nat :=
  (t.pickNext me).or
    (if t.idleSlot me < taskMax ∧ (t.slots (t.idleSlot me)).inUse ∧ !(t.slots (t.idleSlot me)).running then
      some (t.idleSlot me)
    else none)

/-- `task_exit_code`, with interrupts off since its first line; the flag says whether there
is a task to resume. -/
def taskExitCode (code : BitVec 64) : Table n × Bool :=
  let buried := t.buried me code
  match buried.exitNext me with
  | none => (buried, false)
  | some i => ((buried.setRunning i true).setCurrent me i, (buried.slots i).frame)

end

/-- The zombie that `task_wait_child` comes upon. -/
def deadChild (parent : Pid) (want : BitVec 32) : Option Nat :=
  (List.range taskMax).find? fun i =>
    0 < i && (t.slots i).zombie && (t.slots i).parentPid == parent && (!(0#32).slt want || (t.slots i).pid == want)

end Table

/-- The status word of a child. -/
def waitStatus (code : BitVec 32) : BitVec 32 :=
  if code.slt 128#32 then (code &&& 0xFF#32) <<< 8 else (code - 128#32) &&& 0x7F#32

end NyonOS.Sched
