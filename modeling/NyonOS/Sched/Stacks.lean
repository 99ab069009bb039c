import NyonOS.Sched.Kin

namespace NyonOS.Sched

open Abi
open Data
open Function (update update_of_ne)

/-! Kernel stacks: who is on them when a task is selected or released. -/

variable {n : Nat}

/-- The kernel stacks that a step frees. -/
def Move.frees : Move n → System n → Nat → Prop
  | .spawn me _ _, s, i => s.table.reaps me i = true
  | .fork me _ _ _, s, i => s.table.reaps me i = true
  | .switch me _ _, s, i => s.table.reaps me i = true
  | .reap me, s, i => s.table.reaps me i = true
  | .wait me _ _, s, i => s.table.reaps me i = true
  | .again me, s, i => s.table.reaps me i = true
  | .collect me _, s, i => ∃ want pid status, s.pc (s.self me) = .collect want i pid status
  | _, _, _ => False

/-- No other processor is on the stack of a task that one goes to, and none is on a stack
that is freed. -/
structure StacksApart (move : Move n) (before after : System n) : Prop where
  selects : ∀ {me cpu}, after.self me ≠ before.self me → cpu ≠ me → before.stack cpu ≠ some (after.self me)
  frees : ∀ {i}, move.frees before i → (before.table.slots i).stack = true → ∀ cpu, before.stack cpu ≠ some i

/-- A section is entered when every processor is on the stack of its current task, that is
when none is between its section and its `task_resume`. -/
def Settles : Move n → System n → Prop
  | .spawn _ _ _, s => ∀ cpu, s.stack cpu = some (s.self cpu)
  | .fork _ _ _ _, s => ∀ cpu, s.stack cpu = some (s.self cpu)
  | .switch _ _ _, s => ∀ cpu, s.stack cpu = some (s.self cpu)
  | .exit _ _, s => ∀ cpu, s.stack cpu = some (s.self cpu)
  | .reap _, s => ∀ cpu, s.stack cpu = some (s.self cpu)
  | .wait _ _ _, s => ∀ cpu, s.stack cpu = some (s.self cpu)
  | .again _, s => ∀ cpu, s.stack cpu = some (s.self cpu)
  | .collect _ _, s => ∀ cpu, s.stack cpu = some (s.self cpu)
  | _, _ => True

section Currents

variable {s s' : System n} {t : Table n} {me : Fin n}

theorem Table.taskZombifyLocked_current (t : Table n) (i : Nat) : (t.taskZombifyLocked i).current = t.current := by
  unfold Table.taskZombifyLocked
  split <;> rfl

theorem Table.zombifyTerminated_current (me : Fin n) (fuel : Nat) (t : Table n) (next : Option Nat) :
    (Table.zombifyTerminated me fuel t next).1.current = t.current := by
  induction fuel generalizing t next with
  | zero => rfl
  | succ fuel ih =>
    cases next with
    | none => rfl
    | some i =>
      unfold Table.zombifyTerminated
      split
      · rw [ih, Table.taskZombifyLocked_current]
      · rfl

theorem Table.makeCurrent_current (t : Table n) (next : Option Nat) {cpu : Fin n} (other : cpu ≠ me) :
    (t.makeCurrent me next).current cpu = t.current cpu := by
  cases next with
  | none => rfl
  | some i =>
    unfold Table.makeCurrent
    dsimp only
    split
    · rfl
    · exact update_of_ne other ..

theorem Table.resumes_current (t : Table n) (forceAway : Bool) {cpu : Fin n} (other : cpu ≠ me) :
    (t.resumes me forceAway).current cpu = t.current cpu := by
  unfold Table.resumes
  dsimp only
  rw [Table.makeCurrent_current _ _ other, Table.zombifyTerminated_current]
  rfl

section

variable (s : System n)

theorem System.spawn_current (me : Fin n) (kind : SpawnKind) (allocated : Bool) :
    (s.spawn me kind allocated).table.current = s.table.current := by
  have spawned : (s.table.taskSpawn me kind allocated).1.current = s.table.current := by
    unfold Table.taskSpawn
    dsimp only
    split
    · rfl
    · split <;> rfl
  unfold System.spawn
  dsimp only
  split <;> exact spawned

theorem System.waitRound_current (me : Fin n) (want : BitVec 32) (noHang : Bool) :
    (s.waitRound me want noHang).table.current = s.table.current := by
  unfold System.waitRound
  dsimp only
  split
  · rfl
  · split <;> rfl

theorem System.switch_current (forceAway : Bool) (signal : Option Nat) {cpu : Fin n} (other : cpu ≠ me) :
    (s.switch me forceAway signal).table.current cpu = s.table.current cpu := by
  have resumed := s.table.resumes_current forceAway other
  unfold System.switch Table.taskSwitchTo
  dsimp only
  split
  · rename_i table switched
    split at switched
    · cases switched
      exact resumed
    · cases switched
  · exact resumed

theorem System.exit_current (code : BitVec 64) {cpu : Fin n} (other : cpu ≠ me) :
    (s.exit me code).table.current cpu = s.table.current cpu := by
  have buried := congrFun (s.table.buried_fixed me code).1 cpu
  unfold System.exit Table.taskExitCode
  dsimp only
  split
  · exact buried
  · exact (update_of_ne other ..).trans buried

end

/-- Only the processor that is in the section of `task_switch_to` or `task_exit_code` goes
to another task. -/
theorem Step.selects {move : Move n} (taken : Step move s s') (chosen : s'.self me ≠ s.self me) (settles : Settles move s) :
    (∀ cpu, s.stack cpu = some (s.self cpu)) ∧ ∀ cpu, cpu ≠ me → s'.self cpu = s.self cpu := by
  have stays : s'.table.current ≠ s.table.current := fun same => chosen (congrFun same me)
  cases taken with
  | spawn ready here kernel => exact absurd (s.spawn_current ..) stays
  | @fork _ mover vfork allocated copied ready here user =>
    refine absurd ?_ stays
    have spawned := s.spawn_current mover (.child (s.slot mover).pid) allocated
    unfold System.fork
    dsimp only
    split <;> exact spawned
  | @switch _ mover forceAway signal ready =>
    have same : mover = me := by
      by_contra differ
      exact chosen (s.switch_current forceAway signal (Ne.symm differ))
    subst same
    exact ⟨settles, fun cpu other => s.switch_current forceAway signal other⟩
  | @exit _ mover code ready here notIdle =>
    have same : mover = me := by
      by_contra differ
      exact chosen (s.exit_current code (Ne.symm differ))
    subst same
    exact ⟨settles, fun cpu other => s.exit_current code other⟩
  | wait | again => exact absurd (s.waitRound_current ..) stays
  | vforkWait ready here =>
    refine absurd ?_ stays
    unfold System.vforkWait
    split <;> rfl
  | _ => exact absurd rfl stays

theorem Step.frees {move : Move n} {i : Nat} (kin : Kin s) (placed : Placed s.table) (frees : move.frees s i) (settles : Settles move s) :
    (∀ cpu, s.stack cpu = some (s.self cpu)) ∧ (s.table.slots i).zombie = true := by
  have zombies := kin.zombies move placed
  cases move with
  | spawn | fork | switch | reap | wait | again => exact ⟨settles, (Table.reaps_iff.mp frees).2.2.1⟩
  | collect me copied =>
    obtain ⟨want, pid, status, here⟩ := frees
    exact ⟨settles, zombies want i pid status here⟩
  | _ => cases frees

end Currents

/-- While every section is entered with all processors on the stacks of their current tasks,
and pids are not given twice, no step selects a task or frees a stack that is still in use. -/
theorem stacks_exclusive {start s s' : System n} {move : Move n} (booted : Booted start)
    (run : Run Step (fun move s => Settles move s ∧ FreshPid move s) start s) (settles : Settles move s)
    (taken : Step move s s') : StacksApart move s s' := by
  obtain ⟨placed, kin⟩ := booted.run (fun meets => meets.2) run
  have after := placed.step (kin.zombies _ placed) taken
  refine ⟨fun {me cpu} chosen other => ?_, fun {i} frees _ cpu => ?_⟩
  · obtain ⟨settled, others⟩ := taken.selects chosen settles
    intro on
    have here : s.self cpu = s'.self me := Option.some.inj ((settled cpu).symm.trans on)
    exact other (after.apart ((others cpu other).trans here))
  · obtain ⟨settled, zombie⟩ := Step.frees kin placed frees settles
    intro on
    have here : s.self cpu = i := Option.some.inj ((settled cpu).symm.trans on)
    have alive := placed.alive cpu
    rw [← here] at zombie
    exact nomatch (placed.dead zombie).symm.trans alive

theorem bootSystem_booted : Booted bootSystem where
  placed := bootSystem_placed
  distinct {i j} first second same := by
    match i, j, first, second, same with
    | 0, 0, _, _, _ => rfl
    | 1, 1, _, _, _ => rfl
    | 2, 2, _, _, _ => rfl
    | 3, 3, _, _, _ => rfl
    | _ + 4, _, first, _, _ => rcases first with alive | dead <;> contradiction
    | _, _ + 4, _, second, _ => rcases second with alive | dead <;> contradiction
  users {i} alive user := by
    match i, alive, user with
    | 3, _, _ => exact ⟨by decide, by decide, by decide, rfl, rfl⟩
  unused {i} gone := by
    match i, gone with
    | 0, _ => rfl
    | 1, _ => rfl
    | 2, _ => rfl
    | 3, gone => exact absurd (.inl rfl) gone
    | _ + 4, _ => rfl
  running _ := rfl

/-- The first processor has gone to the program, and is still on the stack of the first task. -/
def leavingFirst : System 2 := bootSystem.switch 0 false none

theorem stacks_exclusive_switch : bootSystem.self 0 = 0 ∧ leavingFirst.self 0 = 3 ∧
    StacksApart (.switch 0 false none) bootSystem leavingFirst := by
  have settled : ∀ cpu, bootSystem.stack cpu = some (bootSystem.self cpu) := fun _ => rfl
  exact ⟨rfl, by decide, stacks_exclusive bootSystem_booted .start settled (.switch (bootSystem_ready 0))⟩

def runningProgram : System 2 :=
  { leavingFirst with stack := update leavingFirst.stack 0 (some (leavingFirst.self 0)) }.setPhase 0 .runs

def leavingProgram : System 2 := runningProgram.exit 0 0

/-- The second processor selects the first task while the first one is on its stack; and
when the program has exited, the second one frees its stack under the first. -/
theorem stack_still_in_use : Booted bootSystem ∧ (∃ s s', Run Step (fun _ _ => True) bootSystem s ∧
      Step (.switch 1 false none) s s' ∧ s'.self 1 = 0 ∧ s.self 1 = 2 ∧ s.stack 0 = some 0) ∧
    ∃ s s', Run Step (fun _ _ => True) bootSystem s ∧ Step (.reap 1) s s' ∧ (Move.reap 1).frees s 3 ∧
      (s.table.slots 3).stack = true ∧ s.stack 0 = some 3 := by
  have left : Run Step (fun _ _ => True) bootSystem leavingFirst :=
    Run.start.next trivial (.switch (bootSystem_ready 0))
  have running : Run Step (fun _ _ => True) bootSystem runningProgram := left.next trivial (.resume (by decide))
  have gone : Run Step (fun _ _ => True) bootSystem leavingProgram :=
    running.next trivial (.exit ⟨by decide, by decide⟩ rfl (by decide))
  exact ⟨bootSystem_booted, ⟨leavingFirst, _, left, .switch ⟨by decide, by decide⟩, by decide, by decide, by decide⟩,
    leavingProgram, _, gone, .reap ⟨by decide, by decide⟩, show leavingProgram.table.reaps 1 3 = true by decide, by decide, by decide⟩

end NyonOS.Sched
