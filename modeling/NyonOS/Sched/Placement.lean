import NyonOS.Sched.System

namespace NyonOS.Sched

open Abi List
open Data
open Function (update update_of_ne update_self)

/-! Which slot each processor is on. -/

variable {n : Nat}

/-- Every processor is on a slot of its own that is in use and marked running, and nothing
else is. Every processor has an idle task, which no other processor is ever on. -/
structure Placed (t : Table n) : Prop where
  low : ∀ cpu, t.current cpu < taskMax
  apart : Function.Injective t.current
  alive : ∀ cpu, (t.slots (t.current cpu)).inUse = true
  running : ∀ cpu, (t.slots (t.current cpu)).running = true
  only : ∀ {i}, (t.slots i).inUse = true → (t.slots i).running = true → ∃ cpu, t.current cpu = i
  idleLow : ∀ cpu, t.idleSlot cpu < taskMax
  idleAlive : ∀ cpu, (t.slots (t.idleSlot cpu)).inUse = true
  pinned : ∀ cpu, (t.slots (t.idleSlot cpu)).cpu = some cpu
  home : ∀ {cpu other}, t.current other = t.idleSlot cpu → other = cpu
  dead : ∀ {i}, (t.slots i).zombie = true → (t.slots i).inUse = false

/-- Two slots are the same to the scheduler, but that one may be a zombie no more. -/
structure SameSched (after before : Slot n) : Prop where
  inUse : after.inUse = before.inUse
  running : after.running = before.running
  cpu : after.cpu = before.cpu
  zombie : after.zombie = true → before.zombie = true

theorem SameSched.refl (slot : Slot n) : SameSched slot slot := ⟨rfl, rfl, rfl, id⟩

theorem SameSched.trans {first second third : Slot n} (later : SameSched third second) (earlier : SameSched second first) :
    SameSched third first :=
  ⟨later.inUse.trans earlier.inUse, later.running.trans earlier.running, later.cpu.trans earlier.cpu,
    fun dead => earlier.zombie (later.zombie dead)⟩

/-- No processor is on the slot, and it is no idle task. -/
structure Loose (t : Table n) (i : Nat) : Prop where
  current : ∀ cpu, t.current cpu ≠ i
  idle : ∀ cpu, t.idleSlot cpu ≠ i

namespace Table

variable {t : Table n} {me : Fin n} {i j : Nat} {slot : Slot n}

theorem setSlot_self : (t.setSlot i slot).slots i = slot := update_self ..

theorem setSlot_other (differ : j ≠ i) : (t.setSlot i slot).slots j = t.slots j := update_of_ne differ ..

theorem setSlot_slots (holds : Nat → Slot n → Prop) (others : ∀ j, j ≠ i → holds j (t.slots j)) (own : holds i slot) (j : Nat) :
    holds j ((t.setSlot i slot).slots j) := by
  by_cases same : j = i
  · subst same
    rw [setSlot_self]
    exact own
  · rw [setSlot_other same]
    exact others j same

theorem each_slots {body : Slot n → Slot n} (holds : Slot n → Prop) (i : Nat) (kept : holds (t.slots i))
    (changed : holds (body (t.slots i))) : holds ((t.each body).slots i) := by
  change holds (if _ then _ else _)
  split
  · exact changed
  · exact kept

theorem reaps_iff : t.reaps me i = true ↔
    0 < i ∧ i < taskMax ∧ (t.slots i).zombie = true ∧ i ≠ t.current me ∧ (t.slots i).parentPid = 0 := by
  unfold reaps
  simp only [Bool.and_eq_true, decide_eq_true_eq, bne_iff_ne, ne_eq, beq_iff_eq, and_assoc]

theorem reaped_cases (holds : Slot n → Prop) (kept : t.reaps me i = false → holds (t.slots i))
    (released : t.reaps me i = true → holds (t.slots i).taskRelease) : holds ((t.taskReapZombies me).slots i) := by
  change holds (if _ then _ else _)
  split
  · rename_i reaps
    exact released reaps
  · rename_i stays
    exact kept (by simpa using stays)

theorem freeSlot_spec (free : t.freeSlot = some i) :
    0 < i ∧ i < taskMax ∧ (t.slots i).inUse = false ∧ (t.slots i).zombie = false := by
  have member := mem_of_find?_eq_some free
  have holds := find?_some free
  simp only [Bool.and_eq_true, decide_eq_true_eq, Bool.not_eq_eq_eq_not, Bool.not_true] at holds
  exact ⟨holds.1.1, mem_range.mp member, holds.1.2, holds.2⟩

theorem order_low (member : i ∈ t.order me) : i < taskMax := by
  obtain ⟨j, -, rfl⟩ := mem_map.mp member
  exact Nat.mod_lt _ (by decide)

/-- A slot that a processor may go to. -/
structure Runnable (t : Table n) (me : Fin n) (i : Nat) : Prop where
  low : i < taskMax
  inUse : (t.slots i).inUse = true
  blocked : (t.slots i).blocked = false
  running : (t.slots i).running = false
  cpu : (t.slots i).cpu = none ∨ (t.slots i).cpu = some me

theorem runnable_spec (passes : t.runnable me i = true) (low : i < taskMax) : t.Runnable me i := by
  unfold runnable at passes
  simp only [Bool.and_eq_true, Bool.not_eq_eq_eq_not, Bool.not_true, Bool.or_eq_true, beq_iff_eq] at passes
  obtain ⟨⟨⟨inUse, blocked⟩, running⟩, cpu⟩ := passes
  exact ⟨low, inUse, blocked, running, cpu⟩

theorem pickNext_spec (picked : t.pickNext me = some i) :
    t.Runnable me i ∧ (t.idleSlot me < taskMax → i ≠ t.idleSlot me) := by
  have low := order_low (mem_of_find?_eq_some picked)
  have holds := find?_some picked
  simp only [Bool.and_eq_true, Bool.not_eq_eq_eq_not, Bool.not_true, Bool.and_eq_false_iff, decide_eq_false_iff_not,
    beq_eq_false_iff_ne] at holds
  refine ⟨runnable_spec holds.1.1 low, fun inside => ?_⟩
  rcases holds.2 with outside | differ
  · exact absurd inside outside
  · exact differ

/-- What `makeCurrent` does when it goes to another slot. -/
def dispatched (t : Table n) (me : Fin n) (i : Nat) : Table n :=
  ((t.setRunning (t.current me) false).setRunning i true).setCurrent me i

theorem dispatched_self : ((t.dispatched me i).slots i).running = true := by
  change (((t.setRunning (t.current me) false).setSlot i _).slots i).running = true
  rw [setSlot_self]

theorem dispatched_left (differ : t.current me ≠ i) : ((t.dispatched me i).slots (t.current me)).running = false := by
  change (((t.setRunning (t.current me) false).setSlot i _).slots (t.current me)).running = false
  rw [setSlot_other differ]
  change ((t.setSlot (t.current me) _).slots (t.current me)).running = false
  rw [setSlot_self]

theorem dispatched_other (differ : j ≠ i) (left : j ≠ t.current me) : (t.dispatched me i).slots j = t.slots j := by
  change ((t.setRunning (t.current me) false).setSlot i _).slots j = _
  rw [setSlot_other differ]
  exact setSlot_other left

theorem setRunning_kept (i : Nat) (running : Bool) (j : Nat) :
    ∃ runs, (t.setRunning i running).slots j = { t.slots j with running := runs } :=
  setSlot_slots (fun j slot => ∃ runs, slot = { t.slots j with running := runs }) (fun _ _ => ⟨_, rfl⟩) ⟨_, rfl⟩ j

theorem dispatched_kept (me : Fin n) (i j : Nat) : ∃ runs, (t.dispatched me i).slots j = { t.slots j with running := runs } := by
  obtain ⟨_, first⟩ := t.setRunning_kept (t.current me) false j
  obtain ⟨runs, second⟩ := (t.setRunning (t.current me) false).setRunning_kept i true j
  refine ⟨runs, second.trans ?_⟩
  rw [first]

end Table

namespace SameSched

variable {t : Table n} {slot : Slot n}

theorem orphaned {pid : Pid} : SameSched (slot.orphaned pid) slot := by
  unfold Slot.orphaned
  split
  · exact ⟨rfl, rfl, rfl, id⟩
  · exact .refl _

theorem parentWoken {parent : Pid} : SameSched (slot.parentWoken parent) slot := by
  unfold Slot.parentWoken
  split
  · exact ⟨rfl, rfl, rfl, id⟩
  · exact .refl _

theorem parentReleased {parent : Pid} : SameSched (slot.parentReleased parent) slot := by
  unfold Slot.parentReleased
  split
  · exact ⟨rfl, rfl, rfl, id⟩
  · exact .refl _

theorem vforkReleased {child : Pid} : SameSched (slot.vforkReleased child) slot := by
  unfold Slot.vforkReleased
  split
  · exact ⟨rfl, rfl, rfl, id⟩
  · exact .refl _

theorem each {body : Slot n → Slot n} (same : ∀ {slot}, SameSched (body slot) slot) (i : Nat) :
    SameSched ((t.each body).slots i) (t.slots i) :=
  Table.each_slots (fun slot => SameSched slot (t.slots i)) i (.refl _) same

theorem mourned (self : Slot n) (i : Nat) : SameSched ((t.mourned self).slots i) (t.slots i) := by
  have parent : SameSched ((if self.parentPid = 0 then t else t.each (Slot.parentReleased self.parentPid)).slots i)
      (t.slots i) := by
    split
    · exact .refl _
    · exact .each .parentReleased i
  exact .trans (.each .orphaned i) (.trans (.each .vforkReleased i) parent)

theorem buried {me : Fin n} {code : BitVec 64} {j : Nat} (differ : j ≠ t.current me) :
    SameSched ((t.buried me code).slots j) (t.slots j) := by
  unfold Table.buried
  dsimp only
  rw [Table.setSlot_other differ]
  refine .trans (.mourned _ j) ?_
  rw [Table.setSlot_other differ]
  exact .refl _

end SameSched

theorem Table.mourned_fixed (t : Table n) (self : Slot n) :
    (t.mourned self).current = t.current ∧ (t.mourned self).idleSlot = t.idleSlot ∧ (t.mourned self).nextPid = t.nextPid := by
  unfold Table.mourned
  dsimp only
  split <;> exact ⟨rfl, rfl, rfl⟩

theorem Table.buried_fixed (t : Table n) (me : Fin n) (code : BitVec 64) : (t.buried me code).current = t.current ∧
    (t.buried me code).idleSlot = t.idleSlot ∧ (t.buried me code).nextPid = t.nextPid :=
  Table.mourned_fixed ..

theorem Table.buried_self {t : Table n} {me : Fin n} {code : BitVec 64} :
    ((t.buried me code).slots (t.current me)).inUse = false := by
  unfold Table.buried
  dsimp only
  rw [Table.setSlot_self]
  rfl

namespace Placed

variable {t t' : Table n} {me : Fin n} {i : Nat}

section

variable (placed : Placed t)
include placed

/-- Slots that are in use and idle tasks are kept as they are to the scheduler; others do
not begin to run. -/
theorem change (current : t'.current = t.current) (idle : t'.idleSlot = t.idleSlot)
    (slots : ∀ i, SameSched (t'.slots i) (t.slots i) ∨
      Loose t i ∧ ((t'.slots i).inUse = true → (t'.slots i).running = false ∧ (t'.slots i).zombie = false)) : Placed t' := by
  have onCurrent : ∀ cpu, SameSched (t'.slots (t.current cpu)) (t.slots (t.current cpu)) := by
    intro cpu
    rcases slots (t.current cpu) with same | ⟨loose, -⟩
    · exact same
    · exact absurd rfl (loose.current cpu)
  have onIdle : ∀ cpu, SameSched (t'.slots (t.idleSlot cpu)) (t.slots (t.idleSlot cpu)) := by
    intro cpu
    rcases slots (t.idleSlot cpu) with same | ⟨loose, -⟩
    · exact same
    · exact absurd rfl (loose.idle cpu)
  refine ⟨?_, ?_, ?_, ?_, fun {i} alive runs => ?_, ?_, ?_, ?_, ?_, fun {i} dead => ?_⟩
  · rw [current]
    exact placed.low
  · rw [current]
    exact placed.apart
  · intro cpu
    rw [current, (onCurrent cpu).inUse]
    exact placed.alive cpu
  · intro cpu
    rw [current, (onCurrent cpu).running]
    exact placed.running cpu
  · rw [current]
    rcases slots i with same | ⟨-, fresh⟩
    · exact placed.only (same.inUse.symm.trans alive) (same.running.symm.trans runs)
    · exact nomatch (fresh alive).1.symm.trans runs
  · rw [idle]
    exact placed.idleLow
  · intro cpu
    rw [idle, (onIdle cpu).inUse]
    exact placed.idleAlive cpu
  · intro cpu
    rw [idle, (onIdle cpu).cpu]
    exact placed.pinned cpu
  · rw [current, idle]
    exact placed.home
  · rcases slots i with same | ⟨-, fresh⟩
    · exact same.inUse.trans (placed.dead (same.zombie dead))
    · by_contra alive
      exact nomatch (fresh (by simpa using alive)).2.symm.trans dead

theorem same (current : t'.current = t.current) (idle : t'.idleSlot = t.idleSlot)
    (slots : ∀ i, SameSched (t'.slots i) (t.slots i)) : Placed t' := placed.change current idle fun i => .inl (slots i)

theorem setSlot {slot : Slot n} (same : SameSched slot (t.slots i)) : Placed (t.setSlot i slot) :=
  placed.same rfl rfl (Table.setSlot_slots (fun j slot => SameSched slot (t.slots j)) (fun _ _ => .refl _) same)

theorem loose (free : (t.slots i).inUse = false) : Loose t i where
  current cpu here := by
    have alive := placed.alive cpu
    rw [here, free] at alive
    cases alive
  idle cpu here := by
    have alive := placed.idleAlive cpu
    rw [here, free] at alive
    cases alive

theorem loose_runnable (runnable : t.Runnable me i) (notIdle : i ≠ t.idleSlot me) : Loose t i where
  current cpu here := by
    have runs := placed.running cpu
    rw [here, runnable.running] at runs
    cases runs
  idle cpu here := by
    have pinned := placed.pinned cpu
    rw [here] at pinned
    rcases runnable.cpu with anywhere | mine
    · exact nomatch anywhere.symm.trans pinned
    · cases mine.symm.trans pinned
      exact notIdle here.symm

theorem release (dead : (t.slots i).zombie = true) : Placed (t.setSlot i (t.slots i).taskRelease) := by
  refine placed.change rfl rfl (Table.setSlot_slots (fun j slot => SameSched slot (t.slots j) ∨
    Loose t j ∧ (slot.inUse = true → slot.running = false ∧ slot.zombie = false)) (fun _ _ => .inl (.refl _)) ?_)
  exact .inr ⟨placed.loose (placed.dead dead), fun _ => ⟨rfl, rfl⟩⟩

theorem taskReapZombies (me : Fin n) : Placed (t.taskReapZombies me) := by
  refine placed.change rfl rfl fun i => ?_
  refine Table.reaped_cases (fun slot => SameSched slot (t.slots i) ∨
    Loose t i ∧ (slot.inUse = true → slot.running = false ∧ slot.zombie = false)) (fun _ => .inl (.refl _)) fun reaps => ?_
  have dead := (Table.reaps_iff.mp reaps).2.2.1
  exact .inr ⟨placed.loose (placed.dead dead), fun _ => ⟨rfl, rfl⟩⟩

end

theorem spawned (slot : Slot n) (pid : Pid) (kind : SpawnKind) :
    (slot.spawned pid kind).running = false ∧ (slot.spawned pid kind).zombie = false := by
  cases kind with
  | task | program | child => exact ⟨rfl, rfl⟩

section

variable (placed : Placed t)
include placed

theorem taskSpawn (me : Fin n) (kind : SpawnKind) (allocated : Bool) : Placed (t.taskSpawn me kind allocated).1 := by
  have reaped := placed.taskReapZombies me
  unfold Table.taskSpawn
  dsimp only
  cases free : (t.taskReapZombies me).freeSlot with
  | none => exact reaped
  | some i =>
    dsimp only
    split
    · refine reaped.change rfl rfl (Table.setSlot_slots (fun j slot => SameSched slot ((t.taskReapZombies me).slots j) ∨
        Loose (t.taskReapZombies me) j ∧ (slot.inUse = true → slot.running = false ∧ slot.zombie = false))
        (fun _ _ => .inl (.refl _)) ?_)
      exact .inr ⟨reaped.loose (Table.freeSlot_spec free).2.2.1, fun _ => spawned ..⟩
    · exact reaped

theorem taskZombifyLocked (loose : Loose t i) : Placed (t.taskZombifyLocked i) := by
  unfold Table.taskZombifyLocked
  split
  · exact placed
  · refine placed.change rfl rfl ?_
    refine Table.setSlot_slots (fun j slot => SameSched slot (t.slots j) ∨
      Loose t j ∧ (slot.inUse = true → slot.running = false ∧ slot.zombie = false)) (fun j _ => .inl ?_)
      (.inr ⟨loose, fun alive => nomatch alive⟩)
    have orphaned : SameSched ((t.each (Slot.orphaned (t.slots i).pid)).slots j) (t.slots j) := .each .orphaned j
    exact .trans (.each .parentWoken j) orphaned

theorem picked_loose (picked : t.pickNext me = some i) : t.Runnable me i ∧ Loose t i := by
  obtain ⟨runnable, notIdle⟩ := Table.pickNext_spec picked
  exact ⟨runnable, placed.loose_runnable runnable (notIdle (placed.idleLow me))⟩

theorem pickAway (forceAway : Bool) : t.pickAway me (t.pickNext me) forceAway = t.pickNext me := by
  refine if_neg fun forced => ?_
  exact (placed.picked_loose forced.1).2.current me rfl

end

variable {next : Option Nat}

section

variable (placed : Placed t)
include placed

theorem zombifyTerminated (fuel : Nat) (picked : ∀ i ∈ next, t.Runnable me i ∧ Loose t i) :
    Placed (Table.zombifyTerminated me fuel t next).1 ∧
      ∀ i ∈ (Table.zombifyTerminated me fuel t next).2, (Table.zombifyTerminated me fuel t next).1.Runnable me i := by
  induction fuel generalizing t next with
  | zero => exact ⟨placed, fun i member => (picked i member).1⟩
  | succ fuel ih =>
    cases next with
    | none => exact ⟨placed, fun i member => (picked i member).1⟩
    | some i =>
      unfold Table.zombifyTerminated
      split
      · have gone := placed.taskZombifyLocked (picked i rfl).2
        exact ih gone fun j member => gone.picked_loose member
      · exact ⟨placed, fun j member => (picked j member).1⟩

theorem orIdle (picked : ∀ i ∈ next, t.Runnable me i) {i : Nat} (chosen : t.orIdle me next = some i) :
    i < taskMax ∧ (t.slots i).inUse = true ∧ (t.slots i).running = false ∧ ((t.slots i).cpu = none ∨ (t.slots i).cpu = some me) := by
  cases next with
  | some j =>
    cases chosen
    have runnable := picked i rfl
    exact ⟨runnable.low, runnable.inUse, runnable.running, runnable.cpu⟩
  | none =>
    unfold Table.orIdle at chosen
    dsimp only at chosen
    split at chosen
    · rename_i idle
      cases chosen
      exact ⟨idle.1, idle.2.1, by simpa using idle.2.2.1, .inr (placed.pinned me)⟩
    · cases chosen

theorem dispatch (low : i < taskMax) (alive : (t.slots i).inUse = true)
    (waits : (t.slots i).running = false) (mine : (t.slots i).cpu = none ∨ (t.slots i).cpu = some me) :
    Placed (t.dispatched me i) := by
  have nobody : ∀ cpu, t.current cpu ≠ i := by
    rintro cpu rfl
    exact nomatch waits.symm.trans (placed.running cpu)
  have kept : ∀ j, ((t.dispatched me i).slots j).inUse = (t.slots j).inUse ∧
      ((t.dispatched me i).slots j).cpu = (t.slots j).cpu ∧ ((t.dispatched me i).slots j).zombie = (t.slots j).zombie := by
    intro j
    obtain ⟨_, same⟩ := t.dispatched_kept me i j
    rw [same]
    exact ⟨rfl, rfl, rfl⟩
  have away : ∀ {cpu}, cpu ≠ me → (t.dispatched me i).slots (t.current cpu) = t.slots (t.current cpu) := fun differ =>
    Table.dispatched_other (nobody _) fun same => differ (placed.apart same)
  have here : (t.dispatched me i).current me = i := update_self ..
  have there : ∀ {cpu}, cpu ≠ me → (t.dispatched me i).current cpu = t.current cpu := fun differ => update_of_ne differ ..
  refine ⟨fun cpu => ?_, fun first second same => ?_, fun cpu => ?_, fun cpu => ?_, fun {j} inUse runs => ?_, placed.idleLow,
    fun cpu => ?_, fun cpu => ?_, fun {cpu other} same => ?_, fun {j} dead => ?_⟩
  · by_cases differ : cpu = me
    · subst differ
      rwa [here]
    · rw [there differ]
      exact placed.low cpu
  · by_cases firstMe : first = me
    · by_cases secondMe : second = me
      · exact firstMe.trans secondMe.symm
      · subst firstMe
        rw [here, there secondMe] at same
        exact absurd same.symm (nobody second)
    · by_cases secondMe : second = me
      · subst secondMe
        rw [here, there firstMe] at same
        exact absurd same (nobody first)
      · rw [there firstMe, there secondMe] at same
        exact placed.apart same
  · rw [(kept _).1]
    by_cases differ : cpu = me
    · subst differ
      rwa [here]
    · rw [there differ]
      exact placed.alive cpu
  · by_cases differ : cpu = me
    · subst differ
      rw [here, Table.dispatched_self]
    · rw [there differ, away differ]
      exact placed.running cpu
  · rw [(kept j).1] at inUse
    by_cases chosen : j = i
    · exact ⟨me, here.trans chosen.symm⟩
    · by_cases left : j = t.current me
      · subst left
        rw [Table.dispatched_left chosen] at runs
        cases runs
      · rw [Table.dispatched_other chosen left] at runs
        obtain ⟨cpu, on⟩ := placed.only inUse runs
        refine ⟨cpu, (there ?_).trans on⟩
        rintro rfl
        exact left on.symm
  · rw [(kept _).1]
    exact placed.idleAlive cpu
  · rw [(kept _).2.1]
    exact placed.pinned cpu
  · change _ = t.idleSlot cpu at same
    by_cases differ : other = me
    · subst differ
      rw [here] at same
      have pinned := placed.pinned cpu
      rw [← same] at pinned
      rcases mine with anywhere | mine
      · exact nomatch anywhere.symm.trans pinned
      · exact Option.some.inj (mine.symm.trans pinned)
    · rw [there differ] at same
      exact placed.home same
  · rw [(kept j).1]
    exact placed.dead ((kept j).2.2.symm.trans dead)

theorem makeCurrent (chosen : ∀ i ∈ next, i < taskMax ∧ (t.slots i).inUse = true ∧
      (t.slots i).running = false ∧ ((t.slots i).cpu = none ∨ (t.slots i).cpu = some me)) : Placed (t.makeCurrent me next) := by
  cases next with
  | none => exact placed
  | some i =>
    obtain ⟨low, alive, waits, mine⟩ := chosen i rfl
    unfold Table.makeCurrent
    dsimp only
    split
    · exact placed
    · exact placed.dispatch low alive waits mine

theorem resumes (me : Fin n) (forceAway : Bool) : Placed (t.resumes me forceAway) := by
  have saved : Placed (t.setSlot (t.current me) { t.slots (t.current me) with frame := true }) :=
    placed.setSlot ⟨rfl, rfl, rfl, id⟩
  have reaped := saved.taskReapZombies me
  unfold Table.resumes
  dsimp only
  rw [reaped.pickAway]
  obtain ⟨gone, picked⟩ := reaped.zombifyTerminated (taskMax + 1) fun i member => reaped.picked_loose member
  exact gone.makeCurrent fun i chosen => gone.orIdle picked chosen

theorem taskSwitchTo {forceAway : Bool} {signal : Option Nat}
    (switched : t.taskSwitchTo me forceAway signal = some t') : Placed t' := by
  unfold Table.taskSwitchTo at switched
  dsimp only at switched
  split at switched
  · cases switched
    refine (placed.resumes me forceAway).setSlot ?_
    cases signal with
    | none => exact .refl _
    | some s => exact ⟨rfl, rfl, rfl, id⟩
  · cases switched

variable (notIdle : t.current me ≠ t.idleSlot me)
include notIdle

theorem idle_waits : (t.slots (t.idleSlot me)).running = false := by
  by_contra runs
  obtain ⟨cpu, on⟩ := placed.only (placed.idleAlive me) (by simpa using runs)
  have same := placed.home on
  subst same
  exact notIdle on

theorem exitNext (code : BitVec 64) :
    ∃ i, (t.buried me code).exitNext me = some i ∧ i ≠ t.current me ∧ i < taskMax ∧ (t.slots i).inUse = true ∧
      (t.slots i).running = false ∧ ((t.slots i).cpu = none ∨ (t.slots i).cpu = some me) := by
  have others : ∀ {j}, j ≠ t.current me → SameSched ((t.buried me code).slots j) (t.slots j) := .buried
  unfold Table.exitNext
  cases picked : (t.buried me code).pickNext me with
  | some i =>
    have runnable := (Table.pickNext_spec picked).1
    have differ : i ≠ t.current me := by
      rintro rfl
      exact nomatch Table.buried_self.symm.trans runnable.inUse
    have same := others differ
    refine ⟨i, rfl, differ, runnable.low, same.inUse.symm.trans runnable.inUse, same.running.symm.trans runnable.running, ?_⟩
    rw [← same.cpu]
    exact runnable.cpu
  | none =>
    have same := others (Ne.symm notIdle)
    have waits := placed.idle_waits notIdle
    refine ⟨t.idleSlot me, ?_, Ne.symm notIdle, placed.idleLow me, placed.idleAlive me, waits, .inr (placed.pinned me)⟩
    rw [Option.none_or, (t.buried_fixed me code).2.1]
    refine if_pos ⟨placed.idleLow me, same.inUse.trans (placed.idleAlive me), ?_⟩
    rw [same.running, waits]
    rfl

theorem taskExitCode (code : BitVec 64) : Placed (t.taskExitCode me code).1 := by
  obtain ⟨i, next, differ, low, alive, waits, mine⟩ := placed.exitNext notIdle code
  have dispatched := placed.dispatch low alive waits mine
  obtain ⟨current, idle, -⟩ := t.buried_fixed me code
  unfold Table.taskExitCode
  dsimp only
  rw [next]
  have placedOn : (((t.buried me code).setRunning i true).setCurrent me i).current = (t.dispatched me i).current := by
    change update (t.buried me code).current me i = update t.current me i
    rw [current]
  refine dispatched.change placedOn idle ?_
  refine Table.setSlot_slots (fun j slot => SameSched slot ((t.dispatched me i).slots j) ∨
    Loose (t.dispatched me i) j ∧ (slot.inUse = true → slot.running = false ∧ slot.zombie = false)) (fun j other => ?_) (.inl ?_)
  · by_cases left : j = t.current me
    · subst left
      refine .inr ⟨⟨fun cpu on => ?_, fun cpu idle => ?_⟩, fun inUse => nomatch Table.buried_self.symm.trans inUse⟩
      · change update t.current me i cpu = _ at on
        by_cases same : cpu = me
        · subst same
          rw [update_self] at on
          exact differ on
        · rw [update_of_ne same] at on
          exact same (placed.apart on)
      · have same := placed.home (Eq.symm idle)
        subst same
        exact notIdle idle.symm
    · rw [Table.dispatched_other other left]
      exact .inl (.buried left)
  · obtain ⟨runs, kept⟩ := t.dispatched_kept me i i
    have same : SameSched ((t.buried me code).slots i) (t.slots i) := .buried differ
    have on : ((t.dispatched me i).slots i).running = true := Table.dispatched_self
    rw [kept] at on ⊢
    exact ⟨same.inUse, Eq.symm on, same.cpu, same.zombie⟩

end

end Placed

/-- A zombie that `task_wait_child` has found is still one when it is released. -/
def CollectsZombies : Move n → System n → Prop
  | .collect me _, s => ∀ want i pid status, s.pc (s.self me) = .collect want i pid status → (s.table.slots i).zombie = true
  | _, _ => True

namespace Placed

variable {s s' : System n} {me : Fin n}

theorem spawn (placed : Placed s.table) (me : Fin n) (kind : SpawnKind) (allocated : Bool) :
    Placed (s.spawn me kind allocated).table := by
  have spawned := placed.taskSpawn me kind allocated
  unfold System.spawn
  dsimp only
  split <;> exact spawned

theorem waitRound (placed : Placed s.table) (me : Fin n) (want : BitVec 32) (noHang : Bool) :
    Placed (s.waitRound me want noHang).table := by
  have reaped := placed.taskReapZombies me
  unfold System.waitRound
  dsimp only
  split
  · exact reaped
  · split
    · exact reaped
    · exact reaped.setSlot ⟨rfl, rfl, rfl, id⟩

theorem step {move : Move n} (placed : Placed s.table) (zombies : CollectsZombies move s) (taken : Step move s s') :
    Placed s'.table := by
  cases taken with
  | spawn ready here kernel => exact placed.spawn ..
  | @fork _ me vfork allocated copied ready here user =>
    have spawned := placed.spawn me (.child (s.slot me).pid) allocated
    unfold System.fork
    dsimp only
    split <;> exact spawned
  | @switch _ me forceAway signal ready =>
    unfold System.switch
    cases switched : s.table.taskSwitchTo me forceAway signal with
    | some table => exact placed.taskSwitchTo switched
    | none => exact placed.resumes me forceAway
  | exit ready here notIdle => exact placed.taskExitCode notIdle _
  | resume | park => exact placed
  | reap ready => exact placed.taskReapZombies _
  | wake | sleep | leave | rise | vforkRise => exact placed.setSlot ⟨rfl, rfl, rfl, id⟩
  | exec runs here user => exact placed.setSlot ⟨rfl, rfl, rfl, nofun⟩
  | wait | again => exact placed.waitRound ..
  | collect ready here => exact placed.release (zombies _ _ _ _ here)
  | vforkWait ready here =>
    unfold System.vforkWait
    split
    · exact placed
    · exact placed.setSlot ⟨rfl, rfl, rfl, id⟩

theorem run {start : System n} (placed : Placed start.table) (run : Run Step CollectsZombies start s) : Placed s.table := by
  induction run with
  | start => exact placed
  | next _ zombies taken ih => exact ih.step zombies taken

end Placed

/-- On any number of processors no slot is ever current on two of them, a current slot is
marked running, and a slot in use that is marked running is current somewhere. -/
theorem slots_exclusive {start s : System n} (placed : Placed start.table) (run : Run Step CollectsZombies start s) :
    (∀ first second, first ≠ second → s.table.current first ≠ s.table.current second) ∧
      (∀ cpu, (s.table.slots (s.table.current cpu)).running = true) ∧
      ∀ i < taskMax, (s.table.slots i).inUse = true → (s.table.slots i).running = true → ∃ cpu, s.table.current cpu = i := by
  have now : Placed s.table := placed.run run
  exact ⟨fun _ _ differ same => differ (now.apart same), now.running, fun _ _ => now.only⟩

/-- Two processors, in the runs below. -/
scoped instance twoProcessors : NeZero 2 := ⟨by decide⟩

/-- A slot that has never been used. -/
def unusedSlot : Slot 2 where
  frame := false
  stack := false
  user := false
  inUse := false
  zombie := false
  blocked := false
  stopped := false
  running := false
  cpu := none
  sigTerminate := false
  exitCode := 0
  pid := 0
  parentPid := 0
  vforkChild := 0
  waitChan := .null
  childChan := .null
  vforkChan := .null

/-- Two processors, one on the first task and one on its idle task, and a program that is
ready to run. -/
def bootSlots : Nat → Slot 2
  | 0 => { unusedSlot.taken 0 with running := true }
  | 1 => { unusedSlot.taken 2 with cpu := some 0 }
  | 2 => { unusedSlot.taken 3 with cpu := some 1, running := true }
  | 3 => unusedSlot.spawned 4 .program
  | _ => unusedSlot

def bootSystem : System 2 where
  table := { slots := bootSlots, current := ![0, 2], idleSlot := ![1, 2], nextPid := 4 }
  phase := fun _ => .runs
  stack := fun cpu => some (![0, 2] cpu)
  pc := fun _ => .run

theorem bootSystem_placed : Placed bootSystem.table where
  low := by decide
  apart := by decide
  alive := by decide
  running := by decide
  only {i} inUse runs := by
    match i, inUse, runs with
    | 0, _, _ => exact ⟨0, rfl⟩
    | 2, _, _ => exact ⟨1, rfl⟩
    | 3, _, runs => cases runs
    | _ + 4, inUse, _ => cases inUse
  idleLow := by decide
  idleAlive := by decide
  pinned := by decide
  home {cpu other} := by
    revert cpu other
    decide
  dead {i} dead := by
    match i, dead with
    | _ + 4, dead => cases dead

theorem bootSystem_ready (me : Fin 2) : bootSystem.Ready me := ⟨rfl, fun _ => nofun⟩

/-- The first processor goes to the program. -/
theorem slots_exclusive_switch : (bootSystem.switch 0 false none).self 0 = 3 ∧ ∀ first second, first ≠ second →
      (bootSystem.switch 0 false none).table.current first ≠ (bootSystem.switch 0 false none).table.current second := by
  have run : Run Step CollectsZombies bootSystem (bootSystem.switch 0 false none) :=
    Run.start.next (by trivial) (.switch (bootSystem_ready 0))
  exact ⟨by decide, (slots_exclusive bootSystem_placed run).1⟩

end NyonOS.Sched
