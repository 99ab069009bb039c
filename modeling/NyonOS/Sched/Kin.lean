import NyonOS.Sched.Events

namespace NyonOS.Sched

open Abi
open Data Function

/-! Parents and children, as long as no two tasks in the table have the same pid. -/

variable {n : Nat}

/-- Where a task can be: only programs make system calls, and what `task_wait_child` has
found is a zombie of the caller. -/
structure Fits (t : Table n) (i : Nat) (pc : Pc) : Prop where
  calls : pc ≠ .run → (t.slots i).user = true
  collects : ∀ {want status j pid}, pc = .collect want j pid status → (t.slots j).zombie = true ∧
    (t.slots j).parentPid = (t.slots i).pid ∧ (t.slots j).pid = pid ∧
    status = waitStatus ((t.slots j).exitCode.setWidth 32)

structure Kin (s : System n) : Prop where
  dead : ∀ {i}, (s.table.slots i).zombie = true → (s.table.slots i).inUse = false
  distinct : ∀ {i j}, (s.table.slots i).Present → (s.table.slots j).Present → (s.table.slots i).pid = (s.table.slots j).pid → i = j
  users : ∀ {i}, (s.table.slots i).inUse = true → (s.table.slots i).user = true → (s.table.slots i).pid ≠ 0 ∧ 0 < i ∧
    i < taskMax ∧ (s.table.slots i).childChan = .child ∧ (s.table.slots i).vforkChan = .vfork
  unused : ∀ {i}, ¬(s.table.slots i).Present → (s.table.slots i).user = false
  fits : ∀ {i}, (s.table.slots i).inUse = true → Fits s.table i (s.pc i)

/-- Two slots are the same to their relatives; the exit code of a zombie is one of the
things they see. -/
structure SameKin (after before : Slot n) : Prop where
  inUse : after.inUse = before.inUse
  zombie : after.zombie = before.zombie
  user : after.user = before.user
  pid : after.pid = before.pid
  parentPid : after.parentPid = before.parentPid
  childChan : after.childChan = before.childChan
  vforkChan : after.vforkChan = before.vforkChan
  exitCode : before.inUse = false → after.exitCode = before.exitCode

theorem SameKin.refl (slot : Slot n) : SameKin slot slot := ⟨rfl, rfl, rfl, rfl, rfl, rfl, rfl, fun _ => rfl⟩

theorem SameKin.present {after before : Slot n} (same : SameKin after before) : after.Present ↔ before.Present := by
  unfold Slot.Present
  rw [same.inUse, same.zombie]

namespace Kin

variable {s s' : System n} {t : Table n} {i j k : Nat}

theorem fits_run : Fits t i .run := ⟨fun run => absurd rfl run, nofun⟩

section

variable (kin : Kin s)
include kin

theorem same (slots : ∀ i, SameKin (s'.table.slots i) (s.table.slots i))
    (pc : ∀ {i}, (s.table.slots i).inUse = true → Fits s.table i (s'.pc i)) : Kin s' where
  dead {i} zombie := (slots i).inUse.trans (kin.dead ((slots i).zombie.symm.trans zombie))
  distinct {i j} first second same := by
    rw [(slots i).pid, (slots j).pid] at same
    exact kin.distinct ((slots i).present.mp first) ((slots j).present.mp second) same
  users {i} alive user := by
    rw [(slots i).pid, (slots i).childChan, (slots i).vforkChan]
    exact kin.users ((slots i).inUse.symm.trans alive) ((slots i).user.symm.trans user)
  unused {i} gone := (slots i).user.trans (kin.unused fun present => gone ((slots i).present.mpr present))
  fits {i} alive := by
    have fits := pc ((slots i).inUse.symm.trans alive)
    refine ⟨fun call => (slots i).user.trans (fits.calls call), fun {want status j pid} here => ?_⟩
    rw [(slots j).zombie, (slots j).parentPid, (slots i).pid, (slots j).pid]
    obtain ⟨zombie, parent, own, status⟩ := fits.collects here
    rw [(slots j).exitCode (kin.dead zombie)]
    exact ⟨zombie, parent, own, status⟩

theorem set {slot : Slot n} {pc : Pc} (same : SameKin slot (s.table.slots i))
    (fits : (s.table.slots i).inUse = true → Fits s.table i pc) :
    Kin ({ s with table := s.table.setSlot i slot }.goto i pc) := by
  refine kin.same (Table.setSlot_slots (fun j slot => SameKin slot (s.table.slots j)) (fun _ _ => .refl _) same) fun {j} alive => ?_
  change Fits s.table j (update s.pc i pc j)
  by_cases own : j = i
  · subst own
    rw [update_self]
    exact fits alive
  · rw [update_of_ne own]
    exact kin.fits alive

theorem setSlot {slot : Slot n} (same : SameKin slot (s.table.slots i)) :
    Kin { s with table := s.table.setSlot i slot } :=
  kin.same (Table.setSlot_slots (fun j slot => SameKin slot (s.table.slots j)) (fun _ _ => .refl _) same) kin.fits

theorem goto {pc : Pc} (fits : (s.table.slots i).inUse = true → Fits s.table i pc) : Kin (s.goto i pc) := by
  refine kin.same (fun _ => .refl _) fun {j} alive => ?_
  change Fits s.table j (update s.pc i pc j)
  by_cases own : j = i
  · subst own
    rw [update_self]
    exact fits alive
  · rw [update_of_ne own]
    exact kin.fits alive

theorem release {t : Table n} {pc : Nat → Pc}
    (slots : ∀ i, t.slots i = s.table.slots i ∨ (s.table.slots i).zombie = true ∧ t.slots i = (s.table.slots i).taskRelease)
    (fits : ∀ {i}, (s.table.slots i).inUse = true → Fits s.table i (pc i))
    (kept : ∀ {i want status j pid}, (s.table.slots i).inUse = true → pc i = .collect want j pid status →
      t.slots j = s.table.slots j) : Kin { s with table := t, pc := pc } := by
  have present : ∀ {i}, (t.slots i).Present → t.slots i = s.table.slots i := by
    intro i present
    rcases slots i with same | ⟨zombie, released⟩
    · exact same
    · rw [released] at present
      rcases present with alive | dead
      · exact nomatch (kin.dead zombie).symm.trans alive
      · cases dead
  refine ⟨fun {i} zombie => ?_, fun {i j} first second pid => ?_, fun {i} alive user => ?_, fun {i} gone => ?_, fun {i} alive => ?_⟩
  · have same := present (.inr zombie)
    dsimp only at zombie ⊢
    rw [same] at zombie ⊢
    exact kin.dead zombie
  · have firstSame := present first
    have secondSame := present second
    dsimp only at first second pid
    rw [firstSame] at first pid
    rw [secondSame] at second pid
    exact kin.distinct first second pid
  · have same := present (.inl alive)
    dsimp only at alive user ⊢
    rw [same] at alive user ⊢
    exact kin.users alive user
  · rcases slots i with same | ⟨-, released⟩
    · dsimp only at gone ⊢
      rw [same] at gone ⊢
      exact kin.unused gone
    · dsimp only
      rw [released]
      rfl
  · have same := present (.inl alive)
    dsimp only at alive ⊢
    rw [same] at alive
    have before := fits alive
    refine ⟨fun call => by rw [same]; exact before.calls call, fun {want status j pid} here => ?_⟩
    rw [kept alive here, same]
    exact before.collects here

theorem collected_parent {want status : BitVec 32} {pid : Pid} (alive : (s.table.slots i).inUse = true)
    (here : s.pc i = .collect want j pid status) : (s.table.slots j).parentPid ≠ 0 := by
  have fits := kin.fits alive
  rw [(fits.collects here).2.1]
  exact (kin.users alive (fits.calls (by rw [here]; nofun))).1

theorem reap (slots : ∀ i, t.slots i = s.table.slots i ∨ (s.table.slots i).zombie = true ∧
    (s.table.slots i).parentPid = 0 ∧ t.slots i = (s.table.slots i).taskRelease) : Kin { s with table := t } := by
  refine kin.release (fun i => ?_) kin.fits fun {i want status j pid} alive here => ?_
  · rcases slots i with same | ⟨zombie, -, released⟩
    · exact .inl same
    · exact .inr ⟨zombie, released⟩
  · rcases slots j with same | ⟨-, orphan, -⟩
    · exact same
    · exact absurd orphan (kin.collected_parent alive here)

theorem collect {want status : BitVec 32} {pid : Pid} (alive : (s.table.slots i).inUse = true)
    (here : s.pc i = .collect want j pid status) :
    Kin ({ s with table := s.table.setSlot j (s.table.slots j).taskRelease }.goto i .run) := by
  obtain ⟨zombie, parent, -⟩ := (kin.fits alive).collects here
  refine kin.release ?_ (fun {k} aliveToo => ?_) fun {k want status found pid} aliveToo there => ?_
  · exact Table.setSlot_slots (fun k slot => slot = s.table.slots k ∨ (s.table.slots k).zombie = true ∧
      slot = (s.table.slots k).taskRelease) (fun _ _ => .inl rfl) (.inr ⟨zombie, rfl⟩)
  · change Fits s.table k (update s.pc i .run k)
    by_cases own : k = i
    · subst own
      rw [update_self]
      exact fits_run
    · rw [update_of_ne own]
      exact kin.fits aliveToo
  · change update s.pc i .run k = _ at there
    by_cases own : k = i
    · subst own
      rw [update_self] at there
      cases there
    · rw [update_of_ne own] at there
      refine Table.setSlot_other ?_
      rintro rfl
      have parentToo := ((kin.fits aliveToo).collects there).2.1
      exact own (kin.distinct (.inl aliveToo) (.inl alive) (parentToo.symm.trans parent))

end

theorem spawned_user (slot : Slot n) (pid : Pid) (kind : SpawnKind) (user : (slot.spawned pid kind).user = true)
    (unused : slot.user = false) : (slot.spawned pid kind).childChan = .child := by
  cases kind with
  | task => exact nomatch unused.symm.trans user
  | program | child => rfl

theorem spawned_fields (slot : Slot n) (pid : Pid) (kind : SpawnKind) : (slot.spawned pid kind).inUse = true ∧
    (slot.spawned pid kind).zombie = false ∧ (slot.spawned pid kind).pid = pid ∧
    (slot.spawned pid kind).vforkChan = .vfork := by
  cases kind with
  | task | program | child => exact ⟨rfl, rfl, rfl, rfl⟩

theorem fill {kind : SpawnKind} (kin : Kin s) (low : 0 < i) (high : i < taskMax) (free : ¬(s.table.slots i).Present)
    (some_ : s.table.nextPid + 1 ≠ 0) (fresh : ∀ {j}, (s.table.slots j).Present → (s.table.slots j).pid ≠ s.table.nextPid + 1) :
    Kin ({ s with table := { s.table.setSlot i ((s.table.slots i).spawned (s.table.nextPid + 1) kind) with
      nextPid := s.table.nextPid + 1 } }.goto i .run) := by
  obtain ⟨inUse, notZombie, pid, vforkChan⟩ := spawned_fields (s.table.slots i) (s.table.nextPid + 1) kind
  have here : update s.table.slots i ((s.table.slots i).spawned (s.table.nextPid + 1) kind) i = _ :=
    update_self ..
  have there : ∀ {j}, j ≠ i → update s.table.slots i ((s.table.slots i).spawned (s.table.nextPid + 1) kind) j =
      s.table.slots j := fun differ => update_of_ne differ ..
  refine ⟨fun {j} zombie => ?_, fun {j k} first second same => ?_, fun {j} alive user => ?_, fun {j} gone => ?_, fun {j} alive => ?_⟩
  · change (update s.table.slots i _ j).zombie = true at zombie
    change (update s.table.slots i _ j).inUse = false
    by_cases own : j = i
    · subst own
      rw [here, notZombie] at zombie
      cases zombie
    · rw [there own] at zombie ⊢
      exact kin.dead zombie
  · change (update s.table.slots i _ j).Present at first
    change (update s.table.slots i _ k).Present at second
    change (update s.table.slots i _ j).pid = (update s.table.slots i _ k).pid at same
    by_cases firstOwn : j = i
    · by_cases secondOwn : k = i
      · exact firstOwn.trans secondOwn.symm
      · subst firstOwn
        rw [there secondOwn] at second same
        rw [here, pid] at same
        exact absurd same.symm (fresh second)
    · by_cases secondOwn : k = i
      · subst secondOwn
        rw [there firstOwn] at first same
        rw [here, pid] at same
        exact absurd same (fresh first)
      · rw [there firstOwn] at first same
        rw [there secondOwn] at second same
        exact kin.distinct first second same
  · change (update s.table.slots i _ j).inUse = true at alive
    change (update s.table.slots i _ j).user = true at user
    change (update s.table.slots i _ j).pid ≠ 0 ∧ _ ∧ _ ∧ (update s.table.slots i _ j).childChan = _ ∧
      (update s.table.slots i _ j).vforkChan = _
    by_cases own : j = i
    · subst own
      rw [here] at user ⊢
      rw [pid]
      exact ⟨some_, low, high, spawned_user _ _ kind user (kin.unused free), vforkChan⟩
    · rw [there own] at alive user ⊢
      exact kin.users alive user
  · change ¬(update s.table.slots i _ j).Present at gone
    change (update s.table.slots i _ j).user = false
    by_cases own : j = i
    · subst own
      rw [here] at gone
      exact absurd (.inl inUse) gone
    · rw [there own] at gone ⊢
      exact kin.unused gone
  · change (update s.table.slots i _ j).inUse = true at alive
    change Fits _ j (update s.pc i .run j)
    by_cases own : j = i
    · subst own
      rw [update_self]
      exact fits_run
    · rw [there own] at alive
      rw [update_of_ne own]
      have fits := kin.fits alive
      refine ⟨fun call => ?_, fun {want status k pid} at_ => ?_⟩
      · change (update s.table.slots i _ j).user = true
        rw [there own]
        exact fits.calls call
      · have facts := fits.collects at_
        have differ : k ≠ i := by
          rintro rfl
          exact free (.inr facts.1)
        change (update s.table.slots i _ k).zombie = true ∧ (update s.table.slots i _ k).parentPid =
          (update s.table.slots i _ j).pid ∧ (update s.table.slots i _ k).pid = _ ∧
          status = waitStatus ((update s.table.slots i _ k).exitCode.setWidth 32)
        rw [there own, there differ]
        exact facts

theorem die {vfork : Bool} (kin : Kin s) (alive : (s.table.slots k).inUse = true) (dies : Dies vfork k s.table t) :
    Kin { s with table := t } := by
  have notZombie : (s.table.slots k).zombie = false := by
    by_contra zombie
    exact nomatch (kin.dead (by simpa using zombie)).symm.trans alive
  have present : ∀ {i}, (t.slots i).Present → (s.table.slots i).Present := by
    intro i present
    by_cases own : i = k
    · subst own
      exact .inl alive
    · have mourns := dies.others own
      unfold Slot.Present at present
      rwa [mourns.inUse, mourns.zombie] at present
  have pid : ∀ i, (t.slots i).pid = (s.table.slots i).pid := by
    intro i
    by_cases own : i = k
    · subst own
      exact dies.pid
    · exact (dies.others own).pid
  have survives : ∀ {i}, (t.slots i).inUse = true → i ≠ k := by
    rintro i still rfl
    exact nomatch dies.gone.symm.trans still
  refine ⟨fun {i} zombie => ?_, fun {i j} first second same => ?_, fun {i} still user => ?_, fun {i} gone => ?_, fun {i} still => ?_⟩
  · by_cases own : i = k
    · subst own
      exact dies.gone
    · have mourns := dies.others own
      exact mourns.inUse.trans (kin.dead (mourns.zombie.symm.trans zombie))
  · exact kin.distinct (present first) (present second) ((pid i).symm.trans (same.trans (pid j)))
  · have mourns := dies.others (survives still)
    have before := kin.users (mourns.inUse.symm.trans still) (mourns.user.symm.trans user)
    dsimp only
    rwa [mourns.pid, mourns.childChan, mourns.vforkChan]
  · by_cases own : i = k
    · subst own
      exact absurd (.inr dies.zombie) gone
    · have mourns := dies.others own
      refine mourns.user.trans (kin.unused fun before => gone ?_)
      unfold Slot.Present at before ⊢
      dsimp only
      rwa [mourns.inUse, mourns.zombie]
  · have differ := survives still
    have mourns := dies.others differ
    have aliveToo := mourns.inUse.symm.trans still
    have fits := kin.fits aliveToo
    refine ⟨fun call => mourns.user.trans (fits.calls call), fun {want status j found} here => ?_⟩
    obtain ⟨zombie, parent, own, status⟩ := fits.collects here
    have other : j ≠ k := by
      rintro rfl
      exact nomatch notZombie.symm.trans zombie
    have child := dies.others other
    have kept : (t.slots j).parentPid = (s.table.slots j).parentPid := by
      rcases child.parent with kept | ⟨orphan, -⟩
      · exact kept
      · exact absurd (kin.distinct (.inl aliveToo) (.inl alive) (parent.symm.trans orphan)) differ
    dsimp only
    rw [child.zombie, kept, child.pid, mourns.pid, child.exitCode]
    exact ⟨zombie, parent, own, status⟩

theorem event {label : Label} (kin : Kin s) (event : Event s label s') : Kin s' := by
  cases event with
  | mark slots nextPid pc =>
    refine kin.same (fun i => ?_) fun {i} alive => ?_
    · obtain ⟨frame, running, same⟩ := slots i
      rw [same]
      exact ⟨rfl, rfl, rfl, rfl, rfl, rfl, rfl, fun _ => rfl⟩
    · rw [pc]
      exact kin.fits alive
  | reap slots nextPid => exact kin.reap slots
  | fill low high free some_ fresh parent => exact kin.fill low high free some_ fresh
  | exit alive here dies exitCode | terminate alive ended dies exitCode => exact kin.die alive dies
  | doom alive => exact kin.setSlot ⟨rfl, rfl, rfl, rfl, rfl, rfl, rfl, fun gone => nomatch gone.symm.trans alive⟩
  | wake | act => exact kin.setSlot ⟨rfl, rfl, rfl, rfl, rfl, rfl, rfl, fun _ => rfl⟩
  | @exec i alive here =>
    refine kin.setSlot ⟨rfl, ?_, rfl, rfl, rfl, rfl, rfl, fun gone => nomatch gone.symm.trans alive⟩
    by_contra zombie
    have dead : (s.table.slots i).zombie = true := by simpa using Ne.symm zombie
    exact nomatch (kin.dead dead).symm.trans alive
  | vforked alive user here child => exact kin.goto fun _ => ⟨fun _ => user, nofun⟩
  | @find i j want alive user here found =>
    refine kin.goto fun _ => ⟨fun _ => user, fun {want status k pid} same => ?_⟩
    obtain ⟨rfl, rfl, rfl, rfl⟩ := Pc.collect.inj same
    have holds := List.find?_some found
    simp only [Bool.and_eq_true, decide_eq_true_eq, beq_iff_eq] at holds
    exact ⟨holds.1.1.2, holds.1.2, rfl, rfl⟩
  | noHang | vforkDone => exact kin.goto fun _ => fits_run
  | call alive user here none_ => exact kin.set ⟨rfl, rfl, rfl, rfl, rfl, rfl, rfl, fun _ => rfl⟩ fun _ => ⟨fun _ => user, nofun⟩
  | block alive here none_ | rise alive here woken | vforkBlock alive here none_ =>
    have user := (kin.fits alive).calls (by rw [here]; nofun)
    exact kin.set ⟨rfl, rfl, rfl, rfl, rfl, rfl, rfl, fun _ => rfl⟩ fun _ => ⟨fun _ => user, nofun⟩
  | collect alive here => exact kin.collect alive here
  | vforkRise alive here woken => exact kin.set ⟨rfl, rfl, rfl, rfl, rfl, rfl, rfl, fun _ => rfl⟩ fun _ => fits_run

end Kin

theorem Kin.zombies {s : System n} (kin : Kin s) (move : Move n) (placed : Placed s.table) : CollectsZombies move s := by
  cases move with
  | collect me copied => exact fun want i pid status here => ((kin.fits (placed.alive me)).collects here).1
  | _ => trivial

theorem Kin.users_self {s : System n} (kin : Kin s) (placed : Placed s.table) (me : Fin n) (call : s.pc (s.self me) ≠ .run) :
    (s.slot me).user = true := (kin.fits (placed.alive me)).calls call

theorem Kin.step {s s' : System n} {move : Move n} (kin : Kin s) (placed : Placed s.table) (fresh : FreshPid move s)
    (taken : Step move s s') : Kin s' :=
  (taken.events placed (kin.users_self placed) fresh).keeps Kin kin fun _ event before => before.event event

/-- What holds when the processors have been started: each is on its own slot, pids are
different, and no task is in a system call that has to do with children. -/
structure Booted (s : System n) : Prop where
  placed : Placed s.table
  distinct : ∀ {i j}, (s.table.slots i).Present → (s.table.slots j).Present → (s.table.slots i).pid = (s.table.slots j).pid → i = j
  users : ∀ {i}, (s.table.slots i).inUse = true → (s.table.slots i).user = true → (s.table.slots i).pid ≠ 0 ∧ 0 < i ∧
    i < taskMax ∧ (s.table.slots i).childChan = .child ∧ (s.table.slots i).vforkChan = .vfork
  unused : ∀ {i}, ¬(s.table.slots i).Present → (s.table.slots i).user = false
  running : ∀ i, s.pc i = .run

theorem Booted.kin {s : System n} (booted : Booted s) : Kin s where
  dead := booted.placed.dead
  distinct := booted.distinct
  users := booted.users
  unused := booted.unused
  fits {i} _ := by
    rw [booted.running i]
    exact Kin.fits_run

theorem Booted.run {allowed : Move n → System n → Prop} {start s : System n} (booted : Booted start)
    (fresh : ∀ {move s}, allowed move s → FreshPid move s) (run : Run Step allowed start s) : Placed s.table ∧ Kin s := by
  induction run with
  | start => exact ⟨booted.placed, booted.kin⟩
  | next _ meets taken ih =>
    obtain ⟨placed, kin⟩ := ih
    exact ⟨placed.step (kin.zombies _ placed) taken, kin.step placed (fresh meets) taken⟩

/-- The first processor runs a program, and the first task is ready to run. -/
def programSlots : Nat → Slot 2
  | 0 => unusedSlot.taken 0
  | 1 => { unusedSlot.taken 2 with cpu := some 0 }
  | 2 => { unusedSlot.taken 3 with cpu := some 1, running := true }
  | 3 => { unusedSlot.spawned 4 .program with running := true }
  | _ => unusedSlot

def programSystem : System 2 where
  table := { slots := programSlots, current := ![3, 2], idleSlot := ![1, 2], nextPid := 4 }
  phase := fun _ => .runs
  stack := fun cpu => some (![3, 2] cpu)
  pc := fun _ => .run

theorem programSystem_placed : Placed programSystem.table where
  low := by decide
  apart := by decide
  alive := by decide
  running := by decide
  only {i} inUse runs := by
    match i, inUse, runs with
    | 0, _, runs => cases runs
    | 1, _, runs => cases runs
    | 2, _, _ => exact ⟨1, rfl⟩
    | 3, _, _ => exact ⟨0, rfl⟩
    | _ + 4, inUse, _ => cases inUse
  idleLow := by decide
  idleAlive := by decide
  pinned := by decide
  home {cpu other} := by
    revert cpu other
    decide
  dead {i} dead := by
    match i, dead with
    | _ + 4, dead => cases dead

theorem programSystem_booted : Booted programSystem where
  placed := programSystem_placed
  distinct {i j} first second same := by
    match i, j, first, second, same with
    | 0, 0, _, _, _ => rfl
    | 1, 1, _, _, _ => rfl
    | 2, 2, _, _, _ => rfl
    | 3, 3, _, _, _ => rfl
    | _ + 4, _, first, _, _ => rcases first with alive | dead <;> contradiction
    | _, _ + 4, _, second, _ => rcases second with alive | dead <;> contradiction
  users {i} alive user := by
    match i, alive, user with
    | 3, _, _ => exact ⟨by decide, by decide, by decide, rfl, rfl⟩
  unused {i} gone := by
    match i, gone with
    | 0, _ => rfl
    | 1, _ => rfl
    | 2, _ => rfl
    | 3, gone => exact absurd (.inl rfl) gone
    | _ + 4, _ => rfl
  running _ := rfl

theorem programSystem_ready (me : Fin 2) : programSystem.Ready me := ⟨rfl, fun _ => nofun⟩

/-- The program has forked a child. -/
def forkedProgram : System 2 := programSystem.fork 0 false true true

theorem programSystem_fresh : programSystem.table.nextPid + 1 ≠ 0 ∧
    ∀ i, (programSystem.table.slots i).Present → (programSystem.table.slots i).pid ≠ programSystem.table.nextPid + 1 := by
  refine ⟨by decide, fun i present => ?_⟩
  match i, present with
  | 0, _ => decide
  | 1, _ => decide
  | 2, _ => decide
  | 3, _ => decide
  | _ + 4, present => rcases present with alive | dead <;> contradiction

end NyonOS.Sched
