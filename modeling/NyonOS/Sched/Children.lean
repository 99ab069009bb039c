import NyonOS.Sched.Kin

namespace NyonOS.Sched

open Abi
open Data Function

/-! Parents that sleep until a child dies. -/

variable {n : Nat}

/-- The slot holds a child of the task at `i` that a wait for `want` is about. -/
structure ChildOf (t : Table n) (i : Nat) (want : BitVec 32) (j : Nat) : Prop where
  low : 0 < j
  high : j < taskMax
  parent : (t.slots j).parentPid = (t.slots i).pid
  wanted : (0#32).slt want = true → (t.slots j).pid = want

/-- The slot holds the child of the task at `i` with this pid. -/
structure VforkOf (t : Table n) (i : Nat) (child : Pid) (j : Nat) : Prop where
  low : 0 < j
  high : j < taskMax
  parent : (t.slots j).parentPid = (t.slots i).pid
  pid : (t.slots j).pid = child

/-- Nobody sleeps on the dead. -/
structure Accompanied (s : System n) : Prop where
  children : ∀ {i want}, (s.table.slots i).inUse = true → (s.table.slots i).blocked = true → s.pc i = .asleep want →
    ∃ j, (s.table.slots j).inUse = true ∧ ChildOf s.table i want j
  vfork : ∀ {i child}, (s.table.slots i).inUse = true → (s.table.slots i).blocked = true → s.pc i = .vforkAsleep child →
    ∃ j, (s.table.slots j).inUse = true ∧ VforkOf s.table i child j

/-- No task that a blocked parent waits for in `task_wait_vfork_child` has been ended by
`task_sig_check`. -/
def Spared (s : System n) : Prop :=
  ∀ i k child, (s.table.slots i).inUse = true → (s.table.slots i).blocked = true → s.pc i = .vforkAsleep child →
    (s.table.slots k).inUse = true → (s.table.slots k).pid = child → (s.table.slots k).sigTerminate = false

/-- Only a task that has a child to wait for waits, and the scheduler comes upon no awaited
child of a `vfork` that is to be ended. -/
def Prepared : Move n → System n → Prop
  | .wait me want false, s => ∃ j, (s.table.slots j).Present ∧ ChildOf s.table (s.self me) want j
  | .switch _ _ _, s => Spared s
  | _, _ => True

/-- What is so about a task that is at a place. -/
structure Obliged (t : Table n) (i : Nat) (pc : Pc) : Prop where
  present : ∀ {want}, pc = .asleep want ∨ pc = .awake want → ∃ j, (t.slots j).Present ∧ ChildOf t i want j
  live : ∀ {want}, pc = .asleep want → (t.slots i).blocked = true →
    (t.slots i).waitChan = .child ∧ ∃ j, (t.slots j).inUse = true ∧ ChildOf t i want j
  vforked : ∀ {child}, pc = .vforked child → ∃ j, (t.slots j).Present ∧ VforkOf t i child j
  vforkLive : ∀ {child}, pc = .vforkAsleep child → (t.slots i).blocked = true →
    (t.slots i).waitChan = .vfork ∧ (t.slots i).vforkChild = child ∧ ∃ j, (t.slots j).inUse = true ∧ VforkOf t i child j

def Waits (s : System n) : Prop := ∀ i, (s.table.slots i).inUse = true → Obliged s.table i (s.pc i)

theorem Waits.accompanied {s : System n} (waits : Waits s) : Accompanied s where
  children alive blocked here := ((waits _ alive).live here blocked).2
  vfork alive blocked here := ((waits _ alive).vforkLive here blocked).2.2

namespace Obliged

variable {t t' : Table n} {i j k : Nat} {pc : Pc}

theorem run : Obliged t i .run := ⟨by rintro _ (_ | _) <;> contradiction, nofun, nofun, nofun⟩

theorem collect {want status : BitVec 32} {pid : Pid} : Obliged t i (.collect want j pid status) :=
  ⟨by rintro _ (_ | _) <;> contradiction, nofun, nofun, nofun⟩

/-- What a slot has to keep for the parent. -/
structure Keeps (after before : Slot n) : Prop where
  present : before.Present → after.Present
  inUse : before.inUse = true → after.inUse = true
  pid : after.pid = before.pid
  parentPid : after.parentPid = before.parentPid

theorem Keeps.of_eq {after before : Slot n} (same : after = before) : Keeps after before := by
  subst same
  exact ⟨id, id, rfl, rfl⟩

theorem Keeps.child {want : BitVec 32} (keeps : Keeps (t'.slots j) (t.slots j)) (pid : (t'.slots i).pid = (t.slots i).pid)
    (child : ChildOf t i want j) : ChildOf t' i want j :=
  ⟨child.low, child.high, keeps.parentPid.trans (child.parent.trans pid.symm), fun some_ => keeps.pid.trans (child.wanted some_)⟩

theorem Keeps.vfork {child : Pid} (keeps : Keeps (t'.slots j) (t.slots j)) (pid : (t'.slots i).pid = (t.slots i).pid)
    (vfork : VforkOf t i child j) : VforkOf t' i child j :=
  ⟨vfork.low, vfork.high, keeps.parentPid.trans (vfork.parent.trans pid.symm), keeps.pid.trans vfork.pid⟩

theorem keep (obliged : Obliged t i pc) (pid : (t'.slots i).pid = (t.slots i).pid)
    (children : ∀ {j}, (t.slots j).Present → (t.slots j).parentPid = (t.slots i).pid → Keeps (t'.slots j) (t.slots j))
    (own : (t'.slots i).blocked = true → (t.slots i).blocked = true ∧ (t'.slots i).waitChan = (t.slots i).waitChan ∧
      (t'.slots i).vforkChild = (t.slots i).vforkChild) : Obliged t' i pc where
  present here := by
    obtain ⟨j, present, child⟩ := obliged.present here
    have keeps := children present child.parent
    exact ⟨j, keeps.present present, keeps.child pid child⟩
  live here blocked := by
    obtain ⟨was, chan, -⟩ := own blocked
    obtain ⟨waits, j, alive, child⟩ := obliged.live here was
    have keeps := children (.inl alive) child.parent
    exact ⟨chan.trans waits, j, keeps.inUse alive, keeps.child pid child⟩
  vforked here := by
    obtain ⟨j, present, child⟩ := obliged.vforked here
    have keeps := children present child.parent
    exact ⟨j, keeps.present present, keeps.vfork pid child⟩
  vforkLive here blocked := by
    obtain ⟨was, chan, vfork⟩ := own blocked
    obtain ⟨waits, awaited, j, alive, child⟩ := obliged.vforkLive here was
    have keeps := children (.inl alive) child.parent
    exact ⟨chan.trans waits, vfork.trans awaited, j, keeps.inUse alive, keeps.vfork pid child⟩

end Obliged

namespace Waits

variable {s s' : System n} {t : Table n} {i j k : Nat}

theorem set {slot : Slot n} {pc : Pc} (waits : Waits s) (keeps : Obliged.Keeps slot (s.table.slots i))
    (inUse : slot.inUse = true → (s.table.slots i).inUse = true)
    (own : (s.table.slots i).inUse = true → Obliged (s.table.setSlot i slot) i pc) :
    Waits ({ s with table := s.table.setSlot i slot }.goto i pc) := by
  intro k alive
  change ((s.table.setSlot i slot).slots k).inUse = true at alive
  change Obliged (s.table.setSlot i slot) k (update s.pc i pc k)
  by_cases same : k = i
  · subst same
    rw [Table.setSlot_self] at alive
    rw [update_self]
    exact own (inUse alive)
  · rw [Table.setSlot_other same] at alive
    rw [update_of_ne same]
    refine (waits _ alive).keep ?_ (fun {j} _ _ => ?_) fun blocked => ?_
    · rw [Table.setSlot_other same]
    · exact Table.setSlot_slots (fun j slot => Obliged.Keeps slot (s.table.slots j)) (fun _ _ => .of_eq rfl) keeps j
    · rw [Table.setSlot_other same] at blocked ⊢
      exact ⟨blocked, rfl, rfl⟩

theorem setSlot {slot : Slot n} (waits : Waits s) (keeps : Obliged.Keeps slot (s.table.slots i))
    (inUse : slot.inUse = true → (s.table.slots i).inUse = true)
    (own : (s.table.slots i).inUse = true → s.pc i = .run ∨ (slot.blocked = true →
      (s.table.slots i).blocked = true ∧ slot.waitChan = (s.table.slots i).waitChan ∧ slot.vforkChild = (s.table.slots i).vforkChild)) :
    Waits { s with table := s.table.setSlot i slot } := by
  have same : { s with table := s.table.setSlot i slot } = { s with table := s.table.setSlot i slot }.goto i (s.pc i) := by
    unfold System.goto
    rw [update_eq_self]
  rw [same]
  refine waits.set keeps inUse fun alive => ?_
  rcases own alive with here | kept
  · rw [here]
    exact .run
  · refine (waits _ alive).keep ?_ (fun {j} _ _ => ?_) fun blocked => ?_
    · rw [Table.setSlot_self]
      exact keeps.pid
    · exact Table.setSlot_slots (fun j slot => Obliged.Keeps slot (s.table.slots j)) (fun _ _ => .of_eq rfl) keeps j
    · rw [Table.setSlot_self] at blocked ⊢
      exact kept blocked

theorem goto {pc : Pc} (waits : Waits s) (own : Obliged s.table i pc) : Waits (s.goto i pc) := by
  intro k alive
  change Obliged s.table k (update s.pc i pc k)
  by_cases same : k = i
  · subst same
    rw [update_self]
    exact own
  · rw [update_of_ne same]
    exact waits k alive

theorem release {t : Table n} {pc : Nat → Pc} (kin : Kin s) (waits : Waits s)
    (slots : ∀ i, t.slots i = s.table.slots i ∨ (s.table.slots i).zombie = true ∧ t.slots i = (s.table.slots i).taskRelease)
    (goes : ∀ i, pc i = s.pc i ∨ pc i = .run)
    (kept : ∀ {i j}, (s.table.slots i).inUse = true → pc i = s.pc i → s.pc i ≠ .run →
      (s.table.slots j).parentPid = (s.table.slots i).pid → t.slots j = s.table.slots j) : Waits { s with table := t, pc := pc } := by
  intro i alive
  have same : t.slots i = s.table.slots i := by
    rcases slots i with same | ⟨zombie, released⟩
    · exact same
    · change (t.slots i).inUse = true at alive
      rw [released] at alive
      exact nomatch (kin.dead zombie).symm.trans alive
  change (t.slots i).inUse = true at alive
  change Obliged t i (pc i)
  rw [same] at alive
  rcases goes i with stays | run
  · by_cases run : s.pc i = .run
    · rw [stays, run]
      exact .run
    · rw [stays]
      refine (waits i alive).keep (by rw [same]) (fun {j} _ parent => .of_eq (kept alive stays run parent)) fun blocked => ?_
      rw [same] at blocked ⊢
      exact ⟨blocked, rfl, rfl⟩
  · rw [run]
    exact .run

theorem reap (kin : Kin s) (waits : Waits s) (slots : ∀ i, t.slots i = s.table.slots i ∨ (s.table.slots i).zombie = true ∧
    (s.table.slots i).parentPid = 0 ∧ t.slots i = (s.table.slots i).taskRelease) : Waits { s with table := t } := by
  refine waits.release kin (fun i => ?_) (fun _ => .inl rfl) fun {i j} alive _ call parent => ?_
  · rcases slots i with same | ⟨zombie, -, released⟩
    · exact .inl same
    · exact .inr ⟨zombie, released⟩
  · rcases slots j with same | ⟨-, orphan, -⟩
    · exact same
    · exact absurd (parent.symm.trans orphan) (kin.users alive ((kin.fits alive).calls call)).1

theorem collect {want status : BitVec 32} {pid : Pid} (kin : Kin s) (waits : Waits s) (alive : (s.table.slots i).inUse = true)
    (here : s.pc i = .collect want j pid status) :
    Waits ({ s with table := s.table.setSlot j (s.table.slots j).taskRelease }.goto i .run) := by
  obtain ⟨zombie, parent, -⟩ := (kin.fits alive).collects here
  change Waits { s with table := s.table.setSlot j (s.table.slots j).taskRelease, pc := update s.pc i .run }
  refine Waits.release (s := s) kin waits ?_ (fun k => ?_) fun {k found} aliveToo stays call own => ?_
  · exact Table.setSlot_slots (fun k slot => slot = s.table.slots k ∨ (s.table.slots k).zombie = true ∧
      slot = (s.table.slots k).taskRelease) (fun _ _ => .inl rfl) (.inr ⟨zombie, rfl⟩)
  · by_cases same : k = i
    · subst same
      exact .inr (update_self ..)
    · exact .inl (update_of_ne same ..)
  · refine Table.setSlot_other ?_
    rintro rfl
    have same : k = i := kin.distinct (.inl aliveToo) (.inl alive) (own.symm.trans parent)
    subst same
    rw [update_self] at stays
    exact call stays.symm

theorem fill {kind : SpawnKind} (waits : Waits s) (free : ¬(s.table.slots i).Present) :
    Waits ({ s with table := { s.table.setSlot i ((s.table.slots i).spawned (s.table.nextPid + 1) kind) with
      nextPid := s.table.nextPid + 1 } }.goto i .run) := by
  intro k alive
  change (update s.table.slots i _ k).inUse = true at alive
  change Obliged _ k (update s.pc i .run k)
  by_cases same : k = i
  · subst same
    rw [update_self]
    exact .run
  · rw [update_of_ne same] at alive ⊢
    have kept : ∀ {j}, j ≠ i → update s.table.slots i ((s.table.slots i).spawned (s.table.nextPid + 1) kind) j =
        s.table.slots j := fun differ => update_of_ne differ ..
    refine (waits k alive).keep ?_ (fun {j} present _ => .of_eq (kept ?_)) fun blocked => ?_
    · exact congrArg Slot.pid (kept same)
    · rintro rfl
      exact free present
    · change (update s.table.slots i _ k).blocked = true at blocked
      change _ ∧ (update s.table.slots i _ k).waitChan = _ ∧ (update s.table.slots i _ k).vforkChild = _
      rw [kept same] at blocked ⊢
      exact ⟨blocked, rfl, rfl⟩

theorem die {vfork : Bool} (kin : Kin s) (waits : Waits s) (alive : (s.table.slots k).inUse = true)
    (dies : Dies vfork k s.table t)
    (spared : vfork = true ∨ ∀ {i}, (s.table.slots i).inUse = true → (s.table.slots i).blocked = true →
      s.pc i ≠ .vforkAsleep (s.table.slots k).pid) : Waits { s with table := t } := by
  intro i still
  change (t.slots i).inUse = true at still
  have differ : i ≠ k := by
    rintro rfl
    exact nomatch dies.gone.symm.trans still
  have mourns := dies.others differ
  have aliveToo : (s.table.slots i).inUse = true := mourns.inUse.symm.trans still
  have obliged := waits i aliveToo
  have notParent : (s.table.slots i).pid ≠ (s.table.slots k).pid := fun same =>
    differ (kin.distinct (.inl aliveToo) (.inl alive) same)
  -- The dead task is left in the table as a child.
  have left : ∀ {j}, (s.table.slots j).Present → (s.table.slots j).parentPid = (s.table.slots i).pid →
      (t.slots j).Present ∧ (t.slots j).pid = (s.table.slots j).pid ∧ (t.slots j).parentPid = (s.table.slots j).parentPid := by
    intro j present parent
    by_cases own : j = k
    · subst own
      refine ⟨.inr dies.zombie, dies.pid, ?_⟩
      rcases dies.parent with kept | ⟨self, -⟩
      · exact kept
      · exact absurd (parent.symm.trans self) notParent
    · have child := dies.others own
      refine ⟨?_, child.pid, ?_⟩
      · unfold Slot.Present at present ⊢
        rwa [child.inUse, child.zombie]
      · rcases child.parent with kept | ⟨orphan, -⟩
        · exact kept
        · exact absurd (parent.symm.trans orphan) notParent
  have child : ∀ {want j}, (s.table.slots j).Present → ChildOf s.table i want j → ChildOf t i want j := by
    intro want j present child
    obtain ⟨-, pid, parent⟩ := left present child.parent
    exact ⟨child.low, child.high, parent.trans (child.parent.trans mourns.pid.symm), fun some_ => pid.trans (child.wanted some_)⟩
  have vforkChild : ∀ {pid j}, (s.table.slots j).Present → VforkOf s.table i pid j → VforkOf t i pid j := by
    intro wanted j present child
    obtain ⟨-, pid, parent⟩ := left present child.parent
    exact ⟨child.low, child.high, parent.trans (child.parent.trans mourns.pid.symm), pid.trans child.pid⟩
  have user : s.pc i ≠ .run → _ := fun call => kin.users aliveToo ((kin.fits aliveToo).calls call)
  refine ⟨fun {want} here => ?_, fun {want} here blocked => ?_, fun {pid} here => ?_, fun {pid} here blocked => ?_⟩
  · obtain ⟨j, present, own⟩ := obliged.present here
    exact ⟨j, (left present own.parent).1, child present own⟩
  · obtain ⟨was, -⟩ := mourns.blocked blocked
    obtain ⟨chan, j, aliveChild, own⟩ := obliged.live here was
    refine ⟨mourns.waitChan.trans chan, j, ?_, child (.inl aliveChild) own⟩
    by_cases same : j = k
    · subst same
      obtain ⟨some_, low, high, childChan, -⟩ := user (by rw [here]; nofun)
      have awaits : (s.table.slots i).awaits (s.table.slots j).parentPid = true := by
        unfold Slot.awaits
        rw [aliveToo, own.parent, chan, childChan]
        simp
      have woken := mourns.woken low high awaits (by rwa [own.parent]) (by rwa [own.parent])
      exact nomatch woken.symm.trans blocked
    · exact (dies.others same).inUse.trans aliveChild
  · obtain ⟨j, present, own⟩ := obliged.vforked here
    exact ⟨j, (left present own.parent).1, vforkChild present own⟩
  · obtain ⟨was, kept⟩ := mourns.blocked blocked
    obtain ⟨chan, awaited, j, aliveChild, own⟩ := obliged.vforkLive here was
    refine ⟨mourns.waitChan.trans chan, kept.trans awaited, j, ?_, vforkChild (.inl aliveChild) own⟩
    by_cases same : j = k
    · subst same
      rcases spared with wakes | spared
      · obtain ⟨-, low, high, -, vforkChan⟩ := user (by rw [here]; nofun)
        have awaits : (s.table.slots i).awaitsVfork (s.table.slots j).pid = true := by
          unfold Slot.awaitsVfork
          rw [aliveToo, awaited, own.pid, chan, vforkChan]
          simp
        exact nomatch (mourns.vforkWoken low high wakes awaits).symm.trans blocked
      · rw [← own.pid] at here
        exact absurd here (spared aliveToo was)
    · exact (dies.others same).inUse.trans aliveChild

theorem blocks {want : BitVec 32} (waits : Waits s) (present : ∃ j, (s.table.slots j).Present ∧ ChildOf s.table i want j)
    (none_ : s.table.deadChild (s.table.slots i).pid want = none) :
    Waits ({ s with table := s.table.setSlot i { s.table.slots i with waitChan := .child, blocked := true } }.goto i
      (.asleep want)) := by
  have keeps : Obliged.Keeps { s.table.slots i with waitChan := .child, blocked := true } (s.table.slots i) := ⟨id, id, rfl, rfl⟩
  have slots := Table.setSlot_slots (fun j slot => Obliged.Keeps slot (s.table.slots j)) (fun _ _ => .of_eq rfl) keeps
  refine waits.set keeps id fun alive => ?_
  obtain ⟨j, present, child⟩ := present
  have notZombie : (s.table.slots j).zombie = false := by
    by_contra still
    have zombie : (s.table.slots j).zombie = true := by simpa using still
    have absent := List.find?_eq_none.mp none_ j (List.mem_range.mpr child.high)
    refine absent ?_
    cases some_ : (0#32).slt want with
    | false => simp [child.low, child.parent, zombie]
    | true => simp [child.low, child.parent, zombie, child.wanted some_]
  have inUse : (s.table.slots j).inUse = true := by
    rcases present with inUse | zombie
    · exact inUse
    · exact nomatch notZombie.symm.trans zombie
  have kept : ChildOf (s.table.setSlot i { s.table.slots i with waitChan := .child, blocked := true }) i want j :=
    (slots j).child (slots i).pid child
  have found : ∀ {other : BitVec 32}, Pc.asleep want = .asleep other → other = want := fun same => (Pc.asleep.inj same).symm
  refine ⟨fun {other} here => ?_, fun {other} here _ => ?_, nofun, nofun⟩
  · rcases here with asleep | awake
    · cases found asleep
      exact ⟨j, (slots j).present present, kept⟩
    · cases awake
  · cases found here
    rw [Table.setSlot_self]
    exact ⟨rfl, j, (slots j).inUse inUse, kept⟩

theorem vforkBlocks {child : Pid} (waits : Waits s) (here : s.pc i = .vforked child)
    (none_ : ∀ j, 0 < j → j < taskMax → (s.table.slots j).zombie = true → (s.table.slots j).pid ≠ child) :
    Waits ({ s with
      table := s.table.setSlot i { s.table.slots i with vforkChild := child, waitChan := .vfork, blocked := true } }.goto i
      (.vforkAsleep child)) := by
  have keeps : Obliged.Keeps { s.table.slots i with vforkChild := child, waitChan := .vfork, blocked := true } (s.table.slots i) :=
    ⟨id, id, rfl, rfl⟩
  have slots := Table.setSlot_slots (fun j slot => Obliged.Keeps slot (s.table.slots j)) (fun _ _ => .of_eq rfl) keeps
  refine waits.set keeps id fun alive => ?_
  obtain ⟨j, present, own⟩ := (waits i alive).vforked here
  have inUse : (s.table.slots j).inUse = true := by
    rcases present with inUse | zombie
    · exact inUse
    · exact absurd own.pid (none_ j own.low own.high zombie)
  refine ⟨by rintro _ (_ | _) <;> contradiction, nofun, nofun, fun {other} same _ => ?_⟩
  cases Pc.vforkAsleep.inj same
  rw [Table.setSlot_self]
  exact ⟨rfl, rfl, j, (slots j).inUse inUse, (slots j).vfork (slots i).pid own⟩

theorem rise {want : BitVec 32} (waits : Waits s) (here : s.pc i = .asleep want) (woken : (s.table.slots i).blocked = false) :
    Waits ({ s with table := s.table.setSlot i { s.table.slots i with waitChan := .null } }.goto i (.awake want)) := by
  have keeps : Obliged.Keeps { s.table.slots i with waitChan := .null } (s.table.slots i) := ⟨id, id, rfl, rfl⟩
  refine waits.set keeps id fun alive => ?_
  have obliged := waits i alive
  rw [here] at obliged
  have kept : Obliged (s.table.setSlot i { s.table.slots i with waitChan := .null }) i (.asleep want) := by
    refine obliged.keep (by rw [Table.setSlot_self]) (fun {j} _ _ => ?_) fun blocked => ?_
    · exact Table.setSlot_slots (fun j slot => Obliged.Keeps slot (s.table.slots j)) (fun _ _ => .of_eq rfl) keeps j
    · rw [Table.setSlot_self] at blocked
      exact nomatch woken.symm.trans blocked
  refine ⟨fun {other} at_ => ?_, nofun, nofun, nofun⟩
  rcases at_ with asleep | awake
  · cases asleep
  · cases Pc.awake.inj awake
    exact kept.present (.inl rfl)

theorem event {label : Label} (kin : Kin s) (waits : Waits s) (event : Event s label s') (notEnd : ∀ k, label ≠ .terminate k)
    (notCall : ∀ i want, label ≠ .call i want) : Waits s' := by
  cases event with
  | mark slots nextPid pc =>
    intro i alive
    obtain ⟨frame, running, same⟩ := slots i
    rw [same] at alive
    rw [pc]
    refine (waits i alive).keep (by rw [same]) (fun {j} _ _ => ?_) fun blocked => ?_
    · obtain ⟨frame, running, same⟩ := slots j
      rw [same]
      exact ⟨id, id, rfl, rfl⟩
    · rw [same] at blocked ⊢
      exact ⟨blocked, rfl, rfl⟩
  | reap slots nextPid => exact waits.reap kin slots
  | fill low high free some_ fresh parent => exact waits.fill free
  | exit alive here dies exitCode => exact waits.die kin alive dies (.inl rfl)
  | @terminate k => exact absurd rfl (notEnd k)
  | doom alive => exact waits.setSlot ⟨id, id, rfl, rfl⟩ id fun _ => .inr fun blocked => ⟨blocked, rfl, rfl⟩
  | wake => exact waits.setSlot ⟨id, id, rfl, rfl⟩ id fun _ => .inr nofun
  | act alive here => exact waits.setSlot ⟨id, id, rfl, rfl⟩ id fun _ => .inl here
  | @exec i alive here => exact waits.setSlot ⟨fun _ => .inl alive, id, rfl, rfl⟩ id fun _ => .inl here
  | @vforked i alive user here child =>
    obtain ⟨j, -, low, high, inUse, pid, parent⟩ := child
    refine waits.goto ⟨by rintro _ (_ | _) <;> contradiction, nofun, fun {child} same => ?_, nofun⟩
    cases Pc.vforked.inj same
    exact ⟨j, .inl inUse, low, high, parent, pid⟩
  | find alive user here found => exact waits.goto .collect
  | noHang | vforkDone => exact waits.goto .run
  | @block i want alive here none_ =>
    have obliged := waits i alive
    rw [here] at obliged
    exact waits.blocks (obliged.present (.inr rfl)) none_
  | @call i want => exact absurd rfl (notCall i want)
  | collect alive here => exact waits.collect kin alive here
  | rise alive here woken => exact waits.rise here woken
  | vforkRise alive here woken => exact waits.set ⟨id, id, rfl, rfl⟩ id fun _ => .run
  | vforkBlock alive here none_ => exact waits.vforkBlocks here none_

end Waits

namespace Spared

variable {s s' : System n}

theorem shrink (spared : Spared s) (pc : s'.pc = s.pc)
    (slots : ∀ i, (s'.table.slots i).inUse = true → (s.table.slots i).inUse = true ∧
      (s'.table.slots i).pid = (s.table.slots i).pid ∧ (s'.table.slots i).sigTerminate = (s.table.slots i).sigTerminate ∧
      ((s'.table.slots i).blocked = true → (s.table.slots i).blocked = true)) : Spared s' := by
  intro i k child alive blocked here aliveToo pid
  obtain ⟨aliveBefore, -, -, blockedBefore⟩ := slots i alive
  obtain ⟨childBefore, same, ended, -⟩ := slots k aliveToo
  rw [pc] at here
  exact ended.trans (spared i k child aliveBefore (blockedBefore blocked) here childBefore (same.symm.trans pid))

theorem event {label : Label} (kin : Kin s) (spared : Spared s) (event : Event s label s')
    (sched : label = .sched ∨ ∃ k, label = .terminate k) : Spared s' := by
  cases event with
  | mark slots nextPid pc =>
    refine spared.shrink pc fun i alive => ?_
    obtain ⟨frame, running, same⟩ := slots i
    rw [same] at alive ⊢
    exact ⟨alive, rfl, rfl, id⟩
  | @reap t slots nextPid =>
    refine spared.shrink rfl fun i alive => ?_
    change (t.slots i).inUse = true at alive
    change _ ∧ (t.slots i).pid = _ ∧ (t.slots i).sigTerminate = _ ∧ ((t.slots i).blocked = true → _)
    rcases slots i with same | ⟨zombie, -, released⟩
    · rw [same] at alive ⊢
      exact ⟨alive, rfl, rfl, id⟩
    · rw [released] at alive
      exact nomatch (kin.dead zombie).symm.trans alive
  | @terminate k t alive ended dies exitCode =>
    refine spared.shrink rfl fun i still => ?_
    have differ : i ≠ k := by
      rintro rfl
      exact nomatch dies.gone.symm.trans still
    have mourns := dies.others differ
    exact ⟨mourns.inUse.symm.trans still, mourns.pid, mourns.sigTerminate, fun blocked => (mourns.blocked blocked).1⟩
  | _ => rcases sched with same | ⟨k, same⟩ <;> cases same

end Spared

namespace Waits

variable {s s' : System n}

theorem switch (kin : Kin s) (placed : Placed s.table) (waits : Waits s) (spared : Spared s) (me : Fin n) (forceAway : Bool)
    (signal : Option Nat) : Waits (s.switch me forceAway signal) := by
  obtain ⟨m, first, second⟩ := Step.switched placed me forceAway signal
  have middle : Kin m ∧ Waits m ∧ Spared m := by
    refine first.keeps (fun m => Kin m ∧ Waits m ∧ Spared m) ⟨kin, waits, spared⟩ ?_
    rintro before after label allowed event ⟨kin, waits, spared⟩
    refine ⟨kin.event event, ?_, spared.event kin event allowed⟩
    rcases allowed with rfl | ⟨k, rfl⟩
    · exact waits.event kin event nofun nofun
    · cases event with
      | terminate alive ended dies exitCode =>
        refine waits.die kin alive dies (.inr fun {i} aliveToo blocked here => ?_)
        exact nomatch (spared i k _ aliveToo blocked here alive rfl).symm.trans ended
  refine (second.keeps (fun m => Kin m ∧ Waits m) ⟨middle.1, middle.2.1⟩ ?_).2
  rintro before after label allowed event ⟨kin, waits⟩
  refine ⟨kin.event event, waits.event kin event ?_ ?_⟩
  · rintro k rfl
    rcases allowed with same | ⟨i, sig, -, same⟩ <;> cases same
  · rintro i want rfl
    rcases allowed with same | ⟨i, sig, -, same⟩ <;> cases same

theorem wait {me : Fin n} {want : BitVec 32} (kin : Kin s) (placed : Placed s.table) (waits : Waits s)
    (here : s.pc (s.self me) = .run) (user : (s.slot me).user = true) (noHang : Bool)
    (children : noHang = false → ∃ j, (s.table.slots j).Present ∧ ChildOf s.table (s.self me) want j) :
    Waits (s.waitRound me want noHang) := by
  have alive : (s.table.slots (s.self me)).inUse = true := placed.alive me
  have same := placed.reaped_alive me alive
  have reaped := Event.reaped s me
  have kinToo := kin.event reaped
  have waitsToo := waits.event kin reaped nofun nofun
  obtain ⟨label, event, allowed⟩ := Event.round want noHang placed (.inl here) user
  generalize s.waitRound me want noHang = after at event ⊢
  rcases allowed with rfl | ⟨rfl, hangs, -⟩
  · exact waitsToo.event kinToo event nofun nofun
  · cases event with
    | call aliveToo userToo hereToo none_ =>
      obtain ⟨j, present, child⟩ := children hangs
      refine waitsToo.blocks ⟨j, ?_⟩ none_
      have kept : (s.table.taskReapZombies me).slots j = s.table.slots j := by
        rcases s.table.reaped_slot me j with kept | ⟨-, orphan, -⟩
        · exact kept
        · exact absurd (child.parent.symm.trans orphan) (kin.users alive user).1
      change ((s.table.taskReapZombies me).slots j).Present ∧ _
      rw [kept]
      exact ⟨present, (Obliged.Keeps.of_eq kept).child (congrArg Slot.pid same) child⟩

theorem step {move : Move n} (kin : Kin s) (placed : Placed s.table) (waits : Waits s) (prepared : Prepared move s)
    (fresh : FreshPid move s) (taken : Step move s s') : Waits s' := by
  have chain := taken.events placed (kin.users_self placed) fresh
  have ordinary : (∀ {label}, move.labels s label → (∀ k, label ≠ .terminate k) ∧ ∀ i want, label ≠ .call i want) → Waits s' := by
    intro ordinary
    refine (chain.keeps (fun m => Kin m ∧ Waits m) ⟨kin, waits⟩ ?_).2
    rintro before after label allowed event ⟨kin, waits⟩
    exact ⟨kin.event event, waits.event kin event (ordinary allowed).1 (ordinary allowed).2⟩
  cases taken with
  | switch ready => exact waits.switch kin placed prepared _ _ _
  | @wait _ me want noHang ready here user =>
    refine waits.wait kin placed here user noHang ?_
    rintro rfl
    exact prepared
  | spawn ready here kernel =>
    refine ordinary ?_
    rintro label (rfl | ⟨i, rfl⟩) <;> exact ⟨nofun, nofun⟩
  | fork ready here user =>
    refine ordinary ?_
    rintro label (rfl | rfl | ⟨i, rfl⟩) <;> exact ⟨nofun, nofun⟩
  | exec runs here user =>
    refine ordinary ?_
    rintro label rfl
    exact ⟨nofun, nofun⟩
  | collect ready here =>
    refine ordinary ?_
    rintro label ⟨j, rfl⟩
    exact ⟨nofun, nofun⟩
  | _ =>
    refine ordinary ?_
    rintro label (rfl | rfl) <;> exact ⟨nofun, nofun⟩

end Waits

/-- While tasks only wait for children they have, no awaited child of a `vfork` is ended by
the scheduler and no pid is given twice, nobody sleeps on the dead. -/
theorem nobody_sleeps_on_dead {start s : System n} (booted : Booted start)
    (run : Run Step (fun move s => Prepared move s ∧ FreshPid move s) start s) : Accompanied s := by
  have waits : Waits s := by
    induction run with
    | start =>
      intro i _
      rw [booted.running i]
      exact .run
    | next earlier meets taken ih =>
      obtain ⟨placed, kin⟩ := booted.run (fun meets => meets.2) earlier
      exact ih.step kin placed meets.1 meets.2 taken
  exact waits.accompanied

/-- The program waits for its child. -/
def waitingProgram : System 2 := forkedProgram.waitRound 0 0 false

theorem nobody_sleeps_on_dead_waiting : (waitingProgram.table.slots 3).blocked = true ∧ waitingProgram.pc 3 = .asleep 0 ∧
    Accompanied waitingProgram := by
  have fork : Step (.fork 0 false true true) programSystem forkedProgram := .fork (programSystem_ready 0) rfl rfl
  have fresh : Prepared (.fork 0 false true true) programSystem ∧ FreshPid (.fork 0 false true true) programSystem :=
    ⟨trivial, programSystem_fresh⟩
  have forked : Run Step (fun move s => Prepared move s ∧ FreshPid move s) programSystem forkedProgram := Run.start.next fresh fork
  have child : ∃ j, (forkedProgram.table.slots j).Present ∧ ChildOf forkedProgram.table (forkedProgram.self 0) 0 j :=
    ⟨4, .inl (by decide), by decide, by decide, by decide, by decide⟩
  have waiting : Step (.wait 0 0 false) forkedProgram waitingProgram := .wait ⟨rfl, fun _ => nofun⟩ rfl (by decide)
  have prepared : Prepared (.wait 0 0 false) forkedProgram ∧ FreshPid (.wait 0 0 false) forkedProgram := ⟨child, trivial⟩
  exact ⟨by decide, rfl, nobody_sleeps_on_dead programSystem_booted (forked.next prepared waiting)⟩

/-- The program waits without a child. -/
def childlessProgram : System 2 := programSystem.waitRound 0 0 false

/-- The program waits in `vfork`. -/
def vforkParent : System 2 := (programSystem.fork 0 true true true).vforkWait 0 5

/-- The second processor has gone to the child, which is ended by a signal. -/
def selectedChild : System 2 := vforkParent.switch 1 false (some 9)

def runningChild : System 2 :=
  { selectedChild with stack := update selectedChild.stack 1 (some (selectedChild.self 1)) }.setPhase 1 .runs

/-- The second processor has left it. -/
def endedChild : System 2 := runningChild.switch 1 false none

/-- The first processor has come upon it. -/
def forsakenParent : System 2 := endedChild.switch 0 false none

/-- The program sleeps without ever having had a child; and it sleeps on in `vfork` after
the scheduler has made a zombie of its child. -/
theorem sleeps_on_dead : Booted programSystem ∧
    (Run Step (fun _ _ => True) programSystem childlessProgram ∧ ¬Accompanied childlessProgram) ∧
    (Run Step (fun _ _ => True) programSystem forsakenParent ∧ (forsakenParent.table.slots 4).zombie = true ∧
      ¬Accompanied forsakenParent) := by
  have childless : Run Step (fun _ _ => True) programSystem childlessProgram :=
    Run.start.next trivial (.wait (programSystem_ready 0) rfl rfl)
  have alone : ¬Accompanied childlessProgram := by
    intro accompanied
    obtain ⟨j, -, child⟩ := accompanied.children (i := 3) (by decide) (by decide) rfl
    have none_ : ∀ j < taskMax, (childlessProgram.table.slots j).parentPid ≠ (childlessProgram.table.slots 3).pid := by
      decide +kernel
    exact none_ j child.high child.parent
  have waits : Run Step (fun _ _ => True) programSystem vforkParent :=
    (Run.start.next trivial (.fork (programSystem_ready 0) rfl rfl)).next trivial (.vforkWait ⟨rfl, fun _ => nofun⟩ rfl)
  have selected : Run Step (fun _ _ => True) programSystem selectedChild :=
    waits.next trivial (.switch ⟨by decide +kernel, by decide +kernel⟩)
  have ended : Run Step (fun _ _ => True) programSystem endedChild :=
    (selected.next trivial (.resume (by decide +kernel))).next trivial (.switch ⟨by decide +kernel, by decide +kernel⟩)
  have forsaken : Run Step (fun _ _ => True) programSystem forsakenParent :=
    ended.next trivial (.switch ⟨by decide +kernel, by decide +kernel⟩)
  have pc : forsakenParent.pc 3 = .vforkAsleep 5 := by decide +kernel
  refine ⟨programSystem_booted, ⟨childless, alone⟩, forsaken, by decide +kernel, fun accompanied => ?_⟩
  obtain ⟨j, alive, child⟩ := accompanied.vfork (by decide +kernel) (by decide +kernel) pc
  have none_ : ∀ j < taskMax, (forsakenParent.table.slots j).inUse = true → (forsakenParent.table.slots j).pid ≠ 5 := by
    decide +kernel
  exact none_ j child.high alive child.pid

end NyonOS.Sched
