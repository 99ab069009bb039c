import NyonOS.Sched.Placement

namespace NyonOS.Sched

open Abi
open Data

/-! What the steps do to tasks as members of a family: each is a chain of a few events. -/

variable {n : Nat}

/-- The slot is taken, by a task or by what it has left. -/
def Slot.Present (slot : Slot n) : Prop := slot.inUse = true ∨ slot.zombie = true

/-- The same task, but for whose child it is and what it is woken from. -/
structure SameTask (after before : Slot n) : Prop where
  inUse : after.inUse = before.inUse
  zombie : after.zombie = before.zombie
  user : after.user = before.user
  pid : after.pid = before.pid
  exitCode : after.exitCode = before.exitCode
  sigTerminate : after.sigTerminate = before.sigTerminate
  waitChan : after.waitChan = before.waitChan
  childChan : after.childChan = before.childChan
  vforkChan : after.vforkChan = before.vforkChan

theorem SameTask.refl (slot : Slot n) : SameTask slot slot := ⟨rfl, rfl, rfl, rfl, rfl, rfl, rfl, rfl, rfl⟩

/-- What the death of a task does to the task at another slot. -/
structure Mourns (vfork : Bool) (dead : Slot n) (i : Nat) (before after : Slot n) : Prop extends SameTask after before where
  parent : after.parentPid = before.parentPid ∨ before.parentPid = dead.pid ∧ after.parentPid = 0
  blocked : after.blocked = true → before.blocked = true ∧ after.vforkChild = before.vforkChild
  woken : 0 < i → i < taskMax → before.awaits dead.parentPid = true → dead.parentPid ≠ 0 → dead.parentPid ≠ dead.pid →
    after.blocked = false
  vforkWoken : 0 < i → i < taskMax → vfork = true → before.awaitsVfork dead.pid = true → after.blocked = false

/-- The task at `k` dies; what it leaves is a zombie with its pid. -/
structure Dies (vfork : Bool) (k : Nat) (before after : Table n) : Prop where
  others : ∀ {i}, i ≠ k → Mourns vfork (before.slots k) i (before.slots i) (after.slots i)
  gone : (after.slots k).inUse = false
  zombie : (after.slots k).zombie = true
  pid : (after.slots k).pid = (before.slots k).pid
  parent : (after.slots k).parentPid = (before.slots k).parentPid ∨
    (before.slots k).parentPid = (before.slots k).pid ∧ (after.slots k).parentPid = 0
  nextPid : after.nextPid = before.nextPid

/-- The events that are told apart. -/
inductive Label
  | sched
  | fill (i : Nat)
  | exit (k : Nat) (code : BitVec 64)
  | terminate (k : Nat)
  | doom (i signal : Nat)
  | exec (i : Nat)
  | call (i : Nat) (want : BitVec 32)
  | collect (i j : Nat)
  | task

inductive Event (s : System n) : Label → System n → Prop
  /-- The scheduler marks slots. -/
  | mark {s' : System n}
      (slots : ∀ i, ∃ frame running, s'.table.slots i = { s.table.slots i with frame := frame, running := running })
      (nextPid : s'.table.nextPid = s.table.nextPid) (pc : s'.pc = s.pc) : Event s .sched s'
  | reap {t : Table n} (slots : ∀ i, t.slots i = s.table.slots i ∨ (s.table.slots i).zombie = true ∧
        (s.table.slots i).parentPid = 0 ∧ t.slots i = (s.table.slots i).taskRelease)
      (nextPid : t.nextPid = s.table.nextPid) : Event s .sched { s with table := t }
  | fill {i : Nat} {kind : SpawnKind} (low : 0 < i) (high : i < taskMax) (free : ¬(s.table.slots i).Present)
      (some_ : s.table.nextPid + 1 ≠ 0) (fresh : ∀ {j}, (s.table.slots j).Present → (s.table.slots j).pid ≠ s.table.nextPid + 1)
      (parent : ∀ {pid}, kind = .child pid → ∃ j, (s.table.slots j).inUse = true ∧ (s.table.slots j).user = true ∧
        s.pc j = .run ∧ (s.table.slots j).pid = pid) :
      Event s (.fill i) ({ s with table := { s.table.setSlot i ((s.table.slots i).spawned (s.table.nextPid + 1) kind) with
        nextPid := s.table.nextPid + 1 } }.goto i .run)
  | exit {k : Nat} {code : BitVec 64} {t : Table n} (alive : (s.table.slots k).inUse = true) (here : s.pc k = .run)
      (dies : Dies true k s.table t) (exitCode : (t.slots k).exitCode = code) : Event s (.exit k code) { s with table := t }
  | terminate {k : Nat} {t : Table n} (alive : (s.table.slots k).inUse = true) (ended : (s.table.slots k).sigTerminate = true)
      (dies : Dies false k s.table t) (exitCode : (t.slots k).exitCode = (s.table.slots k).exitCode) :
      Event s (.terminate k) { s with table := t }
  | doom {i signal : Nat} (alive : (s.table.slots i).inUse = true) :
      Event s (.doom i signal) { s with table := s.table.setSlot i ((s.table.slots i).sigChecked (some signal)) }
  | wake {i : Nat} : Event s .task { s with table := s.table.setSlot i { s.table.slots i with blocked := false } }
  | act {i : Nat} {blocked : Bool} {chan : Chan} (alive : (s.table.slots i).inUse = true) (here : s.pc i = .run) :
      Event s .task { s with table := s.table.setSlot i { s.table.slots i with blocked := blocked, waitChan := chan } }
  | exec {i : Nat} (alive : (s.table.slots i).inUse = true) (here : s.pc i = .run) :
      Event s (.exec i) { s with
        table := s.table.setSlot i { s.table.slots i with exitCode := 0, zombie := false, blocked := false, waitChan := .null } }
  | vforked {i : Nat} (alive : (s.table.slots i).inUse = true) (user : (s.table.slots i).user = true) (here : s.pc i = .run)
      (child : ∃ j, j ≠ i ∧ 0 < j ∧ j < taskMax ∧ (s.table.slots j).inUse = true ∧ (s.table.slots j).pid = s.table.nextPid ∧
        (s.table.slots j).parentPid = (s.table.slots i).pid) : Event s .task (s.goto i (.vforked s.table.nextPid))
  | find {i j : Nat} {want : BitVec 32} (alive : (s.table.slots i).inUse = true) (user : (s.table.slots i).user = true)
      (here : s.pc i = .run ∨ s.pc i = .awake want) (found : s.table.deadChild (s.table.slots i).pid want = some j) :
      Event s .task (s.goto i (.collect want j (s.table.slots j).pid (waitStatus ((s.table.slots j).exitCode.setWidth 32))))
  | noHang {i : Nat} (alive : (s.table.slots i).inUse = true) (here : s.pc i = .run) : Event s .task (s.goto i .run)
  | block {i : Nat} {want : BitVec 32} (alive : (s.table.slots i).inUse = true) (here : s.pc i = .awake want)
      (none_ : s.table.deadChild (s.table.slots i).pid want = none) :
      Event s .task ({ s with table := s.table.setSlot i { s.table.slots i with waitChan := .child, blocked := true } }.goto i
        (.asleep want))
  | call {i : Nat} {want : BitVec 32} (alive : (s.table.slots i).inUse = true) (user : (s.table.slots i).user = true)
      (here : s.pc i = .run) (none_ : s.table.deadChild (s.table.slots i).pid want = none) :
      Event s (.call i want) ({ s with table := s.table.setSlot i { s.table.slots i with waitChan := .child, blocked := true } }.goto i
        (.asleep want))
  | collect {i j : Nat} {want status : BitVec 32} {pid : Pid} (alive : (s.table.slots i).inUse = true)
      (here : s.pc i = .collect want j pid status) :
      Event s (.collect i j) ({ s with table := s.table.setSlot j (s.table.slots j).taskRelease }.goto i .run)
  | rise {i : Nat} {want : BitVec 32} (alive : (s.table.slots i).inUse = true) (here : s.pc i = .asleep want)
      (woken : (s.table.slots i).blocked = false) :
      Event s .task ({ s with table := s.table.setSlot i { s.table.slots i with waitChan := .null } }.goto i (.awake want))
  | vforkRise {i : Nat} {child : Pid} (alive : (s.table.slots i).inUse = true) (here : s.pc i = .vforkAsleep child)
      (woken : (s.table.slots i).blocked = false) :
      Event s .task ({ s with table := s.table.setSlot i { s.table.slots i with waitChan := .null, vforkChild := 0 } }.goto i .run)
  | vforkDone {i : Nat} {child : Pid} (alive : (s.table.slots i).inUse = true) (here : s.pc i = .vforked child) :
      Event s .task (s.goto i .run)
  | vforkBlock {i : Nat} {child : Pid} (alive : (s.table.slots i).inUse = true) (here : s.pc i = .vforked child)
      (none_ : ∀ j, 0 < j → j < taskMax → (s.table.slots j).zombie = true → (s.table.slots j).pid ≠ child) :
      Event s .task ({ s with
        table := s.table.setSlot i { s.table.slots i with vforkChild := child, waitChan := .vfork, blocked := true } }.goto i
        (.vforkAsleep child))

def Chain (labels : Label → Prop) : System n → System n → Prop :=
  Relation.ReflTransGen fun before after => ∃ label, labels label ∧ Event before label after

theorem Chain.refl {labels : Label → Prop} {s : System n} : Chain labels s s := Relation.ReflTransGen.refl

theorem Chain.tail {labels : Label → Prop} {s m s' : System n} {label : Label} (chain : Chain labels s m)
    (event : Event m label s') (allowed : labels label) : Chain labels s s' :=
  Relation.ReflTransGen.tail chain ⟨label, allowed, event⟩

theorem Chain.single {labels : Label → Prop} {s s' : System n} {label : Label} (event : Event s label s') (allowed : labels label) :
    Chain labels s s' := Chain.refl.tail event allowed

theorem Chain.trans {labels : Label → Prop} {s m s' : System n} (first : Chain labels s m) (second : Chain labels m s') :
    Chain labels s s' := Relation.ReflTransGen.trans first second

theorem Chain.mono {labels more : Label → Prop} {s s' : System n} (chain : Chain labels s s')
    (wider : ∀ {label}, labels label → more label) : Chain more s s' := by
  induction chain with
  | refl => exact .refl
  | tail _ next ih =>
    obtain ⟨label, allowed, event⟩ := next
    exact ih.tail event (wider allowed)

theorem Chain.keeps {labels : Label → Prop} {s s' : System n} (chain : Chain labels s s') (holds : System n → Prop) (initial : holds s)
    (event : ∀ {before after label}, labels label → Event before label after → holds before → holds after) : holds s' := by
  induction chain with
  | refl => exact initial
  | tail _ next ih =>
    obtain ⟨label, allowed, happens⟩ := next
    exact event allowed happens ih

def Move.labels : Move n → System n → Label → Prop
  | .spawn _ _ _, _, label => label = .sched ∨ ∃ i, label = .fill i
  | .fork _ _ _ _, _, label => label = .sched ∨ label = .task ∨ ∃ i, label = .fill i
  | .switch _ _ signal, _, label => label = .sched ∨ (∃ k, label = .terminate k) ∨ ∃ i s, signal = some s ∧ label = .doom i s
  | .exit me code, s, label => label = .sched ∨ label = .exit (s.self me) code
  | .exec me, s, label => label = .exec (s.self me)
  | .wait me want noHang, s, label => label = .sched ∨ label = .task ∨ label = .call (s.self me) want ∧ noHang = false
  | .collect me _, s, label => ∃ j, label = .collect (s.self me) j
  | _, _, label => label = .sched ∨ label = .task

/-- A new task gets a pid that no task in the table has, and that is not 0. -/
def FreshPid : Move n → System n → Prop
  | .spawn _ _ _, s => s.table.nextPid + 1 ≠ 0 ∧ ∀ i, (s.table.slots i).Present → (s.table.slots i).pid ≠ s.table.nextPid + 1
  | .fork _ _ _ _, s => s.table.nextPid + 1 ≠ 0 ∧ ∀ i, (s.table.slots i).Present → (s.table.slots i).pid ≠ s.table.nextPid + 1
  | _, _ => True

section Mourning

variable {t : Table n} {slot dead : Slot n} {i k : Nat} {body : Slot n → Slot n}

theorem Table.each_inside (inside : 0 < i ∧ i < taskMax) : (t.each body).slots i = body (t.slots i) :=
  if_pos inside

theorem Table.each_outside (outside : ¬(0 < i ∧ i < taskMax)) : (t.each body).slots i = t.slots i :=
  if_neg outside

theorem Mourns.outside {vfork : Bool} (outside : ¬(0 < i ∧ i < taskMax)) : Mourns vfork dead i slot slot :=
  ⟨.refl _, .inl rfl, fun still => ⟨still, rfl⟩, fun low high => absurd ⟨low, high⟩ outside, fun low high => absurd ⟨low, high⟩ outside⟩

theorem orphaned_parent (pid : Pid) (slot : Slot n) :
    slot.orphaned pid = { slot with parentPid := (slot.orphaned pid).parentPid } ∧
      ((slot.orphaned pid).parentPid = slot.parentPid ∨ slot.parentPid = pid ∧ (slot.orphaned pid).parentPid = 0) := by
  unfold Slot.orphaned
  split
  · rename_i child
    exact ⟨rfl, .inr ⟨child, rfl⟩⟩
  · exact ⟨rfl, .inl rfl⟩

theorem Mourns.orphaned {vfork : Bool} {after : Slot n} (mourns : Mourns vfork dead i slot after) :
    Mourns vfork dead i slot (after.orphaned dead.pid) := by
  obtain ⟨same, kept⟩ := orphaned_parent dead.pid after
  have parent : (after.orphaned dead.pid).parentPid = slot.parentPid ∨
      slot.parentPid = dead.pid ∧ (after.orphaned dead.pid).parentPid = 0 := by
    rcases kept with kept | ⟨child, gone⟩
    · rw [kept]
      exact mourns.parent
    · rcases mourns.parent with before | ⟨before, -⟩
      · exact .inr ⟨before.symm.trans child, gone⟩
      · exact .inr ⟨before, gone⟩
  rw [same]
  exact ⟨{ mourns.toSameTask with }, parent, mourns.blocked, mourns.woken, mourns.vforkWoken⟩

theorem Mourns.untouched (orphan : dead.parentPid = 0) : Mourns false dead i slot slot :=
  ⟨.refl _, .inl rfl, fun still => ⟨still, rfl⟩, fun _ _ _ some_ => absurd orphan some_, nofun⟩

theorem Mourns.parentReleased : Mourns false dead i slot (slot.parentReleased dead.parentPid) := by
  unfold Slot.parentReleased
  split
  · exact ⟨{ SameTask.refl slot with }, .inl rfl, nofun, fun _ _ _ _ _ => rfl, nofun⟩
  · rename_i notParent
    exact ⟨.refl _, .inl rfl, fun still => ⟨still, rfl⟩, fun _ _ awaits => absurd awaits notParent, nofun⟩

theorem Mourns.vforkReleased {after : Slot n} (mourns : Mourns false dead i slot after) :
    Mourns true dead i slot (after.vforkReleased dead.pid) := by
  unfold Slot.vforkReleased
  split
  · exact ⟨{ mourns.toSameTask with }, mourns.parent, nofun, fun _ _ _ _ _ => rfl, fun _ _ _ _ => rfl⟩
  · rename_i notVfork
    refine ⟨mourns.toSameTask, mourns.parent, mourns.blocked, mourns.woken, fun _ _ _ awaits => ?_⟩
    by_contra still
    have kept := (mourns.blocked (by simpa using still)).2
    unfold Slot.awaitsVfork at notVfork awaits
    rw [mourns.inUse, kept, mourns.waitChan, mourns.vforkChan] at notVfork
    exact notVfork awaits

theorem Mourns.exit (t : Table n) (dead : Slot n) (i : Nat) : Mourns true dead i (t.slots i) ((t.mourned dead).slots i) := by
  unfold Table.mourned
  dsimp only
  by_cases inside : 0 < i ∧ i < taskMax
  · rw [Table.each_inside inside, Table.each_inside inside]
    refine Mourns.orphaned (Mourns.vforkReleased ?_)
    split
    · rename_i orphan
      exact .untouched orphan
    · rw [Table.each_inside inside]
      exact .parentReleased
  · rw [Table.each_outside inside, Table.each_outside inside]
    split
    · exact .outside inside
    · rw [Table.each_outside inside]
      exact .outside inside

theorem Mourns.parentWoken {parent : Pid} (known : parent = dead.parentPid ∨ dead.parentPid = dead.pid) :
    Mourns false dead i slot ((slot.orphaned dead.pid).parentWoken parent) := by
  obtain ⟨same, kept⟩ := orphaned_parent dead.pid slot
  generalize (slot.orphaned dead.pid).parentPid = parentPid at same kept
  rw [same]
  unfold Slot.parentWoken
  split
  · exact ⟨{ SameTask.refl slot with }, kept, nofun, fun _ _ _ _ _ => rfl, nofun⟩
  · rename_i notParent
    refine ⟨{ SameTask.refl slot with }, kept, fun still => ⟨still, rfl⟩, fun _ _ awaits _ differ => ?_, nofun⟩
    rcases known with parent | own
    · rw [parent] at notParent
      exact absurd awaits notParent
    · exact absurd own differ

theorem Mourns.zombify (t : Table n) (k i : Nat) : Mourns false (t.slots k) i (t.slots i)
    (((t.each (Slot.orphaned (t.slots k).pid)).each
      (Slot.parentWoken ((t.each (Slot.orphaned (t.slots k).pid)).slots k).parentPid)).slots i) := by
  by_cases inside : 0 < i ∧ i < taskMax
  · rw [Table.each_inside inside, Table.each_inside inside]
    refine .parentWoken ?_
    by_cases insideToo : 0 < k ∧ k < taskMax
    · rw [Table.each_inside insideToo]
      rcases (orphaned_parent (t.slots k).pid (t.slots k)).2 with kept | ⟨own, -⟩
      · exact .inl kept
      · exact .inr own
    · rw [Table.each_outside insideToo]
      exact .inl rfl
  · rw [Table.each_outside inside, Table.each_outside inside]
    exact .outside inside

theorem Dies.exit (t : Table n) (me : Fin n) (code : BitVec 64) : Dies true (t.current me) t (t.buried me code) ∧
    ((t.buried me code).slots (t.current me)).exitCode = code := by
  let coded := t.setSlot (t.current me) { t.slots (t.current me) with exitCode := code }
  have own : coded.slots (t.current me) = { t.slots (t.current me) with exitCode := code } := Table.setSlot_self
  have mourns := Mourns.exit coded (t.slots (t.current me)) (t.current me)
  rw [own] at mourns
  have self : (t.buried me code).slots (t.current me) =
      ((coded.mourned (t.slots (t.current me))).slots (t.current me)).exited := Table.setSlot_self
  refine ⟨⟨fun {i} differ => ?_, ?_, ?_, ?_, ?_, (t.buried_fixed me code).2.2⟩, ?_⟩
  · have others := Mourns.exit coded (t.slots (t.current me)) i
    rw [Table.setSlot_other differ] at others
    unfold Table.buried
    dsimp only
    rwa [Table.setSlot_other differ]
  · rw [self]
    rfl
  · rw [self]
    rfl
  · rw [self]
    exact mourns.pid
  · rw [self]
    exact mourns.parent
  · rw [self]
    exact mourns.exitCode

theorem Dies.zombify (alive : (t.slots k).inUse = true) (notZombie : (t.slots k).zombie = false) :
    Dies false k t (t.taskZombifyLocked k) ∧ ((t.taskZombifyLocked k).slots k).exitCode = (t.slots k).exitCode := by
  have mourns := Mourns.zombify t k k
  unfold Table.taskZombifyLocked
  rw [if_neg (by simp [alive, notZombie])]
  dsimp only
  refine ⟨⟨fun {i} differ => ?_, ?_, ?_, ?_, ?_, rfl⟩, ?_⟩
  · rw [Table.setSlot_other differ]
    exact Mourns.zombify t k i
  · rw [Table.setSlot_self]
    rfl
  · rw [Table.setSlot_self]
    rfl
  · rw [Table.setSlot_self]
    exact mourns.pid
  · rw [Table.setSlot_self]
    exact mourns.parent
  · rw [Table.setSlot_self]
    exact mourns.exitCode

end Mourning

section Steps

variable {s s' : System n} {t : Table n} {me : Fin n} {i : Nat}

theorem Table.reaped_slot (t : Table n) (me : Fin n) (i : Nat) : (t.taskReapZombies me).slots i = t.slots i ∨
    (t.slots i).zombie = true ∧ (t.slots i).parentPid = 0 ∧ (t.taskReapZombies me).slots i = (t.slots i).taskRelease := by
  cases reaps : t.reaps me i with
  | true =>
    obtain ⟨-, -, dead, -, orphan⟩ := Table.reaps_iff.mp reaps
    exact .inr ⟨dead, orphan, if_pos reaps⟩
  | false => exact .inl (if_neg (by simp [reaps]))

theorem Event.reaped (s : System n) (me : Fin n) : Event s .sched { s with table := s.table.taskReapZombies me } :=
  .reap (s.table.reaped_slot me) rfl

theorem Placed.reaped_alive (placed : Placed t) (me : Fin n) (alive : (t.slots i).inUse = true) :
    (t.taskReapZombies me).slots i = t.slots i := by
  rcases t.reaped_slot me i with same | ⟨dead, -⟩
  · exact same
  · exact nomatch (placed.dead dead).symm.trans alive

theorem Placed.reaped_present (placed : Placed t) (present : ((t.taskReapZombies me).slots i).Present) :
    (t.slots i).Present ∧ ((t.taskReapZombies me).slots i).pid = (t.slots i).pid := by
  rcases t.reaped_slot me i with same | ⟨dead, -, released⟩
  · rw [same] at present ⊢
    exact ⟨present, rfl⟩
  · rw [released] at present
    rcases present with alive | zombie
    · exact nomatch (placed.dead dead).symm.trans alive
    · cases zombie

variable {kind : SpawnKind} {allocated : Bool}

theorem System.spawn_filled {j : Nat} (filled : (s.table.taskSpawn me kind allocated).2 = some j) :
    (s.table.taskReapZombies me).freeSlot = some j ∧ s.spawn me kind allocated =
      { s with table := { (s.table.taskReapZombies me).setSlot j
        (((s.table.taskReapZombies me).slots j).spawned (s.table.nextPid + 1) kind) with nextPid := s.table.nextPid + 1 } }.goto j
        .run := by
  unfold System.spawn
  unfold Table.taskSpawn at filled ⊢
  dsimp only at filled ⊢
  cases free : (s.table.taskReapZombies me).freeSlot with
  | none =>
    rw [free] at filled
    cases filled
  | some i =>
    rw [free] at filled
    cases allocated with
    | false => cases filled
    | true =>
      cases filled
      exact ⟨rfl, rfl⟩

theorem Event.filled {j : Nat} (placed : Placed s.table)
    (filled : (s.table.taskSpawn me kind allocated).2 = some j) (some_ : s.table.nextPid + 1 ≠ 0)
    (fresh : ∀ i, (s.table.slots i).Present → (s.table.slots i).pid ≠ s.table.nextPid + 1)
    (parent : ∀ {pid}, kind = .child pid → ∃ j, (s.table.slots j).inUse = true ∧ (s.table.slots j).user = true ∧
      s.pc j = .run ∧ (s.table.slots j).pid = pid) :
    Event { s with table := s.table.taskReapZombies me } (.fill j) (s.spawn me kind allocated) := by
  obtain ⟨free, same⟩ := System.spawn_filled filled
  obtain ⟨low, high, notUsed, notZombie⟩ := Table.freeSlot_spec free
  rw [same]
  refine .fill low high ?_ some_ (fun {j} present => ?_) (fun {pid} child => ?_)
  · rintro (used | zombie)
    · exact nomatch notUsed.symm.trans used
    · exact nomatch notZombie.symm.trans zombie
  · obtain ⟨before, same⟩ := placed.reaped_present present
    rw [same]
    exact fresh j before
  · obtain ⟨j, alive, user, here, pid⟩ := parent child
    refine ⟨j, ?_⟩
    dsimp only
    rw [placed.reaped_alive me alive]
    exact ⟨alive, user, here, pid⟩

theorem System.spawn_none (failed : (s.table.taskSpawn me kind allocated).2 = none) :
    s.spawn me kind allocated = { s with table := s.table.taskReapZombies me } := by
  unfold System.spawn
  unfold Table.taskSpawn at failed ⊢
  dsimp only at failed ⊢
  cases free : (s.table.taskReapZombies me).freeSlot with
  | none => rfl
  | some i =>
    rw [free] at failed
    cases allocated with
    | false => rfl
    | true => cases failed

theorem Event.spawned (placed : Placed s.table) (some_ : s.table.nextPid + 1 ≠ 0)
    (fresh : ∀ i, (s.table.slots i).Present → (s.table.slots i).pid ≠ s.table.nextPid + 1)
    (parent : ∀ {pid}, kind = .child pid → ∃ j, (s.table.slots j).inUse = true ∧ (s.table.slots j).user = true ∧
      s.pc j = .run ∧ (s.table.slots j).pid = pid) :
    Chain (fun label => label = .sched ∨ ∃ i, label = .fill i) s (s.spawn me kind allocated) := by
  have reaped : Chain (fun label => label = .sched ∨ ∃ i, label = .fill i) s { s with table := s.table.taskReapZombies me } :=
    .single (.reaped s me) (.inl rfl)
  cases filled : (s.table.taskSpawn me kind allocated).2 with
  | none =>
    rw [System.spawn_none filled]
    exact reaped
  | some j => exact reaped.tail (.filled placed filled some_ fresh parent) (.inr ⟨j, rfl⟩)

theorem Event.zombified (s : System n) (me : Fin n) (next : Option Nat) (placed : Placed t) (fuel : Nat)
    (picked : ∀ i ∈ next, t.Runnable me i ∧ Loose t i) :
    Chain (fun label => label = .sched ∨ ∃ k, label = .terminate k) { s with table := t }
      { s with table := (Table.zombifyTerminated me fuel t next).1 } := by
  induction fuel generalizing t next with
  | zero => exact .refl
  | succ fuel ih =>
    cases next with
    | none => exact .refl
    | some i =>
      obtain ⟨runnable, loose⟩ := picked i rfl
      unfold Table.zombifyTerminated
      split
      · rename_i ended
        have gone := placed.taskZombifyLocked loose
        have notZombie : (t.slots i).zombie = false := by
          by_contra zombie
          exact Bool.false_ne_true ((placed.dead (by simpa using zombie)).symm.trans runnable.inUse)
        obtain ⟨dies, exitCode⟩ := Dies.zombify runnable.inUse notZombie
        have first : Event { s with table := t } (.terminate i) { s with table := t.taskZombifyLocked i } :=
          .terminate runnable.inUse ended.2 dies exitCode
        exact .trans (.single first (.inr ⟨i, rfl⟩)) (ih _ gone fun j member => gone.picked_loose member)
      · exact .refl

theorem Event.marked {t' : Table n} {phase : Fin n → Phase} {stack : Fin n → Option Nat}
    (slots : ∀ i, ∃ frame running, t'.slots i = { t.slots i with frame := frame, running := running })
    (nextPid : t'.nextPid = t.nextPid) : Event { s with table := t } .sched { s with table := t', phase := phase, stack := stack } :=
  .mark slots nextPid rfl

theorem Table.makeCurrent_slots (t : Table n) (me : Fin n) (next : Option Nat) (i : Nat) :
    ∃ frame running, (t.makeCurrent me next).slots i = { t.slots i with frame := frame, running := running } := by
  cases next with
  | none => exact ⟨_, _, rfl⟩
  | some j =>
    unfold Table.makeCurrent
    dsimp only
    split
    · exact ⟨_, _, rfl⟩
    · obtain ⟨running, same⟩ := t.dispatched_kept me j i
      exact ⟨_, running, same⟩

theorem Table.makeCurrent_nextPid (t : Table n) (me : Fin n) (next : Option Nat) :
    (t.makeCurrent me next).nextPid = t.nextPid := by
  cases next with
  | none => rfl
  | some j =>
    unfold Table.makeCurrent
    dsimp only
    split <;> rfl

theorem Event.resumes (placed : Placed s.table) (me : Fin n) (forceAway : Bool) :
    Chain (fun label => label = .sched ∨ ∃ k, label = .terminate k) s { s with table := s.table.resumes me forceAway } := by
  let saved := s.table.setSlot (s.table.current me) { s.table.slots (s.table.current me) with frame := true }
  have savedPlaced : Placed saved := placed.setSlot ⟨rfl, rfl, rfl, id⟩
  have reapedPlaced := savedPlaced.taskReapZombies me
  have save : Event s .sched { s with table := saved } :=
    .mark (Table.setSlot_slots (fun i slot => ∃ frame running, slot = { s.table.slots i with frame := frame, running := running })
      (fun _ _ => ⟨_, _, rfl⟩) ⟨_, _, rfl⟩) rfl rfl
  have reap : Event { s with table := saved } .sched { s with table := saved.taskReapZombies me } := .reaped _ me
  unfold Table.resumes
  dsimp only
  rw [reapedPlaced.pickAway]
  have zombified := Event.zombified s me _ reapedPlaced (taskMax + 1) fun i member => reapedPlaced.picked_loose member
  have before : Chain (fun label => label = .sched ∨ ∃ k, label = .terminate k) s { s with table := saved.taskReapZombies me } :=
    (Chain.single save (.inl rfl)).tail reap (.inl rfl)
  exact (before.trans zombified).tail (.marked (Table.makeCurrent_slots _ me _) (Table.makeCurrent_nextPid ..)) (.inl rfl)

theorem Event.forked {vfork copied : Bool} (placed : Placed s.table) (here : s.pc (s.self me) = .run)
    (user : (s.slot me).user = true) (some_ : s.table.nextPid + 1 ≠ 0)
    (fresh : ∀ i, (s.table.slots i).Present → (s.table.slots i).pid ≠ s.table.nextPid + 1) :
    Chain (fun label => label = .sched ∨ label = .task ∨ ∃ i, label = .fill i) s (s.fork me vfork allocated copied) := by
  have alive : (s.table.slots (s.self me)).inUse = true := placed.alive me
  have spawned : Chain (fun label => label = .sched ∨ label = .task ∨ ∃ i, label = .fill i) s
      (s.spawn me (.child (s.slot me).pid) allocated) := by
    refine (Event.spawned placed some_ fresh fun child => ⟨s.self me, alive, user, here, SpawnKind.child.inj child⟩).mono ?_
    rintro label (sched | fill)
    · exact .inl sched
    · exact .inr (.inr fill)
  unfold System.fork
  dsimp only
  split
  · rename_i waits
    obtain ⟨j, filled⟩ := Option.isSome_iff_exists.mp waits.1
    obtain ⟨free, same⟩ := System.spawn_filled filled
    obtain ⟨low, high, notUsed, -⟩ := Table.freeSlot_spec free
    have reaped := placed.reaped_alive me alive
    have differ : s.self me ≠ j := by
      intro self
      rw [self] at reaped alive
      rw [reaped] at notUsed
      exact nomatch notUsed.symm.trans alive
    have parent : (s.spawn me (.child (s.slot me).pid) allocated).table.slots (s.self me) = s.slot me := by
      rw [same]
      exact (Table.setSlot_other differ).trans reaped
    have child : (s.spawn me (.child (s.slot me).pid) allocated).table.slots j =
        ((s.table.taskReapZombies me).slots j).spawned (s.table.nextPid + 1) (.child (s.slot me).pid) := by
      rw [same]
      exact Table.setSlot_self
    have pc : (s.spawn me (.child (s.slot me).pid) allocated).pc (s.self me) = .run := by
      rw [same]
      exact (Function.update_of_ne differ ..).trans here
    have nextPid : (s.spawn me (.child (s.slot me).pid) allocated).table.nextPid = s.table.nextPid + 1 := by
      rw [same]
      rfl
    refine spawned.tail (.vforked ?_ ?_ pc ⟨j, Ne.symm differ, low, high, ?_, ?_, ?_⟩) (.inr (.inl rfl))
    · rw [parent]
      exact alive
    · rw [parent]
      exact user
    · rw [child]
      rfl
    · rw [child, nextPid]
      rfl
    · rw [child, parent]
      rfl
  · exact spawned

theorem Event.round (want : BitVec 32) (noHang : Bool) (placed : Placed s.table)
    (here : s.pc (s.self me) = .run ∨ s.pc (s.self me) = .awake want ∧ noHang = false) (user : (s.slot me).user = true) :
    ∃ label, Event { s with table := s.table.taskReapZombies me } label (s.waitRound me want noHang) ∧
      (label = .task ∨ label = .call (s.self me) want ∧ noHang = false ∧ s.pc (s.self me) = .run) := by
  have alive : (s.table.slots (s.self me)).inUse = true := placed.alive me
  have same := placed.reaped_alive me alive
  have aliveToo : ((s.table.taskReapZombies me).slots (s.self me)).inUse = true := by rwa [same]
  have userToo : ((s.table.taskReapZombies me).slots (s.self me)).user = true := by rwa [same]
  unfold System.waitRound
  dsimp only
  split
  · rename_i j found
    exact ⟨_, .find aliveToo userToo (here.imp id And.left) found, .inl rfl⟩
  · rename_i none_
    cases noHang with
    | true =>
      rcases here with first | ⟨-, hangs⟩
      · exact ⟨_, .noHang aliveToo first, .inl rfl⟩
      · cases hangs
    | false =>
      rcases here with first | ⟨again, -⟩
      · exact ⟨_, .call aliveToo userToo first none_, .inr ⟨rfl, rfl, first⟩⟩
      · exact ⟨_, .block aliveToo again none_, .inl rfl⟩

/-- The signal that `task_switch_to` comes upon last ends the task that it resumes. -/
theorem Event.doomed {forceAway : Bool} {signal : Nat} {table : Table n} (placed : Placed s.table)
    (switched : s.table.taskSwitchTo me forceAway (some signal) = some table) :
    Event { s with table := s.table.resumes me forceAway } (.doom ((s.table.resumes me forceAway).current me) signal)
      { s with table := table } := by
  unfold Table.taskSwitchTo at switched
  dsimp only at switched
  split at switched
  · cases switched
    exact .doom ((placed.resumes me forceAway).alive me)
  · cases switched

theorem Event.switchedQuiet (s : System n) (me : Fin n) (forceAway : Bool) :
    Event { s with table := s.table.resumes me forceAway } .sched (s.switch me forceAway none) := by
  unfold System.switch
  cases switched : s.table.taskSwitchTo me forceAway none with
  | none => exact .marked (fun _ => ⟨_, _, rfl⟩) rfl
  | some table =>
    unfold Table.taskSwitchTo at switched
    dsimp only at switched
    split at switched
    · cases switched
      refine .mark (fun i => ?_) rfl rfl
      exact Table.setSlot_slots (fun i slot => ∃ frame running, slot =
        { (s.table.resumes me forceAway).slots i with frame := frame, running := running })
        (fun _ _ => ⟨_, _, rfl⟩) ⟨_, _, rfl⟩ i
    · cases switched

/-- The section of `task_switch_to`: tasks that are ended are taken away first, and a task
is ended last. -/
theorem Step.switched (placed : Placed s.table) (me : Fin n) (forceAway : Bool) (signal : Option Nat) :
    ∃ m, Chain (fun label => label = .sched ∨ ∃ k, label = .terminate k) s m ∧
      Chain (fun label => label = .sched ∨ ∃ i sig, signal = some sig ∧ label = .doom i sig) m (s.switch me forceAway signal) := by
  refine ⟨_, Event.resumes placed me forceAway, ?_⟩
  cases signal with
  | none => exact .single (.switchedQuiet s me forceAway) (.inl rfl)
  | some signal =>
    unfold System.switch
    cases switched : s.table.taskSwitchTo me forceAway (some signal) with
    | none => exact .single (.marked (fun _ => ⟨_, _, rfl⟩) rfl) (.inl rfl)
    | some table =>
      have doomed : Chain (fun label => label = .sched ∨ ∃ i sig, some signal = some sig ∧ label = .doom i sig)
          { s with table := s.table.resumes me forceAway } { s with table := table } :=
        .single (.doomed placed switched) (.inr ⟨_, signal, rfl, rfl⟩)
      exact doomed.tail (.mark (fun _ => ⟨_, _, rfl⟩) rfl rfl) (.inl rfl)

theorem Event.exited (placed : Placed s.table) (notIdle : s.self me ≠ s.table.idleSlot me) (code : BitVec 64) :
    Event { s with table := s.table.buried me code } .sched (s.exit me code) := by
  obtain ⟨i, next, -⟩ := placed.exitNext notIdle code
  unfold System.exit Table.taskExitCode
  dsimp only
  rw [next]
  refine .mark (fun j => ?_) rfl rfl
  obtain ⟨running, same⟩ := (s.table.buried me code).setRunning_kept i true j
  exact ⟨_, running, same⟩

theorem Step.events {move : Move n} (placed : Placed s.table)
    (users : ∀ me, s.pc (s.self me) ≠ .run → (s.slot me).user = true) (fresh : FreshPid move s) (taken : Step move s s') :
    Chain (move.labels s) s s' := by
  have alive : ∀ me, (s.table.slots (s.self me)).inUse = true := placed.alive
  cases taken with
  | @spawn _ me kind allocated ready here kernel =>
    exact Event.spawned placed fresh.1 fresh.2 fun child => absurd child (kernel _)
  | @fork _ me vfork allocated copied ready here user => exact Event.forked placed here user fresh.1 fresh.2
  | @switch _ me forceAway signal ready =>
    obtain ⟨m, first, second⟩ := Step.switched placed me forceAway signal
    refine (first.mono fun allowed => ?_).trans (second.mono fun allowed => ?_)
    · rcases allowed with sched | terminate
      · exact .inl sched
      · exact .inr (.inl terminate)
    · rcases allowed with sched | doom
      · exact .inl sched
      · exact .inr (.inr doom)
  | @exit _ me code ready here notIdle =>
    obtain ⟨dies, exitCode⟩ := Dies.exit s.table me code
    exact Chain.tail (.single (.exit (alive me) here dies exitCode) (.inr rfl)) (.exited placed notIdle code) (.inl rfl)
  | resume | park => exact .single (.mark (fun _ => ⟨_, _, rfl⟩) rfl rfl) (.inl rfl)
  | reap ready => exact .single (.reaped s _) (.inl rfl)
  | wake => exact .single .wake (.inr rfl)
  | @sleep _ me chan ready here | @leave _ me runs here => exact .single (.act (alive me) here) (.inr rfl)
  | @exec _ me runs here user => exact .single (.exec (alive me) here) rfl
  | @wait _ me want noHang ready here user =>
    obtain ⟨label, event, allowed⟩ := Event.round want noHang placed (.inl here) user
    refine Chain.tail (.single (.reaped s me) (.inl rfl)) event ?_
    rcases allowed with task | ⟨call, hangs, -⟩
    · exact .inr (.inl task)
    · exact .inr (.inr ⟨call, hangs⟩)
  | @again _ me want ready here =>
    obtain ⟨label, event, allowed⟩ := Event.round want false placed (.inr ⟨here, rfl⟩) (users me (by rw [here]; nofun))
    refine Chain.tail (.single (.reaped s me) (.inl rfl)) event ?_
    rcases allowed with task | ⟨-, -, run⟩
    · exact .inr task
    · exact nomatch here.symm.trans run
  | @collect _ me want status i pid copied ready here => exact .single (.collect (alive me) here) ⟨i, rfl⟩
  | @rise _ me want runs here woken => exact .single (.rise (alive me) here woken) (.inr rfl)
  | @vforkRise _ me child runs here woken => exact .single (.vforkRise (alive me) here woken) (.inr rfl)
  | @vforkWait _ me child ready here =>
    unfold System.vforkWait
    split
    · exact .single (.vforkDone (alive me) here) (.inr rfl)
    · rename_i none_
      refine .single (.vforkBlock (alive me) here fun j low high zombie pid => none_ ?_) (.inr rfl)
      refine List.any_eq_true.mpr ⟨j, List.mem_range.mpr high, ?_⟩
      simp [low, zombie, pid]

end Steps

end NyonOS.Sched
