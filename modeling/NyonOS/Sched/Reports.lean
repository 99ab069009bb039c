import NyonOS.Sched.Status

namespace NyonOS.Sched

open Abi List
open Data Function

/-! What parents are told of their children over a whole run. The log beside the system
remembers every task there has been; the kernel does not read it. -/

variable {n : Nat}

/-- A task, by its slot and its number among the tasks of the slot. -/
structure Life where
  slot : Nat
  number : Nat
deriving DecidableEq

structure Log where
  /-- The number of the last task of a slot. -/
  born : Nat → Nat
  parent : Life → Option Life
  ended : Life → Option Cause
  /-- The calls of `waitpid` that have returned a pid: the child and the status. -/
  reports : List (Life × BitVec 32)

namespace Log

def start : Log where
  born := fun _ => 0
  parent := fun _ => none
  ended := fun _ => none
  reports := []

variable (log : Log)

def life (i : Nat) : Life := ⟨i, log.born i⟩

def birth (parent : Option Life) : Option Nat → Log
  | none => log
  | some i => { log with
      born := update log.born i (log.born i + 1)
      parent := update log.parent ⟨i, log.born i + 1⟩ parent }

def ends (i : Nat) (cause : Cause) : Log :=
  { log with ended := update log.ended (log.life i) (some cause) }

def report (i : Nat) (status : BitVec 32) : Log := { log with reports := log.reports ++ [(log.life i, status)] }

def reported : List Life := log.reports.map Prod.fst

variable (s : System n)

/-- What is remembered of a move. A task ends for the last reason it is given. -/
def after (cause : Cause) : Move n → Log
  | .spawn me kind allocated => log.birth none (s.table.taskSpawn me kind allocated).2
  | .fork me _ allocated _ =>
    log.birth (some (log.life (s.self me))) (s.table.taskSpawn me (.child (s.slot me).pid) allocated).2
  | .switch me forceAway (some signal) =>
    if (s.table.taskSwitchTo me forceAway (some signal)).isSome then
      log.ends ((s.table.resumes me forceAway).current me) (.signal signal)
    else log
  | .exit me _ => log.ends (s.self me) cause
  | .collect me true =>
    match s.pc (s.self me) with
    | .collect _ i _ status => log.report i status
    | _ => log
  | _ => log

/-- The task is alive. -/
def Alive (life : Life) : Prop :=
  (s.table.slots life.slot).inUse = true ∧ log.born life.slot = life.number

/-- The task is a zombie, and a `waitpid` of the parent that asks for it, or for any child,
finds one. -/
def Waitable (parent life : Life) : Prop :=
  (s.table.slots life.slot).zombie = true ∧ log.born life.slot = life.number ∧
    ∀ want, (0#32).slt want = false ∨ want = (s.table.slots life.slot).pid →
      (s.table.deadChild (s.table.slots parent.slot).pid want).isSome = true

end Log

/-- A step with the reason of an exit. -/
structure LoggedStep (call : Move n × Cause) (before after : System n × Log) : Prop where
  taken : Step call.1 before.1 after.1
  code : ∀ {me code}, call.1 = .exit me code → code = call.2.code ∧ call.2.Raised
  signal : ∀ {me forceAway signal}, call.1 = .switch me forceAway (some signal) → (Cause.signal signal).Raised
  log : after.2 = before.2.after before.1 call.2 call.1

variable {log : Log} {cause : Cause}

theorem LoggedStep.of_taken {move : Move n} {s s' : System n} (taken : Step move s s')
    (noExit : ∀ {me code}, move ≠ .exit me code) (noSignal : ∀ {me forceAway signal}, move ≠ .switch me forceAway (some signal)) :
    LoggedStep (move, cause) (s, log) (s', log.after s cause move) :=
  ⟨taken, fun same => absurd same noExit, fun same => absurd same noSignal, rfl⟩

/-- Every report tells why the child has ended, no child is reported twice, and a dead child
whose parent is alive has been reported or is still there for its parent. -/
structure Accounted (s : System n) (log : Log) : Prop where
  faithful : ∀ {life status}, (life, status) ∈ log.reports → ∃ cause, log.ended life = some cause ∧ cause.Faithful status
  once : ∀ life, log.reported.count life ≤ 1
  owed : ∀ {life parent}, log.parent life = some parent → log.Alive s parent → ¬log.Alive s life →
    log.reported.count life = 1 ∨ log.reported.count life = 0 ∧ log.Waitable s parent life

/-- Exits have plain codes, no task that is already ended is executed anew, and the status
of a child can be stored. -/
def Reportable (call : Move n × Cause) (state : System n × Log) : Prop :=
  match call.1 with
  | .exit _ _ => call.2.Plain
  | .exec me => (state.1.slot me).sigTerminate = false
  | .collect _ copied => copied = true
  | _ => True

/-- The task has ended, or is going to. -/
def Slot.Ended (slot : Slot n) : Prop := slot.inUse = true ∧ slot.sigTerminate = true ∨ slot.zombie = true

def Log.Knows (log : Log) (i : Nat) (code : BitVec 64) : Prop :=
  ∃ cause, log.ended (log.life i) = some cause ∧ cause.Plain ∧ cause.Raised ∧ code = cause.code

structure Logged (s : System n) (log : Log) : Prop where
  ended : ∀ {i}, (s.table.slots i).Ended → log.Knows i (s.table.slots i).exitCode
  faithful : ∀ {life status}, (life, status) ∈ log.reports → ∃ cause, log.ended life = some cause ∧ cause.Faithful status
  gone : ∀ {life}, life ∈ log.reported → life.number ≤ log.born life.slot ∧
    ((s.table.slots life.slot).Present → life.number ≠ log.born life.slot)
  once : log.reported.Nodup
  known : ∀ {life parent}, log.parent life = some parent → life.number ≤ log.born life.slot ∧ parent.number ≤ log.born parent.slot
  inside : ∀ {life parent}, log.parent life = some parent → 0 < life.slot ∧ life.slot < taskMax
  children : ∀ {life parent}, log.parent life = some parent → log.Alive s parent → (s.table.slots parent.slot).pid ≠ 0 ∧
    (life ∈ log.reported ∨ (s.table.slots life.slot).Present ∧ log.born life.slot = life.number ∧
      (s.table.slots life.slot).parentPid = (s.table.slots parent.slot).pid)

/-- Tasks stay what they are, and parents that live on keep their children. -/
structure Continues (s s' : System n) : Prop where
  present : ∀ {i}, (s'.table.slots i).Present → (s.table.slots i).Present
  alive : ∀ {i}, (s'.table.slots i).inUse = true → (s.table.slots i).inUse = true ∧
    (s'.table.slots i).pid = (s.table.slots i).pid
  children : ∀ {i k}, (s'.table.slots i).inUse = true → (s.table.slots i).pid ≠ 0 → (s.table.slots k).Present →
    (s.table.slots k).parentPid = (s.table.slots i).pid → (s'.table.slots k).Present ∧
      (s'.table.slots k).parentPid = (s.table.slots k).parentPid

def NoneEnds (s s' : System n) : Prop :=
  ∀ i, (s'.table.slots i).Ended → (s.table.slots i).Ended ∧ (s'.table.slots i).exitCode = (s.table.slots i).exitCode

section Events

variable {s s' : System n} {i k : Nat}

theorem Continues.same (slots : ∀ i, SameKin (s'.table.slots i) (s.table.slots i)) : Continues s s' where
  present {i} present := (slots i).present.mp present
  alive {i} alive := ⟨(slots i).inUse.symm.trans alive, (slots i).pid⟩
  children {_ k} _ _ present _ := ⟨(slots k).present.mpr present, (slots k).parentPid⟩

theorem Continues.setSlot {slot : Slot n} (table : s'.table = s.table.setSlot i slot) (same : SameKin slot (s.table.slots i)) :
    Continues s s' := by
  refine .same fun j => ?_
  rw [table]
  exact Table.setSlot_slots (fun j slot => SameKin slot (s.table.slots j)) (fun _ _ => .refl _) same j

theorem NoneEnds.setSlot {slot : Slot n} (table : s'.table = s.table.setSlot i slot)
    (same : slot.Ended → (s.table.slots i).Ended ∧ slot.exitCode = (s.table.slots i).exitCode) : NoneEnds s s' := by
  intro j
  rw [table]
  exact Table.setSlot_slots (fun j slot => slot.Ended → (s.table.slots j).Ended ∧ slot.exitCode = (s.table.slots j).exitCode)
    (fun _ _ ended => ⟨ended, rfl⟩) same j

theorem Continues.die {vfork : Bool} {t : Table n} (kin : Kin s) (alive : (s.table.slots k).inUse = true)
    (dies : Dies vfork k s.table t) : Continues s { s with table := t } := by
  have survives : ∀ {i}, (t.slots i).inUse = true → i ≠ k := by
    rintro i still rfl
    exact nomatch dies.gone.symm.trans still
  refine ⟨fun {i} present => ?_, fun {i} still => ?_, fun {i j} still some_ present child => ?_⟩
  · by_cases own : i = k
    · subst own
      exact .inl alive
    · have mourns := dies.others own
      unfold Slot.Present at present
      dsimp only at present
      rwa [mourns.inUse, mourns.zombie] at present
  · have mourns := dies.others (survives still)
    exact ⟨mourns.inUse.symm.trans still, mourns.pid⟩
  · have differ := survives still
    have aliveToo := (dies.others differ).inUse.symm.trans still
    have notOwn : (s.table.slots j).parentPid ≠ (s.table.slots k).pid := by
      intro own
      exact differ (kin.distinct (.inl aliveToo) (.inl alive) (child.symm.trans own))
    by_cases own : j = k
    · subst own
      refine ⟨.inr dies.zombie, ?_⟩
      rcases dies.parent with kept | ⟨same, -⟩
      · exact kept
      · exact absurd same notOwn
    · have mourns := dies.others own
      have parent : (t.slots j).parentPid = (s.table.slots j).parentPid := by
        rcases mourns.parent with kept | ⟨same, -⟩
        · exact kept
        · exact absurd same notOwn
      refine ⟨?_, parent⟩
      unfold Slot.Present at present ⊢
      dsimp only
      rwa [mourns.inUse, mourns.zombie]

theorem Dies.ended {vfork : Bool} {t : Table n} (dies : Dies vfork k s.table t) (differ : i ≠ k) (ended : (t.slots i).Ended) :
    (s.table.slots i).Ended ∧ (t.slots i).exitCode = (s.table.slots i).exitCode := by
  have mourns := dies.others differ
  unfold Slot.Ended at ended ⊢
  rw [mourns.inUse, mourns.zombie, mourns.sigTerminate] at ended
  exact ⟨ended, mourns.exitCode⟩

theorem Continues.reap {t : Table n} (kin : Kin s) (slots : ∀ i, t.slots i = s.table.slots i ∨ (s.table.slots i).zombie = true ∧
    (s.table.slots i).parentPid = 0 ∧ t.slots i = (s.table.slots i).taskRelease) :
    Continues s { s with table := t } ∧ NoneEnds s { s with table := t } := by
  have present : ∀ {i}, (t.slots i).Present → t.slots i = s.table.slots i := by
    intro i present
    rcases slots i with same | ⟨zombie, -, released⟩
    · exact same
    · rw [released] at present
      rcases present with alive | dead
      · exact nomatch (kin.dead zombie).symm.trans alive
      · cases dead
  refine ⟨⟨fun {i} still => ?_, fun {i} alive => ?_, fun {i j} alive some_ child parent => ?_⟩, fun i ended => ?_⟩
  · rwa [← present still]
  · have same := present (.inl alive)
    dsimp only at alive ⊢
    rw [same] at alive ⊢
    exact ⟨alive, rfl⟩
  · rcases slots j with same | ⟨-, orphan, -⟩
    · dsimp only
      rw [same]
      exact ⟨child, rfl⟩
    · exact absurd (parent.symm.trans orphan) some_
  · have same := present (ended.imp And.left id)
    dsimp only at ended ⊢
    rw [same] at ended ⊢
    exact ⟨ended, rfl⟩

def Label.Quiet (s : System n) : Label → Prop
  | .sched => True
  | .terminate _ => True
  | .exec i => (s.table.slots i).sigTerminate = false
  | .call _ _ => True
  | .task => True
  | _ => False

theorem Event.quiet {label : Label} (kin : Kin s) (event : Event s label s') (quiet : label.Quiet s) :
    Continues s s' ∧ NoneEnds s s' := by
  cases event with
  | mark slots nextPid pc =>
    refine ⟨.same fun i => ?_, fun i ended => ?_⟩
    · obtain ⟨frame, running, same⟩ := slots i
      rw [same]
      exact ⟨rfl, rfl, rfl, rfl, rfl, rfl, rfl, fun _ => rfl⟩
    · obtain ⟨frame, running, same⟩ := slots i
      rw [same] at ended ⊢
      exact ⟨ended, rfl⟩
  | reap slots nextPid => exact Continues.reap kin slots
  | @terminate k t alive ended dies exitCode =>
    refine ⟨.die kin alive dies, fun i endedToo => ?_⟩
    by_cases own : i = k
    · subst own
      exact ⟨.inl ⟨alive, ended⟩, exitCode⟩
    · exact dies.ended own endedToo
  | @exec i alive here =>
    have notZombie : (s.table.slots i).zombie = false := by
      by_contra zombie
      exact nomatch (kin.dead (by simpa using zombie)).symm.trans alive
    refine ⟨.setSlot rfl ⟨rfl, notZombie.symm, rfl, rfl, rfl, rfl, rfl, fun gone => nomatch gone.symm.trans alive⟩,
      .setSlot rfl ?_⟩
    rintro (⟨-, ended⟩ | zombie)
    · exact nomatch Eq.trans (Eq.symm quiet) ended
    · cases zombie
  | wake | act | call | block | rise | vforkRise | vforkBlock =>
    exact ⟨.setSlot rfl ⟨rfl, rfl, rfl, rfl, rfl, rfl, rfl, fun _ => rfl⟩, .setSlot rfl fun ended => ⟨ended, rfl⟩⟩
  | vforked | find | noHang | vforkDone => exact ⟨.same fun _ => .refl _, fun _ ended => ⟨ended, rfl⟩⟩
  | fill | exit | doom | collect => exact quiet.elim

end Events

namespace Logged

variable {s s' : System n} {log : Log} {i k : Nat}

section

variable (logged : Logged s log)
include logged

theorem continue_ {ended : Life → Option Cause} (continues : Continues s s')
    (same : ∀ {life}, life ∈ log.reported → ended life = log.ended life)
    (knows : ∀ {i}, (s'.table.slots i).Ended → { log with ended := ended }.Knows i (s'.table.slots i).exitCode) :
    Logged s' { log with ended := ended } where
  ended := knows
  faithful {life status} report := by
    have reported : life ∈ log.reported := mem_map_of_mem report
    dsimp only
    rw [same reported]
    exact logged.faithful report
  gone {life} reported := (logged.gone reported).imp_right fun differ present => differ (continues.present present)
  once := logged.once
  known := logged.known
  inside := logged.inside
  children {life parent} child alive := by
    obtain ⟨aliveBefore, pid⟩ := continues.alive alive.1
    obtain ⟨some_, rest⟩ := logged.children child ⟨aliveBefore, alive.2⟩
    rw [pid]
    refine ⟨some_, rest.imp_right ?_⟩
    rintro ⟨present, born, parentPid⟩
    obtain ⟨still, kept⟩ := continues.children alive.1 some_ present parentPid
    exact ⟨still, born, kept.trans parentPid⟩

theorem quiet {label : Label} (kin : Kin s) (event : Event s label s') (quiet : label.Quiet s) : Logged s' log := by
  obtain ⟨continues, noneEnds⟩ := event.quiet kin quiet
  refine logged.continue_ continues (fun _ => rfl) fun {i} ended => ?_
  obtain ⟨before, code⟩ := noneEnds i ended
  rw [code]
  exact logged.ended before

theorem chain {labels : Label → Prop} (kin : Kin s) (chain : Chain labels s s')
    (quiet : ∀ {label} {m : System n}, labels label → label.Quiet m) : Kin s' ∧ Logged s' log := by
  refine chain.keeps (fun m => Kin m ∧ Logged m log) ⟨kin, logged⟩ ?_
  rintro before after label allowed event ⟨kin, logged⟩
  exact ⟨kin.event event, logged.quiet kin event (quiet allowed)⟩

theorem ends {cause : Cause} (continues : Continues s s') (alive : (s.table.slots i).inUse = true)
    (plain : cause.Plain) (raised : cause.Raised) (code : (s'.table.slots i).exitCode = cause.code)
    (others : ∀ {k}, k ≠ i → (s'.table.slots k).Ended →
      (s.table.slots k).Ended ∧ (s'.table.slots k).exitCode = (s.table.slots k).exitCode) : Logged s' (log.ends i cause) := by
  refine logged.continue_ continues (fun {life} reported => ?_) fun {k} ended => ?_
  · refine update_of_ne ?_ ..
    rintro rfl
    exact (logged.gone reported).2 (.inl alive) rfl
  · by_cases own : k = i
    · subst own
      exact ⟨cause, update_self .., plain, raised, code⟩
    · obtain ⟨before, same⟩ := others own ended
      obtain ⟨known, is, rest⟩ := logged.ended before
      rw [same]
      refine ⟨known, (update_of_ne ?_ ..).trans is, rest⟩
      intro sameLife
      exact own (congrArg Life.slot sameLife)

theorem doom {signal : Nat} (event : Event s (.doom i signal) s') (raised : (Cause.signal signal).Raised) :
    Logged s' (log.ends i (.signal signal)) := by
  cases event with
  | doom alive =>
    refine logged.ends (.setSlot rfl ⟨rfl, rfl, rfl, rfl, rfl, rfl, rfl, fun gone => nomatch gone.symm.trans alive⟩) alive trivial
      raised ?_ fun {k} differ ended => ?_
    · dsimp only
      rw [Table.setSlot_self]
      rfl
    · dsimp only at ended ⊢
      rw [Table.setSlot_other differ] at ended ⊢
      exact ⟨ended, rfl⟩

theorem exit {cause : Cause} (kin : Kin s) (event : Event s (.exit k cause.code) s') (plain : cause.Plain)
    (raised : cause.Raised) : Logged s' (log.ends k cause) := by
  cases event with
  | exit alive here dies exitCode => exact logged.ends (.die kin alive dies) alive plain raised exitCode dies.ended

end

theorem spawned_ended (slot : Slot n) (pid : Pid) (kind : SpawnKind) : ¬(slot.spawned pid kind).Ended := by
  cases kind with
  | task | program | child => rintro (⟨-, ended⟩ | zombie) <;> contradiction

theorem fill {parent : Option Life} {kind : SpawnKind} {nextPid : Pid} (logged : Logged s log) (low : 0 < i) (high : i < taskMax)
    (free : ¬(s.table.slots i).Present)
    (child : ∀ {life}, parent = some life → log.Alive s life ∧ (s.table.slots life.slot).pid ≠ 0 ∧
      kind = .child (s.table.slots life.slot).pid) :
    Logged ({ s with table := { s.table.setSlot i ((s.table.slots i).spawned nextPid kind) with nextPid := nextPid } }.goto i .run)
      (log.birth parent (some i)) := by
  have here : update s.table.slots i ((s.table.slots i).spawned nextPid kind) i = _ := update_self ..
  have there : ∀ {j}, j ≠ i → update s.table.slots i ((s.table.slots i).spawned nextPid kind) j = s.table.slots j :=
    fun differ => update_of_ne differ ..
  have bornHere : (log.birth parent (some i)).born i = log.born i + 1 := update_self ..
  have bornThere : ∀ {j}, j ≠ i → (log.birth parent (some i)).born j = log.born j := fun differ => update_of_ne differ ..
  have grows : ∀ j, log.born j ≤ (log.birth parent (some i)).born j := by
    intro j
    by_cases own : j = i
    · rw [own, bornHere]
      exact Nat.le_succ _
    · rw [bornThere own]
  -- Either the new task, or one that was known.
  have parents : ∀ {life of}, (log.birth parent (some i)).parent life = some of →
      life = ⟨i, log.born i + 1⟩ ∧ parent = some of ∨ log.parent life = some of := by
    intro life of is
    change update log.parent ⟨i, log.born i + 1⟩ parent life = some of at is
    by_cases own : life = ⟨i, log.born i + 1⟩
    · subst own
      rw [update_self] at is
      exact .inl ⟨rfl, is⟩
    · rw [update_of_ne own] at is
      exact .inr is
  refine ⟨fun {k} ended => ?_, logged.faithful, fun {life} reported => ?_, logged.once, fun {life of} is => ?_,
    fun {life of} is => ?_, fun {life of} is alive => ?_⟩
  · change (update s.table.slots i _ k).Ended at ended
    change Log.Knows _ k (update s.table.slots i _ k).exitCode
    by_cases own : k = i
    · subst own
      rw [here] at ended
      exact absurd ended (spawned_ended _ _ _)
    · rw [there own] at ended ⊢
      unfold Log.Knows Log.life
      rw [bornThere own]
      exact logged.ended ended
  · obtain ⟨bound, differ⟩ := logged.gone reported
    by_cases own : life.slot = i
    · rw [own] at bound ⊢
      rw [bornHere]
      exact ⟨Nat.le_succ_of_le bound, fun _ => Nat.ne_of_lt (Nat.lt_succ_of_le bound)⟩
    · rw [bornThere own]
      refine ⟨bound, fun present => differ ?_⟩
      change (update s.table.slots i _ life.slot).Present at present
      rwa [there own] at present
  · rcases parents is with ⟨rfl, new⟩ | old
    · obtain ⟨⟨-, number⟩, -⟩ := child new
      exact ⟨bornHere.ge, number ▸ grows _⟩
    · obtain ⟨first, second⟩ := logged.known old
      exact ⟨first.trans (grows _), second.trans (grows _)⟩
  · rcases parents is with ⟨rfl, -⟩ | old
    · exact ⟨low, high⟩
    · exact logged.inside old
  · obtain ⟨inUse, number⟩ := alive
    change (update s.table.slots i _ of.slot).inUse = true at inUse
    change (update s.table.slots i _ of.slot).pid ≠ 0 ∧ (life ∈ log.reported ∨
      (update s.table.slots i _ life.slot).Present ∧ _ ∧
        (update s.table.slots i _ life.slot).parentPid = (update s.table.slots i _ of.slot).pid)
    -- The new task has no children yet.
    have differ : of.slot ≠ i := by
      intro own
      rcases parents is with ⟨-, new⟩ | old
      · obtain ⟨⟨aliveBefore, -⟩, -⟩ := child new
        exact free (own ▸ .inl aliveBefore)
      · have bound := (logged.known old).2
        rw [own] at bound number
        rw [bornHere] at number
        omega
    rw [there differ] at inUse ⊢
    rw [bornThere differ] at number
    rcases parents is with ⟨rfl, new⟩ | old
    · obtain ⟨-, some_, rfl⟩ := child new
      rw [here]
      exact ⟨some_, .inr ⟨.inl rfl, bornHere, rfl⟩⟩
    · obtain ⟨some_, rest⟩ := logged.children old ⟨inUse, number⟩
      refine ⟨some_, rest.imp_right ?_⟩
      rintro ⟨present, numberToo, parentPid⟩
      have other : life.slot ≠ i := fun own => free (own ▸ present)
      rw [there other, bornThere other]
      exact ⟨present, numberToo, parentPid⟩

theorem collect {want status : BitVec 32} {pid : Pid} (logged : Logged s log) (kin : Kin s) (alive : (s.table.slots k).inUse = true)
    (here : s.pc k = .collect want i pid status) :
    Logged ({ s with table := s.table.setSlot i (s.table.slots i).taskRelease }.goto k .run) (log.report i status) := by
  obtain ⟨zombie, parent, -, rfl⟩ := (kin.fits alive).collects here
  have notAlive := kin.dead zombie
  have released : ¬(s.table.slots i).taskRelease.Present := by
    rintro (used | dead)
    · exact nomatch notAlive.symm.trans used
    · cases dead
  have own : (s.table.setSlot i (s.table.slots i).taskRelease).slots i = _ := Table.setSlot_self
  have others : ∀ {j}, j ≠ i → (s.table.setSlot i (s.table.slots i).taskRelease).slots j = s.table.slots j :=
    fun differ => Table.setSlot_other differ
  have reported : ∀ {life}, life ∈ (log.report i (waitStatus ((s.table.slots i).exitCode.setWidth 32))).reported ↔
      life ∈ log.reported ∨ life = log.life i := by
    intro life
    unfold Log.reported Log.report
    rw [map_append, mem_append]
    exact Iff.or Iff.rfl mem_singleton
  have stillPresent : ∀ {j}, ((s.table.setSlot i (s.table.slots i).taskRelease).slots j).Present → j ≠ i := by
    rintro j present rfl
    rw [own] at present
    exact released present
  refine ⟨fun {j} ended => ?_, fun {life status} report => ?_, fun {life} member => ?_, ?_, logged.known,
    logged.inside, fun {life of} is aliveToo => ?_⟩
  · change ((s.table.setSlot i _).slots j).Ended at ended
    change Log.Knows _ j ((s.table.setSlot i _).slots j).exitCode
    have differ := stillPresent (ended.imp And.left id)
    rw [others differ] at ended ⊢
    exact logged.ended ended
  · rcases mem_append.mp report with before | new
    · exact logged.faithful before
    · cases mem_singleton.mp new
      obtain ⟨cause, is, plain, raised, code⟩ := logged.ended (.inr zombie)
      rw [code]
      exact ⟨cause, is, plain.faithful raised⟩
  · rcases reported.mp member with before | rfl
    · obtain ⟨bound, differ⟩ := logged.gone before
      refine ⟨bound, fun present => differ ?_⟩
      change ((s.table.setSlot i _).slots life.slot).Present at present
      rwa [others (stillPresent present)] at present
    · exact ⟨Nat.le_refl _, fun present => absurd rfl (stillPresent present)⟩
  · have new : log.life i ∉ log.reported := fun before => (logged.gone before).2 (.inr zombie) rfl
    unfold Log.reported Log.report
    rw [map_append]
    exact logged.once.append (nodup_singleton _) (disjoint_singleton.mpr new)
  · obtain ⟨inUse, number⟩ := aliveToo
    have differ := stillPresent (.inl inUse)
    change ((s.table.setSlot i _).slots of.slot).inUse = true at inUse
    change ((s.table.setSlot i _).slots of.slot).pid ≠ 0 ∧ (_ ∨ ((s.table.setSlot i _).slots life.slot).Present ∧ _ ∧
      ((s.table.setSlot i _).slots life.slot).parentPid = ((s.table.setSlot i _).slots of.slot).pid)
    rw [others differ] at inUse ⊢
    obtain ⟨some_, rest⟩ := logged.children is ⟨inUse, number⟩
    refine ⟨some_, ?_⟩
    rcases rest with before | ⟨present, numberToo, parentPid⟩
    · exact .inl (reported.mpr (.inl before))
    · by_cases collected : life.slot = i
      · refine .inl (reported.mpr (.inr ?_))
        subst collected
        unfold Log.life
        rw [numberToo]
      · rw [others collected]
        exact .inr ⟨present, numberToo, parentPid⟩

theorem spawn {me : Fin n} {kind : SpawnKind} {allocated : Bool} {parent : Option Life} (placed : Placed s.table) (kin : Kin s)
    (logged : Logged s log)
    (kernel : parent = none ∧ (∀ pid, kind ≠ .child pid) ∨ parent = some (log.life (s.self me)) ∧ kind = .child (s.slot me).pid ∧
      (s.slot me).user = true) :
    Logged (s.spawn me kind allocated) (log.birth parent (s.table.taskSpawn me kind allocated).2) := by
  have reaped := logged.quiet kin (.reaped s me) trivial
  have same := placed.reaped_alive me (placed.alive me)
  cases filled : (s.table.taskSpawn me kind allocated).2 with
  | none =>
    rw [System.spawn_none filled]
    exact reaped
  | some j =>
    obtain ⟨free, same_⟩ := System.spawn_filled filled
    obtain ⟨low, high, notUsed, notZombie⟩ := Table.freeSlot_spec free
    rw [same_]
    refine Logged.fill (s := { s with table := s.table.taskReapZombies me }) reaped low high ?_ fun {life} is => ?_
    · rintro (used | zombie)
      · exact nomatch notUsed.symm.trans used
      · exact nomatch notZombie.symm.trans zombie
    · rcases kernel with ⟨none_, -⟩ | ⟨self, rfl, user⟩
      · exact nomatch none_.symm.trans is
      · cases self.symm.trans is
        change (((s.table.taskReapZombies me).slots (s.table.current me)).inUse = true ∧ _) ∧
          ((s.table.taskReapZombies me).slots (s.table.current me)).pid ≠ 0 ∧
            _ = SpawnKind.child ((s.table.taskReapZombies me).slots (s.table.current me)).pid
        rw [same]
        exact ⟨⟨placed.alive me, rfl⟩, (kin.users (placed.alive me) user).1, rfl⟩

theorem of_table (logged : Logged s log) (same : s'.table = s.table) : Logged s' log :=
  logged.continue_ (.same fun i => by rw [same]; exact .refl _) (fun _ => rfl) fun {i} ended => by
    rw [same] at ended ⊢
    exact logged.ended ended

theorem switch {me : Fin n} {forceAway : Bool} {signal : Option Nat} (placed : Placed s.table) (kin : Kin s) (logged : Logged s log)
    (raised : ∀ {sig}, signal = some sig → (Cause.signal sig).Raised) (cause : Cause) :
    Logged (s.switch me forceAway signal) (log.after s cause (.switch me forceAway signal)) := by
  have resumes : Kin { s with table := s.table.resumes me forceAway } ∧ Logged { s with table := s.table.resumes me forceAway } log := by
    refine logged.chain kin (Event.resumes placed me forceAway) ?_
    rintro label m (rfl | ⟨k, rfl⟩) <;> trivial
  obtain ⟨kinToo, loggedToo⟩ := resumes
  cases signal with
  | none => exact loggedToo.quiet kinToo (.switchedQuiet s me forceAway) trivial
  | some sig =>
    change Logged (s.switch me forceAway (some sig)) (if (s.table.taskSwitchTo me forceAway (some sig)).isSome then
      log.ends ((s.table.resumes me forceAway).current me) (.signal sig) else log)
    unfold System.switch
    cases switched : s.table.taskSwitchTo me forceAway (some sig) with
    | none => exact loggedToo.of_table rfl
    | some table => exact (loggedToo.doom (.doomed placed switched) (raised rfl)).of_table rfl

theorem step {move : Move n} {cause : Cause} {log' : Log} (placed : Placed s.table) (kin : Kin s) (logged : Logged s log)
    (reportable : Reportable (move, cause) (s, log)) (fresh : FreshPid move s)
    (taken : LoggedStep (move, cause) (s, log) (s', log')) : Logged s' log' := by
  obtain ⟨taken, code, signal, same⟩ := taken
  dsimp only at taken code signal same
  subst same
  have ordinary : (∀ {label} {m : System n}, move.labels s label → label.Quiet m) → Logged s' log :=
    fun quiet => (logged.chain kin (taken.events placed (kin.users_self placed) fresh) quiet).2
  cases taken with
  | spawn ready here kernel => exact spawn placed kin logged (.inl ⟨rfl, kernel⟩)
  | @fork _ me vfork allocated copied ready here user =>
    have spawned : Logged (s.spawn me (.child (s.slot me).pid) allocated) (log.after s cause (.fork me vfork allocated copied)) :=
      spawn placed kin logged (.inr ⟨rfl, rfl, user⟩)
    unfold System.fork
    dsimp only
    split
    · exact spawned.of_table rfl
    · exact spawned
  | switch ready => exact switch placed kin logged (fun is => signal (by rw [is])) cause
  | @exit _ me _ ready here notIdle =>
    obtain ⟨rfl, raised⟩ := code rfl
    obtain ⟨dies, exitCode⟩ := Dies.exit s.table me cause.code
    have event : Event s (.exit (s.self me) cause.code) { s with table := s.table.buried me cause.code } :=
      .exit (placed.alive me) here dies exitCode
    exact (logged.exit kin event reportable raised).quiet (kin.event event) (.exited placed notIdle cause.code) trivial
  | @exec _ me runs here user =>
    have event : Event s (.exec (s.self me)) _ := .exec (placed.alive me) here
    exact logged.quiet kin event reportable
  | @collect _ me want status i pid copied ready here =>
    cases reportable
    have same : log.after s cause (.collect me true) = log.report i status := by
      change (match s.pc (s.self me) with
        | .collect _ i _ status => log.report i status
        | _ => log) = _
      rw [here]
    rw [same]
    exact logged.collect kin (placed.alive me) here
  | wait ready here user =>
    refine ordinary ?_
    rintro label m (rfl | rfl | ⟨rfl, -⟩) <;> trivial
  | _ =>
    refine ordinary ?_
    rintro label m (rfl | rfl) <;> trivial

theorem start (quiet : ∀ i, ¬(s.table.slots i).Ended) : Logged s .start where
  ended {i} ended := absurd ended (quiet i)
  faithful := nofun
  gone := nofun
  once := nodup_nil
  known := nofun
  inside := nofun
  children := nofun

theorem accounted (logged : Logged s log) : Accounted s log where
  faithful := logged.faithful
  once := nodup_iff_count_le_one.mp logged.once
  owed {life parent} is alive gone := by
    obtain ⟨some_, rest⟩ := logged.children is alive
    by_cases reported : life ∈ log.reported
    · exact .inl (count_eq_one_of_mem logged.once reported)
    · obtain ⟨present, number, child⟩ := rest.resolve_left reported
      have zombie : (s.table.slots life.slot).zombie = true := present.resolve_left fun inUse => gone ⟨inUse, number⟩
      refine .inr ⟨count_eq_zero.mpr reported, zombie, number, fun want asks => ?_⟩
      obtain ⟨low, high⟩ := logged.inside is
      refine find?_isSome.mpr ⟨life.slot, mem_range.mpr high, ?_⟩
      rcases asks with any | rfl
      · simp [low, zombie, child, any]
      · simp [low, zombie, child]

end Logged

/-- While exits have plain codes, no task that a signal has ended is executed anew, every
status can be stored and no pid is given twice, every parent gets to know how each child
has ended, once. -/
theorem children_reported {start s : System n} {log : Log} (booted : Booted start) (quiet : ∀ i, ¬(start.table.slots i).Ended)
    (run : Run LoggedStep (fun call state => Reportable call state ∧ FreshPid call.1 state.1) (start, .start) (s, log)) :
    Accounted s log := by
  have holds : Placed (s, log).1.table ∧ Kin (s, log).1 ∧ Logged (s, log).1 (s, log).2 := by
    refine @Run.invariant _ _ _ _ _ _ (fun state => Placed state.1.table ∧ Kin state.1 ∧ Logged state.1 state.2) run
      ⟨booted.placed, booted.kin, .start quiet⟩ ?_
    rintro ⟨move, cause⟩ ⟨before, log⟩ ⟨after, log'⟩ ⟨placed, kin, logged⟩ ⟨reportable, fresh⟩ taken
    exact ⟨placed.step (kin.zombies _ placed) taken.taken, kin.step placed fresh taken.taken, logged.step placed kin reportable fresh taken⟩
  exact holds.2.2.accounted

/-- The second processor has gone to the child of the program. -/
def pickedChild (signal : Option Nat) : System 2 := forkedProgram.switch 1 false signal

def startedChild (signal : Option Nat) : System 2 :=
  { pickedChild signal with stack := update (pickedChild signal).stack 1 (some ((pickedChild signal).self 1)) }.setPhase 1
    .runs

section

variable (cause : Cause)

/-- The child has exited, the program has found it, and has collected it. -/
def exitedChild : System 2 := (startedChild none).exit 1 cause.code

def foundChild : System 2 := (exitedChild cause).waitRound 0 0 false

def collectedChild : System 2 :=
  { foundChild cause with
    table := (foundChild cause).table.setSlot 4 ((foundChild cause).table.slots 4).taskRelease }.goto ((foundChild cause).self 0) .run

def forkedLog : Log := Log.start.after programSystem (.exit 0) (.fork 0 false true true)

def exitedLog : Log := forkedLog.after (startedChild none) cause (.exit 1 cause.code)

def collectedLog (copied : Bool) : Log := (exitedLog cause).after (foundChild cause) (.exit 0) (.collect 0 copied)

end

variable {allowed : Move 2 × Cause → System 2 × Log → Prop}

theorem exited_run (raised : cause.Raised) (fork : allowed (.fork 0 false true true, .exit 0) (programSystem, .start))
    (pick : allowed (.switch 1 false none, .exit 0) (forkedProgram, forkedLog))
    (resume : allowed (.resume 1, .exit 0) (pickedChild none, forkedLog))
    (exit : allowed (.exit 1 cause.code, cause) (startedChild none, forkedLog)) :
    Run LoggedStep allowed (programSystem, .start) (exitedChild cause, exitedLog cause) := by
  have forkedReady : forkedProgram.Ready 1 := ⟨rfl, fun _ => nofun⟩
  have leaves : (pickedChild none).phase 1 = .leaves := by decide +kernel
  have facts : (startedChild none).Ready 1 ∧ (startedChild none).pc ((startedChild none).self 1) = .run ∧
      (startedChild none).self 1 ≠ (startedChild none).table.idleSlot 1 := by decide +kernel
  have forked : LoggedStep (.fork 0 false true true, .exit 0) (programSystem, .start) (forkedProgram, forkedLog) :=
    .of_taken (.fork (programSystem_ready 0) rfl rfl) nofun nofun
  have picked : LoggedStep (.switch 1 false none, .exit 0) (forkedProgram, forkedLog) (pickedChild none, forkedLog) :=
    .of_taken (.switch forkedReady) nofun nofun
  have started : LoggedStep (.resume 1, .exit 0) (pickedChild none, forkedLog) (startedChild none, forkedLog) :=
    .of_taken (.resume leaves) nofun nofun
  have exited : LoggedStep (.exit 1 cause.code, cause) (startedChild none, forkedLog) (exitedChild cause, exitedLog cause) :=
    ⟨.exit facts.1 facts.2.1 facts.2.2, fun same => by cases same; exact ⟨rfl, raised⟩, nofun, rfl⟩
  exact (((Run.start.next fork forked).next pick picked).next resume started).next exit exited

theorem programSystem_quiet (i : Nat) : ¬(programSystem.table.slots i).Ended := by
  match i with
  | 0 => rintro (⟨-, ended⟩ | zombie) <;> contradiction
  | 1 => rintro (⟨-, ended⟩ | zombie) <;> contradiction
  | 2 => rintro (⟨-, ended⟩ | zombie) <;> contradiction
  | 3 => rintro (⟨-, ended⟩ | zombie) <;> contradiction
  | _ + 4 => rintro (⟨-, ended⟩ | zombie) <;> contradiction

theorem small_run {copied : Bool}
    (run : Run LoggedStep allowed (programSystem, .start) (exitedChild (.exit 7), exitedLog (.exit 7)))
    (find : allowed (.wait 0 0 false, .exit 0) (exitedChild (.exit 7), exitedLog (.exit 7)))
    (collect : allowed (.collect 0 copied, .exit 0) (foundChild (.exit 7), exitedLog (.exit 7))) :
    Run LoggedStep allowed (programSystem, .start) (collectedChild (.exit 7), collectedLog (.exit 7) copied) := by
  have before : (exitedChild (.exit 7)).Ready 0 ∧ (exitedChild (.exit 7)).pc ((exitedChild (.exit 7)).self 0) = .run ∧
      ((exitedChild (.exit 7)).slot 0).user = true := by decide +kernel
  have after : (foundChild (.exit 7)).Ready 0 ∧ (foundChild (.exit 7)).pc ((foundChild (.exit 7)).self 0) = .collect 0 4 5 1792 := by
    decide +kernel
  have found : Step (.wait 0 0 false) (exitedChild (.exit 7)) (foundChild (.exit 7)) := .wait before.1 before.2.1 before.2.2
  have collected : Step (.collect 0 copied) (foundChild (.exit 7)) (collectedChild (.exit 7)) := .collect after.1 after.2
  have foundLogged : LoggedStep (.wait 0 0 false, .exit 0) (exitedChild (.exit 7), exitedLog (.exit 7))
      (foundChild (.exit 7), exitedLog (.exit 7)) := .of_taken found nofun nofun
  have collectedLogged : LoggedStep (.collect 0 copied, .exit 0) (foundChild (.exit 7), exitedLog (.exit 7))
      (collectedChild (.exit 7), collectedLog (.exit 7) copied) := .of_taken collected nofun nofun
  exact (run.next find foundLogged).next collect collectedLogged

/-- An exit with code 7 is reported. -/
theorem children_reported_exit : (collectedLog (.exit 7) true).reports = [(⟨4, 1⟩, 7 * 256)] ∧
    Accounted (collectedChild (.exit 7)) (collectedLog (.exit 7) true) := by
  have plain : (Cause.exit 7).Plain := .inl (by decide)
  have run : Run LoggedStep (fun call state => Reportable call state ∧ FreshPid call.1 state.1) (programSystem, .start)
      (exitedChild (.exit 7), exitedLog (.exit 7)) :=
    exited_run trivial ⟨trivial, programSystem_fresh⟩ ⟨trivial, trivial⟩ ⟨trivial, trivial⟩ ⟨plain, trivial⟩
  refine ⟨by decide +kernel, children_reported programSystem_booted programSystem_quiet ?_⟩
  exact small_run run ⟨trivial, trivial⟩ ⟨rfl, trivial⟩

/-- The child has been ended by a signal and goes on to execute another program; then the
second processor leaves it, and comes upon it again. -/
def execedChild : System 2 :=
  (startedChild (some 9)).setSelf 1 { (startedChild (some 9)).slot 1 with exitCode := 0, zombie := false, blocked := false, waitChan := .null }

def leftChild : System 2 := execedChild.switch 1 false none

def awayChild : System 2 :=
  { leftChild with stack := update leftChild.stack 1 (some (leftChild.self 1)) }.setPhase 1 .runs

def killedChild : System 2 := awayChild.switch 1 false none

def foundKilled : System 2 := killedChild.waitRound 0 0 false

def collectedKilled : System 2 :=
  { foundKilled with
    table := foundKilled.table.setSlot 4 (foundKilled.table.slots 4).taskRelease }.goto (foundKilled.self 0) .run

def doomedLog : Log := forkedLog.after forkedProgram (.exit 0) (.switch 1 false (some 9))

def killedLog : Log := doomedLog.after foundKilled (.exit 0) (.collect 0 true)

theorem misreported {s : System n} {life : Life} {status : BitVec 32}
    (reports : log.reports = [(life, status)]) (ended : log.ended life = some cause) (wrong : ¬cause.Faithful status) :
    ¬Accounted s log := by
  intro accounted
  obtain ⟨known, is, faithful⟩ := accounted.faithful (reports ▸ mem_singleton.mpr rfl)
  cases ended.symm.trans is
  exact wrong faithful

theorem lost {s : System n} {life parent : Life} (is : log.parent life = some parent) (alive : log.Alive s parent)
    (gone : ¬(s.table.slots life.slot).Present) (reported : log.reported.count life = 0) : ¬Accounted s log := by
  intro accounted
  rcases accounted.owed is alive fun aliveToo => gone (.inl aliveToo.1) with once | ⟨-, zombie, -⟩
  · exact nomatch reported.symm.trans once
  · exact gone (.inr zombie)

theorem raised_kill : (Cause.signal 9).Raised :=
  ⟨⟨0x100#64, 0, 0, fun _ => 0, fun _ => 0, fun _ => 0, 0, false, false, 0⟩, by decide, rfl⟩

theorem large_run : Run LoggedStep (fun call state => FreshPid call.1 state.1) (programSystem, .start)
    (collectedChild (.exit 200), collectedLog (.exit 200) true) := by
  have before : (exitedChild (.exit 200)).Ready 0 ∧ (exitedChild (.exit 200)).pc ((exitedChild (.exit 200)).self 0) = .run ∧
      ((exitedChild (.exit 200)).slot 0).user = true := by decide +kernel
  have after : (foundChild (.exit 200)).Ready 0 ∧ (foundChild (.exit 200)).pc ((foundChild (.exit 200)).self 0) = .collect 0 4 5 72 := by
    decide +kernel
  have found : Step (.wait 0 0 false) (exitedChild (.exit 200)) (foundChild (.exit 200)) := .wait before.1 before.2.1 before.2.2
  have collected : Step (.collect 0 true) (foundChild (.exit 200)) (collectedChild (.exit 200)) := .collect after.1 after.2
  have exited : Run LoggedStep (fun call state => FreshPid call.1 state.1) (programSystem, .start)
      (exitedChild (.exit 200), exitedLog (.exit 200)) := exited_run trivial programSystem_fresh trivial trivial trivial
  have foundLogged : LoggedStep (.wait 0 0 false, .exit 0) (exitedChild (.exit 200), exitedLog (.exit 200))
      (foundChild (.exit 200), exitedLog (.exit 200)) := .of_taken found nofun nofun
  have collectedLogged : LoggedStep (.collect 0 true, .exit 0) (foundChild (.exit 200), exitedLog (.exit 200))
      (collectedChild (.exit 200), collectedLog (.exit 200) true) := .of_taken collected nofun nofun
  exact (exited.next (by trivial) foundLogged).next (by trivial) collectedLogged

theorem killed_run : Run LoggedStep (fun call state => FreshPid call.1 state.1) (programSystem, .start)
    (collectedKilled, killedLog) := by
  have leaves : (pickedChild (some 9)).phase 1 = .leaves := by decide +kernel
  have runs : (startedChild (some 9)).phase 1 = .runs ∧ (startedChild (some 9)).pc ((startedChild (some 9)).self 1) = .run ∧
      ((startedChild (some 9)).slot 1).user = true := by decide +kernel
  have ready : execedChild.Ready 1 ∧ leftChild.phase 1 = .leaves ∧ awayChild.Ready 1 := by decide +kernel
  have before : killedChild.Ready 0 ∧ killedChild.pc (killedChild.self 0) = .run ∧ (killedChild.slot 0).user = true := by
    decide +kernel
  have after : foundKilled.Ready 0 ∧ foundKilled.pc (foundKilled.self 0) = .collect 0 4 5 0 := by decide +kernel
  have forked : LoggedStep (.fork 0 false true true, .exit 0) (programSystem, .start) (forkedProgram, forkedLog) :=
    .of_taken (.fork (programSystem_ready 0) rfl rfl) nofun nofun
  have picked : LoggedStep (.switch 1 false (some 9), .exit 0) (forkedProgram, forkedLog) (pickedChild (some 9), doomedLog) :=
    ⟨.switch ⟨rfl, fun _ => nofun⟩, nofun, fun same => by cases same; exact raised_kill, rfl⟩
  have started : LoggedStep (.resume 1, .exit 0) (pickedChild (some 9), doomedLog) (startedChild (some 9), doomedLog) :=
    .of_taken (.resume leaves) nofun nofun
  have execed : LoggedStep (.exec 1, .exit 0) (startedChild (some 9), doomedLog) (execedChild, doomedLog) :=
    .of_taken (.exec runs.1 runs.2.1 runs.2.2) nofun nofun
  have left : LoggedStep (.switch 1 false none, .exit 0) (execedChild, doomedLog) (leftChild, doomedLog) :=
    .of_taken (.switch ready.1) nofun nofun
  have away : LoggedStep (.resume 1, .exit 0) (leftChild, doomedLog) (awayChild, doomedLog) :=
    .of_taken (.resume ready.2.1) nofun nofun
  have gone : Step (.switch 1 false none) awayChild killedChild := .switch ready.2.2
  have killed : LoggedStep (.switch 1 false none, .exit 0) (awayChild, doomedLog) (killedChild, doomedLog) :=
    .of_taken gone nofun nofun
  have found : Step (.wait 0 0 false) killedChild foundKilled := .wait before.1 before.2.1 before.2.2
  have collected : Step (.collect 0 true) foundKilled collectedKilled := .collect after.1 after.2
  have foundLogged : LoggedStep (.wait 0 0 false, .exit 0) (killedChild, doomedLog) (foundKilled, doomedLog) :=
    .of_taken found nofun nofun
  have collectedLogged : LoggedStep (.collect 0 true, .exit 0) (foundKilled, doomedLog) (collectedKilled, killedLog) :=
    .of_taken collected nofun nofun
  have dying : Run LoggedStep (fun call state => FreshPid call.1 state.1) (programSystem, .start) (execedChild, doomedLog) :=
    (((Run.start.next (by exact programSystem_fresh) forked).next (by trivial) picked).next (by trivial) started).next (by trivial)
      execed
  have dead : Run LoggedStep (fun call state => FreshPid call.1 state.1) (programSystem, .start) (killedChild, doomedLog) :=
    ((dying.next (by trivial) left).next (by trivial) away).next (by trivial) killed
  exact (dead.next (by trivial) foundLogged).next (by trivial) collectedLogged

/-- A child that exits with 200 is reported to have been ended by signal 72; a child is
lost if its status cannot be stored; and one that is ended by signal 9 and has executed
another program before it is gone is reported to have exited. -/
theorem child_misreported : Booted programSystem ∧ (∀ i, ¬(programSystem.table.slots i).Ended) ∧
    (Run LoggedStep (fun call state => FreshPid call.1 state.1) (programSystem, .start)
        (collectedChild (.exit 200), collectedLog (.exit 200) true) ∧
      (collectedLog (.exit 200) true).reports = [(⟨4, 1⟩, 72)] ∧
      ¬Accounted (collectedChild (.exit 200)) (collectedLog (.exit 200) true)) ∧
    (Run LoggedStep (fun call state => FreshPid call.1 state.1) (programSystem, .start)
        (collectedChild (.exit 7), collectedLog (.exit 7) false) ∧
      ¬Accounted (collectedChild (.exit 7)) (collectedLog (.exit 7) false)) ∧
    (Run LoggedStep (fun call state => FreshPid call.1 state.1) (programSystem, .start) (collectedKilled, killedLog) ∧
      killedLog.reports = [(⟨4, 1⟩, 0)] ∧ ¬Accounted collectedKilled killedLog) := by
  have large : (collectedLog (.exit 200) true).reports = [(⟨4, 1⟩, 72)] ∧
      (collectedLog (.exit 200) true).ended ⟨4, 1⟩ = some (.exit 200) := by decide +kernel
  have killed : killedLog.reports = [(⟨4, 1⟩, 0)] ∧ killedLog.ended ⟨4, 1⟩ = some (.signal 9) := by decide +kernel
  have unreported : (collectedLog (.exit 7) false).parent ⟨4, 1⟩ = some ⟨3, 0⟩ ∧
      (collectedLog (.exit 7) false).reported.count ⟨4, 1⟩ = 0 ∧ (collectedLog (.exit 7) false).born 3 = 0 := by decide +kernel
  have slots : ((collectedChild (.exit 7)).table.slots 3).inUse = true ∧
      ¬(((collectedChild (.exit 7)).table.slots 4).inUse = true ∨ ((collectedChild (.exit 7)).table.slots 4).zombie = true) := by
    decide +kernel
  have exited : Run LoggedStep (fun call state => FreshPid call.1 state.1) (programSystem, .start)
      (exitedChild (.exit 7), exitedLog (.exit 7)) := exited_run trivial programSystem_fresh trivial trivial trivial
  exact ⟨programSystem_booted, programSystem_quiet, ⟨large_run, large.1, misreported large.1 large.2 (by decide)⟩,
    ⟨small_run exited trivial trivial, lost unreported.1 ⟨slots.1, unreported.2.2⟩ slots.2 unreported.2.1⟩, killed_run, killed.1,
    misreported killed.1 killed.2 (by decide)⟩

end NyonOS.Sched
