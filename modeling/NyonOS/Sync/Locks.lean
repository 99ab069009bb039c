import NyonOS.Data.Run

namespace NyonOS.Sync

open Data Function Relation

/-! The ranked locks of `sync.c`, and the timer tick, which takes `sched_lock` past the ranks.
No processor changes its task between two attempts of `spin_lock`; locks without a rank and other
uses of `preempt_disable` are left out. -/

abbrev Lock := Fin 10

def lockSched : Lock := ⟨3, by decide⟩

def lockMaxDepth : Nat := 8

inductive Phase
  | runs
  | spins (id : Lock)
  | pauses (id : Lock)
  | panics

/-- `held_mask` is the set of its bits. -/
structure Percpu where
  heldMask : Finset Lock
  lockDepth : Nat
  preemptCount : Nat
  phase : Phase
  ticking : Bool

inductive LockCall
  | acquire (id : Lock)
  | attempt
  | again
  | release (id : Lock)
  | tick
  | tock

namespace Percpu

/-- What a processor does to the flags and to itself. -/
def call (flag : Lock → Bool) : LockCall → Percpu → (Lock → Bool) × Percpu
  | .acquire id, ⟨held, depth, count, .runs, false⟩ =>
    if id ∈ held ∨ (∃ inner ∈ held, id < inner) ∨ lockMaxDepth ≤ depth then (flag, ⟨held, depth, count, .panics, false⟩)
    else (flag, ⟨held, depth, count + 1, .spins id, false⟩)
  | .attempt, ⟨held, depth, count, .spins id, false⟩ =>
    if flag id then (flag, ⟨held, depth, count - 1, .pauses id, false⟩)
    else (update flag id true, ⟨insert id held, depth + 1, count, .runs, false⟩)
  | .again, ⟨held, depth, count, .pauses id, false⟩ => (flag, ⟨held, depth, count + 1, .spins id, false⟩)
  | .release id, ⟨held, depth, count, .runs, false⟩ =>
    if id ∈ held then (update flag id false, ⟨held.erase id, depth - 1, count - 1, .runs, false⟩)
    else (flag, ⟨held, depth, count, .panics, false⟩)
  | .tick, ⟨held, depth, count, phase, false⟩ =>
    if count ≠ 0 ∨ flag lockSched then (flag, ⟨held, depth, count, phase, false⟩)
    else (update flag lockSched true, ⟨held, depth, count + 1, phase, true⟩)
  | .tock, ⟨held, depth, count, phase, true⟩ => (update flag lockSched false, ⟨held, depth, count - 1, phase, false⟩)
  | _, p => (flag, p)

def target (p : Percpu) : Option Lock :=
  match p.phase with
  | .spins id | .pauses id => some id
  | _ => none

/-- Preemption is off while a processor holds or tries to take a lock, and the lock it waits for
comes after those it holds. -/
structure Fine (p : Percpu) : Prop where
  depth : p.lockDepth = p.heldMask.card
  order : ∀ id ∈ p.target, ∀ outer ∈ p.heldMask, outer < id
  alone : p.ticking = true → p.lockDepth = 0
  preempt : p.preemptCount = p.lockDepth + p.ticking.toNat + match p.phase with | .spins _ => 1 | _ => 0

/-- Whether a processor has set the flag of a lock. -/
def Has (p : Percpu) (id : Lock) : Prop := id ∈ p.heldMask ∨ p.ticking = true ∧ id = lockSched

/-- A flag is set when clear, and cleared by the processor that set it. -/
def Turns (p new : Percpu) (id : Lock) (was is : Bool) : Prop :=
  is = was ∧ (new.Has id ↔ p.Has id) ∨ is = true ∧ was = false ∧ new.Has id ∨ is = false ∧ p.Has id ∧ ¬new.Has id

theorem Fine.call {p : Percpu} (fine : p.Fine) (flag : Lock → Bool) (call : LockCall) :
    (p.call flag call).2.Fine ∧ ∀ id, Turns p (p.call flag call).2 id (flag id) ((p.call flag call).1 id) := by
  obtain ⟨depth, order, alone, preempt⟩ := fine
  have still (new : Percpu) (has : new.Has = p.Has) id : Turns p new id (flag id) (flag id) := .inl ⟨rfl, has ▸ .rfl⟩
  unfold Percpu.call
  split <;> try split_ifs
  · exact ⟨⟨depth, nofun, alone, preempt⟩, still _ rfl⟩
  · refine ⟨⟨depth, ?_, alone, congrArg (· + 1) preempt⟩, still _ rfl⟩
    rintro _ ⟨⟩
    grind
  · exact ⟨⟨depth, order, alone, by simp_all⟩, still _ rfl⟩
  · rename_i held _ count id free
    have fresh : id ∉ held := fun inside => (order id rfl id inside).false
    refine ⟨⟨by simp_all, nofun, nofun, by simp_all⟩, fun other => ?_⟩
    by_cases same : other = id <;> simp_all [Turns, Has]
  · exact ⟨⟨depth, order, alone, by simp_all⟩, still _ rfl⟩
  · rename_i id held _ count inside
    have := Finset.card_pos.mpr ⟨_, inside⟩
    refine ⟨⟨by simp_all, nofun, nofun, by simp_all⟩, fun other => ?_⟩
    by_cases same : other = id <;> simp_all [Turns, Has]
  · exact ⟨⟨depth, nofun, alone, preempt⟩, still _ rfl⟩
  · exact ⟨⟨depth, order, alone, preempt⟩, still _ rfl⟩
  · refine ⟨⟨depth, order, by simp_all, by simp_all⟩, fun other => ?_⟩
    by_cases same : other = lockSched <;> simp_all [Turns, Has]
  · have := Finset.card_eq_zero.mp (depth.symm.trans (alone rfl))
    refine ⟨⟨depth, order, nofun, by simp_all⟩, fun other => ?_⟩
    by_cases same : other = lockSched <;> simp_all [Turns, Has]
  · exact ⟨⟨depth, order, alone, preempt⟩, still _ rfl⟩

end Percpu

structure Locks (n : Nat) where
  flag : Lock → Bool
  cpus : Fin n → Percpu

namespace Locks

variable {n : Nat} {s : Locks n} {owner : Lock → Option (Fin n)} {cpu other : Fin n} {id : Lock}

def start (n : Nat) : Locks n := ⟨fun _ => false, fun _ => ⟨∅, 0, 0, .runs, false⟩⟩

def act (call : Fin n × LockCall) (s : Locks n) : Locks n :=
  let (flag, p) := (s.cpus call.1).call s.flag call.2
  ⟨flag, update s.cpus call.1 p⟩

/-- The flags say which locks have an owner, and nobody else has them. -/
structure Safe (owner : Lock → Option (Fin n)) (s : Locks n) : Prop where
  fine : ∀ cpu, (s.cpus cpu).Fine
  flags : ∀ id, s.flag id = (owner id).isSome
  has : ∀ id cpu, (s.cpus cpu).Has id ↔ owner id = some cpu

theorem Safe.act (safe : s.Safe owner) (call : Fin n × LockCall) : ∃ after, (act call s).Safe after := by
  obtain ⟨cpu, call⟩ := call
  obtain ⟨fine, turns⟩ := (safe.fine cpu).call s.flag call
  unfold Locks.act
  generalize (s.cpus cpu).call s.flag call = result at *
  refine ⟨fun id => if result.1 id = s.flag id then owner id else if result.1 id then some cpu else none,
    fun other => ?_, fun id => ?_, fun id other => ?_⟩
  · rcases eq_or_ne other cpu with rfl | differ
    · simpa using fine
    · simpa [differ] using safe.fine other
  · rcases turns id with same | sets | clears <;> simp_all [safe.flags]
  · have := safe.flags id
    have := safe.has id
    rcases turns id with same | sets | clears <;> rcases eq_or_ne other cpu with rfl | differ <;> simp_all [Ne.symm]

def Waits (s : Locks n) (cpu : Fin n) (id : Lock) : Prop :=
  id ∈ (s.cpus cpu).target ∧ (s.cpus cpu).ticking = false

def WaitsFor (s : Locks n) (cpu other : Fin n) : Prop := ∃ id, s.Waits cpu id ∧ (s.cpus other).Has id

theorem Safe.below (safe : s.Safe owner) (behind : s.WaitsFor cpu other) (waits : s.Waits other id) :
    ∃ lower < id, s.Waits cpu lower := by
  obtain ⟨lower, here, had⟩ := behind
  exact ⟨lower, (safe.fine other).order id waits.1 lower (by simpa [Percpu.Has, waits.2] using had), here⟩

theorem Safe.chain (safe : s.Safe owner) (behind : TransGen s.WaitsFor cpu other) (waits : s.Waits other id) :
    ∃ lower < id, s.Waits cpu lower := by
  induction behind generalizing id with
  | single behind => exact safe.below behind waits
  | tail _ behind ih =>
    obtain ⟨_, less, waits⟩ := safe.below behind waits
    obtain ⟨lower, lowest, waits⟩ := ih waits
    exact ⟨lower, lowest.trans less, waits⟩

def Kept (s : Locks n) : Prop := ∃ owner, s.Safe owner ∧ ∀ cpu, ¬TransGen s.WaitsFor cpu cpu

theorem locks_kept (run : Run (fun call before after => after = act call before) (fun _ _ => True) (start n) s) : s.Kept := by
  obtain ⟨owner, safe⟩ : ∃ owner, s.Safe owner :=
    @Run.invariant _ _ _ _ _ _ (fun s => ∃ owner, s.Safe owner) run
      ⟨fun _ => none, fun _ => ⟨rfl, nofun, nofun, rfl⟩, fun _ => rfl, by simp [start, Percpu.Has]⟩
      fun call before after ⟨owner, safe⟩ _ taken => taken ▸ safe.act call
  refine ⟨owner, safe, fun cpu circle => ?_⟩
  obtain ⟨_, ⟨_, waits, _⟩, _⟩ := TransGen.head'_iff.mp circle
  obtain ⟨_, less, again⟩ := safe.chain circle waits
  cases waits.1.symm.trans again.1
  exact less.false

theorem locks_kept_two : (play act [(0, .acquire 1), (0, .attempt), (1, .acquire 1), (1, .attempt)] (start 2)).Kept :=
  locks_kept (@Run.play _ _ (fun call before after => after = act call before) _ _ _ _ (fun _ _ => rfl) _ .start (by decide))

end Locks

end NyonOS.Sync
