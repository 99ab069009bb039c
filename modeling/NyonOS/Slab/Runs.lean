import NyonOS.Slab.Invariant

namespace NyonOS.Slab

open Data Memory List

variable {σ : Type} [BlockAllocator σ]

/-- A cache and the objects its callers have. -/
structure Client (σ : Type) where
  cache : Cache σ
  live : List Nat

inductive CacheCall
  | alloc (cpu : Cpu)
  | free (cpu : Cpu) (obj : Nat)
  | other

def Client.call : CacheCall → Client σ → Client σ
  | .alloc cpu, client =>
    let result := kmemCacheAlloc client.cache cpu
    ⟨result.2, result.1.toList ++ client.live⟩
  | .free cpu obj, client => ⟨kmemCacheFree client.cache cpu obj, client.live.erase obj⟩
  | .other, client => client

/-- A call to the cache, or anything the rest of the kernel does with the page allocator
short of freeing a slab. -/
inductive CacheStep : CacheCall → Client σ → Client σ → Prop
  | call (call : CacheCall) (client : Client σ) : CacheStep call client (client.call call)
  | other (client : Client σ) {pmm : σ}
      (keeps : ∀ slab ∈ client.cache.made, BlockAllocator.live client.cache.pmm slab client.cache.shape.pagesPerSlab →
        BlockAllocator.live pmm slab client.cache.shape.pagesPerSlab) :
      CacheStep .other client ⟨{ client.cache with pmm }, client.live⟩

/-- Only objects that the callers have are freed. -/
def FreesLive : CacheCall → Client σ → Prop
  | .free _ obj, client => obj ∈ client.live
  | _, _ => True

instance decidableFreesLive : ∀ (call : CacheCall) (client : Client σ), Decidable (FreesLive call client)
  | .alloc _, _ => isTrue trivial
  | .free _ obj, client => inferInstanceAs (Decidable (obj ∈ client.live))
  | .other, _ => isTrue trivial

/-- What a client of the cache relies on: `Sound`, no slab on two lists, and nothing that
refers to a slab that is gone. -/
def Consistent (client : Client σ) : Prop :=
  ∃ partials empties, Sound client.cache partials empties client.live ∧ partials.Disjoint empties ∧
    (∀ slab ∈ client.cache.made, slab ∉ partials ∧ slab ∉ empties ↔
      (client.cache.slabs slab).inuse = (client.cache.slabs slab).total) ∧
    ∀ slab ∉ client.cache.made, slab ∉ partials ∧ slab ∉ empties ∧
      ∀ cpu, ∀ obj ∈ client.cache.mag cpu, client.cache.slabOf obj ≠ slab

theorem Sound.consistent {client : Client σ} {partials empties : List Nat}
    (sound : Sound client.cache partials empties client.live) : Consistent client := by
  refine ⟨partials, empties, sound, fun slab onPartial onEmpty => ?_, fun slab member => ?_, fun slab gone => ?_⟩
  · have busy := (sound.onPartial slab).mp onPartial
    have idle := (sound.onEmpty slab).mp onEmpty
    omega
  · have inuse := (sound.slab slab member).inuse
    rw [sound.onPartial, sound.onEmpty]
    simp only [member, true_and]
    have some_ := sound.count
    have total := (sound.slab slab member).total
    omega
  · refine ⟨fun on => gone ((sound.onPartial slab).mp on).1, fun on => gone ((sound.onEmpty slab).mp on).1, ?_⟩
    rintro cpu obj cached rfl
    have one : 0 < (client.cache.mag cpu).count obj := count_pos_iff.mpr cached
    have among : (client.cache.mag cpu).count obj ≤ ∑ each, (client.cache.mag each).count obj :=
      Finset.single_le_sum (f := fun each => (client.cache.mag each).count obj)
        (fun _ _ => Nat.zero_le _) (Finset.mem_univ cpu)
    have somewhere : 0 < client.cache.places client.live obj := by
      rw [Cache.places]
      omega
    exact gone (sound.isObject_of_places somewhere).1

theorem not_consistent_of_head_gone {client : Client σ} (slab : Nat) (head : client.cache.partialHead = some slab)
    (gone : slab ∉ client.cache.made) : ¬ Consistent client := by
  rintro ⟨partials, empties, sound, -⟩
  have linked := sound.partialLinked
  rw [head] at linked
  exact gone ((sound.onPartial slab).mp linked.head_mem).1

theorem Sound.created {size align : Size} {pmm : σ} {cache : Cache σ}
    (created : kmemCacheCreate size align pmm = some cache) : Sound cache [] [] [] := by
  unfold kmemCacheCreate at created
  split at created
  · contradiction
  · rename_i shape shaped
    cases created
    exact {
      count := kmemCacheShape_count shaped
      shaped := kmemCacheShape_fits shaped
      madeOnce := nodup_nil
      backed := fun _ member => absurd member not_mem_nil
      aligned := fun _ member => absurd member not_mem_nil
      fits := fun some_ => absurd rfl some_
      slab := fun _ member => absurd member not_mem_nil
      magazine := fun _ => Nat.zero_le _
      once := fun _ isObject => absurd isObject.1 not_mem_nil
      nothing := fun _ _ => by simp [Cache.places]
      partialLinked := Links.linked_nil _
      emptyLinked := Links.linked_nil _
      onPartial := by simp
      onEmpty := by simp
      emptyCount := rfl
      emptyFew := Nat.zero_le _ }

def SoundWith (shape : Shape) (client : Client σ) : Prop :=
  (∃ partials empties, Sound client.cache partials empties client.live) ∧ client.cache.shape = shape

theorem CacheStep.soundWith {shape : Shape} (several : shape.objsPerSlab ≠ 1) {call : CacheCall}
    {before after : Client σ} (kept : SoundWith shape before) (allowed : FreesLive call before)
    (step : CacheStep call before after) : SoundWith shape after := by
  obtain ⟨⟨partials, empties, sound⟩, rfl⟩ := kept
  cases step with
  | call =>
    cases call with
    | alloc cpu =>
      obtain ⟨partials, empties, sound, same⟩ := sound.alloc cpu
      exact ⟨⟨partials, empties, sound⟩, same⟩
    | free cpu obj =>
      have stock := sound.toStock.perm (perm_cons_erase allowed)
      obtain ⟨partials, empties, sound, same⟩ := Sound.free several { sound with toStock := stock } cpu
      exact ⟨⟨partials, empties, sound⟩, same⟩
    | other => exact ⟨⟨partials, empties, sound⟩, rfl⟩
  | other _ keeps =>
    exact ⟨⟨partials, empties, { sound with
      backed := fun slab member => keeps slab member (sound.backed slab member)
      slab := fun slab member => (sound.slab slab member).congr rfl rfl }⟩, rfl⟩

/-- Every run of a cache whose slabs hold more than one object. -/
theorem cache_runs_consistent {size align : Size} {pmm : σ} {cache : Cache σ} {now : Client σ}
    (created : kmemCacheCreate size align pmm = some cache) (several : cache.shape.objsPerSlab ≠ 1)
    (run : Run CacheStep FreesLive ⟨cache, []⟩ now) : Consistent now := by
  have kept : SoundWith cache.shape now :=
    run.invariant ⟨⟨[], [], Sound.created created⟩, rfl⟩
      fun _ _ _ kept allowed step => step.soundWith several kept allowed
  obtain ⟨⟨partials, empties, sound⟩, -⟩ := kept
  exact sound.consistent

/-- A cache with an empty page allocator under it. -/
def poolCache (shape : Shape) : Cache Pool where
  shape
  links := ⟨fun _ => none, fun _ => none⟩
  slabs := fun _ => ⟨[], 0, 0⟩
  partialHead := none
  emptyHead := none
  emptyCount := 0
  mag := fun _ => []
  pmm := .empty
  made := []

/-- Objects of 64 bytes: one page holds 63 of them. -/
def smallShape : Shape := ⟨64, 48, 63, 1, 4096⟩

scoped instance slabCpus : NeZero 8 := ⟨by decide⟩

def smallCalls : List CacheCall := [.alloc 0, .alloc 1, .free 1 4144]

theorem cache_runs_consistent_small : kmemCacheCreate 64#64 16#64 Pool.empty = some (poolCache smallShape) ∧
      Consistent (play Client.call smallCalls ⟨poolCache smallShape, []⟩) := by
  have created : kmemCacheCreate 64#64 16#64 Pool.empty = some (poolCache smallShape) := by
    have shape : kmemCacheShape 64#64 16#64 = some smallShape := by decide +kernel
    simp only [kmemCacheCreate, shape]
    rfl
  exact ⟨created, cache_runs_consistent created (by decide) (Run.start.play CacheStep.call (by decide +kernel))⟩

/-! Objects so large that a slab of 64 pages holds only one. -/

def largeShape : Shape := ⟨200000, 48, 1, 64, 262144⟩

/-- One processor fills its magazine and overflows it. -/
def largeCalls : List CacheCall :=
  List.replicate 33 (.alloc 0) ++ (range 33).map fun index => .free 0 (largeShape.object ((2 * index + 1) * 262144) 0)

theorem large_objects_listed_gone : kmemCacheCreate 200000#64 16#64 Pool.empty = some (poolCache largeShape) ∧
      Run CacheStep FreesLive ⟨poolCache largeShape, []⟩ (play Client.call largeCalls ⟨poolCache largeShape, []⟩) ∧
      ¬ Consistent (play Client.call largeCalls ⟨poolCache largeShape, []⟩) := by
  have shape : kmemCacheShape 200000#64 16#64 = some largeShape := by decide +kernel
  refine ⟨?_, Run.start.play CacheStep.call (by decide +kernel), ?_⟩
  · simp only [kmemCacheCreate, shape]
    rfl
  · exact not_consistent_of_head_gone 8650752 (by decide +kernel) (by decide +kernel)

end NyonOS.Slab
