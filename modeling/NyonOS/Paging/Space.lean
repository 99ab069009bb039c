import NyonOS.Paging.Map

namespace NyonOS.Paging

open Data Function

variable {σ : Type} [FrameAllocator σ] {depth : Nat}

namespace Machine

/-- `vmm_query_in`. -/
def entry (machine : Machine σ depth) (root : PAddr) (page : Nat) : Word :=
  ((machine.spaces root).get page).getD 0#64

def alive (machine : Machine σ depth) (root : PAddr) : Bool :=
  match machine.spaces root with
  | .absent => false
  | .node _ _ => true

omit [FrameAllocator σ] in
theorem alive_iff {machine : Machine σ depth} {root : PAddr} :
    machine.alive root = true ↔ machine.spaces root ≠ .absent := by
  rw [alive]
  cases machine.spaces root <;> simp

omit [FrameAllocator σ] in
theorem alive_congr {before after : Machine σ depth} {root : PAddr}
    (same : after.spaces root = .absent ↔ before.spaces root = .absent) :
    after.alive root = before.alive root := by
  rw [Bool.eq_iff_iff, alive_iff, alive_iff, ne_eq, ne_eq, same]

variable (machine : Machine σ depth)

/-- `*entry = word` for an entry that `walk_page_table` found. -/
def writeEntry (root : PAddr) (page : Nat) (word : Word) : Machine σ depth :=
  { machine with
    spaces := update machine.spaces root ((machine.spaces root).set page word) }

/-- Runs an operation on the tables of a live address space. -/
def onTable (root : PAddr)
    (operation : Table depth → Frames σ → Bool × Table depth × Frames σ) : Bool × Machine σ depth :=
  match machine.spaces root with
  | .absent => (false, machine)
  | .node link table =>
    ((operation table machine.frames).1,
      { machine with
        spaces := update machine.spaces root (.node link (operation table machine.frames).2.1)
        frames := (operation table machine.frames).2.2 })

end Machine

/-! `pmm_share`, the counters of shared frames. -/

def pmmShareRef (totalPages : Nat) (share : PAddr → Nat) (addr : PAddr) : PAddr → Nat :=
  if addr.toNat % pageSize ≠ 0 then share
  else if totalPages ≤ addr.toNat / pageSize then share
  else if share addr ≠ 0xFF then update share addr (share addr + 1)
  else share

def pmmUnshareRef (totalPages : Nat) (share : PAddr → Nat) (addr : PAddr) : Bool × (PAddr → Nat) :=
  if addr.toNat % pageSize ≠ 0 then (false, share)
  else if totalPages ≤ addr.toNat / pageSize then (false, share)
  else if share addr = 0 then (false, share)
  else (decide (share addr - 1 = 0), update share addr (share addr - 1))

/-- How an entry lets go of a shared frame. -/
def releaseShared (word : Word) (frames : Frames σ) (share : PAddr → Nat) : Frames σ × (PAddr → Nat) :=
  if has word pageSharedRef then
    let last := pmmUnshareRef frames.totalPages share (frameOf word)
    (if last.1 then frames.pmmFree (frameOf word) else frames, last.2)
  else (frames, share)

/-! Mapping. -/

section

variable (cpuHasNx : Bool) (flags : Word)

/-- The flags `vmm_map_frames` maps with. -/
def mapFramesFlags (exec owned : Bool) : Word :=
  let flags := if cpuHasNx then if exec then flags &&& ~~~pageNx else flags ||| pageNx else flags
  let flags := flags ||| pageUser
  if owned then flags ||| pageOwned else flags

theorem frameOf_mapFramesFlags (exec owned : Bool) (plain : frameOf flags = 0#64) :
    frameOf (mapFramesFlags cpuHasNx flags exec owned) = 0#64 := by
  cases cpuHasNx <;> cases exec <;> cases owned <;>
    simp [mapFramesFlags, plain, BitVec.and_comm flags]

theorem has_mapFramesFlags (exec owned : Bool) (flag : Word) [FlagBit flag] :
    has (mapFramesFlags cpuHasNx flags exec owned) flag =
      ((if cpuHasNx then if exec then has flags flag && !has pageNx flag else has flags flag || has pageNx flag
        else has flags flag) || has pageUser flag || owned && has pageOwned flag) := by
  cases cpuHasNx <;> cases exec <;> cases owned <;> simp [mapFramesFlags]

theorem mapFramesFlags_user (exec owned : Bool) : has (mapFramesFlags cpuHasNx flags exec owned) pageUser = true := by
  simp [has_mapFramesFlags]

end

section

variable (root : PAddr) (vaddr : Nat)

section

variable (paddr : PAddr)

def vmmMapFrames (pages : Nat) (flags : Word)
    (exec owned : Bool) (machine : Machine σ depth) : Bool × Machine σ depth :=
  machine.onTable root (vmmMapIn false vaddr paddr pages (mapFramesFlags machine.cpuHasNx flags exec owned))

def vmmMapUser (pages : Nat) (flags : Word) (machine : Machine σ depth) : Bool × Machine σ depth :=
  machine.onTable root (vmmMapIn false vaddr paddr pages (flags ||| pageUser ||| pageOwned))

def vmmMapUserExec (pages : Nat) (flags : Word) (machine : Machine σ depth) : Bool × Machine σ depth :=
  machine.onTable root (vmmMapIn false vaddr paddr pages
    ((if machine.cpuHasNx then flags &&& ~~~pageNx else flags) ||| pageUser ||| pageOwned))

def vmmMapUserLent (pages : Nat) (flags : Word) (machine : Machine σ depth) : Bool × Machine σ depth :=
  machine.onTable root (vmmMapIn false vaddr paddr pages (flags ||| pageUser))

end

def vmmUnmapKeep (pages : Nat) (machine : Machine σ depth) : Bool × Machine σ depth :=
  machine.onTable root (vmmUnmapIn false vaddr pages)

end

/-- The upper half of a new top-level table is the kernel's. -/
def vmmCreateAddressSpace (machine : Machine σ depth) : Option (PAddr × Machine σ depth) :=
  match machine.frames.pmmAlloc with
  | none => none
  | some (root, frames) =>
    some (root, { machine with
      frames
      spaces := update machine.spaces root (.node { frame := root, user := true }
        fun index => if 256 ≤ index.val then machine.kernelPml4 index else blank depth) })

/-! Permission changes. -/

abbrev Prot := BitVec 8

def vmProtRead : Prot := 1#8
def vmProtWrite : Prot := 2#8
def vmProtExec : Prot := 4#8

def Prot.has (prot flag : Prot) : Bool := prot &&& flag != 0#8

def protectWord (cpuHasNx : Bool) (prot : Prot) (word : Word) : Word :=
  let word := if prot.has vmProtWrite then word ||| pageWrite else word &&& ~~~pageWrite
  if cpuHasNx then if prot.has vmProtExec then word &&& ~~~pageNx else word ||| pageNx else word

/-- The tests on `prot` that `vmm_protect` and `vm_region_add` share. -/
def protAccepted (prot : Prot) : Bool :=
  !prot.has (~~~(vmProtRead ||| vmProtWrite ||| vmProtExec)) && !(prot.has vmProtWrite && !prot.has vmProtRead) &&
    !(prot.has vmProtWrite && prot.has vmProtExec)

variable (root : PAddr)

/-- The loop of `vmm_protect` leaves the pages before a missing one changed. -/
def vmmProtect (addr pages : Nat) (prot : Prot) (machine : Machine σ depth) : Bool × Machine σ depth :=
  if pages = 0 then (false, machine)
  else if addr % pageSize ≠ 0 then (false, machine)
  else if !protAccepted prot then (false, machine)
  else forUntil (fun index (now : Machine σ depth) =>
    let word := now.entry root (addr / pageSize + index)
    if !has word pagePresent then (false, now)
    else (true, now.writeEntry root (addr / pageSize + index) (protectWord now.cpuHasNx prot word)))
    (List.range pages) machine

variable (vaddr : Nat)

def vmmPin (machine : Machine σ depth) : Bool × Machine σ depth :=
  let word := machine.entry root (vaddr / pageSize)
  if !has word pagePresent then (false, machine)
  else (true, machine.writeEntry root (vaddr / pageSize) (word ||| pagePinned))

def vmmUserPageExec (machine : Machine σ depth) : Bool × Machine σ depth :=
  let word := machine.entry root (vaddr / pageSize)
  if !has word pagePresent then (false, machine)
  else (true, machine.writeEntry root (vaddr / pageSize) (word &&& ~~~pageNx))

/-! Resolving a write fault. -/

/-- The flags `vmm_cow_resolve` keeps. -/
def resolvedFlags (word : Word) : Word :=
  ((word &&& (pagePresent ||| pageUser ||| pagePwt ||| pagePcd ||| pageNx)) ||| pageWrite)
    &&& ~~~(pageCow ||| pageSharedRef) ||| pageOwned

/-- `vmm_cow_resolve` would make a private copy of a page with this entry. -/
def resolvable (word : Word) : Bool :=
  has word pagePresent && has word pageCow && !has word pagePinned && !has word pageWrite

def vmmCowResolve (machine : Machine σ depth) : Bool × Machine σ depth :=
  let word := machine.entry root (vaddr / pageSize)
  if !has word pagePresent then (false, machine)
  else if !has word pageCow then (false, machine)
  else if has word pagePinned then (false, machine)
  else if has word pageWrite then (false, machine)
  else
    match machine.frames.pmmAlloc with
    | none => (false, machine)
    | some (np, frames) =>
      let bytes := update machine.bytes np (machine.bytes (frameOf word))
      let released := releaseShared word frames machine.share
      (true, { machine with frames := released.1, bytes, share := released.2 }.writeEntry root
        (vaddr / pageSize) (resolvedFlags word ||| np))

end NyonOS.Paging
