import NyonOS.Elf.Header
import NyonOS.Paging.Anon
import NyonOS.Paging.Destroy
import NyonOS.Paging.Mprotect

namespace NyonOS.Elf

open Data
open Paging Function

/-! `elf_load_core`. Addresses of pages are page numbers, and the array of permissions is a
function of the page number. -/

variable {σ : Type} [FrameAllocator σ] {depth : Nat}

abbrev protRw : Prot := vmProtRead ||| vmProtWrite

/-! The regions of an address space. -/

def vmMaxRegions : Nat := 64

def vmBackingAnon : BitVec 8 := 0
def vmBackingNone : BitVec 8 := 1

def vmRegionAdd (regions : List VmRegion) (start end_ : Nat) (prot : Prot) (backing : BitVec 8) : Option (List VmRegion) :=
  if end_ ≤ start then none
  else if start % pageSize ≠ 0 ∨ end_ % pageSize ≠ 0 then none
  else if !protAccepted prot then none
  else if regions.any fun r => start < r.end_ && r.start < end_ then none
  else if vmMaxRegions ≤ regions.length then none
  else some (regions ++ [⟨start, end_, prot, prot, backing, true⟩])

/-- Each region is passed at most once, so that the loop needs no more rounds than there are
regions. -/
def vmFindFree (regions : List VmRegion) (hi bytes : Nat) : (rounds : Nat) → (cur : Nat) → Option Nat
  | 0, _ => none
  | rounds + 1, cur =>
    if hi < cur + bytes then none
    else
      match regions.find? fun r => cur < r.end_ && r.start < cur + bytes with
      | some r => vmFindFree regions hi bytes rounds r.end_
      | none => some cur

/-! The segments. -/

def segProt (flags : Nat) : Prot :=
  let p := (if flags.testBit 2 then vmProtRead else 0#8) ||| (if flags.testBit 1 then vmProtWrite else 0#8) |||
    if flags.testBit 0 then vmProtExec else 0#8
  if p = 0 then vmProtRead else p

section

variable (bias : Nat)

/-- The first page of a segment, and the first after it. -/
def segFirst (ph : Phdr) : Nat := (ph.vaddr + bias) / pageSize

def segEnd (ph : Phdr) : Nat := (ph.vaddr + bias + ph.memsz + (pageSize - 1)) / pageSize

def segPages (ph : Phdr) : List Nat := List.range' (segFirst bias ph) (segEnd bias ph - segFirst bias ph)

/-- Adds the permissions of a segment to those of its pages, unless one gets to be writable
and executable. -/
def mergeProt (ph : Phdr) : (Nat → Prot) → Bool × (Nat → Prot) :=
  forUntil (fun page prot =>
    let merged := prot page ||| segProt ph.flags
    if merged.has vmProtWrite && merged.has vmProtExec then (false, prot) else (true, update prot page merged))
    (segPages bias ph)

end

/-- Where the image lies and the permissions of its pages. -/
structure Layout where
  lo : Nat
  npages : Nat
  prot : Nat → Prot

def elfLayout (segs : List Phdr) (bias : Nat) (protMemory : Bool) : Except Failure Layout :=
  if segs.any fun ph => userMax - bias - ph.memsz < ph.vaddr then .error (.of eAddr)
  else
    match segs.map (segFirst bias) with
    | [] => .error ⟨eAddr, "no loadable segment"⟩
    | first :: others =>
      let lo := others.foldl min first
      let hi := (segs.map (segEnd bias)).foldl max 0
      if hi - lo = 0 ∨ elfMaxImage / pageSize < hi - lo then .error ⟨eTooLarge, "image too large"⟩
      else if !protMemory then .error ⟨eTooLarge, "out of memory"⟩
      else
        let merged := forUntil (mergeProt bias) segs fun _ => 0
        if merged.1 then .ok ⟨lo, hi - lo, merged.2⟩ else .error (.of eWx)

variable (file : File)

/-- The bytes that `fs_node_read` puts into a page. -/
def readInto (page : Page) (at_ offset want : Nat) : Page := fun o =>
  if at_ ≤ o.val ∧ o.val < at_ + want then file.data (offset + (o.val - at_)) else page o

/-- What is to be read for a page of a segment: the place in the page, the offset in the
file and the number of bytes. -/
structure ReadPlan where
  at_ : Nat
  offset : Nat
  want : Nat

def readPlan (bias : Nat) (ph : Phdr) (page : Nat) : ReadPlan :=
  let va := page * pageSize
  let fstart := ph.vaddr + bias
  let fend := (fstart + ph.filesz + (pageSize - 1)) / pageSize * pageSize
  let vend := segEnd bias ph * pageSize
  let readFrom := if fstart < va then va else fstart
  let readTo := if fend < vend then fend else vend
  let skip := readFrom - fstart
  let room := pageSize - (readFrom - va)
  if readFrom < readTo then ⟨readFrom - va, ph.offset + skip, min ((ph.filesz - skip) % 2 ^ 32) room⟩ else ⟨0, 0, 0⟩

/-- Why the loop over the segments has stopped. -/
def outOfMemory : Failure := ⟨eTooLarge, "out of memory"⟩
def readFailed : Failure := ⟨eOffset, "segment read failed"⟩
def mappingFailed : Failure := ⟨eTooLarge, "mapping failed"⟩

section

variable (oracle : Oracle)

section

variable (root : PAddr)

/-- One page of a segment. A page that an earlier segment has put there and that cannot be
written is left as it is. -/
def loadPage (bias : Nat) (prot : Nat → Prot) (ph : Phdr) (page : Nat)
    (now : Option Failure × Machine σ depth) : Bool × Option Failure × Machine σ depth :=
  let machine := now.2
  if prot page = 0 then (true, now)
  else
    let existing := machine.entry root page
    let plan := readPlan bias ph page
    let fails := plan.want ≠ 0 ∧ !oracle.reads plan.offset plan.want
    if has existing pagePresent then
      if !has existing pageWrite then (true, now)
      else if fails then (false, some readFailed, machine)
      else
        (true, none, { machine with
          bytes := update machine.bytes (frameOf existing)
            (readInto file (machine.bytes (frameOf existing)) plan.at_ plan.offset plan.want) })
    else
      match machine.frames.pmmAlloc with
      | none => (false, some outOfMemory, machine)
      | some (phys, frames) =>
        if fails then
          (false, some readFailed, { machine with
            frames := frames.pmmFree phys
            bytes := update machine.bytes phys fun _ => 0 })
        else
          let filled := readInto file (fun _ => 0) plan.at_ plan.offset plan.want
          let mapped := vmCommit root (page * pageSize) phys 1 (prot page) true
            { machine with frames, bytes := update machine.bytes phys filled }
          if mapped.1 then (true, none, mapped.2)
          else (false, some mappingFailed, { mapped.2 with frames := mapped.2.frames.pmmFree phys })

def loadSegment (bias : Nat) (prot : Nat → Prot) (ph : Phdr) :
    Option Failure × Machine σ depth → Bool × Option Failure × Machine σ depth :=
  forUntil (loadPage file oracle root bias prot ph) (segPages bias ph)

def loadSegments (bias : Nat) (prot : Nat → Prot) (segs : List Phdr)
    (machine : Machine σ depth) : Option Failure × Machine σ depth :=
  (forUntil (loadSegment file oracle root bias prot) segs (none, machine)).2

/-! The regions of the image: runs of pages with the same permissions. -/

structure RunState where
  run : Option (Nat × Prot)
  regions : List VmRegion

def closeRun (layout : Layout) (p : Prot) (i : Nat) (now : RunState) : Option RunState :=
  match now.run with
  | none => some now
  | some (run, runProt) =>
    if p ≠ runProt then
      (vmRegionAdd now.regions ((layout.lo + run) * pageSize) ((layout.lo + i) * pageSize) runProt vmBackingAnon).map
        fun regions => ⟨none, regions⟩
    else some now

def regionStep (layout : Layout) (i : Nat) (now : RunState) : Bool × RunState :=
  let p := if i < layout.npages then layout.prot (layout.lo + i) else 0
  match closeRun layout p i now with
  | none => (false, now)
  | some closed =>
    match closed.run with
    | some _ => (true, closed)
    | none => (true, if p ≠ 0 then { closed with run := some (i, p) } else closed)

def addRegions (layout : Layout) : Option (List VmRegion) :=
  let done := forUntil (regionStep layout) (List.range (layout.npages + 1)) ⟨none, []⟩
  if done.1 then some done.2.regions else none

/-! The stack. -/

def vmStackPages : Nat := 4
def vmStackGuardPages : Nat := 1024
def stackTop : Nat := 0x0000000040000000
def stackBase : Nat := stackTop - vmStackPages * pageSize
def stackBottom : Nat := stackBase - vmStackGuardPages * pageSize

def vmSetupStack (regions : List VmRegion) (machine : Machine σ depth) : Option (List VmRegion) × Machine σ depth :=
  match vmRegionAdd regions stackBottom stackTop protRw vmBackingAnon with
  | none => (none, machine)
  | some regions =>
    let mapped := vmMapAnonZeroed root stackBase vmStackPages protRw true machine
    (if mapped.1 then some regions else none, mapped.2)

/-- The page of physical memory that an address lies in. -/
def frameAt (addr : PAddr) : PAddr := BitVec.ofNat 64 (addr.toNat / 4096 * 4096)

theorem offset_lt (addr : PAddr) : addr.toNat % 4096 < 4096 := Nat.mod_lt _ (by decide)

/-- A byte of physical memory, through the direct map. -/
def poke (machine : Machine σ depth) (addr : PAddr) (byte : UInt8) : Machine σ depth :=
  let frame := frameAt addr
  let offset : Fin 4096 := ⟨addr.toNat % 4096, offset_lt addr⟩
  { machine with bytes := update machine.bytes frame (update (machine.bytes frame) offset byte) }

def pokes (machine : Machine σ depth) (addr : PAddr) : List UInt8 → Machine σ depth
  | [] => machine
  | byte :: rest => pokes (poke machine addr byte) (addr + 1) rest

/-- The eight bytes of a word. -/
def wordBytes (word : Nat) : List UInt8 := (List.range 8).map fun k => UInt8.ofNat (word / 256 ^ k)

/-- The strings of `vm_stack_push_strings` are put below each other, starting from the end of
the topmost page of the stack. Positions count from three pages below that page; nothing
makes sure that these are the pages of the stack below it. -/
structure Pushing (σ : Type) (depth : Nat) where
  top : Nat
  pointers : List Nat
  machine : Machine σ depth

def stackRoom : Nat := stackTop - stackBase

/-- The address of a position in the direct map, and the one that the program sees. -/
def stackPhys (page : PAddr) (pos : Nat) : PAddr := page - BitVec.ofNat 64 (stackRoom - pageSize) + BitVec.ofNat 64 pos

def stackVirt (pos : Nat) : Nat := stackBase + pos

def pushString (page : PAddr) (bytes : List UInt8) (now : Pushing σ depth) : Bool × Pushing σ depth :=
  if now.top < bytes.length + 16 then (false, now)
  else
    let dst := now.top - bytes.length - 1
    (true, ⟨dst / 8 * 8, now.pointers ++ [stackVirt dst], pokes now.machine (stackPhys page dst) (bytes ++ [0])⟩)

/-- The page that `stack_page` looks for. -/
def topPage : Nat := (stackTop - 1) / pageSize

/-- The number of words on the stack, made even. -/
def stackWords (argc envc auxc : Nat) : Nat :=
  let count := 1 + argc + 1 + envc + 1 + auxc * 2 + 2
  if count % 2 = 1 then count + 1 else count

structure Pushed (σ : Type) (depth : Nat) where
  sp : Nat
  argc : Nat
  argv : Nat
  auxv : Nat
  machine : Machine σ depth

def vmStackPushStrings (argv envp : List (List UInt8)) (aux : List (Nat × Nat)) (machine : Machine σ depth) :
    Option (Pushed σ depth) :=
  if 128 < argv.length ∨ 128 < envp.length ∨ 128 < aux.length then none
  else
    let entry := machine.entry root topPage
    if !has entry pagePresent then none
    else
      let page := frameOf entry
      let args := forUntil (pushString page) argv ⟨stackRoom, [], machine⟩
      if !args.1 then none
      else
        let envs := forUntil (pushString page) envp { args.2 with pointers := [] }
        if !envs.1 then none
        else
          let top := envs.2.top / 16 * 16
          let words := stackWords argv.length envp.length aux.length
          if top < words * 8 + 16 then none
          else
            let sp := top - words * 8
            let values := [argv.length] ++ args.2.pointers ++ [0] ++ envs.2.pointers ++ [0] ++
              aux.flatMap (fun pair => [pair.1, pair.2]) ++ [0, 0]
            some ⟨stackVirt sp, argv.length, stackVirt sp + 8, stackVirt sp + (1 + argv.length + 1 + envp.length + 1) * 8,
              pokes envs.2.machine (stackPhys page sp) (values.flatMap wordBytes)⟩

/-! The auxiliary vector and its random bytes. -/

def vmAuxvLo : Nat := 0x0000000080000000
def vmAuxvHi : Nat := 0x0000000080100000

structure RandomPage (σ : Type) (depth : Nat) where
  addr : Option Nat
  regions : List VmRegion
  machine : Machine σ depth

/-- A region that has been added stays, even if there is no page for it. -/
def mapRandom (regions : List VmRegion) (machine : Machine σ depth) : RandomPage σ depth :=
  match vmFindFree regions vmAuxvHi pageSize (regions.length + 1) vmAuxvLo with
  | none => ⟨none, regions, machine⟩
  | some rbase =>
    match vmRegionAdd regions rbase (rbase + pageSize) protRw vmBackingAnon with
    | none => ⟨none, regions, machine⟩
    | some added =>
      let mapped := vmMapAnonZeroed root rbase 1 protRw true machine
      if mapped.1 then
        ⟨some rbase, added, pokes mapped.2 (frameOf (mapped.2.entry root (rbase / pageSize)))
          (wordBytes (oracle.random 1) ++ wordBytes (oracle.random 2))⟩
      else ⟨none, added, mapped.2⟩

def auxVector (header : Header) (segs : List Phdr) (bias : Nat) (random : Option Nat) : List (Nat × Nat) :=
  let low := header.phoff
  let high := header.phoff + header.phnum * header.phentsize
  ((segs.find? fun ph => ph.offset ≤ low && high ≤ ph.offset + ph.filesz).map
      fun ph => (3, ph.vaddr + bias + (low - ph.offset))).toList ++
    [(4, header.phentsize), (5, header.phnum), (6, pageSize), (9, header.entry + bias)] ++
    (random.map fun addr => (25, addr)).toList

/-! Pages that the loader is given. -/

structure Shared where
  phys : PAddr
  virt : Nat
  pages : Nat

/-- `shared` is tested before it is mapped. -/
def Shared.used (shared : Option Shared) : Option Shared := shared.filter fun s => s.phys != 0 && s.pages != 0

def mapShared (shared : Option Shared) (regions : List VmRegion) (machine : Machine σ depth) :
    Option (List VmRegion) × Machine σ depth :=
  match Shared.used shared with
  | none => (some regions, machine)
  | some s =>
    match vmRegionAdd regions s.virt ((s.virt + s.pages * pageSize) % 2 ^ 64) protRw vmBackingNone with
    | none => (none, machine)
    | some regions =>
      let mapped := vmCommit root s.virt s.phys s.pages protRw false machine
      if !mapped.1 then (none, mapped.2)
      else
        let pinned := vmmPin root s.virt mapped.2
        (if pinned.1 then some regions else none, pinned.2)

end

structure ElfImage where
  vs : VmSpace
  entry : Nat
  isPie : Bool
  stackTop : Nat
  argc : Nat
  argv : Nat
  auxv : Nat

/-- The address space is there. Whatever fails destroys it. -/
def elfFill (header : Header) (segs : List Phdr) (bias : Nat) (argv envp : List (List UInt8))
    (shared : Option Shared) (root : PAddr) (machine : Machine σ depth) : Except Failure ElfImage × Machine σ depth :=
  match elfLayout segs bias oracle.protMemory with
  | .error failure => (.error failure, vmmDestroyAddressSpace root machine)
  | .ok layout =>
    let loaded := loadSegments file oracle root bias layout.prot segs machine
    match addRegions layout with
    | none => (.error ⟨eTooLarge, "too many regions"⟩, vmmDestroyAddressSpace root loaded.2)
    | some regions =>
      match vmSetupStack root regions loaded.2 with
      | (none, machine) => (.error ⟨eTooLarge, "no stack"⟩, vmmDestroyAddressSpace root machine)
      | (some regions, machine) =>
        let random := mapRandom oracle root regions machine
        match vmStackPushStrings root argv envp (auxVector header segs bias random.addr) random.machine with
        | none => (.error ⟨eTooLarge, "cannot build the initial stack"⟩, vmmDestroyAddressSpace root random.machine)
        | some pushed =>
          match mapShared root shared random.regions pushed.machine with
          | (none, machine) => (.error ⟨eTooLarge, "cannot map the shared page"⟩, vmmDestroyAddressSpace root machine)
          | (some regions, machine) =>
            match loaded.1 with
            | some failure => (.error failure, vmmDestroyAddressSpace root machine)
            | none =>
              (.ok ⟨⟨root, regions⟩, header.entry + bias, header.isPie, pushed.sp, pushed.argc, pushed.argv, pushed.auxv⟩,
                machine)

end

def loadBias (header : Header) (oracle : Oracle) : Nat :=
  if header.isPie then vmLoadBase + oracle.random 0 % 0x400 * pageSize else 0

def elfLoadCore (oracle : Oracle) (argv envp : List (List UInt8)) (shared : Option Shared) (machine : Machine σ depth) :
    Except Failure ElfImage × Machine σ depth :=
  match elfHeaders file oracle with
  | .error failure => (.error failure, machine)
  | .ok (header, ph) =>
    let bias := loadBias header oracle
    if header.isPie ∧ userMax - vmLoadSpan ≤ bias then (.error (.of eAddr), machine)
    else if !oracle.vsMemory then (.error ⟨eTooLarge, "out of memory"⟩, machine)
    else
      match vmmCreateAddressSpace machine with
      | none => (.error ⟨eTooLarge, "out of memory"⟩, machine)
      | some (root, machine) => elfFill file oracle header (ph.filter Phdr.loads) bias argv envp shared root machine

end NyonOS.Elf
