import NyonOS.Fat.Cache

namespace NyonOS.Fat

open Data

/-! Files: the nodes, and the calls that read and change their contents. -/

def abiEio : Int := -5
def abiEisdir : Int := -21
def abiEinval : Int := -22
def abiEnospc : Int := -28

/-- The bytes of a C string, without the zero at its end. -/
abbrev CString := List Byte

/-- `&fat_ops` or `devfs_ops()`. -/
inductive Ops
  | fat
  | devfs
deriving DecidableEq, Repr

/-- `fs_node_t`. -/
structure Node where
  name : CString
  attr : Byte
  cluster : Nat
  size : Nat
  isDir : Bool
  isRoot : Bool
  dirCluster : Nat
  dirIndex : Nat
  ops : Ops
  devId : Nat
deriving DecidableEq

def fsAttrDirectory : Byte := 0x10#8
def fsScanMax : Nat := 4096

/-- `root_node`; the fields it does not set have the values of `unset`. -/
def rootNode (unset : Node) : Node :=
  { unset with
    name := [0x2F#8]
    attr := fsAttrDirectory
    cluster := 0
    size := 0
    isDir := true
    isRoot := true
    ops := .fat }

def dirNode (cluster : Nat) : Node where
  name := []
  attr := fsAttrDirectory
  cluster
  size := 0
  isDir := true
  isRoot := false
  dirCluster := 0
  dirIndex := 0
  ops := .fat
  devId := 0

def perSector : Nat := fsSectorSize / fsDirentSize

variable (vol : Volume)

/-- The sector of an entry and the place of the entry in it. -/
def direntLocate (dir : Node) (index : Nat) : Code (Option (Nat × Nat)) := do
  if !dir.isDir then return none
  if fsScanMax ≤ index then return none
  if dir.isRoot then
    if vol.rootEntryCount ≤ index then return none
    return some (u32 (vol.rootStart + index / perSector), index % perSector * fsDirentSize)
  if dir.cluster = 0 then return none
  let perCluster := perSector * vol.sectorsPerCluster
  let within := index % perCluster
  let some cluster ← clusterNth vol dir.cluster (index / perCluster) | return none
  return some (u32 (vol.clusterLba cluster + within / perSector), within % perSector * fsDirentSize)

section

variable (node : Node)

/-- The parent of a node, as its entry is looked for. -/
def parentNode : Node :=
  if node.dirCluster = 0 then rootNode (dirNode 0) else dirNode node.dirCluster

def fsNodeSyncEntry : Code Int := do
  if node.isRoot then return abiEio
  if node.dirCluster = 0 ∧ !vol.mounted then return abiEio
  let some (lba, off) ← direntLocate vol (parentNode node) node.dirIndex | return abiEio
  let some buf ← blockRead .directory lba 1 | return abiEio
  let written ← sectorWrite .directory lba
    (buf.store (off + 26) (Bytes.le16 node.cluster ++ Bytes.le32 node.size))
  return if written then 0 else abiEio

/-- The value of an `int` that a `uint32_t` is converted to. -/
def toInt (value : Nat) : Int := if value < 2 ^ 31 then value else (value : Int) - 2 ^ 32

/-- The first cluster of a file that is written to. -/
def takeCluster : Code (Except Int Node) := do
  if node.cluster ≠ 0 then return .ok node
  let some c ← fatAlloc vol | return .error abiEnospc
  if !(← fatSet vol c fsEocMin) then return .error abiEio
  return .ok { node with cluster := c }

/-- The loop that goes to the cluster of the offset. -/
def extendTo : (count cluster : Nat) → Code (Option Nat)
  | 0, cluster => return some cluster
  | count + 1, cluster => do
    let some next ← fatExtend vol cluster | return none
    extendTo count next

/-- One sector with new bytes from `off` on. -/
def fillSector (lba off : Nat) (chunk : List Byte) : Code (Option Bytes) := do
  if off = 0 ∧ chunk.length = fsSectorSize then return some (Bytes.store (fun _ => 0#8) 0 chunk)
  let some sbuf ← blockRead .data lba 1 | return none
  return some (sbuf.store off chunk)

/-- The loop of `fs_node_write_inner`; every round takes at least one byte. -/
def writeLoop : (fuel cluster within : Nat) → (src : List Byte) → Code (Except Int Unit)
  | 0, _, _, _ => return .ok ()
  | fuel + 1, cluster, within, src => do
    if src = [] then return .ok ()
    let lba := u32 (vol.clusterLba cluster + within / fsSectorSize)
    let off := within % fsSectorSize
    let chunk := min (fsSectorSize - off) src.length
    let some sbuf ← fillSector lba off (src.take chunk) | return .error abiEio
    if !(← sectorWrite .data lba sbuf) then return .error abiEio
    if src.drop chunk ≠ [] ∧ within + chunk = vol.clusterSize then
      let some next ← fatExtend vol cluster | return .error abiEnospc
      writeLoop fuel next 0 (src.drop chunk)
    else writeLoop fuel cluster (within + chunk) (src.drop chunk)

/-- `fs_node_write_inner` after the gap is filled. -/
def writeBody (offset : Nat) (buf : List Byte) : Code (Int × Node) := do
  match ← takeCluster vol node with
  | .error code => return (code, node)
  | .ok node =>
    match ← extendTo vol (offset / vol.clusterSize) node.cluster with
    | none => return (abiEnospc, node)
    | some cluster =>
      match ← writeLoop vol buf.length cluster (offset % vol.clusterSize) buf with
      | .error code => return (code, node)
      | .ok () =>
        let stop := u32 (offset + buf.length)
        if node.size < stop then
          let node := { node with size := stop }
          let r ← fsNodeSyncEntry vol node
          return (if r ≠ 0 then r else toInt buf.length, node)
        else return (toInt buf.length, node)

end

/-- The loop that fills a gap with zeros; it ends, with 0 or the error of a write. -/
def fillGap (write : Node → Nat → List Byte → Code (Int × Node)) :
    (fuel : Nat) → Node → (pos gap : Nat) → Code (Int × Node)
  | 0, node, _, _ => return (0, node)
  | fuel + 1, node, pos, gap => do
    if gap = 0 then return (0, node)
    let chunk := min gap fsSectorSize
    let (r, node) ← write node pos (List.replicate chunk 0#8)
    if r < 0 then return (r, node)
    fillGap write fuel node (u32 (pos + chunk)) (gap - chunk)

/-- `fs_node_write_inner`. It calls itself to fill a gap, at the end of the file, where
there is none: `depth` is 2 for the whole. -/
def writeInner : (depth : Nat) → Node → (offset : Nat) → List Byte → Code (Int × Node)
  | 0, node, _, _ => return (abiEinval, node)
  | depth + 1, node, offset, buf => do
    if !vol.mounted then return (abiEinval, node)
    if node.isDir then return (abiEisdir, node)
    if buf = [] then return (0, node)
    if node.size < offset then
      let (r, node) ← fillGap (writeInner depth) (offset - node.size) node node.size (offset - node.size)
      if r < 0 then return (r, node)
      writeBody vol node offset buf
    else writeBody vol node offset buf

def fsNodeWriteInner : Node → (offset : Nat) → List Byte → Code (Int × Node) := writeInner vol 2

/-- The loop of a resize that passes the clusters to keep: the cluster after them, 0 when
the chain ends before, and the last of them. -/
def passKept : (keep cluster prev : Nat) → Code (Option (Nat × Nat))
  | 0, cluster, prev => return some (cluster, prev)
  | keep + 1, cluster, prev => do
    if cluster = 0 then return some (cluster, prev)
    let some next ← fatEntry vol cluster | return none
    if fsEocMin ≤ next then return some (0, cluster)
    passKept keep next cluster

/-- The part of a resize that cuts the chain off. -/
def cutChain (node : Node) (cluster prev : Nat) : Code (Option Node) := do
  if cluster = 0 then return some node
  if !(← fatFreeChain vol cluster) then return none
  if prev = 0 then return some { node with cluster := 0 }
  if !(← fatSet vol prev fsEocMin) then return none
  return some node

/-- The loop of a resize that appends zeros. -/
def growLoop : (fuel : Nat) → Node → (pos size : Nat) → Code (Int × Node)
  | 0, node, _, _ => return (0, node)
  | fuel + 1, node, pos, size => do
    if size ≤ pos then return (0, node)
    let chunk := min (size - pos) fsSectorSize
    let (r, node) ← fsNodeWriteInner vol node pos (List.replicate chunk 0#8)
    if r < 0 then return (r, node)
    growLoop fuel node (u32 (pos + chunk)) size

def fsNodeResizeInner (node : Node) (size : Nat) : Code (Int × Node) := do
  if !vol.mounted then return (abiEinval, node)
  if node.isDir then return (abiEisdir, node)
  if size = node.size then return (0, node)
  if size < node.size then
    let keep := u32 (size + vol.clusterSize - 1) / vol.clusterSize
    let some (cluster, prev) ← passKept vol keep node.cluster 0 | return (abiEio, node)
    let some node ← cutChain vol node cluster prev | return (abiEio, node)
    let node := { node with size }
    let r ← fsNodeSyncEntry vol node
    return (r, node)
  growLoop vol (size - node.size) node node.size size

def fsNodeTruncateInner (node : Node) : Code (Int × Node) := do
  if !vol.mounted then return (abiEinval, node)
  if node.isDir then return (abiEisdir, node)
  if node.cluster ≠ 0 then
    if !(← fatFreeChain vol node.cluster) then return (abiEio, node)
    let node := { node with cluster := 0, size := 0 }
    let r ← fsNodeSyncEntry vol node
    return (r, node)
  let node := { node with cluster := 0, size := 0 }
  let r ← fsNodeSyncEntry vol node
  return (r, node)

/-- The test for reading whole sectors into the buffer at `out`. -/
def ReadsDirect (within out len : Nat) : Prop := within % fsSectorSize = 0 ∧ fsSectorSize ≤ len ∧ out % 2 = 0

instance decidableReadsDirect (within out len : Nat) : Decidable (ReadsDirect within out len) :=
  inferInstanceAs (Decidable (_ ∧ _))

/-- How many sectors a round of `fat_read` asks for, and how many bytes it takes from them. -/
def readSectors (within out len : Nat) : Nat :=
  if ReadsDirect within out len then
    min (min (len / fsSectorSize) ((vol.clusterSize - within) / fsSectorSize)) 256
  else 1

def readChunk (within out len : Nat) : Nat :=
  if ReadsDirect within out len then readSectors vol within out len * fsSectorSize
  else min (fsSectorSize - within % fsSectorSize) len

/-- The loop of `fat_read`, with the bytes it puts at the address `out`; every round puts at
least one. -/
def readLoop : (fuel cluster within out len : Nat) → Code (Option (List Byte))
  | 0, _, _, _, _ => return some []
  | fuel + 1, cluster, within, out, len => do
    if len = 0 then return some []
    let lba := u32 (vol.clusterLba cluster + within / fsSectorSize)
    let chunk := readChunk vol within out len
    let some buf ← blockRead .data lba (readSectors vol within out len) | return none
    let here := buf.load (within % fsSectorSize) chunk
    if len - chunk ≠ 0 ∧ within + chunk = vol.clusterSize then
      let some nx ← fatNext vol cluster | return none
      let some rest ← readLoop fuel nx 0 (out + chunk) (len - chunk) | return none
      return some (here ++ rest)
    else
      let some rest ← readLoop fuel cluster (within + chunk) (out + chunk) (len - chunk) | return none
      return some (here ++ rest)

/-- The key of a node that lies at an address. -/
def Node.key (node : Node) (address : Nat) : NodeKey :=
  ⟨address, node.dirCluster, node.dirIndex, node.cluster, node.size⟩

/-- `fat_read` before its loop: the result, or the cluster that the loop starts with. -/
def fatReadStart (fs : Fs) (cpu : Cpu) (address : Nat) (node : Node) (offset len : Nat) :
    Except (Option (List Byte)) Nat × Fs :=
  if !fs.vol.mounted then (.error none, fs)
  else if node.isDir then (.error none, fs)
  else if len = 0 then (.error (some []), fs)
  else if node.size ≤ offset then (.error none, fs)
  else if !fs.vol.clusterOk node.cluster then (.error none, fs)
  else
    match fs.fatReadCluster cpu (node.key address) (offset / fs.vol.clusterSize) with
    | (none, fs) => (.error none, fs)
    | (some cluster, fs) => (.ok cluster, fs)

/-- The loop of `fat_read` as it starts. -/
def fatReadLoop (node : Node) (offset out len cluster : Nat) : Code (Option (List Byte)) :=
  let len := min len (node.size - offset)
  readLoop vol len cluster (offset % vol.clusterSize) out len

/-- `fat_read`: what it puts into the buffer at `out` when it succeeds. -/
def fatRead (fs : Fs) (cpu : Cpu) (address : Nat) (node : Node) (offset out len : Nat) : Option (List Byte) × Fs :=
  match fatReadStart fs cpu address node offset len with
  | (.error result, fs) => (result, fs)
  | (.ok cluster, fs) => (fatReadLoop fs.vol node offset out len cluster).run Fs.answer fs

/-- The accesses to file data that `fat_read` makes. -/
def fatReadTrace (fs : Fs) (cpu : Cpu) (address : Nat) (node : Node) (offset out len : Nat) : List Access :=
  match fatReadStart fs cpu address node offset len with
  | (.error _, _) => []
  | (.ok cluster, fs) => (fatReadLoop fs.vol node offset out len cluster).trace Fs.answer fs

end NyonOS.Fat
