import Mathlib

namespace NyonOS.Elf

/-! The headers of an ELF file and what `elf.c` makes sure of before it loads one. The
numbers are read from the file without sign, and no sum below exceeds 64 bits. -/

structure File where
  size : Nat
  data : Nat → UInt8

/-- A little-endian number of so many bytes. -/
def File.number (file : File) (at_ : Nat) : Nat → Nat
  | 0 => 0
  | count + 1 => file.number at_ count + (file.data (at_ + count)).toNat * 256 ^ count

/-- What the loader returns and says when it turns a file down. -/
structure Failure where
  code : Int
  text : String

def eBadMagic : Int := -1
def eBadClass : Int := -2
def eBadData : Int := -3
def eBadMachine : Int := -4
def eBadVers : Int := -5
def eBadType : Int := -6
def ePhdrSize : Int := -7
def ePhNum : Int := -8
def eOffset : Int := -9
def eMemSz : Int := -10
def eAlign : Int := -11
def eAddr : Int := -12
def eOverlap : Int := -13
def eWx : Int := -14
def eEntry : Int := -15
def eTooLarge : Int := -16
def eInterp : Int := -17

def elfErrorText (code : Int) : String :=
  if code = 0 then "ok"
  else if code = eBadMagic then "not an elf file"
  else if code = eBadClass then "not 64-bit"
  else if code = eBadData then "not little-endian"
  else if code = eBadVers then "bad elf version"
  else if code = eBadMachine then "not for x86-64"
  else if code = eBadType then "bad elf type"
  else if code = ePhdrSize then "bad header size"
  else if code = ePhNum then "bad program header count"
  else if code = eOffset then "program headers outside the file"
  else if code = eMemSz then "segment bigger in file than in memory"
  else if code = eAlign then "segment offset and address disagree on alignment"
  else if code = eAddr then "segment address outside the user range"
  else if code = eOverlap then "segments overlap"
  else if code = eWx then "segment is writable and executable"
  else if code = eEntry then "entry point is not in an executable segment"
  else if code = eTooLarge then "image too large"
  else if code = eInterp then "dynamic binaries are not supported yet"
  else "bad elf"

/-- A failure with the text of its number. -/
def Failure.of (code : Int) : Failure := ⟨code, elfErrorText code⟩

def userMax : Nat := 0x0000800000000000
def vmLoadBase : Nat := 0x0000000040000000
def vmExecMin : Nat := 0x0000000000010000
def vmLoadSpan : Nat := 0x0000000100000000
def vmLoadLimit : Nat := 0x0000000100000000
def elfMaxImage : Nat := 64 <<< 20
def elfMaxPhnum : Nat := 64
def ehdrSize : Nat := 64
def phdrSize : Nat := 56

structure Header where
  phoff : Nat
  phentsize : Nat
  phnum : Nat
  isPie : Bool
  entry : Nat

/-- On the first bytes of the file. -/
def elfValidateHdr (file : File) : Except Int Header :=
  let type := file.number 16 2
  let machine := file.number 18 2
  let phoff := file.number 32 8
  let ehsize := file.number 52 2
  let phentsize := file.number 54 2
  let phnum := file.number 56 2
  if file.data 0 ≠ 0x7F ∨ file.data 1 ≠ 0x45 ∨ file.data 2 ≠ 0x4C ∨ file.data 3 ≠ 0x46 then .error eBadMagic
  else if file.data 4 ≠ 2 then .error eBadClass
  else if file.data 5 ≠ 1 then .error eBadData
  else if file.data 6 ≠ 1 then .error eBadVers
  else if machine ≠ 62 then .error eBadMachine
  else if type ≠ 2 ∧ type ≠ 3 then .error eBadType
  else if ehsize < ehdrSize then .error ePhdrSize
  else if phentsize < phdrSize then .error ePhdrSize
  else if phnum = 0 then .error ePhNum
  else if elfMaxPhnum < phnum then .error ePhNum
  else if file.size < phoff ∨ file.size - phoff < phnum * phentsize then .error eOffset
  else .ok ⟨phoff, phentsize, phnum, type = 3, file.number 24 8⟩

structure Phdr where
  type : Nat
  flags : Nat
  offset : Nat
  vaddr : Nat
  paddr : Nat
  filesz : Nat
  memsz : Nat
  align : Nat

def phdrRead (file : File) (at_ : Nat) : Phdr where
  type := file.number at_ 4
  flags := file.number (at_ + 4) 4
  offset := file.number (at_ + 8) 8
  vaddr := file.number (at_ + 16) 8
  paddr := file.number (at_ + 24) 8
  filesz := file.number (at_ + 32) 8
  memsz := file.number (at_ + 40) 8
  align := file.number (at_ + 48) 8

namespace Phdr

def executable (ph : Phdr) : Bool := ph.flags.testBit 0
def writable (ph : Phdr) : Bool := ph.flags.testBit 1
def readable (ph : Phdr) : Bool := ph.flags.testBit 2

/-- The segments that the loops of the loader do not pass over. -/
def loads (ph : Phdr) : Bool := ph.type == 1 && ph.memsz != 0

end Phdr

/-- The checks of one program header, in the order of the source. -/
def phdrError (fileSize : Nat) (isPie : Bool) (ph : Phdr) : Option Int :=
  if ph.type = 3 then some eInterp
  else if ph.type ≠ 1 then none
  else if ph.memsz < ph.filesz then some eMemSz
  else if ph.memsz = 0 then none
  else if ph.filesz ≠ 0 ∧ fileSize < ph.offset then some eOffset
  else if ph.filesz ≠ 0 ∧ fileSize - ph.offset < ph.filesz then some eOffset
  else if 2 ^ 64 - 1 - ph.memsz < ph.vaddr then some eAddr
  else if userMax < ph.vaddr + ph.memsz then some eAddr
  else if isPie ∧ userMax < ph.vaddr + vmLoadSpan + ph.memsz then some eAddr
  else if ph.align ≠ 0 ∧ 4096 % ph.align = 0 ∧ ph.vaddr &&& (ph.align - 1) ≠ ph.offset &&& (ph.align - 1) then some eAlign
  else if ph.writable ∧ ph.executable then some eWx
  else if ph.writable ∧ !ph.readable then some eWx
  else none

/-- Zero, or the number of the failure. -/
def elfValidatePhdrs (ph : List Phdr) (fileSize : Nat) (isPie : Bool) (entry : Nat) : Int :=
  match ph.findSome? (phdrError fileSize isPie) with
  | some code => code
  | none =>
    let total := ((ph.filter Phdr.loads).map fun ph => (ph.memsz + 4095) / 4096).sum
    if elfMaxImage < total * 4096 then eTooLarge
    else if (ph.filter Phdr.loads).any fun ph => ph.executable && ph.vaddr ≤ entry && entry < ph.vaddr + ph.memsz then 0
    else eEntry

/-- The second check of the addresses, in `elf_load_core`. -/
def rangeError (isPie : Bool) (ph : Phdr) : Option Failure :=
  if isPie then
    if vmLoadSpan ≤ ph.vaddr ∨ vmLoadSpan < ph.vaddr + ph.memsz then some ⟨eAddr, "pie segment too big"⟩ else none
  else if ph.vaddr < vmExecMin then some (.of eAddr)
  else if vmLoadLimit < ph.vaddr + ph.memsz then some (.of eAddr)
  else none

/-- What the loader gets from elsewhere: whether a read of the file succeeds, whether there is
kernel memory for its two arrays and for the `struct vmspace`, and random numbers. -/
structure Oracle where
  reads : (offset length : Nat) → Bool
  phMemory : Bool
  vsMemory : Bool
  protMemory : Bool
  random : Nat → Nat

/-- `elf_load_core` up to the choice of the load address. -/
def elfHeaders (file : File) (oracle : Oracle) : Except Failure (Header × List Phdr) :=
  if file.size < ehdrSize then .error (.of eBadMagic)
  else if !oracle.reads 0 ehdrSize then .error ⟨eOffset, "short read"⟩
  else
    match elfValidateHdr file with
    | .error code => .error (.of code)
    | .ok header =>
      if !oracle.phMemory then .error ⟨eTooLarge, "out of memory"⟩
      else if !(List.range header.phnum).all fun i => oracle.reads (header.phoff + i * header.phentsize) phdrSize then
        .error ⟨eOffset, "program header read failed"⟩
      else
        let ph := (List.range header.phnum).map fun i => phdrRead file (header.phoff + i * header.phentsize)
        let code := elfValidatePhdrs ph file.size header.isPie header.entry
        if code ≠ 0 then .error (.of code)
        else
          match (ph.filter Phdr.loads).findSome? (rangeError header.isPie) with
          | some failure => .error failure
          | none => .ok (header, ph)

end NyonOS.Elf
