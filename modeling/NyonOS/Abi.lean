import Mathlib

namespace NyonOS.Abi

/-! The numbers of `abi.h`, and the size of the task table. -/

def eintr : Int := -4
def eio : Int := -5
def ebadf : Int := -9
def eagain : Int := -11
def enomem : Int := -12
def efault : Int := -14
def eacces : Int := -13
def einval : Int := -22
def emfile : Int := -24
def enospc : Int := -28
def espipe : Int := -29
def epipe : Int := -32
def enametoolong : Int := -36
def etimedout : Int := -110
def ebadtype : Int := -91

def pollin : BitVec 16 := 0x0001
def pollout : BitVec 16 := 0x0004
def pollerr : BitVec 16 := 0x0008

def pipeCapacity : Nat := 65536
def pipeBuf : Nat := 4096

def taskMax : Nat := 256

end NyonOS.Abi
