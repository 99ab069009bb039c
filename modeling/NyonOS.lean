import NyonOS.Block.Partition
import NyonOS.Crypto.Chacha
import NyonOS.Elf.Contained
import NyonOS.Fat.Freeing
import NyonOS.Fat.Handle
import NyonOS.Fat.Stamp
import NyonOS.Fd.Counters
import NyonOS.Fd.Memory
import NyonOS.Fd.Ticking
import NyonOS.Keyboard.Events
import NyonOS.Keyboard.Line
import NyonOS.Kprintf.Format
import NyonOS.Kprintf.Screen
import NyonOS.Paging.Conserve
import NyonOS.Paging.Gap
import NyonOS.Paging.Isolation
import NyonOS.Paging.Lifetime
import NyonOS.Paging.Refine
import NyonOS.Pci.Assign
import NyonOS.Pipe.Ready
import NyonOS.Pipe.Sleep
import NyonOS.Pmm.Release
import NyonOS.Sched.Children
import NyonOS.Sched.Reports
import NyonOS.Sched.Stacks
import NyonOS.Signal.Machine
import NyonOS.Signal.Schedule
import NyonOS.Slab.Runs
import NyonOS.Syscall.Path
import NyonOS.Syscall.Vector
import NyonOS.User.Read
import NyonOS.Wait.Futex
import NyonOS.Sync.Locks
