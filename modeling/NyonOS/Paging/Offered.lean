import NyonOS.Paging.Anon

namespace NyonOS.Paging

open Data Machine

/-! The ways in which an attempt to put a new frame behind a page can end. -/

variable {σ : Type} [FrameAllocator σ] {depth : Nat}

inductive Offered (machine : Machine σ depth) (root : PAddr) (page : Nat) (prot : Prot) : Machine σ depth → Prop
  | idle {after : Machine σ depth} (spaces : after.spaces = machine.spaces) (frames : after.frames = machine.frames)
      (kernelPml4 : after.kernelPml4 = machine.kernelPml4) (cpuHasNx : after.cpuHasNx = machine.cpuHasNx) :
      Offered machine root page prot after
  | refused {np : PAddr} {taken left : Machine σ depth} (took : Taken machine np taken)
      (set : PageSet taken root page (taken.entry root page) left) :
      Offered machine root page prot { left with frames := left.frames.pmmFree np }
  | mapped {np : PAddr} {taken after : Machine σ depth} (free : has (machine.entry root page) pagePresent = false)
      (took : Taken machine np taken) (set : PageSet taken root page (anonWord machine.cpuHasNx prot np) after) :
      Offered machine root page prot after

variable {machine after : Machine σ depth} {root : PAddr} {page : Nat} {prot : Prot}

theorem PageSet.same (tables : machine.Tables) : PageSet machine root page (machine.entry root page) machine := by
  refine ⟨tables, fun _ => .rfl, .refl, fun place number => ?_, rfl, rfl, rfl, rfl, rfl⟩
  split
  · rename_i here
    rw [here.1, entry_samePage here.2]
  · rfl

theorem Taken.offered {np : PAddr} {taken : Machine σ depth} (took : Taken machine np taken) (tables : machine.Tables)
    (alive : machine.alive root = true) (user : UserPage depth page) :
    let mapped := vmCommit root (page * pageSize) np 1 prot true taken
    Offered machine root page prot (if mapped.1 then mapped.2 else { mapped.2 with frames := mapped.2.frames.pmmFree np }) := by
  obtain ⟨failed, done⟩ := took.commit tables alive user prot
  dsimp only
  cases ok : (vmCommit root (page * pageSize) np 1 prot true taken).1 with
  | false => exact .refused took (failed ok)
  | true =>
    obtain ⟨free, set⟩ := done ok
    exact .mapped free took set

namespace Offered

section

variable (offered : Offered machine root page prot after)
include offered

theorem tables (tables : machine.Tables) : after.Tables := by
  cases offered with
  | idle spaces frames kernelPml4 cpuHasNx =>
    refine tables.frames spaces fun frame used => ?_
    obtain ⟨place, used⟩ := used
    rw [frames]
    exact tables.live used
  | refused took set => exact (took.refused tables set rfl).tables
  | mapped free took set => exact set.tables

theorem alive (tables : machine.Tables) : after.alive = machine.alive := by
  cases offered with
  | idle spaces frames kernelPml4 cpuHasNx =>
    funext place
    rw [Machine.alive, Machine.alive, spaces]
  | refused took set => exact (took.refused tables set rfl).alive
  | mapped free took set => exact set.alive.trans took.alive

theorem entry_other (tables : machine.Tables) {number : Nat}
    (other : ¬SamePage depth page number) : after.entry root number = machine.entry root number := by
  cases offered with
  | idle spaces frames kernelPml4 cpuHasNx => rw [entry_congr spaces]
  | refused took set =>
    rw [(took.refused tables set rfl).entries, if_neg]
    exact fun here => other here.2
  | mapped free took set =>
    rw [set.entries, if_neg, entry_congr took.spaces]
    exact fun here => other here.2

end

end Offered

end NyonOS.Paging
