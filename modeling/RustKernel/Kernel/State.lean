import RustKernel.Task.Process

/-!
# The global state of the kernel

The statics of the kernel that processes act on: physical memory and `CR3`, the process table of
`task/process.rs`, the shared-memory tables of `ipc/mod.rs` and the framebuffer registers of `gfx/mod.rs`.

A call on a part of the state is lifted to the whole with `onMem` (physical memory) and `inCurrent` (physical
memory and the address space of the current process).
-/

namespace RustKernel

open Lib Exec Memory RustKernel.Task

def U64_MAX : ℕ := 2 ^ 64 - 1

structure ShmRegion where
  frames : List ℕ
  size : ℕ
  creator : ℕ
  refs : ℕ

structure ShmMapping where
  pid : ℕ
  handle : ℕ
  baseVa : ℕ
  pages : ℕ

structure Shm where
  table : Std.ExtTreeMap ℕ ShmRegion
  mappings : List ShmMapping
  vaNext : Std.ExtTreeMap ℕ ℕ
  nextHandle : ℕ

structure Geometry where
  height : ℕ
  pitch : ℕ

structure Framebuffer where
  geometry : Option Geometry
  owner : ℕ
  frames : List ℕ
  va : ℕ
  len : ℕ

structure Kernel where
  mem : PhysMem
  cr3 : ℕ
  table : ProcessTable
  nextPid : ℕ
  returnCr3 : Option ℕ
  shm : Shm
  fb : Framebuffer

variable {ε α : Type}

def onMem (x : Exec ε PhysMem α) : Exec ε Kernel α := Exec.zoom Kernel.mem (fun m k => { k with mem := m }) x

def Kernel.putSpace (v : Vm) (k : Kernel) : Kernel :=
  { k with
    mem := v.mem
    table := k.table.update k.table.current ({ · with addressSpace := v.space }) }

def inCurrent (x : Exec ε Vm α) : Exec ε Kernel (Option α) := do
  let k ← Exec.get
  match k.table.currentProcess with
  | none => pure none
  | some p => do
    let a ← Exec.zoom (fun k => ⟨k.mem, p.addressSpace⟩) Kernel.putSpace x
    pure (some a)

structure Quiet (k k' : Kernel) : Prop where
  view : ∀ pid, k'.table.view pid = k.table.view pid
  runnable : k'.table.runnable = k.table.runnable
  current : k'.table.current = k.table.current
  nextPid : k'.nextPid = k.nextPid

structure SameTasks (k k' : Kernel) : Prop where
  table : k'.table = k.table
  nextPid : k'.nextPid = k.nextPid

theorem SameTasks.refl (k : Kernel) : SameTasks k k := ⟨rfl, rfl⟩

theorem SameTasks.trans {k k' k'' : Kernel} (h : SameTasks k k') (h' : SameTasks k' k'') : SameTasks k k'' :=
  ⟨h'.table.trans h.table, h'.nextPid.trans h.nextPid⟩

theorem SameTasks.quiet {k k' : Kernel} (h : SameTasks k k') : Quiet k k' := by
  obtain ⟨ht, hn⟩ := h
  exact ⟨fun _ => by rw [ht], by rw [ht], by rw [ht], hn⟩

theorem Quiet.trans {k k' k'' : Kernel} (h : Quiet k k') (h' : Quiet k' k'') : Quiet k k'' :=
  ⟨fun pid => (h'.view pid).trans (h.view pid), h'.runnable.trans h.runnable, h'.current.trans h.current,
    h'.nextPid.trans h.nextPid⟩

theorem onMem_post {x : Exec ε PhysMem α} {k : Kernel} {Q : α → PhysMem → Prop} {E : ε → PhysMem → Prop}
    (h : (x k.mem).Post Q E) : (onMem x k).Post (fun a k' => ∃ m, k' = { k with mem := m } ∧ Q a m)
      (fun e k' => ∃ m, k' = { k with mem := m } ∧ E e m) :=
  post_zoom (h.imp (fun _ m h => ⟨m, rfl, h⟩) fun _ m h => ⟨m, rfl, h⟩)

theorem Quiet.putSpace (v : Vm) (k : Kernel) : Quiet k (Kernel.putSpace v k) where
  view := ProcessTable.view_update fun _ => rfl
  runnable := ProcessTable.runnable_update ..
  current := ProcessTable.current_update ..
  nextPid := rfl

/-- Without a current process nothing happens, which is to put back the memory there was. -/
theorem inCurrent_put (x : Exec ε Vm α) (k : Kernel) : (inCurrent x k).Post (fun _ k' => ∃ v, k' = Kernel.putSpace v k)
    (fun _ k' => ∃ v, k' = Kernel.putSpace v k) := by
  unfold inCurrent
  rw [get_bind]
  cases hp : k.table.currentProcess with
  | none =>
    refine ⟨⟨k.mem, ⟨0, ∅⟩⟩, ?_⟩
    rw [Kernel.putSpace, ProcessTable.update, show k.table.procs[k.table.current]? = none from hp]
  | some p =>
    refine post_bind (post_zoom ?_) fun _ _ h => h
    exact (x _).post_true.imp (fun _ v _ => ⟨v, rfl⟩) fun _ v _ => ⟨v, rfl⟩

def allocFrames : ℕ → List ℕ → Exec String PhysMem (List ℕ)
  | 0, taken => pure taken
  | n + 1, taken => do
    match ← Exec.attempt allocZeroedFrame with
    | .ok f => allocFrames n (taken ++ [f])
    | .error e => do
      taken.forM freeFrame
      Exec.throw e

end RustKernel
