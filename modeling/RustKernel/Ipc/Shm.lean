import RustKernel.Kernel.State
import RustKernel.Memory.Roots

/-!
# Shared memory

The shared-memory half of `ipc/mod.rs`: a region is a list of frames with a count of its mappings, and is
freed, frames and all, when the last mapping goes.

None of it changes the process table, apart from the address space of the caller (`cleanupPid_same`,
`sysShmMap_quiet`, `sysShmUnmap_quiet`).
-/

namespace RustKernel.Ipc

open Lib Memory RustKernel.Task

variable {ε : Type} {E : ε → Kernel → Prop}

def SHM_MAX_SIZE : ℕ := 64 * 1024 * 1024

def SHM_VA_BASE : ℕ := 0x600000000000

def SHM_MODE_WRITE : ℕ := 2

variable {ε : Type}

def onShm (f : Shm → Shm) : Exec ε Kernel Unit := Exec.modify fun k => { k with shm := f k.shm }

def sysShmCreate (size : ℕ) : Exec ε Kernel ℕ :=
  if size = 0 ∨ SHM_MAX_SIZE < size then pure U64_MAX
  else do
    match ← Exec.attempt (onMem (allocFrames ((size + 4095) / 4096) [])) with
    | .error _ => pure U64_MAX
    | .ok frames => do
      let k ← Exec.get
      let handle := k.shm.nextHandle
      onShm fun shm => { shm with
        nextHandle := (handle + 1) % 2 ^ 64
        table := shm.table.insert handle { frames, size, creator := k.table.current, refs := 0 } }
      pure handle

def mapRegion (baseVa : ℕ) (flags : PageTableFlags) : ℕ → List ℕ → Exec ℕ Vm Unit
  | _, [] => pure ()
  | i, f :: fs => do
    let va ← Exec.add 64 baseVa (i * 4096)
    let va ← virtAddrNew va
    Exec.mapErr (fun _ => i) (AddressSpace.mapTo (va / 4096) f flags)
    mapRegion baseVa flags (i + 1) fs

def unmapPages (baseVa pages : ℕ) : Exec ε Vm Unit :=
  (List.range pages).forM fun i => do
    let _ ← Exec.attempt (AddressSpace.unmapVa (baseVa + i * 4096))
    pure ()

def mapOrUndo (baseVa : ℕ) (flags : PageTableFlags) (frames : List ℕ) : Exec ε Vm Bool := do
  match ← Exec.attempt (mapRegion baseVa flags 0 frames) with
  | .ok () => pure true
  | .error i => do
    unmapPages baseVa i
    pure false

def undoRef (handle : ℕ) : Exec ε Kernel Unit := do
  let k ← Exec.get
  match k.shm.table[handle]? with
  | none => pure ()
  | some r => do
    let refs ← Exec.sub r.refs 1
    onShm fun shm => { shm with table := shm.table.insert handle { r with refs } }

def nextVa (pid pages : ℕ) : Exec ε Kernel ℕ := do
  let k ← Exec.get
  let next := (k.shm.vaNext[pid]?).getD 0
  let off ← Exec.mul 64 next 4096
  let va ← Exec.add 64 SHM_VA_BASE off
  let next' ← Exec.add 64 next pages
  onShm fun shm => { shm with vaNext := shm.vaNext.insert pid next' }
  pure va

def sysShmMap (handle mode : ℕ) : Exec ε Kernel ℕ := do
  let k ← Exec.get
  match k.shm.table[handle]? with
  | none => pure U64_MAX
  | some region => do
    let refs ← Exec.add 32 region.refs 1
    onShm fun shm => { shm with table := shm.table.insert handle { region with refs } }
    let pid := k.table.current
    let pages := region.frames.length
    let baseVa ← nextVa pid pages
    match ← inCurrent (mapOrUndo baseVa (pageFlags (mode &&& SHM_MODE_WRITE ≠ 0)) region.frames) with
    | some true => do
      onShm fun shm => { shm with mappings := shm.mappings ++ [{ pid, handle, baseVa, pages }] }
      pure baseVa
    | _ => do
      undoRef handle
      pure U64_MAX

def releaseRef (handle : ℕ) : Exec ε Kernel Unit := do
  let k ← Exec.get
  match k.shm.table[handle]? with
  | none => pure ()
  | some r =>
    if r.refs - 1 = 0 then do
      onMem (r.frames.forM freeFrame)
      onShm fun shm => { shm with table := shm.table.erase handle }
    else onShm fun shm => { shm with table := shm.table.insert handle { r with refs := r.refs - 1 } }

def swapRemove (l : List ShmMapping) (i : ℕ) : List ShmMapping :=
  match l.getLast? with
  | some x => (l.set i x).dropLast
  | none => l

def sysShmUnmap (ptr : ℕ) : Exec ε Kernel ℕ := do
  let k ← Exec.get
  match k.shm.mappings.findIdx? fun m => m.pid == k.table.current && m.baseVa == ptr with
  | none => pure U64_MAX
  | some i =>
    match k.shm.mappings[i]? with
    | none => pure U64_MAX
    | some mapping => do
      onShm fun shm => { shm with mappings := swapRemove shm.mappings i }
      let _ ← inCurrent (unmapPages mapping.baseVa mapping.pages)
      releaseRef mapping.handle
      pure 0

def cleanupPid (pid : ℕ) : Exec ε Kernel Unit := do
  let k ← Exec.get
  onShm fun shm => { shm with mappings := shm.mappings.filter (·.pid ≠ pid) }
  (k.shm.mappings.filter (·.pid = pid)).forM fun m => releaseRef m.handle
  onShm fun shm => { shm with vaNext := shm.vaNext.erase pid }

/-! ### The process table -/

theorem onShm_post (f : Shm → Shm) (k : Kernel) : (onShm f k).Post (fun _ k' => k' = { k with shm := f k.shm }) E := rfl

theorem releaseRef_rule {handle : ℕ} {k : Kernel} {P : Kernel → Prop} (hnone : k.shm.table[handle]? = none → P k)
    (hlast : ∀ r m, k.shm.table[handle]? = some r → r.refs - 1 = 0 → Frees k.mem (· ∈ r.frames) m →
      m.refcount = k.mem.refcount → P { k with mem := m, shm := { k.shm with table := k.shm.table.erase handle } })
    (hmore : ∀ r, k.shm.table[handle]? = some r → r.refs - 1 ≠ 0 →
      P { k with shm := { k.shm with table := k.shm.table.insert handle { r with refs := r.refs - 1 } } }) :
    (releaseRef handle k).Post (fun _ => P) E := by
  unfold releaseRef
  rw [Exec.get_bind]
  cases hr : k.shm.table[handle]? with
  | none => exact hnone hr
  | some r =>
    dsimp only
    split_ifs with hrefs
    · refine Exec.post_bind ((onMem_post (freeAll_post r.frames k.mem)).imp_err fun _ _ ⟨_, _, h⟩ => h.elim) ?_
      rintro _ _ ⟨m, rfl, hfrees, hrc⟩
      exact hlast r m hr hrefs hfrees hrc
    · exact hmore r hr hrefs

theorem releaseRef_same (handle : ℕ) (k : Kernel) : (releaseRef handle k).Post (fun _ => SameTasks k) E :=
  releaseRef_rule (fun _ => .refl k) (fun _ _ _ _ _ _ => ⟨rfl, rfl⟩) fun _ _ _ => ⟨rfl, rfl⟩

theorem cleanupPid_same (pid : ℕ) (k : Kernel) : (cleanupPid pid k).Post (fun _ => SameTasks k) E := by
  unfold cleanupPid
  rw [Exec.get_bind]
  refine Exec.post_bind (onShm_post _ k) ?_
  rintro _ _ rfl
  refine Exec.post_bind (Exec.post_forM (I := fun _ => SameTasks k) ⟨rfl, rfl⟩ fun m _ k₂ h₂ => ?_) fun _ _ h₂ => ?_
  · exact (releaseRef_same m.handle k₂).imp_ok fun _ _ h => h₂.trans h
  · exact h₂.trans ⟨rfl, rfl⟩

theorem undoRef_post (handle : ℕ) (k : Kernel) : (undoRef handle k).Post
    (fun _ k' => k.shm.table[handle]? = none ∧ k' = k ∨ ∃ r, k.shm.table[handle]? = some r ∧
      k' = { k with shm := { k.shm with table := k.shm.table.insert handle { r with refs := r.refs - 1 } } }) E := by
  unfold undoRef
  rw [Exec.get_bind]
  cases hr : k.shm.table[handle]? with
  | none => exact .inl ⟨rfl, rfl⟩
  | some r =>
    refine Exec.post_bind (Exec.post_sub ..) ?_
    rintro _ _ ⟨rfl, rfl⟩
    exact .inr ⟨r, rfl, rfl⟩

end RustKernel.Ipc

namespace RustKernel

open Lib Memory RustKernel.Task Ipc

variable {ε : Type}
variable {E : ε → Kernel → Prop} {k : Kernel} {handle : ℕ} {Q : ℕ → Kernel → Prop}

def Shm.next (shm : Shm) (pid : ℕ) : ℕ := (shm.vaNext[pid]?).getD 0

def Shm.created (shm : Shm) (r : ShmRegion) : Shm :=
  { shm with nextHandle := (shm.nextHandle + 1) % 2 ^ 64, table := shm.table.insert shm.nextHandle r }

theorem sysShmCreate_rule {size : ℕ} (hbad : Q U64_MAX k)
    (halloc : (allocFrames ((size + 4095) / 4096) [] k.mem).Post
      (fun frames m => Q k.shm.nextHandle
        { k with mem := m, shm := k.shm.created { frames, size, creator := k.table.current, refs := 0 } })
      (fun _ m => Q U64_MAX { k with mem := m })) : (sysShmCreate size k).Post Q E := by
  unfold sysShmCreate
  split_ifs
  · exact hbad
  · refine Exec.post_attempt_bind (onMem_post halloc) ?_ ?_
    · rintro frames _ ⟨m, rfl, h⟩
      exact h
    · rintro _ _ ⟨m, rfl, h⟩
      exact h

theorem sysShmCreate_same (size : ℕ) (k : Kernel) : (sysShmCreate size k).Post (fun _ => SameTasks k) E :=
  sysShmCreate_rule (.refl k) ((Outcome.post_true _).imp (fun _ _ _ => ⟨rfl, rfl⟩) fun _ _ _ => ⟨rfl, rfl⟩)

def Shm.refused (shm : Shm) (pid : ℕ) (r : ShmRegion) : Shm :=
  { shm with vaNext := shm.vaNext.insert pid (shm.next pid + r.frames.length) }

def Kernel.mapping (k : Kernel) (handle : ℕ) (r : ShmRegion) : Kernel :=
  { k with shm := { k.shm.refused k.table.current r with
      table := k.shm.table.insert handle { r with refs := r.refs + 1 } } }

theorem nextVa_post (pid pages : ℕ) (k : Kernel) : (nextVa pid pages k).Post
    (fun va k' => va = SHM_VA_BASE + k.shm.next pid * 4096 ∧
      k' = { k with shm := { k.shm with vaNext := k.shm.vaNext.insert pid (k.shm.next pid + pages) } }) E := by
  unfold nextVa
  rw [Exec.get_bind]
  refine Exec.post_bind (Exec.post_mul ..) ?_
  rintro _ k ⟨rfl, rfl⟩
  refine Exec.post_bind (Exec.post_add ..) ?_
  rintro _ k ⟨rfl, rfl⟩
  refine Exec.post_bind (Exec.post_add ..) ?_
  rintro _ k ⟨rfl, rfl⟩
  exact ⟨rfl, rfl⟩

theorem sysShmMap_of_none (mode : ℕ) (h : k.shm.table[handle]? = none) : sysShmMap (ε := ε) handle mode k = .ok U64_MAX k := by
  rw [sysShmMap, Exec.get_bind, h]
  exact Exec.pure_apply ..

theorem sysShmMap_rule {mode : ℕ} {r : ShmRegion} {R : Option Bool → Kernel → Prop} (hr : k.shm.table[handle]? = some r)
    (hmap : (inCurrent (mapOrUndo (SHM_VA_BASE + k.shm.next k.table.current * 4096)
      (pageFlags (mode &&& SHM_MODE_WRITE ≠ 0)) r.frames) (k.mapping handle r)).Post R E)
    (hdone : ∀ k', R (some true) k' → Q (SHM_VA_BASE + k.shm.next k.table.current * 4096)
      { k' with shm := { k'.shm with mappings := k'.shm.mappings ++ [
        { pid := k.table.current, handle := handle, baseVa := SHM_VA_BASE + k.shm.next k.table.current * 4096,
          pages := r.frames.length }] } })
    (hundo : ∀ b k', R b k' → b ≠ some true → (undoRef handle k').Post (fun _ => Q U64_MAX) E) :
    (sysShmMap handle mode k).Post Q E := by
  unfold sysShmMap
  rw [Exec.get_bind, hr]
  refine Exec.post_bind (Exec.post_add ..) ?_
  rintro _ _ ⟨rfl, hk⟩
  rw [hk]
  let k₁ : Kernel := { k with shm := { k.shm with table := k.shm.table.insert handle { r with refs := r.refs + 1 } } }
  refine Exec.post_bind (Q := fun _ k' => k' = k₁) rfl ?_
  rintro _ _ rfl
  refine Exec.post_bind (nextVa_post _ _ k₁) ?_
  rintro _ _ ⟨rfl, rfl⟩
  refine Exec.post_bind hmap fun b k' hb => ?_
  match b with
  | some true => exact hdone k' hb
  | some false => exact Exec.post_bind (hundo _ k' hb nofun) fun _ _ h => h
  | none => exact Exec.post_bind (hundo _ k' hb nofun) fun _ _ h => h

theorem sysShmUnmap_rule {ptr : ℕ} (hnone : Q U64_MAX k)
    (hun : ∀ i m, k.shm.mappings[i]? = some m → m.pid = k.table.current → m.baseVa = ptr → ((do
        let _ ← inCurrent (unmapPages m.baseVa m.pages)
        releaseRef m.handle
        pure 0 : Exec ε Kernel ℕ) { k with shm := { k.shm with mappings := swapRemove k.shm.mappings i } }).Post Q E) :
    (sysShmUnmap ptr k).Post Q E := by
  unfold sysShmUnmap
  rw [Exec.get_bind]
  cases hi : k.shm.mappings.findIdx? fun m => m.pid == k.table.current && m.baseVa == ptr with
  | none => exact hnone
  | some i =>
    dsimp only
    cases hm : k.shm.mappings[i]? with
    | none => exact hnone
    | some m =>
      obtain ⟨hlt, hfound, -⟩ := List.findIdx?_eq_some_iff_getElem.1 hi
      obtain rfl : k.shm.mappings[i] = m := Option.some.inj ((List.getElem?_eq_getElem hlt).symm.trans hm)
      rw [Bool.and_eq_true, beq_iff_eq, beq_iff_eq] at hfound
      refine Exec.post_bind (onShm_post _ k) ?_
      rintro _ _ rfl
      exact hun i _ hm hfound.1 hfound.2

theorem sysShmMap_quiet (handle mode : ℕ) (k : Kernel) :
    (sysShmMap (ε := ε) handle mode k).Post (fun _ => Quiet k) (fun _ _ => True) := by
  cases hr : k.shm.table[handle]? with
  | none =>
    rw [sysShmMap_of_none mode hr]
    exact (SameTasks.refl k).quiet
  | some r =>
    have hput : ∀ v, Quiet k (Kernel.putSpace v (k.mapping handle r)) := fun v =>
      (SameTasks.quiet ⟨rfl, rfl⟩ : Quiet k (k.mapping handle r)).trans (.putSpace v _)
    refine sysShmMap_rule (R := fun _ => Quiet k) hr ((inCurrent_put _ _).imp ?_ fun _ _ _ => trivial) ?_ ?_
    · rintro _ _ ⟨v, rfl⟩
      exact hput v
    · exact fun k' h => h.trans (SameTasks.quiet ⟨rfl, rfl⟩)
    · rintro _ k' h -
      refine (undoRef_post handle k').imp_ok ?_
      rintro _ _ (⟨-, rfl⟩ | ⟨r, -, rfl⟩)
      · exact h
      · exact h.trans (SameTasks.quiet ⟨rfl, rfl⟩)

theorem sysShmUnmap_quiet (ptr : ℕ) (k : Kernel) : (sysShmUnmap (ε := ε) ptr k).Post (fun _ => Quiet k) (fun _ _ => True) := by
  refine sysShmUnmap_rule (SameTasks.refl k).quiet fun i m _ _ _ => ?_
  let k₁ : Kernel := { k with shm := { k.shm with mappings := swapRemove k.shm.mappings i } }
  have h₁ : Quiet k k₁ := SameTasks.quiet ⟨rfl, rfl⟩
  refine Exec.post_bind ((inCurrent_put _ k₁).imp_err fun _ _ _ => trivial) ?_
  rintro _ _ ⟨v, rfl⟩
  exact Exec.post_bind (releaseRef_same m.handle _) fun _ _ h => (h₁.trans (.putSpace v k₁)).trans h.quiet

end RustKernel
