import RustKernel.Kernel.Machine
import RustKernel.Memory.Owners

/-!
# Who uses which frame

Three schemes hand out frames of one allocator: the reference counts of the pages processes record, the shared-memory
regions, and the back buffer. Each relies on things it does not check: that the pid of a new process is new, that a
process taken out of the table records no frame of a region, that a region freed with its last mapping is recorded by
nobody, and so on. `Kernel.Sound` is what the calls keep when that is so.
-/

namespace RustKernel

open Lib Exec Memory RustKernel.Task Ipc Gfx Fs
open Std.ExtTreeMap (ext_getElem? mem_toList_iff_getElem?_eq_some getElem?_insert_self)
open TreeMap (getElem?_erase_eq_some getElem?_insert_eq_some insert_insert)
open List (length_cons mem_cons_self mem_cons_of_mem mem_range)
open ProcessTable (current_update)

variable {k k' : Kernel}

/-! ### Who uses which frame -/

def Task.ProcessTable.spaces (t : ProcessTable) : Std.ExtTreeMap ℕ AddressSpace := t.procs.map fun _ p => p.addressSpace

def Kernel.pool (k : Kernel) : List ℕ := k.shm.table.toList.flatMap (·.2.frames) ++ k.fb.frames

def Kernel.Live (k : Kernel) (f : ℕ) : Prop :=
  (∃ (pid : ℕ) (p : Process) (page : ℕ), k.table.procs[pid]? = some p ∧ p.addressSpace.mappedPages[page]? = some f) ∨
    (∃ (handle : ℕ) (r : ShmRegion), k.shm.table[handle]? = some r ∧ f ∈ r.frames) ∨ f ∈ k.fb.frames

section Spaces

variable {t : ProcessTable} {pid q : ℕ} {p : Process} {f : Process → Process}

theorem Task.ProcessTable.getElem?_spaces (t : ProcessTable) (pid : ℕ) :
    t.spaces[pid]? = (t.procs[pid]?).map Process.addressSpace := Std.ExtTreeMap.getElem?_map

theorem Task.ProcessTable.spaces_eq_some {a : AddressSpace} :
    t.spaces[pid]? = some a ↔ ∃ p, t.procs[pid]? = some p ∧ p.addressSpace = a := by
  rw [getElem?_spaces, Option.map_eq_some_iff]

theorem Task.ProcessTable.spaces_update (t : ProcessTable) (pid : ℕ) (hf : ∀ p, (f p).addressSpace = p.addressSpace) :
    (t.update pid f).spaces = t.spaces := by
  refine ext_getElem? fun q => ?_
  rw [getElem?_spaces, getElem?_spaces, getElem?_procs_update]
  split_ifs with hq
  · rw [hq, Option.map_map, show Process.addressSpace ∘ f = Process.addressSpace from funext hf]
  · rfl

theorem Task.ProcessTable.spaces_update_space (hp : t.procs[pid]? = some p) (a : AddressSpace)
    (hf : (f p).addressSpace = a) : (t.update pid f).spaces = t.spaces.insert pid a := by
  refine ext_getElem? fun q => ?_
  have hins := congrFun (TreeMap.getElem?_insert_eq_update t.spaces pid a) q
  rw [hins, Function.update_apply, getElem?_spaces, getElem?_procs_update]
  split_ifs with hq
  · rw [hp, Option.map_some, Option.map_some, hf]
  · exact (getElem?_spaces ..).symm

theorem Task.ProcessTable.spaces_insert (t : ProcessTable) (p : Process) :
    (t.insert p).spaces = t.spaces.insert p.pid p.addressSpace := by
  refine ext_getElem? fun q => ?_
  have hins := congrFun (TreeMap.getElem?_insert_eq_update t.spaces p.pid p.addressSpace) q
  rw [hins, Function.update_apply, getElem?_spaces, getElem?_procs_insert]
  split_ifs with hq
  · rfl
  · exact (getElem?_spaces ..).symm

theorem Task.ProcessTable.spaces_erase (t : ProcessTable) (pid : ℕ) :
    spaces { t with procs := t.procs.erase pid } = t.spaces.erase pid := by
  refine ext_getElem? fun q => Option.ext fun a => ?_
  rw [spaces_eq_some, getElem?_erase_eq_some, spaces_eq_some]
  constructor
  · rintro ⟨p, hp, rfl⟩
    obtain ⟨hne, hp⟩ := getElem?_erase_eq_some.mp hp
    exact ⟨hne, p, hp, rfl⟩
  · rintro ⟨hne, p, hp, rfl⟩
    exact ⟨p, getElem?_erase_eq_some.mpr ⟨hne, hp⟩, rfl⟩

theorem Task.ProcessTable.spaces_wake (t : ProcessTable) (pid : ℕ) : (t.wake pid).spaces = t.spaces := by
  have hwoken : ∀ p, (Process.woken p).addressSpace = p.addressSpace := fun p => by
    unfold Process.woken
    split_ifs <;> rfl
  unfold wake
  split
  · split_ifs
    · exact spaces_update t pid hwoken
    · rfl
  · rfl

theorem Task.ProcessTable.spaces_exit (t : ProcessTable) (pid parent : ℕ) (code : ℤ) :
    (t.exit pid parent code).spaces = t.spaces := by
  unfold exit
  rw [spaces_wake, spaces_update (f := Process.told pid code) _ parent fun _ => rfl,
    spaces_update (f := Process.zombified code) t pid fun _ => rfl]

theorem Task.ProcessTable.spaces_save (t : ProcessTable) (frame : TrapFrame) : (t.save frame).spaces = t.spaces := by
  have hup := spaces_update (f := Process.withFrame frame) t t.current fun _ => rfl
  unfold save
  split_ifs
  · rfl
  · split
    · dsimp only
      split_ifs
      · exact hup
      · exact hup
    · rfl

end Spaces

theorem Kernel.mem_pool {f : ℕ} :
    f ∈ k.pool ↔ (∃ (handle : ℕ) (r : ShmRegion), k.shm.table[handle]? = some r ∧ f ∈ r.frames) ∨ f ∈ k.fb.frames := by
  unfold Kernel.pool
  rw [List.mem_append, List.mem_flatMap]
  refine or_congr_left ⟨?_, ?_⟩
  · rintro ⟨⟨handle, r⟩, hmem, hf⟩
    exact ⟨handle, r, mem_toList_iff_getElem?_eq_some.mp hmem, hf⟩
  · rintro ⟨handle, r, hr, hf⟩
    exact ⟨(handle, r), mem_toList_iff_getElem?_eq_some.mpr hr, hf⟩

theorem Kernel.mem_pool_region {handle f : ℕ} {r : ShmRegion} (hr : k.shm.table[handle]? = some r) (hf : f ∈ r.frames) :
    f ∈ k.pool :=
  mem_pool.mpr (.inl ⟨handle, r, hr, hf⟩)

/-! ### The invariant of the kernel -/

/-- Memory is sound, and no frame is in two regions, or in a region and the back buffer. -/
structure Kernel.Sound (kernelP4 p2 : ℕ) (k : Kernel) : Prop where
  memory : ∃ kind, Memory.Sound kernelP4 p2 k.mem k.table.spaces k.pool kind
  regions : ∀ (h h' : ℕ) (r r' : ShmRegion) (f : ℕ), k.shm.table[h]? = some r → k.shm.table[h']? = some r' →
    f ∈ r.frames → f ∈ r'.frames → h = h'
  backbuf : ∀ (h : ℕ) (r : ShmRegion) (f : ℕ), k.shm.table[h]? = some r → f ∈ r.frames → f ∉ k.fb.frames

structure Stays (k k' : Kernel) : Prop where
  current : k'.table.current = k.table.current
  cr3 : k'.cr3 = k.cr3
  returnCr3 : k'.returnCr3 = k.returnCr3
  p4 : ∀ a, k.table.spaces[k.table.current]? = some a → ∃ a', k'.table.spaces[k.table.current]? = some a' ∧ a'.p4 = a.p4

/-- What a call leaves: the invariant holds, and the running process is where it was. -/
abbrev Kernel.Safe (k : Kernel) (kernelP4 p2 : ℕ) (k' : Kernel) : Prop := k'.Sound kernelP4 p2 ∧ Stays k k'

def Kernel.Own (k : Kernel) : Prop := ∃ a, k.table.spaces[k.table.current]? = some a ∧ a.p4 = k.cr3

theorem Stays.of_spaces (hcur : k'.table.current = k.table.current := by rfl) (hcr3 : k'.cr3 = k.cr3 := by rfl)
    (hret : k'.returnCr3 = k.returnCr3 := by rfl) (hs : k'.table.spaces = k.table.spaces := by rfl) : Stays k k' :=
  ⟨hcur, hcr3, hret, fun a ha => ⟨a, by rw [hs, ha], rfl⟩⟩

theorem Stays.refl (k : Kernel) : Stays k k := .of_spaces

theorem Stays.trans {k'' : Kernel} (h : Stays k k') (h' : Stays k' k'') : Stays k k'' := by
  refine ⟨h'.current.trans h.current, h'.cr3.trans h.cr3, h'.returnCr3.trans h.returnCr3, fun a ha => ?_⟩
  obtain ⟨a', ha', hp4⟩ := h.p4 a ha
  obtain ⟨a'', ha'', hp4'⟩ := h'.p4 a' (h.current ▸ ha')
  exact ⟨a'', h.current ▸ ha'', hp4'.trans hp4⟩

theorem Stays.own (h : Stays k k') (ho : k.Own) : k'.Own := by
  obtain ⟨a, ha, hp4⟩ := ho
  obtain ⟨a', ha', hp4'⟩ := h.p4 a ha
  exact ⟨a', h.current ▸ ha', by rw [hp4', hp4, h.cr3]⟩

namespace Kernel.Sound

variable {kernelP4 p2 : ℕ} {k k' : Kernel} {ε α : Type}

theorem of_frames (h : k.Sound kernelP4 p2) (hmem : k'.mem = k.mem) (hspaces : k'.table.spaces = k.table.spaces)
    (hshm : ∀ (handle : ℕ) (r' : ShmRegion), k'.shm.table[handle]? = some r' →
      ∃ r, k.shm.table[handle]? = some r ∧ r'.frames = r.frames)
    (hshm' : ∀ (handle : ℕ) (r : ShmRegion), k.shm.table[handle]? = some r →
      ∃ r', k'.shm.table[handle]? = some r' ∧ r'.frames = r.frames)
    (hfb : k'.fb.frames = k.fb.frames) : k'.Sound kernelP4 p2 := by
  obtain ⟨⟨kind, hm⟩, hr, hb⟩ := h
  refine ⟨⟨kind, ?_⟩, fun i j r r' f hi hj hf hf' => ?_, fun i r f hi hf => ?_⟩
  · rw [hmem, hspaces]
    refine hm.congr_pool fun f => ?_
    rw [Kernel.mem_pool, Kernel.mem_pool, hfb]
    refine or_congr_left ⟨?_, ?_⟩
    · rintro ⟨handle, r', hr', hf⟩
      obtain ⟨r, hr, hframes⟩ := hshm handle r' hr'
      exact ⟨handle, r, hr, hframes ▸ hf⟩
    · rintro ⟨handle, r, hr, hf⟩
      obtain ⟨r', hr', hframes⟩ := hshm' handle r hr
      exact ⟨handle, r', hr', hframes ▸ hf⟩
  · obtain ⟨s, hs, hframes⟩ := hshm i r hi
    obtain ⟨s', hs', hframes'⟩ := hshm j r' hj
    exact hr i j s s' f hs hs' (hframes ▸ hf) (hframes' ▸ hf')
  · obtain ⟨s, hs, hframes⟩ := hshm i r hi
    rw [hfb]
    exact hb i s f hs (hframes ▸ hf)

theorem congr (h : k.Sound kernelP4 p2) (hmem : k'.mem = k.mem := by rfl) (hspaces : k'.table.spaces = k.table.spaces := by rfl)
    (hshm : k'.shm.table = k.shm.table := by rfl) (hfb : k'.fb.frames = k.fb.frames := by rfl) : k'.Sound kernelP4 p2 :=
  h.of_frames hmem hspaces (fun _ r hr => ⟨r, hshm ▸ hr, rfl⟩) (fun _ r hr => ⟨r, hshm ▸ hr, rfl⟩) hfb

theorem setRegion {handle : ℕ} {r : ShmRegion} (r' : ShmRegion) (h : k.Sound kernelP4 p2)
    (hr : k.shm.table[handle]? = some r) (hframes : r'.frames = r.frames) : Kernel.Sound kernelP4 p2
      { k with shm := { k.shm with table := k.shm.table.insert handle r' } } := by
  refine h.of_frames rfl rfl (fun i s hs => ?_) (fun i s hs => ?_) rfl
  · rcases getElem?_insert_eq_some.mp hs with ⟨rfl, rfl⟩ | ⟨-, hs⟩
    · exact ⟨r, hr, hframes⟩
    · exact ⟨s, hs, rfl⟩
  · by_cases hi : i = handle
    · subst hi
      cases hr.symm.trans hs
      exact ⟨r', getElem?_insert_self, hframes⟩
    · exact ⟨s, getElem?_insert_eq_some.mpr (.inr ⟨hi, hs⟩), rfl⟩

theorem update {f : Process → Process} (h : k.Sound kernelP4 p2) (hf : ∀ p, (f p).addressSpace = p.addressSpace) :
    k.Safe kernelP4 p2 { k with table := k.table.update k.table.current f } :=
  have hs := ProcessTable.spaces_update k.table k.table.current hf
  ⟨h.congr rfl hs, .of_spaces (current_update ..) rfl rfl hs⟩

theorem cr3 {kind : ℕ → Kind} (hr : k.cr3 = kernelP4 ∨ k.Own) (h : Memory.Sound kernelP4 p2 k.mem k.table.spaces k.pool kind) :
    kind k.cr3 = .table 4 ∧ LowTable k.mem k.cr3 p2 ∧ Tree k.mem k.cr3 := by
  rcases hr with hK | ⟨a, ha, hp4⟩
  · rw [hK]
    exact ⟨h.roots.kernel, h.kernelLow, h.kernelTree⟩
  · rw [← hp4]
    exact ⟨h.root ha, h.low _ a ha, h.tree _ a ha⟩

end Kernel.Sound

/-! ### Creation -/

section Create

variable {kernelP4 p2 : ℕ} {k : Kernel} {ε : Type}
variable {k' : Kernel} {a : AddressSpace} {m : PhysMem} {p : Process} {pid : ℕ} {E : String → PhysMem → Prop}

theorem insertProcess_of_new (hp : k.table.procs[p.pid]? = none) :
    insertProcess (ε := ε) p k = .ok () { k with table := k.table.insert p } := by
  unfold insertProcess
  rw [get_bind, hp]
  rfl

theorem getElem?_spaces_of_none (h : k.table.procs[pid]? = none) : k.table.spaces[pid]? = none := by
  rw [ProcessTable.getElem?_spaces, h]
  rfl

theorem stays_insert (hpid : k.table.procs[pid]? = none) (hcur : k'.table.current = k.table.current) (hcr3 : k'.cr3 = k.cr3)
    (hret : k'.returnCr3 = k.returnCr3) (hs : k'.table.spaces = k.table.spaces.insert pid a) : Stays k k' := by
  refine ⟨hcur, hcr3, hret, fun a₀ ha₀ => ⟨a₀, ?_, rfl⟩⟩
  rw [hs]
  refine getElem?_insert_eq_some.mpr (.inr ⟨?_, ha₀⟩)
  rintro rfl
  cases (getElem?_spaces_of_none hpid).symm.trans ha₀

structure Joins (k : Kernel) (a : AddressSpace) (m : PhysMem) (k' : Kernel) : Prop where
  mem : k'.mem = m
  shm : k'.shm = k.shm
  fb : k'.fb = k.fb
  spaces : k'.table.spaces = k.table.spaces.insert (k.nextPid % 2 ^ 32) a
  current : k'.table.current = k.table.current
  cr3 : k'.cr3 = k.cr3
  returnCr3 : k'.returnCr3 = k.returnCr3

theorem Joins.pool (h : Joins k a m k') : k'.pool = k.pool := by rw [Kernel.pool, Kernel.pool, h.shm, h.fb]

theorem Joins.stays (h : Joins k a m k') (hpid : k.table.procs[k.nextPid % 2 ^ 32]? = none) : Stays k k' :=
  stays_insert hpid h.current h.cr3 h.returnCr3 h.spaces

theorem Joins.sound (h : Joins k a m k') (hk : k.Sound kernelP4 p2)
    (hm : ∃ kind, Memory.Sound kernelP4 p2 m (k.table.spaces.insert (k.nextPid % 2 ^ 32) a) k.pool kind) :
    k'.Sound kernelP4 p2 := by
  refine ⟨?_, by rw [h.shm]; exact hk.regions, by rw [h.shm, h.fb]; exact hk.backbuf⟩
  rw [h.mem, h.spaces, h.pool]
  exact hm

theorem spawnFromElf_joins {bin : List Byte} {Q : AddressSpace × ℕ × ℕ → PhysMem → Prop}
    (parent : ℕ) (hpid : k.table.procs[k.nextPid % 2 ^ 32]? = none) (h : (spawnSpace k.cr3 bin k.mem).Post Q E) :
    (spawnFromElf bin parent k).Post (fun pid k' => pid = k.nextPid % 2 ^ 32 ∧ ∃ r m, Q r m ∧ Joins k r.1 m k')
      (fun e k' => ∃ m, k' = { k with mem := m } ∧ E e m) := by
  unfold spawnFromElf
  rw [get_bind]
  refine post_bind (onMem_post h) ?_
  rintro ⟨space, entry, rsp⟩ _ ⟨m, rfl, hq⟩
  refine post_bind (allocPid_post _) fun pid k₁ h₁ => ?_
  obtain ⟨rfl, rfl⟩ := h₁
  refine post_bind ?_ fun _ _ hj => ⟨rfl, _, m, hq, hj⟩
  rw [insertProcess_of_new (by exact hpid)]
  exact ⟨rfl, rfl, rfl, ProcessTable.spaces_insert .., rfl, rfl, rfl⟩

theorem spawnFromElf_sound (bin : List Byte) (parent : ℕ) (h : k.Sound kernelP4 p2) (hr : k.cr3 = kernelP4 ∨ k.Own)
    (hpid : k.table.procs[k.nextPid % 2 ^ 32]? = none) : (spawnFromElf bin parent k).Post
    (fun _ => k.Safe kernelP4 p2) (fun _ k' => k'.Sound kernelP4 p2 ∧ ∃ m, k' = { k with mem := m }) := by
  obtain ⟨kind, hm⟩ := h.memory
  obtain ⟨hcr3, hlow, htree⟩ := Kernel.Sound.cr3 hr hm
  have hspace := spawnSpace_sound bin hm (getElem?_spaces_of_none hpid) hcr3 hlow htree
  refine (spawnFromElf_joins parent hpid hspace).imp ?_ ?_
  · rintro _ k' ⟨-, r, m, hm', hj⟩
    exact ⟨hj.sound h hm', hj.stays hpid⟩
  · rintro _ _ ⟨m, rfl, hm'⟩
    exact ⟨⟨hm', h.regions, h.backbuf⟩, m, rfl⟩

theorem execFromAny_sound (ram fat : Option (List Byte)) (parent : ℕ) (h : k.Sound kernelP4 p2) (hr : k.cr3 = kernelP4 ∨ k.Own)
    (hpid : k.table.procs[k.nextPid % 2 ^ 32]? = none) : (execFromAny ram fat parent k).Post
    (fun _ => k.Safe kernelP4 p2) (fun _ => k.Safe kernelP4 p2) := by
  have himage : ∀ image k, k.Sound kernelP4 p2 → (k.cr3 = kernelP4 ∨ k.Own) →
      k.table.procs[k.nextPid % 2 ^ 32]? = none → (execImage image parent k).Post
        (fun _ => k.Safe kernelP4 p2) (fun _ k' => k'.Sound kernelP4 p2 ∧ ∃ m, k' = { k with mem := m }) := by
    intro image k h hr hpid
    cases image with
    | none => exact ⟨h, k.mem, rfl⟩
    | some bin => exact spawnFromElf_sound bin parent h hr hpid
  have hsame : ∀ m, Stays k { k with mem := m } := fun m => .of_spaces
  refine post_attempt_bind (himage ram k h hr hpid) (fun _ _ h => h) ?_
  rintro _ _ ⟨hs, m, rfl⟩
  refine (himage fat _ hs (hr.imp id (hsame m).own) hpid).imp (fun _ k' h => ⟨h.1, (hsame m).trans h.2⟩) ?_
  rintro _ _ ⟨hs', m', rfl⟩
  exact ⟨hs', .of_spaces⟩

theorem fork_joins {Q : AddressSpace → PhysMem → Prop}
    (hpid : k.table.procs[k.nextPid % 2 ^ 32]? = none) (hp : k.table.procs[k.table.current]? = some p)
    (h : (p.addressSpace.cloneCow k.mem).Post Q E) : (fork k).Post
      (fun pid k' => pid = k.nextPid % 2 ^ 32 ∧ ∃ c m, Q c m ∧ Joins k c m k')
      (fun e k' => ∃ m, k' = { k with mem := m } ∧ E e m) := by
  unfold fork
  rw [get_bind, hp]
  refine post_bind (onMem_post h) ?_
  rintro space _ ⟨m, rfl, hq⟩
  refine post_bind (allocPid_post _) fun pid k₁ h₁ => ?_
  obtain ⟨rfl, rfl⟩ := h₁
  let child : Process :=
    { pid := k.nextPid % 2 ^ 32, parent := k.table.current, state := .runnable, addressSpace := space,
      trapFrame := p.trapFrame.withRax 0, signals := [], childrenExited := [], uid := p.uid,
      gid := p.gid, euid := p.euid, egid := p.egid }
  refine post_bind (Q := fun _ k' => ∃ n, k' = { k with mem := m, nextPid := n, table := k.table.insert child }) ?_ ?_
  · rw [insertProcess_of_new (by exact hpid)]
    exact ⟨_, rfl⟩
  rintro _ _ ⟨n, rfl⟩
  refine post_bind (onTable_post _ _) fun _ k₂ h₂ => ⟨rfl, space, m, hq, ?_⟩
  rw [h₂]
  refine ⟨rfl, rfl, rfl, ?_, current_update .., rfl, rfl⟩
  rw [ProcessTable.spaces_update (f := Process.returning (k.nextPid % 2 ^ 32)) _ _ fun _ => rfl, ProcessTable.spaces_insert]

theorem fork_sound (h : k.Sound kernelP4 p2) (hpid : k.table.procs[k.nextPid % 2 ^ 32]? = none)
    (hcount : ∀ a ∈ k.table.spaces[k.table.current]?, ∀ f ∈ a.frames, f ∉ k.pool →
      holders k.table.spaces f + a.frames.count f ≤ 255) :
    (fork k).Post (fun _ => k.Safe kernelP4 p2) (fun _ => k.Safe kernelP4 p2) := by
  obtain ⟨kind, hm⟩ := h.memory
  cases hp : k.table.procs[k.table.current]? with
  | none =>
    unfold fork
    rw [get_bind, hp]
    exact ⟨h, .refl k⟩
  | some parent =>
    have hi : k.table.spaces[k.table.current]? = some parent.addressSpace := ProcessTable.spaces_eq_some.mpr ⟨parent, hp, rfl⟩
    refine (fork_joins hpid hp (cloneCow_sound hm hi (getElem?_spaces_of_none hpid) (hcount _ hi))).imp ?_ ?_
    · rintro _ k' ⟨-, c, m, hm', hj⟩
      exact ⟨hj.sound h hm', hj.stays hpid⟩
    · rintro _ _ ⟨m, rfl, hm'⟩
      exact ⟨⟨hm', h.regions, h.backbuf⟩, .of_spaces⟩

end Create

/-! ### Leaving the table -/

section Leave

variable {kernelP4 p2 : ℕ} {k : Kernel} {ε : Type}

/-- The child records no frame of a region or of the back buffer, and its tables are not active. -/
def Kernel.Reapable (k : Kernel) (child : ℕ) : Prop :=
  ∀ a ∈ k.table.spaces[child]?, (∀ f ∈ a.frames, f ∉ k.pool) ∧ a.p4 ≠ k.cr3
deriving Decidable

theorem reap_sound (child : ℕ) (h : k.Sound kernelP4 p2) (hown : k.Own) (hreap : k.Reapable child) :
    (reap (ε := ε) child k).Post (fun _ => k.Safe kernelP4 p2) (fun _ _ => False) := by
  obtain ⟨⟨kind, hm⟩, hregions, hbackbuf⟩ := h
  have hspaces := ProcessTable.spaces_erase k.table child
  have hstays : ∀ m, Stays k { k with mem := m, table := { k.table with procs := k.table.procs.erase child } } := by
    refine fun m => ⟨rfl, rfl, rfl, fun a ha => ⟨a, ?_, rfl⟩⟩
    rw [hspaces]
    refine getElem?_erase_eq_some.mpr ⟨?_, ha⟩
    rintro rfl
    obtain ⟨a', ha', hp4⟩ := hown
    exact (hreap a' ha').2 hp4
  unfold reap
  rw [get_bind]
  refine post_bind (onTable_post _ k) fun _ k₁ h₁ => ?_
  rw [h₁]
  cases hp : k.table.procs[child]? with
  | none =>
    refine ⟨⟨⟨kind, ?_⟩, hregions, hbackbuf⟩, hstays k.mem⟩
    rw [hspaces, TreeMap.erase_of_getElem?_eq_none (getElem?_spaces_of_none hp)]
    exact hm
  | some dead =>
    have hi : k.table.spaces[child]? = some dead.addressSpace := ProcessTable.spaces_eq_some.mpr ⟨dead, hp, rfl⟩
    refine (onMem_post (k := { k with table := { k.table with procs := k.table.procs.erase child } })
      (drop_sound hm hi (hreap _ hi).1)).imp ?_ fun _ _ ⟨_, _, h⟩ => h
    rintro _ _ ⟨m, rfl, kind', hm'⟩
    refine ⟨⟨⟨kind', ?_⟩, hregions, hbackbuf⟩, hstays m⟩
    rw [hspaces]
    exact hm'

theorem sysWait_sound (h : k.Sound kernelP4 p2) (hown : k.Own)
    (hreap : ∀ p ∈ k.table.currentProcess, ∀ x ∈ p.childrenExited.head?, k.Reapable x.1) :
    (sysWait (ε := ε) k).Post (fun _ => k.Safe kernelP4 p2) (fun _ _ => False) := by
  have hspaces : ∀ rest, (k.table.update k.table.current (Process.reporting rest)).spaces = k.table.spaces := fun rest =>
    ProcessTable.spaces_update (f := Process.reporting rest) _ _ fun _ => rfl
  refine sysWait_rule (fun _ => ⟨h, .refl k⟩) (fun _ _ _ => h.update (f := Process.asleep) fun _ => rfl) ?_
  intro p child code rest hp hc
  obtain ⟨h₁, hstays⟩ := h.update (f := Process.reporting rest) fun _ => rfl
  refine (reap_sound child h₁ (hstays.own hown) ?_).imp_ok fun _ k' h' => ⟨h'.1, hstays.trans h'.2⟩
  unfold Kernel.Reapable
  rw [hspaces]
  exact hreap p hp (child, code) (by rw [hc]; rfl)

end Leave

/-! ### The pool -/

section Pool

variable {kernelP4 p2 : ℕ} {k : Kernel} {ε α : Type}
variable {p : Process} {kind : ℕ → Kind} {I : List ℕ → PhysMem → Prop} {x : Exec ε Vm α} {v : Vm}

theorem Memory.Sound.freePages {m m' : PhysMem} {spaces : Std.ExtTreeMap ℕ AddressSpace} {pool pool' l : List ℕ} (h : Memory.Sound kernelP4 p2 m spaces pool kind) (hfrees : Frees m (· ∈ l) m')
    (hrc : m'.refcount = m.refcount) (hl : ∀ f ∈ l, kind f = .data ∧ holders spaces f = 0)
    (hpool : ∀ f, f ∈ pool' ↔ f ∈ pool ∧ f ∉ l) : Memory.Sound kernelP4 p2 m' spaces pool' (freeKinds kind (· ∈ l)) := by
  refine h.free hfrees (fun _ _ hj => hj) (fun f hf => .inl (hl f hf).1) (fun f hf j b hj => ⟨?_, ?_⟩)
    (fun f hf => (hpool f).mp hf) fun f hf => ?_
  · rintro rfl
    have hd := (hl _ hf).1
    cases (h.root hj).symm.trans hd
  · exact holders_eq_zero.mp (hl f hf).2 j b hj
  · by_cases hmem : f ∈ l
    · rw [(hl f hmem).2]
      exact Nat.zero_le _
    · rw [hrc]
      exact h.count f fun hp => hf ((hpool f).mpr ⟨hp, hmem⟩)

theorem attempt_allocZeroedFrame_post (m : PhysMem) : (Exec.attempt (δ := ε) allocZeroedFrame m).Post
    (fun r m' => (∃ f, r = .ok f ∧ Allocates m f m') ∨ (∃ e, r = .error e) ∧ m' = m) (fun _ _ => False) :=
  post_attempt ((allocZeroedFrame_post m).imp (fun f _ h => .inl ⟨f, rfl, h⟩) fun e _ h => .inr ⟨⟨e, rfl⟩, h.1⟩)

structure Lendable (spaces : Std.ExtTreeMap ℕ AddressSpace) (pool : List ℕ) (kind : ℕ → Kind) (f : ℕ) : Prop where
  data : kind f = .data
  low : f < IDENTITY_FRAMES
  notLent : f ∉ pool
  unheld : holders spaces f = 0

theorem allocFrames_rule
    (hstep : ∀ {l : List ℕ} {m m' : PhysMem} {f : ℕ}, I l m → Allocates m f m' → I (l ++ [f]) m') :
    ∀ (n : ℕ) {taken : List ℕ} {m : PhysMem}, I taken m → (allocFrames n taken m).Post
      (fun l m' => l.length = taken.length + n ∧ I l m')
      (fun _ m' => ∃ l m₁, I l m₁ ∧ Frees m₁ (· ∈ l) m' ∧ m'.refcount = m₁.refcount)
  | 0, _, _, h => ⟨rfl, h⟩
  | n + 1, taken, m, h => by
    refine post_bind ((attempt_allocZeroedFrame_post m).never) ?_
    rintro _ m₁ (⟨f, rfl, h₁⟩ | ⟨⟨e, rfl⟩, rfl⟩)
    · refine (allocFrames_rule hstep n (hstep h h₁)).imp_ok ?_
      rintro l m' ⟨hlen, hl⟩
      exact ⟨by rw [hlen, List.length_append, List.length_singleton, Nat.add_assoc, Nat.add_comm 1], hl⟩
    · refine post_bind ((freeAll_post taken m₁).never) ?_
      exact fun _ m' hfrees => ⟨taken, m₁, h, hfrees⟩

theorem allocFrames_sound (n : ℕ) (hm : Memory.Sound kernelP4 p2 k.mem k.table.spaces k.pool kind) :
    (allocFrames n [] k.mem).Post (fun l m => ∃ kind', Memory.Sound kernelP4 p2 m k.table.spaces k.pool kind' ∧
        ∀ f ∈ l, Lendable k.table.spaces k.pool kind' f)
      (fun _ m => ∃ kind', Memory.Sound kernelP4 p2 m k.table.spaces k.pool kind') := by
  let I : List ℕ → PhysMem → Prop := fun l m => ∃ kind', Memory.Sound kernelP4 p2 m k.table.spaces k.pool kind' ∧
    ∀ f ∈ l, Lendable k.table.spaces k.pool kind' f
  have hstart : I [] k.mem := ⟨kind, hm, nofun⟩
  refine (allocFrames_rule (I := I) ?_ n hstart).imp (fun _ _ h => h.2) ?_
  · rintro l m m' f ⟨kind, h, hl⟩ hf
    have hs := hf.steady h.layout .data
    refine ⟨_, h.keeps hs.keeps fun g _ => by rw [hf.refcount], fun g hg => ?_⟩
    rcases List.mem_append.mp hg with hg | hg
    · exact { hl g hg with data := hs.kind_eq (hl g hg).data }
    · obtain rfl := List.mem_singleton.mp hg
      exact ⟨Function.update_self .., hf.lt, h.not_mem_pool hf.fresh, h.holders_of_free hf.fresh⟩
  · rintro _ m ⟨l, m₁, ⟨kind', hm', hl⟩, hfrees, hrc⟩
    exact ⟨_, hm'.freePages hfrees hrc (fun f hf => ⟨(hl f hf).data, (hl f hf).unheld⟩) fun f =>
      ⟨fun hf => ⟨hf, fun hmem => (hl f hmem).notLent hf⟩, And.left⟩⟩

theorem sysShmCreate_sound (size : ℕ) (h : k.Sound kernelP4 p2) (hnew : k.shm.table[k.shm.nextHandle]? = none) :
    (sysShmCreate (ε := ε) size k).Post (fun _ => k.Safe kernelP4 p2) (fun _ _ => False) := by
  obtain ⟨⟨kind, hm⟩, hregions, hbackbuf⟩ := h
  refine sysShmCreate_rule ⟨⟨⟨kind, hm⟩, hregions, hbackbuf⟩, .refl k⟩ ((allocFrames_sound _ hm).imp ?_ ?_)
  · rintro frames m ⟨kind', hm', hfresh⟩
    have hnotin : ∀ {h : ℕ} {r : ShmRegion} {f : ℕ}, k.shm.table[h]? = some r → f ∈ r.frames → f ∉ frames :=
      fun hr hf hmem => (hfresh _ hmem).notLent (Kernel.mem_pool_region hr hf)
    refine ⟨⟨⟨kind', hm'.lend (fun f hf => ?_) fun f hf => ?_⟩, fun i j r r' f hi hj hf hf' => ?_, fun i r f hi hf => ?_⟩,
      .of_spaces⟩
    · refine Kernel.mem_pool.mpr ((Kernel.mem_pool.mp hf).imp_left ?_)
      rintro ⟨i, r, hr, hf⟩
      refine ⟨i, r, getElem?_insert_eq_some.mpr (.inr ⟨?_, hr⟩), hf⟩
      rintro rfl
      cases hnew.symm.trans hr
    · rcases Kernel.mem_pool.mp hf with ⟨i, r, hr, hf⟩ | hf
      · rcases getElem?_insert_eq_some.mp hr with ⟨-, rfl⟩ | ⟨-, hr⟩
        · exact .inr ⟨(hfresh f hf).data, (hfresh f hf).low⟩
        · exact .inl (Kernel.mem_pool_region hr hf)
      · exact .inl (Kernel.mem_pool.mpr (.inr hf))
    · rcases getElem?_insert_eq_some.mp hi with ⟨rfl, rfl⟩ | ⟨-, hi⟩
      · rcases getElem?_insert_eq_some.mp hj with ⟨rfl, -⟩ | ⟨-, hj⟩
        · rfl
        · exact absurd hf (hnotin hj hf')
      · rcases getElem?_insert_eq_some.mp hj with ⟨rfl, rfl⟩ | ⟨-, hj⟩
        · exact absurd hf' (hnotin hi hf)
        · exact hregions i j r r' f hi hj hf hf'
    · rcases getElem?_insert_eq_some.mp hi with ⟨-, rfl⟩ | ⟨-, hi⟩
      · exact fun hmem => (hfresh f hf).notLent (Kernel.mem_pool.mpr (.inr hmem))
      · exact hbackbuf i r f hi hf
  · exact fun _ m hm' => ⟨⟨hm', hregions, hbackbuf⟩, .of_spaces⟩

/-! ### Calls on the space of the running process -/

theorem inCurrent_eq (hp : k.table.procs[k.table.current]? = some p) : inCurrent x k =
    (Exec.zoom (fun k => ⟨k.mem, p.addressSpace⟩) Kernel.putSpace x >>= fun a => pure (some a)) k := by
  unfold inCurrent
  rw [get_bind, show k.table.currentProcess = some p from hp]

theorem inCurrent_post {Q : α → Vm → Prop} {E : ε → Vm → Prop} (hp : k.table.procs[k.table.current]? = some p)
    (h : (x ⟨k.mem, p.addressSpace⟩).Post Q E) : (inCurrent x k).Post
    (fun r k' => ∃ a v, r = some a ∧ k' = Kernel.putSpace v k ∧ Q a v) (fun e k' => ∃ v, k' = Kernel.putSpace v k ∧ E e v) := by
  rw [inCurrent_eq hp]
  refine post_bind (Q := fun a k' => ∃ v, k' = Kernel.putSpace v k ∧ Q a v) (post_zoom ?_) ?_
  · exact h.imp (fun _ v hq => ⟨v, rfl, hq⟩) fun _ v he => ⟨v, rfl, he⟩
  · rintro a _ ⟨v, rfl, hq⟩
    exact ⟨a, v, rfl, rfl, hq⟩

theorem spaces_putSpace (hp : k.table.procs[k.table.current]? = some p) (v : Vm) :
    (Kernel.putSpace v k).table.spaces = k.table.spaces.insert k.table.current v.space :=
  ProcessTable.spaces_update_space hp v.space rfl

theorem table_putSpace (hp : k.table.procs[k.table.current]? = some p) (h : v.space = p.addressSpace) :
    (Kernel.putSpace v k).table = k.table := by
  show k.table.update k.table.current ({ · with addressSpace := v.space }) = k.table
  rw [ProcessTable.update, hp, h]
  exact congrArg (fun procs => { k.table with procs := procs }) (TreeMap.insert_of_getElem?_eq_some hp)

theorem Kernel.Sound.getSpace (h : k.Sound kernelP4 p2) (hp : k.table.procs[k.table.current]? = some p) :
    ∃ kind, Memory.Sound kernelP4 p2 k.mem (k.table.spaces.insert k.table.current p.addressSpace) k.pool kind := by
  obtain ⟨kind, hm⟩ := h.memory
  rw [TreeMap.insert_of_getElem?_eq_some (ProcessTable.spaces_eq_some.mpr ⟨p, hp, rfl⟩)]
  exact ⟨kind, hm⟩

theorem Kernel.Sound.putSpace (h : k.Sound kernelP4 p2) (hp : k.table.procs[k.table.current]? = some p)
    (hv : ∃ kind, Memory.Sound kernelP4 p2 v.mem (k.table.spaces.insert k.table.current v.space) k.pool kind)
    (hp4 : v.space.p4 = p.addressSpace.p4) : (Kernel.putSpace v k).Sound kernelP4 p2 ∧ Stays k (Kernel.putSpace v k) := by
  have hi : k.table.spaces[k.table.current]? = some p.addressSpace := ProcessTable.spaces_eq_some.mpr ⟨p, hp, rfl⟩
  refine ⟨⟨?_, h.regions, h.backbuf⟩, current_update .., rfl, rfl, fun a ha => ⟨v.space, ?_, ?_⟩⟩
  · rw [spaces_putSpace hp]
    exact hv
  · rw [spaces_putSpace hp]
    exact getElem?_insert_self
  · cases hi.symm.trans ha
    exact hp4

end Pool

/-! ### Mappings of regions -/

section Shm

variable {kernelP4 p2 i baseVa : ℕ} {spaces : Std.ExtTreeMap ℕ AddressSpace} {pool : List ℕ} {k : Kernel} {v : Vm} {ε : Type}
  {kind : ℕ → Kind}

/-- The invariant of the memory while the space of process `i` is being changed. -/
abbrev SoundAt (kernelP4 p2 : ℕ) (spaces : Std.ExtTreeMap ℕ AddressSpace) (pool : List ℕ) (i : ℕ) (v : Vm) : Prop :=
  ∃ kind, Memory.Sound kernelP4 p2 v.mem (spaces.insert i v.space) pool kind

structure MapsUpTo (kernelP4 p2 : ℕ) (spaces : Std.ExtTreeMap ℕ AddressSpace) (pool : List ℕ) (i : ℕ) (a : AddressSpace)
    (baseVa n : ℕ) (v : Vm) : Prop where
  sound : SoundAt kernelP4 p2 spaces pool i v
  p4 : v.space.p4 = a.p4
  done : ∀ x < n, (∃ f, v.space.mappedPages[baseVa / 4096 + x]? = some f) ∧
    Alone v.mem (spaces.insert i v.space) i (baseVa / 4096 + x)

theorem mapRegion_sound (writable : Bool) {a : AddressSpace} (fs : List ℕ) (n : ℕ) (hva : baseVa + (n + fs.length) * 4096 ≤ 2 ^ 47)
    (h : MapsUpTo kernelP4 p2 spaces pool i a baseVa n v) (hfs : ∀ f ∈ fs, f ∈ pool) :
    (mapRegion baseVa (pageFlags writable) n fs v).Post
      (fun _ v' => MapsUpTo kernelP4 p2 spaces pool i a baseVa (n + fs.length) v')
      (fun x v' => x < n + fs.length ∧ MapsUpTo kernelP4 p2 spaces pool i a baseVa x v') := by
  induction fs generalizing n v with
  | nil => exact h
  | cons f fs ih =>
    obtain ⟨⟨kind, hm⟩, hp4, hdone⟩ := h
    have hi : (spaces.insert i v.space)[i]? = some v.space := getElem?_insert_self
    rw [length_cons] at hva
    have hpage : (baseVa + n * 4096) / 4096 = baseVa / 4096 + n := Nat.add_mul_div_right _ _ (by decide)
    refine post_bind (post_add ..) ?_
    rintro _ _ ⟨rfl, rfl⟩
    rw [virtAddrNew_of_lt (by omega), pure_bind, hpage]
    refine post_bind (post_mapErr ((mapTo_sound (baseVa / 4096 + n) writable hm hi (hfs f mem_cons_self)).imp_err ?_)) ?_
    · rintro _ v' ⟨hsp, kind', hm', hs⟩
      refine ⟨by rw [length_cons]; omega, ⟨kind', hsp ▸ hm'⟩, hsp ▸ hp4, fun x hx => ?_⟩
      obtain ⟨⟨g, hg⟩, halone⟩ := hdone x hx
      rw [hsp]
      exact ⟨⟨g, hg⟩, hm.alone_steady hi hs hg halone⟩
    · rintro _ v' ⟨hsp, -, kind', p1, hm', hmaps⟩
      rw [insert_insert] at hm'
      have hrec : v'.space.mappedPages[baseVa / 4096 + n]? = some f := by
        rw [hsp]
        exact getElem?_insert_self
      obtain ⟨hnew, hold⟩ := hm.alone_of_maps hi hmaps
      rw [insert_insert, ← hsp] at hnew
      have hlen : n + (f :: fs).length = n + 1 + fs.length := by rw [length_cons]; omega
      have hva' : baseVa + (n + 1 + fs.length) * 4096 ≤ 2 ^ 47 := by rwa [← hlen]
      rw [hlen]
      refine ih (n + 1) hva' ⟨⟨kind', hm'⟩, ?_, fun x hx => ?_⟩ fun g hg => hfs g (mem_cons_of_mem _ hg)
      · rw [hsp]
        exact hp4
      · rcases Nat.lt_succ_iff_lt_or_eq.mp hx with hx | rfl
        · obtain ⟨⟨g, hg⟩, halone⟩ := hdone x hx
          have hne : baseVa / 4096 + x ≠ baseVa / 4096 + n := by omega
          have hkeep := hold _ g hg halone hne
          rw [insert_insert, ← hsp] at hkeep
          refine ⟨⟨g, ?_⟩, hkeep⟩
          rw [hsp]
          exact getElem?_insert_eq_some.mpr (.inr ⟨hne, hg⟩)
        · exact ⟨⟨f, hrec⟩, hnew⟩

theorem unmapPages_sound {pages : ℕ} (h : Memory.Sound kernelP4 p2 v.mem (spaces.insert i v.space) pool kind)
    (hva : baseVa + pages * 4096 ≤ 2 ^ 47)
    (halone : ∀ x < pages, Alone v.mem (spaces.insert i v.space) i (baseVa / 4096 + x)) :
    (unmapPages (ε := ε) baseVa pages v).Post
      (fun _ v' => v'.space.p4 = v.space.p4 ∧ SoundAt kernelP4 p2 spaces pool i v' ∧
        ∀ p f : ℕ, v'.space.mappedPages[p]? = some f ↔ v.space.mappedPages[p]? = some f ∧ ∀ x < pages, p ≠ baseVa / 4096 + x)
      (fun _ _ => False) := by
  -- `rest` are the pages still to unmap
  let I : List ℕ → Vm → Prop := fun rest v' => v'.space.p4 = v.space.p4 ∧
    SoundAt kernelP4 p2 spaces pool i v' ∧ rest.Nodup ∧
    (∀ x ∈ rest, x < pages ∧ Alone v'.mem (spaces.insert i v'.space) i (baseVa / 4096 + x)) ∧
    ∀ p f : ℕ, v'.space.mappedPages[p]? = some f ↔
      v.space.mappedPages[p]? = some f ∧ ∀ x < pages, x ∉ rest → p ≠ baseVa / 4096 + x
  have hstart : I (List.range pages) v := ⟨rfl, ⟨kind, h⟩, List.nodup_range,
    fun x hx => ⟨mem_range.mp hx, halone x (mem_range.mp hx)⟩,
    fun p f => ⟨fun hf => ⟨hf, fun x hx hnot => absurd (mem_range.mpr hx) hnot⟩, And.left⟩⟩
  refine (post_forM (I := I) hstart ?_).imp_ok ?_
  · rintro x rest w ⟨hp4, ⟨kind, hm⟩, hnodup, hrest, hpages⟩
    obtain ⟨hxrest, hnodup⟩ := List.nodup_cons.mp hnodup
    have hi : (spaces.insert i w.space)[i]? = some w.space := getElem?_insert_self
    obtain ⟨hx, hax⟩ := hrest x mem_cons_self
    have hpage : (baseVa + x * 4096) / 4096 = baseVa / 4096 + x := Nat.add_mul_div_right _ _ (by decide)
    have hlt : baseVa + x * 4096 < 2 ^ 47 := by omega
    -- page `x` is gone, whether it was there or not
    have hcut : ∀ {w' : Vm}, (∀ p f : ℕ, w'.space.mappedPages[p]? = some f ↔
        p ≠ baseVa / 4096 + x ∧ w.space.mappedPages[p]? = some f) → ∀ p f : ℕ, w'.space.mappedPages[p]? = some f ↔
          v.space.mappedPages[p]? = some f ∧ ∀ y < pages, y ∉ rest → p ≠ baseVa / 4096 + y := by
      intro w' hw p f
      rw [hw, hpages]
      constructor
      · rintro ⟨hne, hf, hnot⟩
        refine ⟨hf, fun y hy hyr => ?_⟩
        by_cases hyx : y = x
        · rw [hyx]
          exact hne
        · exact hnot y hy (List.not_mem_cons_of_ne_of_not_mem hyx hyr)
      · rintro ⟨hf, hnot⟩
        exact ⟨hnot x hx hxrest, hf, fun y hy hyr => hnot y hy fun h => hyr (mem_cons_of_mem x h)⟩
    have hun := unmapVa_sound hlt hm hi (by rw [hpage]; exact hax)
    rw [hpage] at hun
    refine post_bind (post_attempt (R := fun _ => I rest) (hun.imp ?_ ?_)) fun _ _ h => h
    · rintro _ w' ⟨hsp, hm', hleaf⟩
      rw [insert_insert] at hm'
      refine ⟨by rw [hsp]; exact hp4, ⟨kind, hm'⟩, hnodup, fun y hy => ?_, hcut fun p f => ?_⟩
      · obtain ⟨hy, hay⟩ := hrest y (mem_cons_of_mem _ hy)
        have hkeep := hm.alone_without hi hleaf (baseVa / 4096 + x) hay
        rw [insert_insert, ← hsp] at hkeep
        exact ⟨hy, hkeep⟩
      · rw [hsp]
        exact AddressSpace.getElem?_without
    · rintro _ _ ⟨rfl, hnone⟩
      refine ⟨hp4, ⟨kind, hm⟩, hnodup, fun y hy => hrest y (mem_cons_of_mem _ hy), hcut fun p f => ?_⟩
      refine ⟨fun hf => ⟨?_, hf⟩, And.right⟩
      rintro rfl
      cases hnone.symm.trans hf
  · rintro _ v' ⟨hp4, hm, -, -, hpages⟩
    refine ⟨hp4, hm, fun p f => (hpages p f).trans (and_congr_right fun _ => ?_)⟩
    exact ⟨fun hnot x hx => hnot x hx List.not_mem_nil, fun hnot x hx _ => hnot x hx⟩

theorem mapOrUndo_sound (writable : Bool) {frames : List ℕ}
    (h : Memory.Sound kernelP4 p2 v.mem (spaces.insert i v.space) pool kind)
    (hva : baseVa + frames.length * 4096 ≤ 2 ^ 47) (hf : ∀ f ∈ frames, f ∈ pool) :
    (mapOrUndo (ε := ε) baseVa (pageFlags writable) frames v).Post
      (fun _ v' => SoundAt kernelP4 p2 spaces pool i v' ∧
        v'.space.p4 = v.space.p4) (fun _ _ => False) := by
  let R : Except ℕ Unit → Vm → Prop := fun r v' => ∃ n ≤ frames.length,
    MapsUpTo kernelP4 p2 spaces pool i v.space baseVa n v' ∧ ∀ x, r = .error x → x = n
  have hstart : MapsUpTo kernelP4 p2 spaces pool i v.space baseVa 0 v :=
    ⟨⟨kind, h⟩, rfl, fun x hx => absurd hx (Nat.not_lt_zero x)⟩
  have hloop : (Exec.attempt (δ := ε) (mapRegion baseVa (pageFlags writable) 0 frames) v).Post R (fun _ _ => False) := by
    have hva' : baseVa + (0 + frames.length) * 4096 ≤ 2 ^ 47 := by rwa [Nat.zero_add]
    refine post_attempt ((mapRegion_sound writable frames 0 hva' hstart hf).imp (fun _ v' h => ?_) fun x v' h => ?_)
    · exact ⟨0 + frames.length, by omega, h, fun _ hx => nomatch hx⟩
    · exact ⟨x, by omega, h.2, fun _ hx => (Except.error.inj hx).symm⟩
  refine post_bind hloop ?_
  rintro r v' ⟨n, hn, ⟨⟨kind', hm'⟩, hp4, hdone⟩, hr⟩
  cases r with
  | ok _ => exact ⟨⟨kind', hm'⟩, hp4⟩
  | error x =>
    obtain rfl := hr x rfl
    have hva' : baseVa + x * 4096 ≤ 2 ^ 47 := (Nat.add_le_add_left (Nat.mul_le_mul_right 4096 hn) baseVa).trans hva
    refine post_bind (unmapPages_sound hm' hva' fun y hy => (hdone y hy).2) ?_
    rintro _ v'' ⟨hp4', hm'', -⟩
    exact ⟨hm'', hp4'.trans hp4⟩

theorem undoRef_sound (handle : ℕ) (h : k.Sound kernelP4 p2) :
    (undoRef (ε := ε) handle k).Post (fun _ => k.Safe kernelP4 p2) (fun _ _ => False) := by
  refine (undoRef_post handle k).imp_ok ?_
  rintro _ _ (⟨-, rfl⟩ | ⟨r, hr, rfl⟩)
  · exact ⟨h, .refl _⟩
  · exact ⟨h.setRegion _ hr rfl, .of_spaces⟩

/-- The window of the caller does not leave the lower half. -/
def Kernel.Mappable (k : Kernel) (handle : ℕ) : Prop :=
  ∀ r ∈ k.shm.table[handle]?, SHM_VA_BASE + ((k.shm.vaNext[k.table.current]?).getD 0 + r.frames.length) * 4096 ≤ 2 ^ 47
deriving Decidable

theorem sysShmMap_sound (handle mode : ℕ) (h : k.Sound kernelP4 p2) (hown : k.Own) (hva : k.Mappable handle) :
    (sysShmMap (ε := ε) handle mode k).Post (fun _ => k.Safe kernelP4 p2) (fun _ _ => False) := by
  cases hr : k.shm.table[handle]? with
  | none =>
    rw [sysShmMap_of_none mode hr]
    exact ⟨h, .refl k⟩
  | some r =>
    have h₁ : (k.mapping handle r).Sound kernelP4 p2 := (h.setRegion { r with refs := r.refs + 1 } hr rfl).congr
    have hstays₁ : Stays k (k.mapping handle r) := .of_spaces
    obtain ⟨a, ha, -⟩ := hown
    obtain ⟨p, hp, rfl⟩ := ProcessTable.spaces_eq_some.mp ha
    obtain ⟨kind, hm⟩ := h₁.getSpace hp
    have hva' : SHM_VA_BASE + k.shm.next k.table.current * 4096 + r.frames.length * 4096 ≤ 2 ^ 47 := by
      rw [Nat.add_assoc, ← Nat.add_mul]
      exact hva r hr
    have hpool : ∀ f ∈ r.frames, f ∈ (k.mapping handle r).pool := fun f hf =>
      Kernel.mem_pool.mpr (.inl ⟨handle, { r with refs := r.refs + 1 }, getElem?_insert_self, hf⟩)
    have hmap := mapOrUndo_sound (ε := ε) (v := ⟨k.mem, p.addressSpace⟩) (decide (mode &&& SHM_MODE_WRITE ≠ 0)) hm hva' hpool
    refine sysShmMap_rule hr ((inCurrent_post (k := k.mapping handle r) hp hmap).imp_err fun _ _ ⟨_, _, h⟩ => h) ?_ ?_
    · rintro _ ⟨b, v, -, rfl, hv, hp4⟩
      obtain ⟨h₂, hstays⟩ := h₁.putSpace (v := v) hp hv hp4
      exact ⟨h₂.congr, (hstays₁.trans hstays).trans (.of_spaces)⟩
    · rintro _ _ ⟨b, v, -, rfl, hv, hp4⟩ -
      obtain ⟨h₂, hstays⟩ := h₁.putSpace (v := v) hp hv hp4
      exact (undoRef_sound handle h₂).imp_ok (fun _ _ h => ⟨h.1, (hstays₁.trans hstays).trans h.2⟩)

theorem Kernel.Sound.dropRegion {handle : ℕ} {r : ShmRegion} {m : PhysMem} (h : k.Sound kernelP4 p2)
    (hr : k.shm.table[handle]? = some r) (hfree : ∀ f ∈ r.frames, holders k.table.spaces f = 0)
    (hfrees : Frees k.mem (· ∈ r.frames) m) (hrc : m.refcount = k.mem.refcount) : Kernel.Sound kernelP4 p2
      { k with mem := m, shm := { k.shm with table := k.shm.table.erase handle } } := by
  obtain ⟨⟨kind, hm⟩, hregions, hbackbuf⟩ := h
  refine ⟨⟨_, hm.freePages hfrees hrc (fun f hf => ⟨hm.lent f (Kernel.mem_pool_region hr hf), hfree f hf⟩)
    fun f => ?_⟩, fun i j s s' f hi hj => ?_, fun i s f hi => ?_⟩
  · rw [Kernel.mem_pool, Kernel.mem_pool]
    constructor
    · rintro (⟨i, s, hi, hf⟩ | hf)
      · obtain ⟨hne, hi⟩ := getElem?_erase_eq_some.mp hi
        exact ⟨.inl ⟨i, s, hi, hf⟩, fun hf' => hne (hregions i handle s r f hi hr hf hf')⟩
      · exact ⟨.inr hf, fun hf' => hbackbuf handle r f hr hf' hf⟩
    · rintro ⟨⟨i, s, hi, hf⟩ | hf, hnot⟩
      · refine .inl ⟨i, s, getElem?_erase_eq_some.mpr ⟨?_, hi⟩, hf⟩
        rintro rfl
        cases hr.symm.trans hi
        exact hnot hf
      · exact .inr hf
  · exact hregions i j s s' f (getElem?_erase_eq_some.mp hi).2 (getElem?_erase_eq_some.mp hj).2
  · exact hbackbuf i s f (getElem?_erase_eq_some.mp hi).2

theorem releaseRef_sound (handle : ℕ) (h : k.Sound kernelP4 p2)
    (hlast : ∀ r, k.shm.table[handle]? = some r → r.refs ≤ 1 → ∀ f ∈ r.frames, holders k.table.spaces f = 0) :
    (releaseRef (ε := ε) handle k).Post
      (fun _ k' => k'.Sound kernelP4 p2 ∧ k'.table = k.table ∧ Stays k k' ∧ ∀ (i : ℕ) (r' : ShmRegion),
        k'.shm.table[i]? = some r' → ∃ r, k.shm.table[i]? = some r ∧ r'.frames = r.frames ∧
          r.refs = r'.refs + if i = handle then 1 else 0)
      (fun _ _ => False) := by
  refine releaseRef_rule (fun hr => ⟨h, rfl, .refl k, fun i r' hi => ⟨r', hi, rfl, ?_⟩⟩)
    (fun r m hr hrefs hfrees hrc => ⟨h.dropRegion hr (hlast r hr (by omega)) hfrees hrc, rfl, .of_spaces, fun i r' hi => ?_⟩)
    fun r hr hrefs => ⟨h.setRegion { r with refs := r.refs - 1 } hr rfl, rfl, .of_spaces, fun i r' hi => ?_⟩
  · rw [if_neg]
    · rfl
    · rintro rfl
      cases hr.symm.trans hi
  · obtain ⟨hne, hi⟩ := getElem?_erase_eq_some.mp hi
    exact ⟨r', hi, rfl, by rw [if_neg hne]; rfl⟩
  · rcases getElem?_insert_eq_some.mp hi with ⟨rfl, rfl⟩ | ⟨hne, hi⟩
    · exact ⟨r, hr, rfl, by rw [if_pos rfl]; dsimp only; omega⟩
    · exact ⟨r', hi, rfl, by rw [if_neg hne]; rfl⟩

def Kernel.Releasable (k : Kernel) (l : List ShmMapping) : Prop :=
  ∀ x ∈ k.shm.table.toList, (∃ m ∈ l, m.handle = x.1) → x.2.refs ≤ l.countP (·.handle = x.1) →
    ∀ f ∈ x.2.frames, holders k.table.spaces f = 0
deriving Decidable

theorem Kernel.Releasable.next {m : ShmMapping} {l : List ShmMapping} (h : k.Releasable (m :: l))
    (ht : k'.table = k.table)
    (hregions : ∀ (i : ℕ) (r' : ShmRegion), k'.shm.table[i]? = some r' → ∃ r, k.shm.table[i]? = some r ∧
      r'.frames = r.frames ∧ r.refs = r'.refs + if i = m.handle then 1 else 0) : k'.Releasable l := by
  rintro ⟨i, r'⟩ hmem ⟨n, hn, hni⟩ hrefs f hf
  obtain ⟨r, hr, hframes, hcount⟩ := hregions i r' (mem_toList_iff_getElem?_eq_some.mp hmem)
  dsimp only at hni hrefs hf
  rw [ht]
  refine h (i, r) (mem_toList_iff_getElem?_eq_some.mpr hr) ⟨n, mem_cons_of_mem _ hn, hni⟩ ?_ f (hframes ▸ hf)
  rw [List.countP_cons]
  simp only [decide_eq_true_eq, eq_comm (a := m.handle)]
  omega

theorem cleanupPid_sound (pid : ℕ) (h : k.Sound kernelP4 p2)
    (hrel : k.Releasable (k.shm.mappings.filter (·.pid = pid))) :
    (cleanupPid (ε := ε) pid k).Post (fun _ => k.Safe kernelP4 p2) (fun _ _ => False) := by
  unfold cleanupPid
  rw [get_bind]
  refine post_bind (onShm_post _ k) ?_
  rintro _ _ rfl
  refine post_bind (post_forM (I := fun l k' => k.Safe kernelP4 p2 k' ∧ k'.Releasable l) ⟨⟨h.congr, .of_spaces⟩, hrel⟩ ?_) ?_
  · rintro m l k' ⟨⟨h', hstays⟩, hrel'⟩
    refine (releaseRef_sound m.handle h' fun r hr hrefs => ?_).imp_ok ?_
    · refine hrel' (m.handle, r) (mem_toList_iff_getElem?_eq_some.mpr hr) ⟨m, mem_cons_self, rfl⟩ ?_
      exact hrefs.trans (List.countP_pos_iff.mpr ⟨m, mem_cons_self, by simp⟩)
    · rintro _ k'' ⟨h'', ht', hstays', hregions⟩
      exact ⟨⟨h'', hstays.trans hstays'⟩, hrel'.next ht' hregions⟩
  · rintro _ k' ⟨⟨h', hstays⟩, -⟩
    exact ⟨h'.congr, hstays.trans (.of_spaces)⟩

/-- No other page has a leaf of the mapping, and nothing else is recorded of a region that goes with it. -/
def Kernel.Unmappable (k : Kernel) (m : ShmMapping) : Prop :=
  m.baseVa + m.pages * 4096 ≤ 2 ^ 47 ∧
  (∀ x ∈ List.range m.pages, Alone k.mem k.table.spaces k.table.current (m.baseVa / 4096 + x)) ∧
  ∀ r ∈ k.shm.table[m.handle]?, r.refs ≤ 1 → ∀ x ∈ k.table.spaces.toList, ∀ y ∈ x.2.mappedPages.toList,
    y.2 ∈ r.frames → x.1 = k.table.current ∧ m.baseVa / 4096 ≤ y.1 ∧ y.1 < m.baseVa / 4096 + m.pages
deriving Decidable

theorem sysShmUnmap_sound (ptr : ℕ) (h : k.Sound kernelP4 p2) (hown : k.Own)
    (hun : ∀ m ∈ k.shm.mappings, m.pid = k.table.current → m.baseVa = ptr → k.Unmappable m) :
    (sysShmUnmap (ε := ε) ptr k).Post (fun _ => k.Safe kernelP4 p2) (fun _ _ => False) := by
  refine sysShmUnmap_rule ⟨h, .refl k⟩ fun i mapping hget hpid hbase => ?_
  obtain ⟨hva, halone, hlast⟩ := hun mapping (List.mem_of_getElem? hget) hpid hbase
  let k₁ : Kernel := { k with shm := { k.shm with mappings := swapRemove k.shm.mappings i } }
  have h₁ : k₁.Sound kernelP4 p2 := h.congr
  obtain ⟨a, ha, -⟩ := hown
  obtain ⟨p, hp, rfl⟩ := ProcessTable.spaces_eq_some.mp ha
  obtain ⟨kind, hm⟩ := h₁.getSpace hp
  have hself : k.table.spaces.insert k.table.current p.addressSpace = k.table.spaces := TreeMap.insert_of_getElem?_eq_some ha
  have hloop := unmapPages_sound (ε := ε) (v := ⟨k.mem, p.addressSpace⟩) hm hva fun x hx => by
    rw [hself]
    exact halone x (mem_range.mpr hx)
  refine post_bind (inCurrent_post (k := k₁) hp hloop |>.imp_err fun _ _ ⟨_, _, h⟩ => h) ?_
  rintro _ _ ⟨_, v, rfl, rfl, hp4, hv, hpages⟩
  obtain ⟨h₂, hstays⟩ := h₁.putSpace (v := v) hp hv hp4
  refine post_bind (releaseRef_sound mapping.handle h₂ fun r hr hrefs f hf => holders_eq_zero.mpr ?_) ?_
  · intro j b hj hfb
    obtain ⟨page, hpage⟩ := AddressSpace.mem_frames.mp hfb
    have hrec : ∀ c : AddressSpace, k.table.spaces[j]? = some c → c.mappedPages[page]? = some f →
        j = k.table.current ∧ mapping.baseVa / 4096 ≤ page ∧ page < mapping.baseVa / 4096 + mapping.pages := fun c hc hcp =>
      hlast r hr hrefs (j, c) (mem_toList_iff_getElem?_eq_some.mpr hc) (page, f) (mem_toList_iff_getElem?_eq_some.mpr hcp) hf
    rw [spaces_putSpace (k := k₁) hp] at hj
    rcases getElem?_insert_eq_some.mp hj with ⟨rfl, rfl⟩ | ⟨hne, hj⟩
    · obtain ⟨hold, hnot⟩ := (hpages page f).mp hpage
      obtain ⟨-, hle, hlt⟩ := hrec _ ha hold
      exact hnot (page - mapping.baseVa / 4096) (by omega) (by omega)
    · exact hne (hrec b hj hpage).1
  · rintro _ k' ⟨h', -, hstays', -⟩
    exact ⟨h', ((Stays.of_spaces : Stays k k₁).trans hstays).trans hstays'⟩

end Shm

/-! ### The back buffer -/

section Backbuf

variable {kernelP4 p2 i : ℕ} {spaces : Std.ExtTreeMap ℕ AddressSpace} {pool : List ℕ} {k : Kernel} {v : Vm} {ε : Type}

theorem ensureBackbuf_sound (len : ℕ) (h : k.Sound kernelP4 p2) :
    (ensureBackbuf (ε := ε) len k).Post (fun _ => k.Safe kernelP4 p2) (fun _ _ => False) := by
  refine ensureBackbuf_rule (fun _ => ⟨h, .refl k⟩) fun hnil => ?_
  obtain ⟨⟨kind, hm⟩, hregions, hbackbuf⟩ := h
  refine (allocFrames_sound _ hm).imp ?_ fun _ m hm' => ⟨⟨hm', hregions, hbackbuf⟩, .of_spaces⟩
  rintro frames m ⟨kind', hm', hfresh⟩
  refine ⟨⟨⟨kind', hm'.lend (fun f hf => ?_) fun f hf => ?_⟩, hregions, fun j r f hj hf hmem => ?_⟩, .of_spaces⟩
  · rcases Kernel.mem_pool.mp hf with hf | hf
    · exact Kernel.mem_pool.mpr (.inl hf)
    · rw [hnil] at hf
      cases hf
  · rcases Kernel.mem_pool.mp hf with hf | hf
    · exact .inl (Kernel.mem_pool.mpr (.inl hf))
    · exact .inr ⟨(hfresh f hf).data, (hfresh f hf).low⟩
  · exact (hfresh f hmem).notLent (Kernel.mem_pool_region hj hf)

theorem mapBackbuf_sound (fs : List ℕ) (n : ℕ) {kind : ℕ → Kind}
    (h : Memory.Sound kernelP4 p2 v.mem (spaces.insert i v.space) pool kind) (hfs : ∀ f ∈ fs, f ∈ pool) :
    (mapBackbuf (ε := ε) n fs v).Post
      (fun _ v' => SoundAt kernelP4 p2 spaces pool i v' ∧
        v'.space.p4 = v.space.p4) (fun _ _ => False) := by
  induction fs generalizing n v kind with
  | nil => exact ⟨⟨kind, h⟩, rfl⟩
  | cons f fs ih =>
    have hi : (spaces.insert i v.space)[i]? = some v.space := getElem?_insert_self
    refine post_bind (virtAddrNew_post _ v) ?_
    rintro va _ hv
    rw [hv]
    let R : Except String Unit → Vm → Prop := fun _ v' =>
      SoundAt kernelP4 p2 spaces pool i v' ∧ v'.space.p4 = v.space.p4
    have hmap : (Exec.attempt (δ := ε) (AddressSpace.mapTo (va / 4096) f USER_RW) v).Post R (fun _ _ => False) := by
      refine post_attempt ((mapTo_sound (va / 4096) true h hi (hfs f mem_cons_self)).imp ?_ ?_)
      · rintro _ v' ⟨hsp, -, kind', -, hm', -⟩
        rw [insert_insert] at hm'
        exact ⟨⟨kind', hm'⟩, by rw [hsp]; rfl⟩
      · rintro _ v' ⟨hsp, kind', hm', -⟩
        exact ⟨⟨kind', hsp ▸ hm'⟩, by rw [hsp]⟩
    refine post_bind hmap ?_
    rintro _ v' ⟨⟨kind', hm'⟩, hp4⟩
    refine (ih (n + 1) hm' fun g hg => hfs g (mem_cons_of_mem _ hg)).imp_ok ?_
    rintro _ v'' ⟨hm'', hp4'⟩
    exact ⟨hm'', hp4'.trans hp4⟩

theorem sysFbAcquire_sound (outPtr : ℕ) (h : k.Sound kernelP4 p2) (hown : k.Own) :
    (sysFbAcquire (ε := ε) outPtr k).Post (fun _ => k.Safe kernelP4 p2) (fun _ _ => False) := by
  refine sysFbAcquire_rule (R := fun _ => k.Safe kernelP4 p2) (S := fun _ => k.Safe kernelP4 p2) (fun _ => ⟨h, .refl k⟩)
    (fun _ => ⟨h.congr, .of_spaces⟩) (fun g _ _ => (ensureBackbuf_sound _ h.congr).imp_ok fun _ _ h' => ?_) (fun _ h => h)
    (fun k' h' => ?_) (fun _ h => ⟨h.1.congr, h.2.trans .of_spaces⟩) fun _ h => ⟨h.1.congr, h.2.trans .of_spaces⟩
  · exact ⟨h'.1, Stays.trans .of_spaces h'.2⟩
  · obtain ⟨a, ha, -⟩ := h'.2.own hown
    obtain ⟨p, hp, rfl⟩ := ProcessTable.spaces_eq_some.mp ha
    obtain ⟨kind, hm⟩ := h'.1.getSpace hp
    have hmap := mapBackbuf_sound (ε := ε) (v := ⟨k'.mem, p.addressSpace⟩) k'.fb.frames 0 hm fun f hf =>
      Kernel.mem_pool.mpr (.inr hf)
    refine (inCurrent_post hp hmap).imp ?_ fun _ _ ⟨_, _, h⟩ => h
    rintro _ _ ⟨_, v, rfl, rfl, hv, hp4⟩
    obtain ⟨h₂, hstays⟩ := h'.1.putSpace (v := v) hp hv hp4
    exact ⟨h₂, h'.2.trans hstays⟩

end Backbuf

/-! ### Leaving ring 3 -/

section Switch

variable {kernelP4 p2 : ℕ} {k : Kernel} {ε : Type} {E : ε → Kernel → Prop}

structure Placed (kernelP4 : ℕ) (mode : Mode) (k : Kernel) : Prop where
  returnCr3 : ∀ c ∈ k.returnCr3, c = kernelP4
  shell : mode = .shell → k.cr3 = kernelP4
  ring3 : ∀ n regs, mode = .user n regs → k.Own

theorem scheduleNext_sound (h : k.Sound kernelP4 p2) (hret : ∀ c ∈ k.returnCr3, c = kernelP4) :
    (scheduleNext k).Post (fun mode k' => k'.Sound kernelP4 p2 ∧ Placed kernelP4 mode k') E :=
  scheduleNext_rule
    (fun _ p _ hp => ⟨h.congr, hret, nofun, fun _ _ _ => ⟨p.addressSpace, ProcessTable.spaces_eq_some.mpr ⟨p, hp, rfl⟩, rfl⟩⟩)
    (fun _ _ => ⟨h.congr, hret, nofun, nofun⟩) fun cr3 _ hc => ⟨h.congr, nofun, fun _ => hret cr3 hc, nofun⟩

/-- The regions that go with the mappings of the current process are recorded by nobody. -/
def Kernel.CanExit (k : Kernel) : Prop := k.Releasable (k.shm.mappings.filter (·.pid = k.table.current))
deriving Decidable

theorem Kernel.Sound.onTable {t : ProcessTable} (h : k.Sound kernelP4 p2) (ht : t.spaces = k.table.spaces) :
    Kernel.Sound kernelP4 p2 { k with table := t } :=
  h.congr rfl ht rfl rfl

theorem exitCurrent_sound (code : ℤ) (h : k.Sound kernelP4 p2) (hret : ∀ c ∈ k.returnCr3, c = kernelP4)
    (hrel : k.CanExit) : (exitCurrent code k).Post (fun mode k' => k'.Sound kernelP4 p2 ∧ Placed kernelP4 mode k') E := by
  have h₁ : (released k).Sound kernelP4 p2 := h.congr rfl rfl rfl (frames_released k)
  refine exitCurrent_rule ((cleanupPid_sound k.table.current h₁ hrel).never) ?_
  rintro p k₂ - ⟨h₂, hstays⟩
  refine scheduleNext_sound (h₂.onTable (ProcessTable.spaces_exit ..)) fun c hc => hret c ?_
  rwa [← show k₂.returnCr3 = k.returnCr3 from hstays.returnCr3]

theorem deliverPending_sound (h : k.Sound kernelP4 p2) (hret : ∀ c ∈ k.returnCr3, c = kernelP4)
    (hrel : k.table.current ≠ 0 → (∃ p ∈ k.table.currentProcess, p.signals ≠ []) → k.CanExit) :
    (deliverPending k).Post (fun r k' => match r with
      | none => k' = k
      | some mode => k'.Sound kernelP4 p2 ∧ Placed kernelP4 mode k') E := by
  refine deliverPending_rule (fun _ => rfl) fun p sig rest h0 hp hs => ?_
  have hspaces := ProcessTable.spaces_update (f := Process.withSignals rest) k.table k.table.current fun _ => rfl
  refine exitCurrent_sound sig.exitCode (h.onTable hspaces) hret ?_
  unfold Kernel.CanExit Kernel.Releasable
  rw [hspaces, current_update]
  exact hrel h0 ⟨p, hp, by rw [hs]; exact List.cons_ne_nil _ _⟩

theorem reschedule_sound (frame : TrapFrame) (h : k.Sound kernelP4 p2) (hown : k.Own) (hret : ∀ c ∈ k.returnCr3, c = kernelP4) :
    (reschedule frame k).Post (fun _ k' => k'.Sound kernelP4 p2 ∧ k'.Own ∧ ∀ c ∈ k'.returnCr3, c = kernelP4) E := by
  have hspaces := ProcessTable.spaces_save k.table frame
  have h' : Kernel.Sound kernelP4 p2 { k with table := k.table.save frame } := h.onTable hspaces
  refine reschedule_rule (fun _ => ⟨h'.congr, ?_, hret⟩) fun _ p _ _ hp =>
    ⟨h'.congr, ⟨p.addressSpace, ProcessTable.spaces_eq_some.mpr ⟨p, hp, rfl⟩, rfl⟩, hret⟩
  -- the running process has been saved
  obtain ⟨a, ha, hp4⟩ := hown
  refine ⟨a, ?_, hp4⟩
  show (k.table.save frame).spaces[(k.table.save frame).current]? = some a
  rw [hspaces, ProcessTable.current_save, ha]

end Switch

end RustKernel
