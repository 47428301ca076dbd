import RustKernel.Ipc.Mapping

/-!
# Calls on shared memory that fail

`sys_shm_create` and `sys_shm_map` take frames and pages one after the other, and each has a loop that gives back what it
took when the next one is missing. Do the two loops cancel?
-/

namespace RustKernel

open Lib Exec Memory RustKernel.Task Ipc

section Calls

variable {ε : Type} {k : Kernel} {kernelP4 p2 : ℕ}

theorem sysShmCreate_failed (size : ℕ) (hnext : k.shm.nextHandle ≠ U64_MAX) : (sysShmCreate (ε := ε) size k).Post
    (fun ret k' => ret = U64_MAX → (∀ f, k'.mem.isUsed f = k.mem.isUsed f) ∧ k'.shm = k.shm) (fun _ _ => False) := by
  -- the frames in use are those there were and those taken, which were free
  let I : List ℕ → PhysMem → Prop := fun l m =>
    (∀ f, m.isUsed f = true ↔ k.mem.isUsed f = true ∨ f ∈ l) ∧ ∀ f ∈ l, k.mem.isUsed f = false
  have hstart : I [] k.mem := ⟨by simp, nofun⟩
  refine sysShmCreate_rule (fun _ => ⟨fun _ => rfl, rfl⟩) ((allocFrames_rule (I := I) ?_ _ hstart).imp
    (fun _ _ _ h => absurd h hnext) ?_)
  · rintro l m m' f ⟨hused, hfree⟩ hf
    have hfresh : k.mem.isUsed f = false := by
      rw [← Bool.not_eq_true]
      intro h
      cases hf.fresh.symm.trans ((hused f).mpr (.inl h))
    refine ⟨fun g => ?_, fun g hg => ?_⟩
    · rw [hf.used, hused, List.mem_append, List.mem_singleton]
      tauto
    · rcases List.mem_append.mp hg with hg | hg
      · exact hfree g hg
      · rwa [List.mem_singleton.mp hg]
  · rintro _ m ⟨l, m₁, ⟨hused, hfree⟩, hfrees, -⟩ -
    refine ⟨fun f => Bool.eq_iff_iff.mpr ?_, rfl⟩
    rw [hfrees.used, hused]
    refine ⟨fun h => h.1.resolve_right h.2, fun h => ⟨.inl h, fun hmem => ?_⟩⟩
    cases (hfree f hmem).symm.trans h

/-- What `sys_shm_map` reads is in order: the tables of the caller are a tree, and the window is in the half of ring 3. -/
def Kernel.InOrder (k : Kernel) (handle : ℕ) : Prop := ∀ r ∈ k.shm.table[handle]?, ∀ a ∈ k.table.spaces[k.table.current]?,
  k.Mappable handle ∧ Tree k.mem a.p4 ∧ ∃ kind, Layout k.mem kind ∧ kind a.p4 = .table 4

/-- A page of the window that is recorded, unless it is the last, has a page that is in use at or before it. -/
def Kernel.Guarded (k : Kernel) (handle : ℕ) : Prop := ∀ r ∈ k.shm.table[handle]?, ∀ a ∈ k.table.spaces[k.table.current]?,
  ∀ x < r.frames.length - 1, (a.mappedPages[SHM_VA_BASE / 4096 + k.shm.next k.table.current + x]?).isSome →
    ∃ y < x + 1, ¬ Vacant k.mem (SHM_VA_BASE / 4096 + k.shm.next k.table.current + y) 4 a.p4

instance (k : Kernel) (handle : ℕ) : Decidable (k.Guarded handle) :=
  inferInstanceAs (Decidable (∀ r ∈ k.shm.table[handle]?, ∀ a ∈ k.table.spaces[k.table.current]?, _))

/-- There are three frames for each page of the region, and one more. -/
def Kernel.Affords (k : Kernel) (handle : ℕ) : Prop :=
  ∀ r ∈ k.shm.table[handle]?, 3 * r.frames.length < k.mem.frames.available

/-- The pages that are recorded for the caller. -/
def Kernel.recorded (k : Kernel) (pid : ℕ) : Option (Std.ExtTreeMap ℕ ℕ) :=
  k.table.spaces[pid]?.map (·.mappedPages)

theorem sysShmMap_failed (handle mode : ℕ) (h : k.InOrder handle) : (sysShmMap (ε := ε) handle mode k).Post
    (fun ret k' => ret = U64_MAX → (k.Guarded handle → k'.table = k.table) ∧
      (k.Affords handle → k'.recorded k.table.current = k.recorded k.table.current → k.Guarded handle)) (fun _ _ => False) := by
  cases hr : k.shm.table[handle]? with
  | none =>
    rw [sysShmMap_of_none mode hr]
    refine fun _ => ⟨fun _ => rfl, fun _ _ r hr' => ?_⟩
    rw [hr] at hr'
    cases hr'
  | some r =>
    let R : Option Bool → Kernel → Prop := fun b k' => b ≠ some true → (k.Guarded handle → k'.table = k.table) ∧
      (k.Affords handle → k'.recorded k.table.current = k.recorded k.table.current → k.Guarded handle)
    have hmap : (inCurrent (ε := ε) (mapOrUndo (SHM_VA_BASE + k.shm.next k.table.current * 4096)
        (pageFlags (mode &&& SHM_MODE_WRITE ≠ 0)) r.frames) (k.mapping handle r)).Post R (fun _ _ => False) := by
      cases hp : k.table.procs[k.table.current]? with
      | none =>
        unfold inCurrent
        rw [get_bind, show (k.mapping handle r).table.currentProcess = none from hp]
        refine fun _ => ⟨fun _ => rfl, fun _ _ _ _ a ha => ?_⟩
        obtain ⟨p, hp', -⟩ := ProcessTable.spaces_eq_some.mp ha
        cases hp.symm.trans hp'
      | some p =>
        have ha : k.table.spaces[k.table.current]? = some p.addressSpace := ProcessTable.spaces_eq_some.mpr ⟨p, hp, rfl⟩
        obtain ⟨hva, htree, kind, hl, hp4⟩ := h r hr _ ha
        have hva' : SHM_VA_BASE + k.shm.next k.table.current * 4096 + r.frames.length * 4096 ≤ 2 ^ 47 := by
          rw [Nat.add_assoc, ← Nat.add_mul]
          exact hva r hr
        refine (inCurrent_post (k := k.mapping handle r) hp (mapOrUndo_stops (v := ⟨k.mem, p.addressSpace⟩) hva'
          (mapFlags_pageFlags _) htree hl hp4)).imp ?_ fun _ _ ⟨_, _, h⟩ => h
        rintro _ _ ⟨b, v, rfl, rfl, hb⟩ hne
        obtain ⟨hroot, i, hi, ⟨hfirst, hout⟩, hpages⟩ := hb (by simpa using hne)
        rw [Nat.add_mul_div_right _ _ (by decide)] at hfirst hout hpages
        refine ⟨fun hguard => table_putSpace hp ?_, fun hleft hsame => ?_⟩
        · -- no page that the rollback removes was recorded
          have hmapped : v.space.mappedPages = p.addressSpace.mappedPages := Std.ExtTreeMap.ext_getElem? fun q => by
            rw [hpages]
            split_ifs with hq
            · obtain ⟨x, rfl⟩ := Nat.exists_eq_add_of_le hq.1
              refine (Option.not_isSome_iff_eq_none.mp fun hsome => ?_).symm
              obtain ⟨y, hy, hno⟩ := hguard r hr _ ha x (by omega) hsome
              have := hfirst y hno
              omega
            · rfl
          rw [show v.space = ⟨v.space.p4, v.space.mappedPages⟩ from rfl, hroot, hmapped]
        · intro r' hr' a' ha' x hx hsome
          obtain rfl := Option.mem_unique hr hr'
          obtain rfl := Option.mem_unique ha ha'
          by_contra hno
          have hxi : x < i := by
            by_contra hle
            have : k.mem.frames.available ≤ 3 * (i + 1) := (hout (not_not.mp fun hused => hno ⟨i, by omega, hused⟩)).2
            have := hleft r hr
            omega
          have hnone := hpages (SHM_VA_BASE / 4096 + k.shm.next k.table.current + x)
          have hrec : some v.space.mappedPages = some p.addressSpace.mappedPages := by
            unfold Kernel.recorded at hsame
            rwa [spaces_putSpace (k := k.mapping handle r) hp, ha, show (k.mapping handle r).table.current = k.table.current from rfl,
              Std.ExtTreeMap.getElem?_insert_self] at hsame
          rw [if_pos (by omega), Option.some.inj hrec] at hnone
          rw [hnone] at hsome
          cases hsome
    refine sysShmMap_rule hr hmap (fun _ _ hmax => absurd hmax (shmVa_ne_max _)) fun b k' hb hne => ?_
    refine (undoRef_post handle k').imp_ok ?_
    rintro _ _ (⟨-, rfl⟩ | ⟨_, -, rfl⟩)
    · exact fun _ => hb hne
    · exact fun _ => hb hne

theorem sysShmUnmap_failed (ptr : ℕ) : (sysShmUnmap (ε := ε) ptr k).Post (fun ret k' => ret = U64_MAX → k' = k)
    (fun _ _ => True) := by
  refine sysShmUnmap_rule (fun _ => rfl) fun i m _ _ _ => ?_
  refine post_bind ((inCurrent _ _).post_true.imp_err fun _ _ _ => trivial) fun _ k₁ _ => ?_
  exact post_bind ((releaseRef _ k₁).post_true.imp_err fun _ _ _ => trivial) fun _ _ _ h => by cases h

end Calls

def forkUnmapped : List Event := [.spawn (some Fs.tinyImage) none, .runAll, .syscall (.shmCreate 1), .syscall (.shmMap 1 2),
  .syscall (.shmCreate 1), .syscall (.shmMap 2 2), .syscall .fork, .syscall (.shmUnmap SHM_VA_BASE),
  .syscall (.shmCreate 8192), .tick]

end RustKernel
