import RustKernel.Kernel.Storage

/-!
# The accounts of shared memory

A region counts its mappings, and a list has a record for each of them. Three calls and every exit change the two, the
calls also on their way to failing.
-/

namespace RustKernel

open Lib Exec Memory RustKernel.Task Ipc Gfx
open TreeMap (getElem?_insert_eq_some getElem?_insert_eq_update)
open Std.ExtTreeMap (getElem?_insert_self)

/-! ### The tables, call by call -/

def records (l : List ShmMapping) (handle : ℕ) : ℕ := l.countP (·.handle == handle)

def Shm.release (shm : Shm) (handle : ℕ) : Shm :=
  match shm.table[handle]? with
  | none => shm
  | some r =>
    if r.refs - 1 = 0 then { shm with table := shm.table.erase handle }
    else { shm with table := shm.table.insert handle { r with refs := r.refs - 1 } }

def Shm.releaseAll (shm : Shm) : List ShmMapping → Shm
  | [] => shm
  | m :: ms => (shm.release m.handle).releaseAll ms

def Shm.cleanup (shm : Shm) (pid : ℕ) : Shm :=
  let rest := Shm.releaseAll { shm with mappings := shm.mappings.filter (·.pid ≠ pid) } (shm.mappings.filter (·.pid = pid))
  { rest with vaNext := rest.vaNext.erase pid }

def Shm.mapped (shm : Shm) (pid handle : ℕ) (r : ShmRegion) : Shm :=
  { shm.refused pid r with
    table := shm.table.insert handle { r with refs := r.refs + 1 }
    mappings := shm.mappings ++
      [{ pid, handle, baseVa := SHM_VA_BASE + shm.next pid * 4096, pages := r.frames.length }] }

structure Returned (k k' : Kernel) : Prop where
  free : ∀ f, k'.mem.isUsed f = true → k.mem.isUsed f = true
  frames : ∀ (h : ℕ) r', k'.shm.table[h]? = some r' → ∃ r, k.shm.table[h]? = some r ∧ r'.frames = r.frames
  gone : ∀ (h : ℕ) r, k.shm.table[h]? = some r → k'.shm.table[h]? = none → ∀ f ∈ r.frames, k'.mem.isUsed f = false

theorem Returned.of_same {k k' : Kernel} (hmem : k'.mem = k.mem) (hshm : k'.shm.table = k.shm.table) : Returned k k' := by
  refine ⟨fun f hf => by rwa [hmem] at hf, fun h r' hr' => ⟨r', hshm ▸ hr', rfl⟩, fun h r hr hnone => ?_⟩
  rw [hshm, hr] at hnone
  cases hnone

theorem Returned.trans {k k' k'' : Kernel} (h : Returned k k') (h' : Returned k' k'') : Returned k k'' := by
  refine ⟨fun f hf => h.free f (h'.free f hf), fun i r'' hr'' => ?_, fun i r hr hnone f hf => ?_⟩
  · obtain ⟨r', hr', hframes'⟩ := h'.frames i r'' hr''
    obtain ⟨r, hr, hframes⟩ := h.frames i r' hr'
    exact ⟨r, hr, hframes'.trans hframes⟩
  · cases hr' : k'.shm.table[i]? with
    | some r' =>
      obtain ⟨r₀, hr₀, hframes⟩ := h.frames i r' hr'
      cases hr.symm.trans hr₀
      exact h'.gone i r' hr' hnone f (hframes ▸ hf)
    | none =>
      have hfree := h.gone i r hr hr' f hf
      by_contra hused
      cases (h'.free f (by simpa using hused)).symm.trans hfree

section Calls

variable {ε : Type} {k k' : Kernel}

theorem releaseRef_shm (handle : ℕ) (k : Kernel) : (releaseRef (ε := ε) handle k).Post
    (fun _ k' => k'.shm = k.shm.release handle ∧ Returned k k') (fun _ _ => False) := by
  refine releaseRef_rule (fun hr => ?_) (fun r m hr hrefs hfrees _ => ?_) fun r hr hrefs => ?_
  · rw [Shm.release, hr]
    exact ⟨rfl, .of_same rfl rfl⟩
  · -- the last mapping
    rw [Shm.release, hr]
    refine ⟨(if_pos hrefs).symm, fun f hf => ((hfrees.used f).1 hf).1, fun i r' hr' => ?_, fun i r₀ hr₀ hnone f hf => ?_⟩
    · exact ⟨r', (TreeMap.getElem?_erase_eq_some.1 hr').2, rfl⟩
    · by_cases hi : i = handle
      · subst hi
        cases hr.symm.trans hr₀
        by_contra hused
        exact ((hfrees.used f).1 (by simpa using hused)).2 hf
      · cases hnone.symm.trans (TreeMap.getElem?_erase_eq_some.2 ⟨hi, hr₀⟩)
  · rw [Shm.release, hr]
    refine ⟨(if_neg hrefs).symm, fun f hf => hf, fun i r' hr' => ?_, fun i r₀ hr₀ hnone => ?_⟩
    · rcases getElem?_insert_eq_some.1 hr' with ⟨rfl, rfl⟩ | ⟨-, hr'⟩
      · exact ⟨r, hr, rfl⟩
      · exact ⟨r', hr', rfl⟩
    · by_cases hi : i = handle
      · subst hi
        cases hnone.symm.trans getElem?_insert_self
      · cases hnone.symm.trans (getElem?_insert_eq_some.2 (.inr ⟨hi, hr₀⟩))

theorem releaseAll_shm : ∀ (ms : List ShmMapping) (k : Kernel), (ms.forM (fun m => releaseRef (ε := ε) m.handle) k).Post
    (fun _ k' => k'.shm = k.shm.releaseAll ms ∧ Returned k k') (fun _ _ => False)
  | [], k => ⟨rfl, .of_same rfl rfl⟩
  | m :: ms, k => by
    refine post_bind (releaseRef_shm m.handle k) ?_
    rintro _ k₁ ⟨hshm, hret⟩
    refine (releaseAll_shm ms k₁).imp_ok ?_
    rintro _ k' ⟨hshm', hret'⟩
    exact ⟨by rw [hshm', hshm]; rfl, hret.trans hret'⟩

theorem cleanupPid_shm (pid : ℕ) (k : Kernel) : (cleanupPid (ε := ε) pid k).Post
    (fun _ k' => k'.shm = k.shm.cleanup pid ∧ Returned k k') (fun _ _ => False) := by
  unfold cleanupPid
  rw [get_bind]
  refine post_bind (onShm_post _ k) ?_
  rintro _ k₀ hk₀
  refine post_bind (releaseAll_shm _ k₀) ?_
  rintro _ k₁ ⟨hshm, hret⟩
  refine ⟨?_, Returned.trans (.of_same (by rw [hk₀]) (by rw [hk₀])) (hret.trans (.of_same rfl rfl))⟩
  show { k₁.shm with vaNext := k₁.shm.vaNext.erase pid } = _
  rw [hshm, hk₀]
  rfl

theorem sysShmCreate_shm (size : ℕ) (k : Kernel) : (sysShmCreate (ε := ε) size k).Post
    (fun _ k' => k'.shm = k.shm ∨ ∃ r, r.refs = 0 ∧ k'.shm = k.shm.created r) (fun _ _ => False) :=
  sysShmCreate_rule (.inl rfl) ((Outcome.post_true _).imp (fun _ _ _ => .inr ⟨_, rfl, rfl⟩) fun _ _ _ => .inl rfl)

theorem shmVa_ne_max (n : ℕ) : SHM_VA_BASE + n * 4096 ≠ U64_MAX := by
  unfold SHM_VA_BASE U64_MAX
  omega

theorem sysShmMap_shm (handle mode : ℕ) (k : Kernel) : (sysShmMap (ε := ε) handle mode k).Post
    (fun ret k' => k.shm.table[handle]? = none ∧ ret = U64_MAX ∧ k'.shm = k.shm ∨ ∃ r, k.shm.table[handle]? = some r ∧
        (ret = SHM_VA_BASE + k.shm.next k.table.current * 4096 ∧ k'.shm = k.shm.mapped k.table.current handle r ∨
          ret = U64_MAX ∧ k'.shm = k.shm.refused k.table.current r)) (fun _ _ => True) := by
  cases hr : k.shm.table[handle]? with
  | none =>
    rw [sysShmMap_of_none mode hr]
    exact .inl ⟨rfl, rfl, rfl⟩
  | some r =>
    refine sysShmMap_rule hr
      ((inCurrent_put _ _).imp_err fun _ _ _ => trivial) (fun _ ⟨v, hk'⟩ => ?_) fun _ k' ⟨v, hk'⟩ _ => ?_
    · refine .inr ⟨r, rfl, .inl ⟨rfl, ?_⟩⟩
      rw [hk']
      rfl
    · -- the count goes back to what it was
      have hself : k'.shm.table[handle]? = some { r with refs := r.refs + 1 } := by
        rw [hk']
        exact Std.ExtTreeMap.getElem?_insert_self
      refine (undoRef_post handle k').imp_ok ?_
      rintro _ _ (⟨hnone, -⟩ | ⟨r', hr', rfl⟩)
      · cases hself.symm.trans hnone
      · cases hself.symm.trans hr'
        refine .inr ⟨r, rfl, .inr ⟨rfl, ?_⟩⟩
        rw [hk']
        dsimp only [Kernel.mapping, Kernel.putSpace]
        rw [TreeMap.insert_insert, Nat.add_sub_cancel, TreeMap.insert_of_getElem?_eq_some hr]
        rfl

def Gone (k k' : Kernel) : Prop :=
  ∀ (h : ℕ) r, k.shm.table[h]? = some r → k'.shm.table[h]? = none → ∀ f ∈ r.frames, k'.mem.isUsed f = false

theorem sysShmUnmap_shm (ptr : ℕ) (k : Kernel) : (sysShmUnmap (ε := ε) ptr k).Post
    (fun _ k' => k'.shm = k.shm ∨ ∃ i m, k.shm.mappings[i]? = some m ∧ m.pid = k.table.current ∧ m.baseVa = ptr ∧
      k'.shm = Shm.release { k.shm with mappings := swapRemove k.shm.mappings i } m.handle ∧ Gone k k')
    (fun _ _ => True) := by
  refine sysShmUnmap_rule (.inl rfl) fun i m hm hpid hva => ?_
  refine post_bind ((inCurrent_put _ _).imp_err fun _ _ _ => trivial) fun _ k₂ ⟨v, hk₂⟩ => ?_
  refine post_bind ((releaseRef_shm m.handle k₂).never) ?_
  rintro _ k' ⟨hshm, hret⟩
  refine .inr ⟨i, m, hm, hpid, hva, by rw [hshm, hk₂]; rfl, fun h r hr hnone => hret.gone h r ?_ hnone⟩
  rw [hk₂]
  exact hr

end Calls

/-! ### What an event does to the tables -/

inductive ShmEffect (s : Machine) : Event → Machine → Prop
  | same {e : Event} {s' : Machine} : exitCode s e s' = none → s'.kernel.shm = s.kernel.shm → ShmEffect s e s'
  | created {s' : Machine} {size : ℕ} {r : ShmRegion} : r.refs = 0 → s'.kernel.shm = s.kernel.shm.created r →
      ShmEffect s (.syscall (.shmCreate size)) s'
  | mapped {s' : Machine} {handle mode : ℕ} {r : ShmRegion} : s.kernel.shm.table[handle]? = some r →
      s'.kernel.shm = s.kernel.shm.mapped s.kernel.table.current handle r →
      ShmEffect s (.syscall (.shmMap handle mode)) s'
  | refused {s' : Machine} {handle mode : ℕ} {r : ShmRegion} : s.kernel.shm.table[handle]? = some r →
      s'.kernel.shm = s.kernel.shm.refused s.kernel.table.current r → ShmEffect s (.syscall (.shmMap handle mode)) s'
  | unmapped {s' : Machine} {ptr i : ℕ} {m : ShmMapping} : s.kernel.shm.mappings[i]? = some m →
      m.pid = s.kernel.table.current → m.baseVa = ptr →
      s'.kernel.shm = Shm.release { s.kernel.shm with mappings := swapRemove s.kernel.shm.mappings i } m.handle →
      Gone s.kernel s'.kernel → ShmEffect s (.syscall (.shmUnmap ptr)) s'
  | ended {e : Event} {s' : Machine} : (exitCode s e s').isSome →
      s'.kernel.shm = s.kernel.shm.cleanup s.kernel.table.current → Gone s.kernel s'.kernel → ShmEffect s e s'

section Events

variable {k k' : Kernel} {s s' : Machine} {e : Event}

theorem Ended.shm (h : Ended k k') : k'.shm = k.shm.cleanup k.table.current ∧ Gone k k' := by
  obtain ⟨k₀, k₁, h₀, hclean, h₁⟩ := h
  obtain ⟨hshm, hret⟩ := (cleanupPid_shm k.table.current k₀).ok hclean
  refine ⟨by rw [h₁.shm, hshm, h₀.shm], fun h r hr hnone f hf => ?_⟩
  rw [h₁.mem]
  exact hret.gone h r (by rw [h₀.shm]; exact hr) (by rw [← h₁.shm]; exact hnone) f hf

theorem Waited.shm {o : Option (ℕ × ℤ)} (h : Waited k k' o) : k'.shm = k.shm := by
  cases o with
  | none => exact SameStore.shm h
  | some x =>
    obtain ⟨k₁, h₁, hreap⟩ := h
    obtain ⟨m, rfl⟩ := (reap_post (E := fun _ _ => False) x.1 k₁).ok hreap
    exact h₁.shm

theorem execFromAny_shm (ram fat : Option (List Byte)) (parent : ℕ) (k : Kernel) :
    (execFromAny ram fat parent k).Post (fun _ k' => k'.shm = k.shm) (fun _ k' => k'.shm = k.shm) :=
  (execFromAny_post ram fat parent k).imp (fun _ _ ⟨_, h, _⟩ => h.shm) fun _ _ ⟨_, h⟩ => h ▸ rfl

theorem step_shmEffect (h : step s e = some s') : ShmEffect s e s' := by
  have hplain : e.plain = true → ShmEffect s e s' := fun hp => by
    rcases step_plain h hp with ⟨hcode, hsame⟩ | ⟨hcode, hended⟩
    · exact .same hcode hsame.shm
    · exact .ended hcode hended.shm.1 hended.shm.2
  obtain ⟨x, hx, hok⟩ := step_eq_some h
  cases hm : s.mode with
  | halted => rw [hm] at hx; cases e <;> cases hx
  | shell =>
    rw [hm] at hx
    cases e with
    | spawn ram fat =>
      cases hx
      exact .same rfl ((shellCommand_rule (P := fun k' => k'.shm = s.kernel.shm) (execFromAny_shm ..)).ok hok).2
    | tick | runAll | sendSignal pid sig => exact hplain rfl
    | _ => cases hx
  | user n regs =>
    rw [hm] at hx
    cases e with
    | write page =>
      dsimp only [handler] at hx
      split_ifs at hx
      cases hx
      have hended : (∀ r, s'.mode ≠ .user .running r) → ∀ m, Ended { s.kernel with mem := m } s'.kernel →
          ShmEffect s (.write page) s' :=
        fun hne _ h => .ended (by rw [exitCode_write hne]; rfl) h.shm.1 h.shm.2
      have hwrote := (userWrite_store _ _ _).ok hok
      obtain ⟨k', mode⟩ := s'
      cases hwrote with
      | allowed => exact .same rfl rfl
      | resolved _ => exact .same rfl rfl
      | killed hne h => exact hended hne _ h
      | failed hne _ h => exact hended hne _ h
    | syscall call =>
      obtain ⟨ret, hret, -⟩ := syscall_step hm h
      cases call with
      | fork =>
        exact .same rfl ((orMax_rule (P := fun k' => k'.shm = s.kernel.shm)
          ((fork_post s.kernel).imp (fun _ _ ⟨_, _, h, _⟩ => h.shm) fun _ _ ⟨_, h⟩ => h ▸ rfl)).ok hret)
      | exec ram fat =>
        exact .same rfl ((orMax_rule (P := fun k' => k'.shm = s.kernel.shm) (execFromAny_shm ..)).ok hret)
      | wait => exact .same rfl ((sysWait_store s.kernel).ok hret).shm
      | fbAcquire outPtr => exact .same rfl ((sysFbAcquire_quiet outPtr s.kernel).ok hret).2
      | shmCreate size =>
        rcases (sysShmCreate_shm size s.kernel).ok hret with hsame | ⟨r, hr, hshm⟩
        · exact .same rfl hsame
        · exact .created hr hshm
      | shmMap handle mode =>
        rcases (sysShmMap_shm handle mode s.kernel).ok hret with ⟨-, -, hsame⟩ | ⟨r, hr, ⟨-, hshm⟩ | ⟨-, hshm⟩⟩
        · exact .same rfl hsame
        · exact .mapped hr hshm
        · exact .refused hr hshm
      | shmUnmap ptr =>
        rcases (sysShmUnmap_shm ptr s.kernel).ok hret with hsame | ⟨i, m, hi, hpid, hva, hshm, hgone⟩
        · exact .same rfl hsame
        · exact .unmapped hi hpid hva hshm hgone
      | _ => exact hplain rfl
    | run _ | exit _ | fault | tick => exact hplain rfl
    | _ => cases hx

end Events

/-! ### The accounts -/

structure Shm.Counts (shm : Shm) (due : List ShmMapping) : Prop where
  refs : ∀ (h : ℕ) r, shm.table[h]? = some r → r.refs = records shm.mappings h + records due h
  regions : ∀ m ∈ shm.mappings ++ due, ∃ r, shm.table[m.handle]? = some r ∧ m.pages = r.frames.length

section Counts

variable {shm : Shm} {m : ShmMapping} {due : List ShmMapping} {h : ℕ}

@[simp] theorem records_nil (h : ℕ) : records [] h = 0 := rfl

theorem records_cons (m : ShmMapping) (l : List ShmMapping) (h : ℕ) :
    records (m :: l) h = records l h + if m.handle = h then 1 else 0 := by
  simp [records, List.countP_cons]

theorem records_append (l l' : List ShmMapping) (h : ℕ) : records (l ++ l') h = records l h + records l' h :=
  List.countP_append

theorem records_pos {l : List ShmMapping} : 0 < records l h ↔ ∃ m ∈ l, m.handle = h := by simp [records]

@[simp] theorem Shm.mappings_release (shm : Shm) (h : ℕ) : (shm.release h).mappings = shm.mappings := by
  unfold Shm.release
  split
  · rfl
  · split_ifs <;> rfl

theorem Shm.release_of_ne {i : ℕ} (hi : i ≠ h) : (shm.release h).table[i]? = shm.table[i]? := by
  unfold Shm.release
  cases hr : shm.table[h]? with
  | none => rfl
  | some r =>
    dsimp only
    split_ifs
    · exact (congrFun (TreeMap.getElem?_erase_eq_update shm.table h) i).trans (Function.update_of_ne hi ..)
    · exact (congrFun (getElem?_insert_eq_update shm.table h _) i).trans (Function.update_of_ne hi ..)

theorem Shm.release_self {r : ShmRegion} (hr : shm.table[h]? = some r) :
    (shm.release h).table[h]? = if r.refs - 1 = 0 then none else some { r with refs := r.refs - 1 } := by
  unfold Shm.release
  rw [hr]
  dsimp only
  split_ifs
  · exact Std.ExtTreeMap.getElem?_erase_self
  · exact getElem?_insert_self

theorem Shm.Counts.release (hc : shm.Counts (m :: due)) : (shm.release m.handle).Counts due := by
  obtain ⟨r, hr, hpages⟩ := hc.regions m (by simp)
  have hrefs := hc.refs m.handle r hr
  rw [records_cons, if_pos rfl] at hrefs
  refine ⟨fun i r' hr' => ?_, fun m' hm' => ?_⟩
  · rw [Shm.mappings_release]
    by_cases hi : i = m.handle
    · subst hi
      rw [Shm.release_self hr] at hr'
      split_ifs at hr'
      cases hr'
      show r.refs - 1 = _
      omega
    · rw [Shm.release_of_ne hi] at hr'
      rw [hc.refs i r' hr', records_cons, if_neg fun h => hi h.symm]
      rfl
  · rw [Shm.mappings_release] at hm'
    obtain ⟨r', hr', hpages'⟩ := hc.regions m' (by
      rcases List.mem_append.1 hm' with h | h
      · exact List.mem_append_left _ h
      · exact List.mem_append_right _ (List.mem_cons_of_mem _ h))
    by_cases hi : m'.handle = m.handle
    · -- the region has another record, so it stays
      have hpos : 0 < records shm.mappings m.handle + records due m.handle := by
        rw [← records_append]
        exact records_pos.2 ⟨m', hm', hi⟩
      rw [hi, hr] at hr'
      cases hr'
      rw [hi, Shm.release_self hr, if_neg (by omega)]
      exact ⟨_, rfl, hpages'⟩
    · rw [Shm.release_of_ne hi]
      exact ⟨r', hr', hpages'⟩

theorem Shm.mappings_releaseAll : ∀ (ms : List ShmMapping) (shm : Shm), (shm.releaseAll ms).mappings = shm.mappings
  | [], _ => rfl
  | m :: ms, shm => (Shm.mappings_releaseAll ms (shm.release m.handle)).trans (Shm.mappings_release ..)

theorem Shm.mappings_cleanup (shm : Shm) (pid : ℕ) : (shm.cleanup pid).mappings = shm.mappings.filter (·.pid ≠ pid) :=
  Shm.mappings_releaseAll ..

theorem Shm.releaseAll_none : ∀ (ms : List ShmMapping) {shm : Shm}, shm.table[h]? = none →
    (shm.releaseAll ms).table[h]? = none
  | [], _, hnone => hnone
  | m :: ms, shm, hnone => by
    refine Shm.releaseAll_none ms ?_
    by_cases hi : h = m.handle
    · unfold Shm.release
      rw [← hi, hnone]
      exact hnone
    · rw [Shm.release_of_ne hi]
      exact hnone

theorem Shm.Counts.releaseAll : ∀ {ms : List ShmMapping} {shm : Shm}, shm.Counts ms → (shm.releaseAll ms).Counts [] ∧
    ∀ (h : ℕ) r, shm.table[h]? = some r → ((shm.releaseAll ms).table[h]? = none ↔ 0 < records ms h ∧ records shm.mappings h = 0)
  | [], shm, hc => ⟨hc, fun h r hr => by simp [Shm.releaseAll, hr]⟩
  | m :: ms, shm, hc => by
    obtain ⟨hrest, hgone⟩ := Shm.Counts.releaseAll hc.release
    rw [Shm.mappings_release] at hgone
    refine ⟨hrest, fun h r hr => ?_⟩
    rw [records_cons]
    by_cases hi : h = m.handle
    · subst hi
      have hrefs := hc.refs m.handle r hr
      rw [records_cons, if_pos rfl] at hrefs
      rw [if_pos rfl]
      by_cases hlast : r.refs - 1 = 0
      · have hnone : (shm.release m.handle).table[m.handle]? = none := by rw [Shm.release_self hr, if_pos hlast]
        have hall : ((shm.release m.handle).releaseAll ms).table[m.handle]? = none := Shm.releaseAll_none ms hnone
        exact ⟨fun _ => ⟨by omega, by omega⟩, fun _ => hall⟩
      · have hsome := Shm.release_self hr
        rw [if_neg hlast] at hsome
        have hiff := hgone m.handle _ hsome
        exact hiff.trans ⟨fun hh => ⟨by omega, hh.2⟩, fun hh => ⟨by omega, hh.2⟩⟩
    · have hsome : (shm.release m.handle).table[h]? = some r := (Shm.release_of_ne hi).trans hr
      rw [if_neg fun heq => hi heq.symm]
      exact hgone h r hsome

end Counts

def ShmMapping.Apart (m m' : ShmMapping) : Prop :=
  m.pid = m'.pid → m.baseVa + m.pages * 4096 ≤ m'.baseVa ∨ m'.baseVa + m'.pages * 4096 ≤ m.baseVa

theorem ShmMapping.Apart.symm {m m' : ShmMapping} (h : m.Apart m') : m'.Apart m := fun hpid => (h hpid.symm).symm

structure Shm.Accounted (shm : Shm) : Prop where
  refs : ∀ (h : ℕ) r, shm.table[h]? = some r → r.refs = records shm.mappings h
  regions : ∀ m ∈ shm.mappings, ∃ r, shm.table[m.handle]? = some r ∧ m.pages = r.frames.length
  apart : shm.mappings.Pairwise ShmMapping.Apart

structure Shm.Ordered (shm : Shm) : Prop extends shm.Accounted where
  below : ∀ m ∈ shm.mappings, m.baseVa + m.pages * 4096 ≤ SHM_VA_BASE + shm.next m.pid * 4096
  handles : ∀ (h : ℕ) r, shm.table[h]? = some r → h < shm.nextHandle

section Accounts

variable {shm : Shm} {m : ShmMapping} {h i pid : ℕ} {r : ShmRegion} {l ms : List ShmMapping}

theorem Shm.Counts.accounted (hc : shm.Counts []) (hapart : shm.mappings.Pairwise ShmMapping.Apart) : shm.Accounted :=
  ⟨fun h r hr => by rw [hc.refs h r hr, records_nil, Nat.add_zero], fun m hm => hc.regions m (by simpa using hm), hapart⟩

theorem perm_swapRemove (hm : l[i]? = some m) : l.Perm (m :: swapRemove l i) := by
  obtain ⟨pre, post, rfl, rfl⟩ : ∃ pre post, l = pre ++ m :: post ∧ pre.length = i := by
    obtain ⟨hlt, rfl⟩ := List.getElem?_eq_some_iff.1 hm
    exact ⟨l.take i, l.drop (i + 1), by rw [List.getElem_cons_drop, List.take_append_drop], by rw [List.length_take]; omega⟩
  rcases List.eq_nil_or_concat' post with rfl | ⟨mid, x, rfl⟩
  · -- it is the last one
    have hlast : swapRemove (pre ++ [m]) pre.length = pre := by simp [swapRemove]
    rw [hlast]
    exact List.perm_append_singleton m pre
  · have hlast : swapRemove (pre ++ m :: (mid ++ [x])) pre.length = pre ++ x :: mid := by
      have hx : (pre ++ m :: (mid ++ [x])).getLast? = some x := by
        rw [← List.cons_append, ← List.append_assoc, List.getLast?_concat]
      rw [swapRemove, hx]
      dsimp only
      rw [List.set_append_right _ _ le_rfl, Nat.sub_self, List.set_cons_zero, ← List.cons_append, ← List.append_assoc,
        List.dropLast_concat]
    rw [hlast]
    refine List.perm_middle.trans (List.Perm.cons m (List.Perm.append_left pre ?_))
    exact List.perm_append_singleton x mid

theorem records_perm {l' : List ShmMapping} (hp : l.Perm l') (h : ℕ) : records l h = records l' h := hp.countP_eq _

theorem records_filter (l : List ShmMapping) (pid h : ℕ) :
    records l h = records (l.filter (·.pid ≠ pid)) h + records (l.filter (·.pid = pid)) h := by
  induction l with
  | nil => rfl
  | cons m l ih =>
    by_cases hpid : m.pid = pid
    · rw [List.filter_cons_of_neg (by simpa using hpid), List.filter_cons_of_pos (by simpa using hpid), records_cons,
        records_cons, ih, Nat.add_assoc]
    · rw [List.filter_cons_of_pos (by simpa using hpid), List.filter_cons_of_neg (by simpa using hpid), records_cons,
        records_cons, ih]
      omega

theorem Shm.Accounted.take (ha : shm.Accounted) (hm : shm.mappings[i]? = some m) :
    Shm.Counts { shm with mappings := swapRemove shm.mappings i } [m] := by
  have hperm := perm_swapRemove hm
  refine ⟨fun h r hr => ?_, fun m' hm' => ha.regions m' (hperm.mem_iff.2 ?_)⟩
  · rw [ha.refs h r hr, records_perm hperm, records_cons, records_cons, records_nil, Nat.zero_add]
  · rcases List.mem_append.1 hm' with hm' | hm'
    · exact List.mem_cons_of_mem _ hm'
    · exact List.mem_cons.2 (.inl (List.mem_singleton.1 hm'))

theorem Shm.Accounted.takeAll (ha : shm.Accounted) (pid : ℕ) :
    Shm.Counts { shm with mappings := shm.mappings.filter (·.pid ≠ pid) } (shm.mappings.filter (·.pid = pid)) := by
  refine ⟨fun h r hr => ?_, fun m' hm' => ha.regions m' ?_⟩
  · rw [ha.refs h r hr]
    exact records_filter ..
  · rcases List.mem_append.1 hm' with hm' | hm'
    · exact (List.mem_filter.1 hm').1
    · exact (List.mem_filter.1 hm').1

theorem Shm.next_insert (shm : Shm) (pid n q : ℕ) :
    Shm.next { shm with vaNext := shm.vaNext.insert pid n } q = if q = pid then n else shm.next q := by
  unfold Shm.next
  rw [show (shm.vaNext.insert pid n)[q]? = _ from congrFun (getElem?_insert_eq_update shm.vaNext pid n) q,
    Function.update_apply]
  split_ifs <;> rfl

theorem Shm.vaNext_release (shm : Shm) (handle : ℕ) :
    (shm.release handle).vaNext = shm.vaNext ∧ (shm.release handle).nextHandle = shm.nextHandle := by
  unfold Shm.release
  split
  · exact ⟨rfl, rfl⟩
  · split_ifs
    · exact ⟨rfl, rfl⟩
    · exact ⟨rfl, rfl⟩

theorem Shm.vaNext_releaseAll : ∀ (ms : List ShmMapping) (shm : Shm),
    (shm.releaseAll ms).vaNext = shm.vaNext ∧ (shm.releaseAll ms).nextHandle = shm.nextHandle
  | [], _ => ⟨rfl, rfl⟩
  | m :: ms, shm => by
    obtain ⟨hva, hnext⟩ := Shm.vaNext_releaseAll ms (shm.release m.handle)
    obtain ⟨hva', hnext'⟩ := Shm.vaNext_release shm m.handle
    exact ⟨hva.trans hva', hnext.trans hnext'⟩

theorem Shm.releaseAll_some (hr : (shm.releaseAll ms).table[h]? = some r) : ∃ r₀, shm.table[h]? = some r₀ := by
  cases hr₀ : shm.table[h]? with
  | some r₀ => exact ⟨r₀, rfl⟩
  | none =>
    cases (Shm.releaseAll_none _ hr₀).symm.trans hr

theorem Shm.Ordered.created (ho : shm.Ordered) (hr : r.refs = 0) (hwrap : shm.nextHandle + 1 < 2 ^ 64) :
    (shm.created r).Ordered := by
  have hnext : (shm.created r).nextHandle = shm.nextHandle + 1 := Nat.mod_eq_of_lt hwrap
  -- the handle is new, so there is no record of it
  have hnew : shm.table[shm.nextHandle]? = none := by
    by_contra hne
    obtain ⟨r', hr'⟩ := Option.ne_none_iff_exists'.1 hne
    exact lt_irrefl _ (ho.handles _ r' hr')
  have hzero : records shm.mappings shm.nextHandle = 0 := by
    by_contra hne
    obtain ⟨m, hm, hh⟩ := records_pos.1 (Nat.pos_of_ne_zero hne)
    obtain ⟨r', hr', -⟩ := ho.regions m hm
    rw [hh, hnew] at hr'
    cases hr'
  have hcases : ∀ (i : ℕ) r', (shm.created r).table[i]? = some r' →
      i = shm.nextHandle ∧ r = r' ∨ i ≠ shm.nextHandle ∧ shm.table[i]? = some r' := fun i r' hr' =>
    getElem?_insert_eq_some.1 hr'
  refine ⟨⟨fun i r' hr' => ?_, fun m hm => ?_, ho.apart⟩, ho.below, fun i r' hr' => ?_⟩
  · rcases hcases i r' hr' with ⟨rfl, rfl⟩ | ⟨-, hold⟩
    · exact hr.trans hzero.symm
    · exact ho.refs i r' hold
  · obtain ⟨r', hr', hpages⟩ := ho.regions m hm
    refine ⟨r', getElem?_insert_eq_some.2 (.inr ⟨?_, hr'⟩), hpages⟩
    intro heq
    rw [heq, hnew] at hr'
    cases hr'
  · rw [hnext]
    rcases hcases i r' hr' with ⟨rfl, -⟩ | ⟨-, hold⟩
    · exact Nat.lt_succ_self _
    · exact Nat.lt_succ_of_lt (ho.handles i r' hold)

theorem Shm.Ordered.refused (ho : shm.Ordered) (pid : ℕ) (r : ShmRegion) : (shm.refused pid r).Ordered := by
  refine ⟨⟨ho.refs, ho.regions, ho.apart⟩, fun m hm => ?_, ho.handles⟩
  have hb := ho.below m hm
  unfold Shm.refused
  rw [Shm.next_insert]
  split_ifs with hpid
  · rw [hpid] at hb
    exact hb.trans (Nat.add_le_add_left (Nat.mul_le_mul_right _ (Nat.le_add_right ..)) _)
  · exact hb

theorem Shm.Ordered.mapped (ho : shm.Ordered) (pid : ℕ) (hr : shm.table[h]? = some r) : (shm.mapped pid h r).Ordered := by
  have hcases : ∀ (i : ℕ) r', (shm.mapped pid h r).table[i]? = some r' →
      i = h ∧ { r with refs := r.refs + 1 } = r' ∨ i ≠ h ∧ shm.table[i]? = some r' := fun i r' hr' =>
    getElem?_insert_eq_some.1 hr'
  have hregion : ∀ {i : ℕ} {r₀ : ShmRegion}, shm.table[i]? = some r₀ →
      ∃ r', (shm.mapped pid h r).table[i]? = some r' ∧ r'.frames = r₀.frames := by
    intro i r₀ hr₀
    by_cases hi : i = h
    · subst hi
      cases hr.symm.trans hr₀
      exact ⟨_, getElem?_insert_self, rfl⟩
    · exact ⟨r₀, getElem?_insert_eq_some.2 (.inr ⟨hi, hr₀⟩), rfl⟩
  have hmem : ∀ {m}, m ∈ (shm.mapped pid h r).mappings → m ∈ shm.mappings ∨
      m = { pid, handle := h, baseVa := SHM_VA_BASE + shm.next pid * 4096, pages := r.frames.length } := fun hm =>
    (List.mem_append.1 hm).imp id List.mem_singleton.1
  refine ⟨⟨fun i r' hr' => ?_, fun m hm => ?_, List.pairwise_append.2 ⟨ho.apart, List.pairwise_singleton .., ?_⟩⟩,
    fun m hm => ?_, fun i r' hr' => ?_⟩
  · show r'.refs = records (shm.mappings ++ _) i
    rw [records_append, records_cons, records_nil]
    rcases hcases i r' hr' with ⟨rfl, rfl⟩ | ⟨hi, hold⟩
    · rw [if_pos rfl, ← ho.refs i r hr]
    · rw [if_neg fun heq => hi heq.symm, ho.refs i r' hold]
      rfl
  · rcases hmem hm with hm | rfl
    · obtain ⟨r₀, hr₀, hpages⟩ := ho.regions m hm
      obtain ⟨r', hr', hframes⟩ := hregion hr₀
      exact ⟨r', hr', hframes.symm ▸ hpages⟩
    · exact ⟨_, getElem?_insert_self, rfl⟩
  · -- the new mapping begins where the others of the process end
    intro m hm m' hm'
    obtain rfl := List.mem_singleton.1 hm'
    intro hpid
    have hb := ho.below m hm
    rw [show m.pid = pid from hpid] at hb
    exact .inl hb
  · have hb := (ho.refused pid r).below
    rcases hmem hm with hm | rfl
    · exact hb m hm
    · show _ ≤ SHM_VA_BASE + Shm.next { shm with vaNext := shm.vaNext.insert pid _ } pid * 4096
      rw [Shm.next_insert, if_pos rfl]
      dsimp only
      omega
  · rcases hcases i r' hr' with ⟨rfl, -⟩ | ⟨-, hold⟩
    · exact ho.handles i r hr
    · exact ho.handles i r' hold

theorem Shm.Counts.ordered (hc : shm.Counts ms) (hapart : shm.mappings.Pairwise ShmMapping.Apart)
    (hbelow : ∀ m ∈ shm.mappings, m.baseVa + m.pages * 4096 ≤ SHM_VA_BASE + shm.next m.pid * 4096)
    (hhandles : ∀ (h : ℕ) r, shm.table[h]? = some r → h < shm.nextHandle) : (shm.releaseAll ms).Ordered := by
  have hmaps := Shm.mappings_releaseAll ms shm
  obtain ⟨hva, hnext⟩ := Shm.vaNext_releaseAll ms shm
  refine ⟨hc.releaseAll.1.accounted (hmaps.symm ▸ hapart), fun m hm => ?_, fun i r hr => ?_⟩
  · unfold Shm.next
    rw [hva]
    exact hbelow m (hmaps ▸ hm)
  · rw [hnext]
    obtain ⟨r₀, hr₀⟩ := Shm.releaseAll_some hr
    exact hhandles i r₀ hr₀

theorem Shm.Ordered.unmapped (ho : shm.Ordered) (hm : shm.mappings[i]? = some m) :
    (Shm.release { shm with mappings := swapRemove shm.mappings i } m.handle).Ordered := by
  have hperm := perm_swapRemove hm
  have hsub : ∀ m' ∈ swapRemove shm.mappings i, m' ∈ shm.mappings := fun m' hm' => hperm.mem_iff.2 (List.mem_cons_of_mem _ hm')
  have hapart : (m :: swapRemove shm.mappings i).Pairwise ShmMapping.Apart :=
    (hperm.pairwise_iff ShmMapping.Apart.symm).1 ho.apart
  exact (ho.toAccounted.take hm).ordered (List.pairwise_cons.1 hapart).2 (fun m' hm' => ho.below m' (hsub m' hm')) ho.handles

theorem Shm.Ordered.cleanup (ho : shm.Ordered) (pid : ℕ) : (shm.cleanup pid).Ordered := by
  have hall := (ho.toAccounted.takeAll pid).ordered (ho.apart.filter _)
    (fun m hm => ho.below m (List.mem_filter.1 hm).1) ho.handles
  refine ⟨⟨hall.refs, hall.regions, hall.apart⟩, fun m hm => ?_, hall.handles⟩
  have hpid : m.pid ≠ pid := by
    rw [Shm.mappings_cleanup] at hm
    simpa using (List.mem_filter.1 hm).2
  have hb := hall.below m hm
  unfold Shm.next at hb ⊢
  rwa [show (shm.cleanup pid).vaNext[m.pid]? = _ from
    (congrFun (TreeMap.getElem?_erase_eq_update _ pid) m.pid).trans (Function.update_of_ne hpid ..)]

theorem Shm.Accounted.unmapped_goes (ha : shm.Accounted) (hm : shm.mappings[i]? = some m) (hr : shm.table[h]? = some r) :
    (Shm.release { shm with mappings := swapRemove shm.mappings i } m.handle).table[h]? = none ↔
      0 < records shm.mappings h ∧ records (swapRemove shm.mappings i) h = 0 := by
  have hiff := (ha.take hm).releaseAll.2 h r hr
  rw [records_cons, records_nil] at hiff
  rw [records_perm (perm_swapRemove hm), records_cons]
  exact hiff.trans ⟨fun hh => ⟨by omega, hh.2⟩, fun hh => ⟨by have := hh.2; omega, hh.2⟩⟩

theorem Shm.Accounted.cleanup_goes (ha : shm.Accounted) (pid : ℕ) (hr : shm.table[h]? = some r) :
    (shm.cleanup pid).table[h]? = none ↔ 0 < records shm.mappings h ∧ records (shm.mappings.filter (·.pid ≠ pid)) h = 0 := by
  have hiff := (ha.takeAll pid).releaseAll.2 h r hr
  rw [records_filter shm.mappings pid h]
  exact hiff.trans ⟨fun hh => ⟨by omega, hh.2⟩, fun hh => ⟨by have := hh.2; omega, hh.2⟩⟩

end Accounts

/-! ### Runs -/

def Event.isCreate : Event → Bool
  | .syscall (.shmCreate _) => true
  | _ => false

def creates (tr : List (Machine × Event)) : ℕ := tr.countP fun x => x.2.isCreate

section Runs

variable {s s' t : Machine} {e : Event} {tr : List (Machine × Event)} {p4 p3 p2 : ℕ}
variable {h : ℕ} {r : ShmRegion}

section

variable (he : ShmEffect s e s')
include he

theorem ShmEffect.gone (hr : s.kernel.shm.table[h]? = some r)
    (hgone : s'.kernel.shm.table[h]? = none) : ∀ f ∈ r.frames, s'.kernel.mem.isUsed f = false := by
  have hnot : ∀ {i : ℕ} {r' : ShmRegion}, (s.kernel.shm.table.insert i r')[h]? ≠ none := fun {i r'} => by
    rw [show (s.kernel.shm.table.insert i r')[h]? = _ from congrFun (getElem?_insert_eq_update _ i r') h, Function.update_apply]
    split_ifs
    · simp
    · simp [hr]
  cases he with
  | same _ hshm =>
    rw [hshm, hr] at hgone
    cases hgone
  | created _ hshm =>
    rw [hshm] at hgone
    exact absurd hgone hnot
  | mapped _ hshm =>
    rw [hshm] at hgone
    exact absurd hgone hnot
  | refused _ hshm =>
    rw [hshm, Shm.refused, hr] at hgone
    cases hgone
  | unmapped _ _ _ _ hfree => exact hfree h r hr hgone
  | ended _ _ hfree => exact hfree h r hr hgone

theorem ShmEffect.stays_away (hnone : s.kernel.shm.table[h]? = none)
    (hlt : h < s.kernel.shm.nextHandle) : s'.kernel.shm.table[h]? = none := by
  have hinsert : ∀ {i : ℕ} {r' : ShmRegion}, h ≠ i → (s.kernel.shm.table.insert i r')[h]? = none := fun {i r'} hne =>
    ((congrFun (getElem?_insert_eq_update _ i r') h).trans (Function.update_of_ne hne ..)).trans hnone
  cases he with
  | same _ hshm => exact hshm ▸ hnone
  | created _ hshm => exact hshm ▸ hinsert (Nat.ne_of_lt hlt)
  | mapped hr hshm =>
    refine hshm ▸ hinsert fun heq => ?_
    rw [← heq, hnone] at hr
    cases hr
  | refused _ hshm => exact hshm ▸ hnone
  | @unmapped _ _ _ m _ _ _ hshm _ =>
    rw [hshm]
    exact Shm.releaseAll_none [m] hnone
  | ended _ hshm _ =>
    rw [hshm]
    exact Shm.releaseAll_none _ hnone

theorem ShmEffect.ordered (ho : s.kernel.shm.Ordered)
    (hwrap : e.isCreate = true → s.kernel.shm.nextHandle + 1 < 2 ^ 64) : s'.kernel.shm.Ordered := by
  cases he with
  | same _ hshm => exact hshm ▸ ho
  | created hr hshm => exact hshm ▸ ho.created hr (hwrap rfl)
  | mapped hr hshm => exact hshm ▸ ho.mapped _ hr
  | refused hr hshm => exact hshm ▸ ho.refused _ _
  | unmapped hm _ _ hshm _ => exact hshm ▸ ho.unmapped hm
  | ended _ hshm _ => exact hshm ▸ ho.cleanup _

theorem ShmEffect.goes (ha : s.kernel.shm.Accounted) (hr : s.kernel.shm.table[h]? = some r) :
    s'.kernel.shm.table[h]? = none ↔ 0 < records s.kernel.shm.mappings h ∧ records s'.kernel.shm.mappings h = 0 := by
  have hstays : ∀ {shm' : Shm} {r' : ShmRegion}, shm'.table[h]? = some r' →
      records s.kernel.shm.mappings h ≤ records shm'.mappings h →
      (shm'.table[h]? = none ↔ 0 < records s.kernel.shm.mappings h ∧ records shm'.mappings h = 0) := by
    intro shm' r' hr' hle
    rw [hr']
    exact ⟨fun hh => (nomatch hh), fun hh => by omega⟩
  cases he with
  | same _ hshm => exact hshm ▸ hstays hr le_rfl
  | created _ hshm =>
    rw [hshm]
    by_cases hh : h = s.kernel.shm.nextHandle
    · exact hstays (getElem?_insert_eq_some.2 (.inl ⟨hh, rfl⟩)) le_rfl
    · exact hstays (getElem?_insert_eq_some.2 (.inr ⟨hh, hr⟩)) le_rfl
  | @mapped s' handle mode r₀ hr₀ hshm =>
    rw [hshm]
    have hle : records s.kernel.shm.mappings h ≤ records (s.kernel.shm.mapped s.kernel.table.current handle r₀).mappings h := by
      rw [show (s.kernel.shm.mapped s.kernel.table.current handle r₀).mappings = s.kernel.shm.mappings ++ _ from rfl,
        records_append]
      exact Nat.le_add_right ..
    by_cases hh : h = handle
    · exact hstays (getElem?_insert_eq_some.2 (.inl ⟨hh, rfl⟩)) hle
    · exact hstays (getElem?_insert_eq_some.2 (.inr ⟨hh, hr⟩)) hle
  | refused _ hshm => exact hshm ▸ hstays hr le_rfl
  | unmapped hm _ _ hshm _ =>
    rw [hshm, Shm.mappings_release]
    exact ha.unmapped_goes hm hr
  | ended _ hshm _ =>
    rw [hshm, Shm.mappings_cleanup]
    exact ha.cleanup_goes _ hr

theorem ShmEffect.nextHandle :
    s'.kernel.shm.nextHandle ≤ s.kernel.shm.nextHandle + if e.isCreate = true then 1 else 0 := by
  cases he with
  | same _ hshm => exact hshm ▸ Nat.le_add_right ..
  | created _ hshm =>
    rw [hshm]
    exact Nat.mod_le ..
  | mapped _ hshm => exact hshm ▸ le_rfl
  | refused _ hshm => exact hshm ▸ le_rfl
  | unmapped _ _ _ hshm _ =>
    rw [hshm]
    exact (Shm.vaNext_releaseAll [_] _).2.le
  | ended _ hshm _ =>
    rw [hshm]
    exact (Shm.vaNext_releaseAll _ _).2.le.trans (Nat.le_add_right ..)

theorem ShmEffect.nextHandle_mono (hc : e.isCreate = true → s.kernel.shm.nextHandle + 1 < 2 ^ 64) :
    s.kernel.shm.nextHandle ≤ s'.kernel.shm.nextHandle := by
  cases he with
  | same _ hshm => exact hshm ▸ le_rfl
  | created _ hshm =>
    rw [hshm, Shm.created, Nat.mod_eq_of_lt (hc rfl)]
    exact Nat.le_succ _
  | mapped _ hshm => exact hshm ▸ le_rfl
  | refused _ hshm => exact hshm ▸ le_rfl
  | unmapped _ _ _ hshm _ =>
    rw [hshm]
    refine Eq.ge ?_
    exact (Shm.vaNext_releaseAll [_] _).2
  | ended _ hshm _ =>
    rw [hshm]
    refine Eq.ge ?_
    exact (Shm.vaNext_releaseAll _ _).2

end

theorem creates_snoc (tr : List (Machine × Event)) (s : Machine) (e : Event) :
    creates (tr ++ [(s, e)]) = creates tr + if e.isCreate = true then 1 else 0 := by
  unfold creates
  rw [List.countP_append, List.countP_singleton]

theorem Booted.ordered_of_run (hb : Booted s p4 p3 p2) (hrun : Run step s tr t) (hfew : creates tr + 1 < 2 ^ 64) :
    t.kernel.shm.Ordered ∧ t.kernel.shm.nextHandle ≤ creates tr + 1 := by
  induction hrun with
  | nil =>
    rw [hb.shm]
    exact ⟨⟨⟨fun h r hr => by simp at hr, fun m hm => by simp at hm, .nil⟩, fun m hm => by simp at hm,
      fun h r hr => by simp at hr⟩, le_rfl⟩
  | @snoc tr a b e _ hs ih =>
    rw [creates_snoc] at hfew ⊢
    obtain ⟨ho, hnext⟩ := ih (by omega)
    have heff := step_shmEffect hs
    have hn := heff.nextHandle
    refine ⟨heff.ordered ho fun hc => ?_, by omega⟩
    rw [if_pos hc] at hfew
    omega

/-- **The accounts of shared memory are right in every reachable state**, until `2^64` regions have been created and
handles are given out again: and at every event a region goes exactly when its last record goes. -/
theorem accounted_of_run (hb : Booted s p4 p3 p2) (hrun : Run step s tr t) :
    2 ^ 64 ≤ creates tr + 1 ∨ t.kernel.shm.Accounted ∧ ∀ e u, step t e = some u → ∀ (h : ℕ) r,
      t.kernel.shm.table[h]? = some r → (u.kernel.shm.table[h]? = none ↔
        0 < records t.kernel.shm.mappings h ∧ records u.kernel.shm.mappings h = 0) := by
  by_cases hfew : creates tr + 1 < 2 ^ 64
  · obtain ⟨ho, -⟩ := hb.ordered_of_run hrun hfew
    exact .inr ⟨ho.toAccounted, fun e u hu h r hr => (step_shmEffect hu).goes ho.toAccounted hr⟩
  · exact .inl (Nat.not_lt.1 hfew)

end Runs

def mapTwice : List Event := [.spawn (some Fs.tinyImage) none, .runAll, .syscall (.shmCreate 1),
  .syscall (.shmMap 1 2), .syscall (.shmMap 1 2)]

theorem accounted_mapTwice : ∃ t, Run step bootMachine (trace step bootMachine mapTwice) t ∧
    t.kernel.shm.Accounted ∧ records t.kernel.shm.mappings 1 = 2 := by
  have hfinal : (exec step (fun _ _ => True) bootMachine mapTwice).any fun t => records t.kernel.shm.mappings 1 = 2 := by
    decide +kernel
  have hfew : creates (trace step bootMachine mapTwice) = 1 := by decide +kernel
  obtain ⟨t, hrun, -, ht⟩ := run_of_any hfinal
  rcases accounted_of_run booted_bootMachine hrun with hmany | ⟨ha, -⟩
  · rw [hfew] at hmany
    omega
  · exact ⟨t, hrun, ha, ht⟩

end RustKernel
