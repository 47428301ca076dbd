import RustKernel.Fs.Checks
import RustKernel.Ipc.Mapping

/-!
# The addresses of shared memory

Every process has a count of the pages it has asked for, and the next mapping begins there. The count never goes down: not
when a mapping goes, and not when the call fails. How long do the addresses between `SHM_VA_BASE` and the stack last?
-/

namespace RustKernel

open Lib Exec Memory RustKernel.Task Ipc Fs
open Outcome (ends_ok ends_err)

variable {k : Kernel}

/-! ### Runs of one process -/

inductive ShmCall where
  | map (handle mode : ℕ)
  | unmap (ptr : ℕ)

def shmStep (k : Kernel) : ShmCall → Option Kernel
  | .map handle mode => (sysShmMap (ε := Empty) handle mode k).next (fun _ k' => k') (fun e _ => nomatch e)
  | .unmap ptr => (sysShmUnmap (ε := Empty) ptr k).next (fun _ k' => k') (fun e _ => nomatch e)

def asked : Kernel × ShmCall → ℕ
  | (k, .map handle _) => ((k.shm.table[handle]?).map (·.frames.length)).getD 0
  | (_, .unmap _) => 0

section Count

variable {k k' : Kernel}

theorem Shm.next_refused (shm : Shm) (pid : ℕ) (r : ShmRegion) : (shm.refused pid r).next pid = shm.next pid + r.frames.length :=
  (Shm.next_insert ..).trans (if_pos rfl)

theorem next_of_shmStep {c : ShmCall} (h : shmStep k c = some k') : k'.table.current = k.table.current ∧
    k'.shm.next k.table.current = k.shm.next k.table.current + asked (k, c) := by
  cases c with
  | map handle mode =>
    obtain ⟨ret, _, -, ⟨hquiet, hshm⟩, rfl⟩ | ⟨e, -⟩ :=
      ((sysShmMap_quiet handle mode k).and (sysShmMap_shm handle mode k)).next h
    · refine ⟨hquiet.current, ?_⟩
      rcases hshm with ⟨hnone, -, hshm⟩ | ⟨r, hr, ⟨-, hshm⟩ | ⟨-, hshm⟩⟩
      · rw [hshm, asked, hnone]
        rfl
      · rw [hshm, asked, hr]
        exact Shm.next_refused ..
      · rw [hshm, asked, hr]
        exact Shm.next_refused ..
    · exact nomatch e
  | unmap ptr =>
    obtain ⟨ret, _, -, ⟨hquiet, hshm⟩, rfl⟩ | ⟨e, -⟩ := ((sysShmUnmap_quiet ptr k).and (sysShmUnmap_shm ptr k)).next h
    · refine ⟨hquiet.current, ?_⟩
      rcases hshm with hshm | ⟨i, m, -, -, -, hshm, -⟩
      · rw [hshm]
        rfl
      · rw [hshm, Shm.next, (Shm.vaNext_release _ _).1]
        rfl
    · exact nomatch e

theorem next_of_run {tr : List (Kernel × ShmCall)} (hrun : Run shmStep k tr k') : k'.table.current = k.table.current ∧
    k'.shm.next k.table.current = k.shm.next k.table.current + (tr.map asked).sum := by
  induction hrun with
  | nil => exact ⟨rfl, rfl⟩
  | snoc _ hs ih =>
    obtain ⟨hcurrent, hnext⟩ := next_of_shmStep hs
    rw [ih.1] at hcurrent hnext
    refine ⟨hcurrent, ?_⟩
    rw [hnext, ih.2, List.map_append, List.sum_append, List.map_singleton, List.sum_singleton, Nat.add_assoc]

end Count

theorem nextVa_of_lt {ε : Type} (pid pages : ℕ) (hva : SHM_VA_BASE + k.shm.next pid * 4096 < 2 ^ 64)
    (hpages : k.shm.next pid + pages < 2 ^ 64) : nextVa (ε := ε) pid pages k = .ok (SHM_VA_BASE + k.shm.next pid * 4096)
      { k with shm := { k.shm with vaNext := k.shm.vaNext.insert pid (k.shm.next pid + pages) } } := by
  unfold nextVa
  rw [get_bind]
  change (Exec.mul 64 (k.shm.next pid) 4096 >>= fun off => Exec.add 64 SHM_VA_BASE off >>= fun va =>
    Exec.add 64 (k.shm.next pid) pages >>= fun next' => onShm _ >>= fun _ => pure va) k = _
  rw [mul_of_lt (by omega), pure_bind, add_of_lt hva, add_of_lt hpages]
  rfl

/-! ### The calls return -/

section Ends

variable {ε : Type} {baseVa : ℕ} {v : Vm} {fl : PageTableFlags} {k : Kernel}
variable {handle : ℕ} {r : ShmRegion}

theorem mapRegion_ends (hfl : fl.getLsbD 0 = true) (fs : List ℕ) (n : ℕ) (hva : baseVa + (n + fs.length) * 4096 ≤ 2 ^ 48)
    (h : FreeLow v.mem) : (mapRegion baseVa fl n fs v).Ends fun v' => FreeLow v'.mem := by
  induction fs generalizing n v with
  | nil => exact ends_ok h
  | cons f fs ih =>
    rw [List.length_cons] at hva
    have hlt : baseVa + n * 4096 < 2 ^ 48 := by omega
    have hlt' : baseVa + n * 4096 < 2 ^ 64 := by omega
    rw [mapRegion, add_of_lt hlt', pure_bind, virtAddrNew_of_canonical (.inl hlt), pure_bind]
    have hrest : baseVa + (n + 1 + fs.length) * 4096 ≤ 2 ^ 48 := by
      rw [Nat.add_assoc n, Nat.add_comm 1]
      exact hva
    have hpage := addressSpace_mapTo_ends (signExtend (baseVa + n * 4096) / 4096) f hfl h
    exact ends_bind (ends_mapErr hpage) fun _ v₁ h₁ => ih (n + 1) hrest h₁

theorem mapRegion_index (fs : List ℕ) (n : ℕ) (v : Vm) :
    (mapRegion baseVa fl n fs v).Post (fun _ _ => True) (fun i _ => i < n + fs.length) := by
  induction fs generalizing n v with
  | nil => trivial
  | cons f fs ih =>
    rw [List.length_cons]
    refine post_bind (post_add ..) fun _ _ _ => ?_
    refine post_bind (virtAddrNew_canonical ..) fun _ _ _ => ?_
    refine post_bind (post_mapErr ((Outcome.post_true _).imp_err fun _ _ _ => ?_)) fun _ v₁ _ => ?_
    · omega
    · exact (ih (n + 1) v₁).imp_err fun _ _ h => by omega

theorem unmap_ends {m : PhysMem} (p4 page : ℕ) (h : FreeLow m) : (unmap p4 page m).Ends FreeLow := by
  rw [unmap, get_bind]
  cases walk m p4 page with
  | error e => exact ends_err h
  | ok p1 =>
    dsimp only
    cases nextTable (m.words p1 (pageIndex 1 page)) with
    | error e => exact ends_err h
    | ok f => exact ends_ok h

theorem unmapPages_ends {pages : ℕ} (hva : baseVa + pages * 4096 ≤ 2 ^ 48) (h : FreeLow v.mem) :
    (unmapPages (ε := ε) baseVa pages v).Ends fun v' => FreeLow v'.mem := by
  refine ends_forM h fun x hx v' h' => ?_
  have hlt : (baseVa + x * 4096) / 4096 * 4096 < 2 ^ 48 := by
    have := List.mem_range.mp hx
    omega
  refine ends_bind (ends_attempt ?_) fun _ v₁ h₁ => ends_ok h₁
  rw [AddressSpace.unmapVa, virtAddrNew_of_canonical (.inl hlt), pure_bind, get_bind]
  exact ends_bind (ends_zoom (ends_mapErr (unmap_ends _ _ h'))) fun _ v₁ h₁ => ends_ok h₁

theorem mapOrUndo_ends {frames : List ℕ} (hfl : fl.getLsbD 0 = true) (hva : baseVa + frames.length * 4096 ≤ 2 ^ 48)
    (h : FreeLow v.mem) : (mapOrUndo (ε := ε) baseVa fl frames v).Ends fun v' => FreeLow v'.mem := by
  have hva' : baseVa + (0 + frames.length) * 4096 ≤ 2 ^ 48 := by rwa [Nat.zero_add]
  refine ends_bind_of_post (ends_attempt (mapRegion_ends hfl frames 0 hva' h))
    (P := fun r _ => ∀ i, r = .error i → i ≤ frames.length) ?_ fun r v₁ hr h₁ => ?_
  · refine post_attempt ((mapRegion_index frames 0 v).imp (fun _ _ _ => nofun) fun i _ hi => ?_)
    rintro _ ⟨⟩
    omega
  · cases r with
    | ok _ => exact ends_ok h₁
    | error i =>
      refine ends_bind (unmapPages_ends ?_ h₁) fun _ v₂ h₂ => ends_ok h₂
      exact (Nat.add_le_add_left (Nat.mul_le_mul_right 4096 (hr i rfl)) baseVa).trans hva

def endMap (m : ShmMapping) : Option Bool → Exec ε Kernel ℕ
  | some true => do
    onShm fun shm => { shm with mappings := shm.mappings ++ [m] }
    pure m.baseVa
  | _ => do
    undoRef m.handle
    pure U64_MAX

theorem sysShmMap_eq {mode : ℕ} (hr : k.shm.table[handle]? = some r) (hrefs : r.refs + 1 < 2 ^ 32)
    (hva : SHM_VA_BASE + (k.shm.next k.table.current + r.frames.length) * 4096 < 2 ^ 64) : sysShmMap (ε := ε) handle mode k =
      (inCurrent (mapOrUndo (SHM_VA_BASE + k.shm.next k.table.current * 4096) (pageFlags (mode &&& SHM_MODE_WRITE ≠ 0)) r.frames)
        >>= endMap ⟨k.table.current, handle, SHM_VA_BASE + k.shm.next k.table.current * 4096, r.frames.length⟩)
        (k.mapping handle r) := by
  let k₁ : Kernel := { k with shm := { k.shm with table := k.shm.table.insert handle { r with refs := r.refs + 1 } } }
  have hnext : nextVa (ε := ε) k.table.current r.frames.length k₁ =
      .ok (SHM_VA_BASE + k.shm.next k.table.current * 4096) (k.mapping handle r) :=
    nextVa_of_lt (k := k₁) _ _ (lt_of_le_of_lt (Nat.add_le_add_left (Nat.mul_le_mul_right 4096 (Nat.le_add_right _ _)) _) hva)
      (lt_of_le_of_lt ((Nat.le_mul_of_pos_right _ (by decide)).trans (Nat.le_add_left _ _)) hva)
  rw [sysShmMap, get_bind, hr]
  dsimp only
  rw [add_of_lt hrefs, pure_bind]
  show (nextVa k.table.current r.frames.length >>= _) k₁ = _
  rw [bind_of_ok hnext]
  refine congrFun (congrArg _ (funext fun b => ?_)) _
  rcases b with _ | _ | _ <;> rfl

theorem inCurrent_ends {α : Type} {x : Exec ε Vm α} (h : FreeLow k.mem)
    (hx : ∀ v : Vm, v.mem = k.mem → (x v).Ends fun v' => FreeLow v'.mem) : (inCurrent x k).Ends fun k' => FreeLow k'.mem := by
  cases hp : k.table.procs[k.table.current]? with
  | none =>
    rw [inCurrent, get_bind, show k.table.currentProcess = none from hp]
    exact ends_ok h
  | some p =>
    rw [inCurrent_eq hp]
    exact ends_bind (ends_zoom (hx _ rfl)) fun _ _ h' => ends_ok h'

theorem sysShmMap_returns (mode : ℕ) (hr : k.shm.table[handle]? = some r)
    (hrefs : r.refs + 1 < 2 ^ 32) (hva : SHM_VA_BASE + (k.shm.next k.table.current + r.frames.length) * 4096 ≤ 2 ^ 48)
    (h : FreeLow k.mem) : ∃ ret k', sysShmMap (ε := Empty) handle mode k = .ok ret k' ∧ FreeLow k'.mem := by
  have hva' : SHM_VA_BASE + k.shm.next k.table.current * 4096 + r.frames.length * 4096 ≤ 2 ^ 48 := by
    rwa [Nat.add_assoc, ← Nat.add_mul]
  have hends : (sysShmMap (ε := Empty) handle mode k).Ends fun k' => FreeLow k'.mem := by
    rw [sysShmMap_eq hr hrefs (by omega)]
    have hloop := inCurrent_ends (ε := Empty) (k := k.mapping handle r) h fun v hv => mapOrUndo_ends
      (mapFlags_pageFlags (decide (mode &&& SHM_MODE_WRITE ≠ 0))).present hva' (hv ▸ h)
    refine ends_bind_of_post hloop ((inCurrent_put _ _).imp_err fun _ _ _ => trivial) fun b k' ⟨v, hk'⟩ h' => ?_
    have hundo : (undoRef (ε := Empty) handle k').Ends fun k'' => FreeLow k''.mem := by
      have hself : k'.shm.table[handle]? = some { r with refs := r.refs + 1 } := by
        rw [hk']
        exact Std.ExtTreeMap.getElem?_insert_self
      rw [undoRef, get_bind, hself]
      exact ends_ok h'
    match b with
    | some true => exact ends_ok h'
    | some false => exact ends_bind hundo fun _ _ h => ends_ok h
    | none => exact ends_bind hundo fun _ _ h => ends_ok h
  obtain ⟨ret, k', hok, h'⟩ | ⟨e, -⟩ := Outcome.ends_iff.mp hends
  · exact ⟨ret, k', hok, h'⟩
  · exact nomatch e

theorem sysShmMap_panics {mode : ℕ} {p : Process} (hp : k.table.procs[k.table.current]? = some p)
    (hr : k.shm.table[handle]? = some r) (hrefs : r.refs + 1 < 2 ^ 32) (hne : r.frames ≠ []) (hsmall : r.frames.length < 2 ^ 32)
    (hva : SHM_VA_BASE + k.shm.next k.table.current * 4096 = 2 ^ 48) : sysShmMap (ε := ε) handle mode k = .panic := by
  have hpanic : ∀ v, mapOrUndo (ε := ε) (2 ^ 48) (pageFlags (mode &&& SHM_MODE_WRITE ≠ 0)) r.frames v = .panic := fun v => by
    obtain ⟨f, fs, hframes⟩ := List.exists_cons_of_ne_nil hne
    rw [mapOrUndo, bind_apply, Exec.attempt, hframes, mapRegion, add_of_lt (by decide), pure_bind,
      bind_apply, virtAddrNew, if_neg (by decide), if_neg (by decide), if_neg (by decide), panic_apply]
  rw [sysShmMap_eq hr hrefs (by rw [Nat.add_mul]; omega), bind_apply, inCurrent_eq (k := k.mapping handle r) hp,
    bind_apply, Exec.zoom, hva, hpanic]

end Ends

/-! ### The addresses run out -/

structure Repeated (pid handle n : ℕ) (k : Kernel) : Prop where
  low : FreeLow k.mem
  current : k.table.current = pid
  live : (k.table.view pid).isSome
  next : k.shm.next pid = n * 16
  region : ∃ r, k.shm.table[handle]? = some r ∧ r.frames.length = 16 ∧ r.refs ≤ n

theorem Repeated.call {pid handle n : ℕ} (h : Repeated pid handle n k) (mode : ℕ) (hn : n < 0xA00000000 / 16) :
    ∃ k', shmStep k (.map handle mode) = some k' ∧ Repeated pid handle (n + 1) k' := by
  obtain ⟨hlow, rfl, hlive, hnext, r, hr, hlen, hrefs⟩ := h
  have hbase : SHM_VA_BASE = 0x600000000 * 4096 := rfl
  obtain ⟨ret, k', hcall, hlow'⟩ := sysShmMap_returns mode hr (by omega) (by rw [hlen]; omega) hlow
  have hstep : shmStep k (.map handle mode) = some k' := by
    rw [shmStep, hcall]
    rfl
  have hquiet := (sysShmMap_quiet handle mode k).ok hcall
  obtain ⟨hcurrent, hcount⟩ := next_of_shmStep hstep
  refine ⟨k', hstep, hlow', hcurrent, by rwa [hquiet.view], ?_, ?_⟩
  · rw [hcount, hnext, asked, hr, Option.map_some, Option.getD_some, hlen, Nat.add_mul]
  · rcases (sysShmMap_shm handle mode k).ok hcall with ⟨hnone, -⟩ | ⟨r', hr', ⟨-, hshm⟩ | ⟨-, hshm⟩⟩
    · cases hr.symm.trans hnone
    · cases hr.symm.trans hr'
      rw [hshm]
      exact ⟨_, Std.ExtTreeMap.getElem?_insert_self, hlen, Nat.succ_le_succ hrefs⟩
    · rw [hshm]
      exact ⟨r, hr, hlen, hrefs.trans n.le_succ⟩

theorem Repeated.calls {pid handle : ℕ} (h : Repeated pid handle 0 k) (mode : ℕ) : ∀ n ≤ 0xA00000000 / 16,
    ∃ tr k', Run shmStep k tr k' ∧ (∀ x ∈ tr, x.2 = .map handle mode) ∧ Repeated pid handle n k' := by
  intro n
  induction n with
  | zero => exact fun _ => ⟨[], k, .nil, nofun, h⟩
  | succ n ih =>
    intro hn
    obtain ⟨tr, k₁, hrun, hcalls, h₁⟩ := ih (Nat.le_of_succ_le hn)
    obtain ⟨k₂, hstep, h₂⟩ := h₁.call mode hn
    refine ⟨_, k₂, hrun.snoc hstep, fun x hx => ?_, h₂⟩
    rcases List.mem_append.mp hx with hx | hx
    · exact hcalls x hx
    · rw [List.mem_singleton.mp hx]

def makeRegion : List Event := [.spawn (some Fs.tinyImage) none, .runAll, .syscall (.shmCreate 65536)]

theorem exists_repeated : ∃ tr t, Run step bootMachine tr t ∧ Repeated 1 1 0 t.kernel := by
  have hfinal : (exec step Orderly bootMachine makeRegion).any fun t => t.kernel.mem.frames.numFrames = 4352 ∧
      t.kernel.table.current = 1 ∧ (t.kernel.table.view 1).isSome ∧ t.kernel.shm.next 1 = 0 ∧
      ∃ r ∈ t.kernel.shm.table[1]?, r.frames.length = 16 ∧ r.refs ≤ 0 := by
    decide +kernel
  obtain ⟨tr, t, hrun, -, hframes, hcurrent, hlive, hnext, r, hr, hlen, hrefs⟩ := exists_run_of_any hfinal
  refine ⟨tr, t, hrun, fun f hf _ => ?_, hcurrent, hlive, hnext, r, hr, hlen, hrefs⟩
  rw [hframes] at hf
  exact hf.trans (by decide)

/-! ### The window -/

def USER_STACK_BOTTOM : ℕ := Fs.USER_STACK_TOP - Fs.USER_STACK_PAGES * 4096

/-- **The addresses stay in the window**, in a run of calls by one process, while the pages asked for fit below the stack:
the next call, on a region of so many pages, computes its address without an overflow, and every page of the mapping is
aligned, below the stack, and an address `VirtAddr::new` accepts. -/
theorem addresses_in_window {k' : Kernel} {tr : List (Kernel × ShmCall)} (hrun : Run shmStep k tr k') (pages : ℕ)
    (hfit : SHM_VA_BASE + (k.shm.next k.table.current + (tr.map asked).sum + pages) * 4096 ≤ USER_STACK_BOTTOM) :
    ∃ va k'', nextVa (ε := Empty) k'.table.current pages k' = .ok va k'' ∧ va % 4096 = 0 ∧
      ∀ i < pages, va + i * 4096 + 4096 ≤ USER_STACK_BOTTOM ∧
        ∀ v : Vm, (Exec.add 64 va (i * 4096) >>= virtAddrNew : Exec ℕ Vm ℕ) v = .ok (va + i * 4096) v := by
  obtain ⟨hcurrent, hnext⟩ := next_of_run hrun
  rw [← hnext, ← hcurrent] at hfit
  have hbottom : USER_STACK_BOTTOM < 2 ^ 47 := by decide
  have hbase : SHM_VA_BASE = 0x600000000 * 4096 := rfl
  refine ⟨_, _, nextVa_of_lt _ _ (by omega) (by omega), by omega, fun i hi => ⟨by omega, fun v => ?_⟩⟩
  rw [add_of_lt (by omega), pure_bind, virtAddrNew_of_lt (by omega)]
  rfl

theorem addresses_in_window_second : ∃ tr t calls k va k', Run step bootMachine tr t ∧ Run shmStep t.kernel calls k ∧
    calls ≠ [] ∧ nextVa (ε := Empty) k.table.current 16 k = .ok va k' ∧ va + 16 * 4096 ≤ USER_STACK_BOTTOM := by
  obtain ⟨tr, t, hrun, hstart⟩ := exists_repeated
  obtain ⟨calls, k, hcalls, -, hk⟩ := hstart.calls SHM_MODE_WRITE 1 (by decide)
  have hsum := (next_of_run hcalls).2
  rw [hstart.current, hk.next, hstart.next] at hsum
  obtain ⟨va, k', hva, -, hpages⟩ := addresses_in_window hcalls 16 (by
    rw [hstart.current, hstart.next, ← hsum]
    decide)
  refine ⟨tr, t, calls, k, va, k', hrun, hcalls, ?_, hva, (hpages 15 (by decide)).1⟩
  rintro rfl
  cases hsum

/-- **The window runs out**: a process that maps one region again and again is given an address above its stack that is not
canonical, and in the end `VirtAddr::new` panics. -/
theorem window_runs_out : ∃ tr t, Run step bootMachine tr t ∧
    (∃ calls k k', Run shmStep t.kernel calls k ∧ (∀ x ∈ calls, x.2 = .map 1 SHM_MODE_WRITE) ∧
      nextVa (ε := Empty) k.table.current 16 k = .ok (2 ^ 47) k') ∧
    ∃ calls k, Run shmStep t.kernel calls k ∧ (∀ x ∈ calls, x.2 = .map 1 SHM_MODE_WRITE) ∧
      sysShmMap (ε := Empty) 1 SHM_MODE_WRITE k = .panic := by
  obtain ⟨tr, t, hrun, hstart⟩ := exists_repeated
  refine ⟨tr, t, hrun, ?_, ?_⟩
  · obtain ⟨calls, k, hcalls, hsame, hk⟩ := hstart.calls SHM_MODE_WRITE (2 ^ 33 / 16) (by decide)
    have hva := nextVa_of_lt (ε := Empty) (k := k) k.table.current 16
    rw [hk.current, hk.next] at hva
    exact ⟨calls, k, _, hcalls, hsame, by rw [hk.current]; exact hva (by decide) (by decide)⟩
  · obtain ⟨calls, k, hcalls, hsame, ⟨-, hcurrent, hlive, hnext, r, hr, hlen, hrefs⟩⟩ := hstart.calls SHM_MODE_WRITE _ le_rfl
    obtain ⟨v, hv⟩ := Option.isSome_iff_exists.mp hlive
    obtain ⟨p, hp, -⟩ := ProcessTable.view_eq_some.mp hv
    refine ⟨calls, k, hcalls, hsame, sysShmMap_panics (p := p) (by rw [hcurrent]; exact hp) hr ?_ ?_ ?_ ?_⟩
    · exact lt_of_le_of_lt (Nat.succ_le_succ hrefs) (by decide)
    · exact List.ne_nil_of_length_pos (by rw [hlen]; decide)
    · rw [hlen]
      decide
    · rw [hcurrent, hnext]
      decide

end RustKernel
