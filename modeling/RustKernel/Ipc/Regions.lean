import RustKernel.Ipc.Accounting

/-!
# How long a region lives

A region is freed with its last mapping. Is it freed once all processes that used it have ended?
-/

namespace RustKernel

open Lib Memory RustKernel.Task Ipc

def MapsAt (x : Machine × Event) (pid handle : ℕ) : Prop := x.1.kernel.table.current = pid ∧
  ∃ mode ret k', x.2 = .syscall (.shmMap handle mode) ∧ sysShmMap (ε := Empty) handle mode x.1.kernel = .ok ret k' ∧
    ret ≠ U64_MAX

def EndsAt (x : Machine × Event) (pid : ℕ) : Prop := x.1.kernel.table.current = pid ∧
  ∃ s', step x.1 x.2 = some s' ∧ (exitCode x.1 x.2 s').isSome

instance (x : Machine × Event) (pid : ℕ) : Decidable (EndsAt x pid) :=
  decidable_of_iff (x.1.kernel.table.current = pid ∧ (step x.1 x.2).any fun s' => (exitCode x.1 x.2 s').isSome) <| by
    rw [EndsAt, Option.any_eq_true]

def mapsAt (x : Machine × Event) (handle : ℕ) : Bool := match x.2 with
  | .syscall (.shmMap handle' mode) => handle' = handle && match sysShmMap (ε := Empty) handle' mode x.1.kernel with
    | .ok ret _ => ret != U64_MAX
    | _ => false
  | _ => false

theorem mapsAt_iff {x : Machine × Event} {pid handle : ℕ} :
    MapsAt x pid handle ↔ x.1.kernel.table.current = pid ∧ mapsAt x handle = true := by
  obtain ⟨s, e⟩ := x
  refine and_congr_right fun _ => ⟨?_, fun h => ?_⟩
  · rintro ⟨mode, ret, k', rfl, hcall, hne⟩
    simp [mapsAt, hcall, hne]
  · unfold mapsAt at h
    split at h
    · rename_i handle' mode he
      obtain ⟨heq, hret⟩ := (Bool.and_eq_true ..).mp h
      obtain rfl := of_decide_eq_true heq
      split at hret
      · rename_i ret k' hcall
        exact ⟨mode, ret, k', he, hcall, bne_iff_ne.mp hret⟩
      · cases hret
    · cases h

instance (x : Machine × Event) (pid handle : ℕ) : Decidable (MapsAt x pid handle) :=
  decidable_of_iff _ mapsAt_iff.symm

def FreedIn (tr : List (Machine × Event)) (handle : ℕ) : Prop := ∃ before x after r u, tr = before ++ x :: after ∧
  x.1.kernel.shm.table[handle]? = some r ∧ step x.1 x.2 = some u ∧ u.kernel.shm.table[handle]? = none ∧
    ∀ f ∈ r.frames, u.kernel.mem.isUsed f = false

section

variable {s s' t : Machine} {e : Event} {tr : List (Machine × Event)} {p4 p3 p2 pid h : ℕ}

theorem FreedIn.snoc (hf : FreedIn tr h) (x : Machine × Event) : FreedIn (tr ++ [x]) h := by
  obtain ⟨before, y, after, r, u, rfl, hrest⟩ := hf
  exact ⟨before, y, after ++ [x], r, u, by simp, hrest⟩

theorem MapsAt.shm (hm : MapsAt (s, e) pid h) (hs : step s e = some s') :
    ∃ r, s.kernel.shm.table[h]? = some r ∧ s'.kernel.shm = s.kernel.shm.mapped pid h r := by
  obtain ⟨rfl, mode, ret, k', he, hcall, hne⟩ := hm
  subst he
  obtain ⟨x, hx, -⟩ := step_eq_some hs
  cases hmode : s.mode with
  | halted => rw [hmode] at hx; cases hx
  | shell => rw [hmode] at hx; cases hx
  | user n regs =>
    obtain ⟨ret', hret, -⟩ := syscall_step hmode hs
    rw [show syscallDispatch (ε := Empty) (.shmMap h mode) s.kernel = sysShmMap h mode s.kernel from rfl, hcall] at hret
    obtain ⟨rfl, rfl⟩ := Outcome.ok.inj hret
    rcases (sysShmMap_shm h mode s.kernel).ok hcall with ⟨-, hmax, -⟩ | ⟨r, hr, ⟨-, hshm⟩ | ⟨hmax, -⟩⟩
    · exact absurd hmax hne
    · exact ⟨r, hr, hshm⟩
    · exact absurd hmax hne

theorem mapsAt_of_mapped {handle mode : ℕ} {r : ShmRegion} (hs : step s (.syscall (.shmMap handle mode)) = some s')
    (hshm : s'.kernel.shm = s.kernel.shm.mapped s.kernel.table.current handle r) :
    MapsAt (s, .syscall (.shmMap handle mode)) s.kernel.table.current handle := by
  obtain ⟨x, hx, -⟩ := step_eq_some hs
  cases hmode : s.mode with
  | halted => rw [hmode] at hx; cases hx
  | shell => rw [hmode] at hx; cases hx
  | user n regs =>
    obtain ⟨ret, hret, -⟩ := syscall_step hmode hs
    refine ⟨rfl, mode, ret, s'.kernel, rfl, hret, ?_⟩
    have hmore : s'.kernel.shm.mappings.length = s.kernel.shm.mappings.length + 1 := by
      rw [hshm, Shm.mapped, List.length_append]
      rfl
    rcases (sysShmMap_shm handle mode s.kernel).ok hret with ⟨-, -, hsame⟩ | ⟨r', hr', ⟨rfl, -⟩ | ⟨-, hsame⟩⟩
    · rw [hsame] at hmore
      omega
    · exact shmVa_ne_max _
    · rw [hsame] at hmore
      have : s.kernel.shm.mappings.length = s.kernel.shm.mappings.length + 1 := hmore
      omega

theorem not_endsAt (hs : step s e = some s') (hcode : exitCode s e s' = none) : ¬ EndsAt (s, e) pid := by
  rintro ⟨-, s'', hs'', hsome⟩
  cases hs.symm.trans hs''
  rw [hcode] at hsome
  cases hsome

def Traced (tr : List (Machine × Event)) (t : Machine) : Prop := ∀ m ∈ t.kernel.shm.mappings, ∃ before x after,
  tr = before ++ x :: after ∧ MapsAt x m.pid m.handle ∧ ∀ y ∈ after, ¬ EndsAt y m.pid

theorem Traced.step (ht : Traced tr s) (hs : step s e = some s') : Traced (tr ++ [(s, e)]) s' := by
  -- a record that is kept, at an event that does not end its process
  have hkeep : ∀ m ∈ s.kernel.shm.mappings, ¬ EndsAt (s, e) m.pid → ∃ before x after,
      tr ++ [(s, e)] = before ++ x :: after ∧ MapsAt x m.pid m.handle ∧ ∀ y ∈ after, ¬ EndsAt y m.pid := by
    intro m hm hnot
    obtain ⟨before, x, after, rfl, hx, hafter⟩ := ht m hm
    refine ⟨before, x, after ++ [(s, e)], by simp, hx, fun y hy => ?_⟩
    rcases List.mem_append.1 hy with hy | hy
    · exact hafter y hy
    · rw [List.mem_singleton.1 hy]
      exact hnot
  intro m hm
  cases step_shmEffect hs with
  | same hcode hshm => exact hkeep m (hshm ▸ hm) (not_endsAt hs hcode)
  | created _ hshm =>
    rw [hshm] at hm
    exact hkeep m hm (not_endsAt hs rfl)
  | mapped hr hshm =>
    have hmap := mapsAt_of_mapped hs hshm
    rw [hshm] at hm
    rcases List.mem_append.1 hm with hm | hm
    · exact hkeep m hm (not_endsAt hs rfl)
    · rw [List.mem_singleton.1 hm]
      exact ⟨tr, _, [], rfl, hmap, fun y hy => absurd hy List.not_mem_nil⟩
  | refused _ hshm =>
    rw [hshm] at hm
    exact hkeep m hm (not_endsAt hs rfl)
  | unmapped hi _ _ hshm _ =>
    rw [hshm, Shm.mappings_release] at hm
    exact hkeep m ((perm_swapRemove hi).mem_iff.2 (List.mem_cons_of_mem _ hm)) (not_endsAt hs rfl)
  | ended _ hshm _ =>
    rw [hshm, Shm.mappings_cleanup] at hm
    obtain ⟨hm, hpid⟩ := List.mem_filter.1 hm
    exact hkeep m hm fun hends => of_decide_eq_true hpid hends.1.symm

def HeldOrFreed (tr : List (Machine × Event)) (t : Machine) (h : ℕ) : Prop := (∃ x ∈ tr, ∃ pid, MapsAt x pid h) →
  h < t.kernel.shm.nextHandle ∧ (0 < records t.kernel.shm.mappings h ∨ t.kernel.shm.table[h]? = none ∧ FreedIn tr h)

theorem HeldOrFreed.step (ht : HeldOrFreed tr s h) (ho : s.kernel.shm.Ordered)
    (hnext : s.kernel.shm.nextHandle ≤ s'.kernel.shm.nextHandle) (hs : step s e = some s') :
    HeldOrFreed (tr ++ [(s, e)]) s' h := by
  rintro ⟨x, hx, pid, hmaps⟩
  by_cases hnow : ∃ pid, MapsAt (s, e) pid h
  · -- it is mapped now
    obtain ⟨pid, hnow⟩ := hnow
    obtain ⟨r, hr, hshm⟩ := hnow.shm hs
    have hpos : 0 < records s'.kernel.shm.mappings h := by
      rw [hshm, Shm.mapped, records_append, records_cons, if_pos rfl]
      omega
    exact ⟨(ho.handles h r hr).trans_le hnext, .inl hpos⟩
  have hx' : x ∈ tr := by
    rcases List.mem_append.1 hx with hx | hx
    · exact hx
    · rw [List.mem_singleton.1 hx] at hmaps
      exact absurd ⟨pid, hmaps⟩ hnow
  obtain ⟨hlt, hcase⟩ := ht ⟨x, hx', pid, hmaps⟩
  refine ⟨hlt.trans_le hnext, ?_⟩
  have heff := step_shmEffect hs
  rcases hcase with hpos | ⟨hnone, hfreed⟩
  · -- it has a record: if that was the last, the region goes now
    obtain ⟨m, hm, rfl⟩ := records_pos.1 hpos
    obtain ⟨r, hr, -⟩ := ho.regions m hm
    by_cases hzero : records s'.kernel.shm.mappings m.handle = 0
    · have hgone := (heff.goes ho.toAccounted hr).2 ⟨hpos, hzero⟩
      refine .inr ⟨hgone, tr, (s, e), [], r, s', rfl, hr, hs, hgone, ?_⟩
      exact heff.gone hr hgone
    · exact .inl (Nat.pos_of_ne_zero hzero)
  · exact .inr ⟨heff.stays_away hnone hlt, hfreed.snoc _⟩

theorem Booted.held_of_run (hb : Booted s p4 p3 p2) (hrun : Run step s tr t) (hfew : creates tr + 1 < 2 ^ 64) :
    Traced tr t ∧ HeldOrFreed tr t h := by
  induction hrun with
  | nil =>
    refine ⟨fun m hm => ?_, fun ⟨x, hx, _⟩ => absurd hx List.not_mem_nil⟩
    rw [hb.shm] at hm
    exact absurd hm List.not_mem_nil
  | @snoc tr a b e hrun hs ih =>
    rw [creates_snoc] at hfew
    obtain ⟨htraced, hheld⟩ := ih (by omega)
    obtain ⟨ho, hnext⟩ := hb.ordered_of_run hrun (by omega)
    refine ⟨htraced.step hs, hheld.step ho ((step_shmEffect hs).nextHandle_mono fun hc => ?_) hs⟩
    rw [if_pos hc] at hfew
    omega

/-- **Shared memory does not outlive its users**, if it had any: a region that was mapped at least once, and all of
whose processes have gone through `cleanup_pid` after they mapped it, is out of the table, and its frames were free
when it went. -/
theorem region_gone_of_run (hb : Booted s p4 p3 p2) (hrun : Run step s tr t) (hfew : creates tr + 1 < 2 ^ 64)
    (hmapped : ∃ x ∈ tr, ∃ pid, MapsAt x pid h)
    (hended : ∀ x after pid, x :: after <:+ tr → MapsAt x pid h → ∃ y ∈ after, EndsAt y pid) :
    t.kernel.shm.table[h]? = none ∧ FreedIn tr h := by
  obtain ⟨htraced, hheld⟩ := hb.held_of_run (h := h) hrun hfew
  rcases (hheld hmapped).2 with hpos | hgone
  · -- a record that is left belongs to a process that has not ended since
    obtain ⟨m, hm, rfl⟩ := records_pos.1 hpos
    obtain ⟨before, x, after, htr, hx, hafter⟩ := htraced m hm
    obtain ⟨y, hy, hends⟩ := hended x after m.pid ⟨before, htr.symm⟩ hx
    exact absurd hends (hafter y hy)
  · exact hgone

end

def createAndExit : List Event := [.spawn (some Fs.tinyImage) none, .runAll, .syscall (.shmCreate 1), .exit 0]

/-- **A region outlives its users** if nobody mapped it: its creator has gone through `cleanup_pid`, and the region is
in the table, with its frame in use. -/
theorem created_region_stays : ∃ tr t r f, Run step bootMachine tr t ∧ creates tr = 1 ∧
    (∃ x ∈ tr, x.2.isCreate = true ∧ x.1.kernel.table.current = 1) ∧ (∀ x ∈ tr, mapsAt x 1 = false) ∧
    (∃ x ∈ tr, EndsAt x 1) ∧ t.kernel.shm.table[1]? = some r ∧ f ∈ r.frames ∧ t.kernel.mem.isUsed f = true := by
  have hfinal : (exec step (fun _ _ => True) bootMachine createAndExit).any fun t =>
      (∃ r ∈ t.kernel.shm.table[1]?, 4120 ∈ r.frames) ∧ t.kernel.mem.isUsed 4120 = true := by
    decide +kernel
  obtain ⟨t, hrun, -, ⟨r, hr, hf⟩, hused⟩ := run_of_any hfinal
  exact ⟨_, t, r, 4120, hrun, by decide +kernel, by decide +kernel, by decide +kernel, by decide +kernel, hr, hf, hused⟩

def mapAndExit : List Event :=
  [.spawn (some Fs.tinyImage) none, .runAll, .syscall (.shmCreate 1), .syscall (.shmMap 1 2), .exit 0]

theorem region_gone_mapAndExit : ∃ t, Run step bootMachine (trace step bootMachine mapAndExit) t ∧
    t.kernel.shm.table[1]? = none ∧ FreedIn (trace step bootMachine mapAndExit) 1 := by
  have hfinal : (exec step (fun _ _ => True) bootMachine mapAndExit).any fun _ => True := by decide +kernel
  obtain ⟨t, hrun, -, -⟩ := run_of_any hfinal
  have hfew : creates (trace step bootMachine mapAndExit) = 1 := by decide +kernel
  have hmaps : ∃ x ∈ trace step bootMachine mapAndExit, MapsAt x 1 1 := by decide +kernel
  have hends : ∀ l ∈ (trace step bootMachine mapAndExit).tails, l.head?.all (fun x =>
      !decide (MapsAt x x.1.kernel.table.current 1) || l.tail.any (fun y => decide (EndsAt y x.1.kernel.table.current)))
        = true := by
    decide +kernel
  obtain ⟨x, hx, hx1⟩ := hmaps
  refine ⟨t, hrun, region_gone_of_run booted_bootMachine hrun (by rw [hfew]; decide) ⟨x, hx, 1, hx1⟩ ?_⟩
  rintro x after pid hsuffix hmaps
  obtain ⟨rfl, -⟩ := id hmaps
  have hlast := hends _ ((List.mem_tails ..).2 hsuffix)
  simpa [hmaps] using hlast

end RustKernel
