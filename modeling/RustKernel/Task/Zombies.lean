import RustKernel.Task.Exits

/-!
# Reaping zombies

A process that exits stays in the table as a zombie, with its address space and its kernel stack, until `wait` takes it
out: its parent finds it in `children_exited`.
-/

namespace RustKernel

open Lib RustKernel.Task

def LeavesNobody (s : Machine) (e : Event) : Prop :=
  ∀ s' ∈ step s e, (exitCode s e s').isSome → ∀ p ∈ s.kernel.table.currentProcess,
    s.kernel.table.Living p.parent ∧ p.childrenExited = []
deriving Decidable

def Task.ProcessTable.Reapable (t : ProcessTable) (pid : ℕ) : Prop :=
  ∃ (P : ℕ) (p : Process), t.procs[P]? = some p ∧ ¬ p.Zombie ∧ p.childrenExited.countP (·.1 = pid) = 1 ∧
    ∀ (P' : ℕ) (p' : Process), t.procs[P']? = some p' → (∃ c ∈ p'.childrenExited, c.1 = pid) → P' = P

variable {s s' : Machine} {e : Event}

theorem leavesNobody_lives (h : step s e = some s') (hok : LeavesNobody s e) : (lives s).LeavesNobody (labelOf s e) := by
  cases hl : labelOf s e with
  | exit pid parent code =>
    obtain ⟨p, hp, hcode, rfl, rfl⟩ := exit_of_label h hl
    obtain ⟨hliving, hnil⟩ := hok s' h (by rw [hcode]; rfl) p hp
    refine ⟨living_iff.mp hliving, fun l hpid => ?_⟩
    rw [lives_proc hp] at hpid
    rw [← Option.some.inj hpid]
    exact hnil
  | silent => trivial
  | born => trivial
  | report => trivial

/-- **Every zombie can be reaped.** In every run in which pids are not reused, no tick finds a signal pending for a zombie,
and nobody is left behind by an exit. -/
theorem zombies_reapable_of_run {p4 p3 p2 : ℕ} {s₀ : Machine} (h0 : Booted s₀ p4 p3 p2) {tr : List (Machine × Event)}
    (hrun : Run RustKernel.step s₀ tr s)
    (hok : ∀ x ∈ tr, (PidsLast x.1 x.2 ∧ NoDeadSignals x.1 x.2) ∧ LeavesNobody x.1 x.2) {pid : ℕ} {code : ℤ}
    (hz : s.kernel.table.stateOf pid = some (.zombie code)) : s.kernel.table.Reapable pid := by
  have hinv : Chronicle tr s ∧ (lives s).AllWaited := by
    refine hrun.history (I := fun tr s => Chronicle tr s ∧ (lives s).AllWaited)
      (K := fun s e => (PidsLast s e ∧ NoDeadSignals s e) ∧ LeavesNobody s e) ⟨h0.chronicle, ?_⟩ hok ?_
    · intro q l code hq
      rw [lives_proc_eq_none.mpr (by rw [h0.table]; simp [ProcessTable.new])] at hq
      cases hq
    · rintro tr a e b ⟨hc, hw⟩ ⟨⟨hpids, hdead⟩, hleave⟩ h
      exact ⟨hc.step h hpids hdead, hw.step hc.recorded (freshNumbers_of_step h hpids) (leavesNobody_lives h hleave)
        (lives_step hc.alive h)⟩
  obtain ⟨hc, hw⟩ := hinv
  obtain ⟨p, hp, hstate⟩ := ProcessTable.stateOf_eq_some.mp hz
  obtain ⟨m, hm, halive, hmem⟩ := hw pid p.life code (lives_proc hp) (Process.exited_eq_some.mpr hstate)
  obtain ⟨honce, honly⟩ := hc.recorded.waited_once hm hmem
  obtain ⟨q, hq, rfl⟩ := exists_of_lives_proc hm
  exact ⟨_, q, hq, Process.exited_eq_none.mp halive, honce, fun P' p' hp' hc' => honly P' _ (lives_proc hp') hc'⟩

theorem zombies_reapable_forkAndExit : ∃ tr s, Run step bootMachine tr s ∧
    (∀ x ∈ tr, (PidsLast x.1 x.2 ∧ NoDeadSignals x.1 x.2) ∧ LeavesNobody x.1 x.2) ∧
    s.kernel.table.stateOf 2 = some (.zombie 7) ∧ s.kernel.table.Reapable 2 := by
  have hfinal : (exec step (fun s e => (PidsLast s e ∧ NoDeadSignals s e) ∧ LeavesNobody s e) bootMachine forkAndExit).any
      fun s => s.kernel.table.stateOf 2 = some (.zombie 7) := by
    decide +kernel
  obtain ⟨tr, s, hrun, hok, hz⟩ := exists_run_of_any hfinal
  exact ⟨tr, s, hrun, hok, hz, zombies_reapable_of_run booted_bootMachine hrun hok hz⟩

/-- **A zombie that nobody can reap**: the shell starts a program, and it exits. Its parent is pid 0, which is not in the
table, so nobody is told. -/
theorem zombie_of_shell : ∃ tr s, Run step bootMachine tr s ∧ s.kernel.table.stateOf 1 = some (.zombie 0) ∧
    ¬ s.kernel.table.Reapable 1 := by
  have hfinal : (exec step (fun _ _ => True) bootMachine [.spawn (some Fs.tinyImage) none, .runAll, .exit 0]).any fun s =>
      s.kernel.table.stateOf 1 = some (.zombie 0) ∧ ∀ x ∈ s.kernel.table.procs.toList, x.2.childrenExited = [] := by
    decide +kernel
  obtain ⟨tr, s, hrun, -, hz, hnil⟩ := exists_run_of_any hfinal
  refine ⟨tr, s, hrun, hz, ?_⟩
  rintro ⟨P, p, hp, -, hcount, -⟩
  rw [hnil (P, p) (Std.ExtTreeMap.mem_toList_iff_getElem?_eq_some.mpr hp)] at hcount
  cases hcount

end RustKernel
