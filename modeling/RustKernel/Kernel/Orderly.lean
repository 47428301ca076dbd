import RustKernel.Kernel.Frames

/-!
# Live frames

Is a frame ever freed that a process, a region or the back buffer still uses?
-/

namespace RustKernel

open Lib Exec Memory RustKernel.Task Ipc Gfx Fs

/-! ### What the kernel relies on -/

/-- What the kernel takes for granted when it handles an event. -/
def Relies (k : Kernel) : Event → Prop
  -- A fault finds the frame that the process records.
  | .write page => ∀ a ∈ k.table.spaces[k.table.current]?, ∀ f ∈ cowFrame k.mem a.p4 page, a.mappedPages[page]? = some f
  -- The pid of the child is new, and no count has to pass 255.
  | .syscall .fork => k.table.procs[k.nextPid % 2 ^ 32]? = none ∧ ∀ a ∈ k.table.spaces[k.table.current]?,
      ∀ f ∈ a.frames, f ∉ k.pool → holders k.table.spaces f + a.frames.count f ≤ 255
  | .syscall (.exec _ _) => k.table.procs[k.nextPid % 2 ^ 32]? = none
  | .spawn _ _ => k.table.procs[k.nextPid % 2 ^ 32]? = none
  -- The child that `wait` takes out of the table records no frame of the pool.
  | .syscall .wait => ∀ p ∈ k.table.currentProcess, ∀ x ∈ p.childrenExited.head?, k.Reapable x.1
  -- The handle is new.
  | .syscall (.shmCreate _) => k.shm.table[k.shm.nextHandle]? = none
  | .syscall (.shmMap handle _) => k.Mappable handle
  | .syscall (.shmUnmap ptr) => ∀ m ∈ k.shm.mappings, m.pid = k.table.current → m.baseVa = ptr → k.Unmappable m
  | _ => True

instance (k : Kernel) (e : Event) : Decidable (Relies k e) := by
  unfold Relies
  split <;> infer_instance

/-- The event finds what the kernel relies on; so does the clean-up, where the event ends a process. -/
def Orderly (s : Machine) (e : Event) : Prop :=
  Relies s.kernel e ∧ ∀ s' ∈ step s e, (exitCode s e s').isSome → s.kernel.CanExit
deriving Decidable

/-! ### The invariant of the machine -/

/-- The invariant of the machine: memory is sound, and the active tables are those of who is running. -/
structure Machine.Sound (kernelP4 p2 : ℕ) (s : Machine) : Prop where
  kernel : s.kernel.Sound kernelP4 p2
  placed : Placed kernelP4 s.mode s.kernel

section

variable {kernelP4 p2 : ℕ} {k : Kernel} {s s' : Machine} {e : Event} {n : Entry} {regs : TrapFrame} {k' : Kernel}

theorem Booted.sound {p4 p3 : ℕ} (h : Booted s p4 p3 p2) : s.Sound p4 p2 := by
  obtain ⟨kind, hl, hk⟩ := h.tables.layout
  have hspaces : s.kernel.table.spaces = ∅ := by
    rw [h.table]
    rfl
  have hnone : ∀ i : ℕ, s.kernel.table.spaces[i]? = none := by simp [hspaces]
  have hpool : s.kernel.pool = [] := by
    unfold Kernel.pool
    rw [h.shm, h.fb.2]
    rfl
  have hno : ∀ {i : ℕ} {a : AddressSpace}, s.kernel.table.spaces[i]? ≠ some a := fun {i _} => by
    rw [hnone i]
    simp
  refine ⟨⟨⟨kind, ?_⟩, ?_, ?_⟩, ?_, ?_, ?_⟩
  · exact
      { roots :=
          { layout := hl
            kernel := hk
            root := fun _ _ hi => absurd hi hno
            ne := fun _ _ hi => absurd hi hno
            inj := fun _ _ _ _ hi => absurd hi hno }
        sealed := h.tables.sealed
        kernelLow := ⟨p3, h.tables.low⟩
        low := fun _ _ hi => absurd hi hno
        kernelTree := h.tables.tree
        tree := fun _ _ hi => absurd hi hno
        pages := fun _ _ _ _ hi => absurd hi hno
        data := fun _ _ _ hi => absurd hi hno
        lent := by simp [hpool]
        lentLow := by simp [hpool]
        count := fun f _ => by
          rw [holders_eq_zero.mpr fun _ _ hi => absurd hi hno]
          exact Nat.zero_le _ }
  · intro i j r r' f hi
    rw [h.shm] at hi
    simp at hi
  · intro i r f hi
    rw [h.shm] at hi
    simp at hi
  · rw [h.returnCr3]
    simp
  · exact fun _ => h.cr3
  · intro n regs hm
    cases h.mode.symm.trans hm

theorem Machine.Sound.not_live (h : s.Sound kernelP4 p2) {f : ℕ} (hf : s.kernel.mem.isUsed f = false) : ¬ s.kernel.Live f := by
  obtain ⟨kind, hm⟩ := h.kernel.memory
  rintro (⟨pid, p, page, hp, hpage⟩ | ⟨handle, r, hr, hmem⟩ | hmem)
  · have hused := hm.used_of_mem (ProcessTable.spaces_eq_some.mpr ⟨p, hp, rfl⟩) (AddressSpace.mem_frames.mpr ⟨page, hpage⟩)
    cases hf.symm.trans hused
  · exact hm.not_mem_pool hf (Kernel.mem_pool_region hr hmem)
  · exact hm.not_mem_pool hf (Kernel.mem_pool.mpr (.inr hmem))

/-! ### System calls -/

theorem kill_sound (pid : ℕ) (sig : Signal) (h : k.Sound kernelP4 p2) : (kill pid sig k).Post
    (fun _ => k.Safe kernelP4 p2) (fun _ => k.Safe kernelP4 p2) := by
  refine (kill_post pid sig k).imp ?_ (by rintro _ _ rfl; exact ⟨h, .refl _⟩)
  rintro _ _ rfl
  have hspaces : ((k.table.update pid (Process.signalled sig)).wake pid).spaces = k.table.spaces := by
    rw [ProcessTable.spaces_wake, ProcessTable.spaces_update (f := Process.signalled sig) _ pid fun _ => rfl]
  exact ⟨h.onTable hspaces, .of_spaces (by simp) rfl rfl hspaces⟩

theorem syscallDispatch_sound (call : Syscall) (h : k.Sound kernelP4 p2) (hown : k.Own) (hr : Relies k (.syscall call)) :
    (syscallDispatch (ε := Empty) call k).Post (fun _ => k.Safe kernelP4 p2) (fun _ _ => False) := by
  cases call with
  | getpid => exact ⟨h, .refl k⟩
  | fork => exact orMax_rule (fork_sound h hr.1 hr.2)
  | exec ram fat => exact orMax_rule (execFromAny_sound ram fat _ h (.inr hown) hr)
  | wait => exact sysWait_sound h hown hr
  | kill pid sig =>
    show (sysKill pid sig k).Post _ _
    unfold sysKill
    cases Signal.fromNum (sig % 2 ^ 32) with
    | none => exact ⟨h, .refl k⟩
    | some sig' => exact orMax_rule (post_bind (kill_sound _ sig' h) fun _ _ h => h)
  | getuid => exact currentField_rule _ ⟨h, .refl k⟩
  | geteuid => exact currentField_rule _ ⟨h, .refl k⟩
  | getgid => exact currentField_rule _ ⟨h, .refl k⟩
  | getegid => exact currentField_rule _ ⟨h, .refl k⟩
  | setuid uid => exact setId_rule ⟨h, .refl k⟩ (fun _ _ _ => h.update fun _ => rfl) fun _ _ _ => h.update fun _ => rfl
  | setgid gid => exact setId_rule ⟨h, .refl k⟩ (fun _ _ _ => h.update fun _ => rfl) fun _ _ _ => h.update fun _ => rfl
  | fbAcquire outPtr => exact sysFbAcquire_sound outPtr h hown
  | shmCreate size => exact sysShmCreate_sound size h hr
  | shmMap handle mode => exact sysShmMap_sound handle mode h hown hr
  | shmUnmap ptr => exact sysShmUnmap_sound ptr h hown hr
  | other ret => exact ⟨h, .refl k⟩

/-! ### Faults -/

theorem userWrite_sound (page : ℕ) (h : k.Sound kernelP4 p2) (hown : k.Own) (hret : ∀ c ∈ k.returnCr3, c = kernelP4)
    (hr : Relies k (.write page)) : (userWrite (ε := Empty) regs page k).Post
      (fun mode k' => ((∀ r, mode ≠ .user .running r) → k.CanExit) → k'.Sound kernelP4 p2 ∧ Placed kernelP4 mode k')
      (fun _ _ => False) := by
  have hexit : ∀ k', k'.Sound kernelP4 p2 → k'.returnCr3 = k.returnCr3 → (k.CanExit → k'.CanExit) →
      (exitCurrent (ε := Empty) (-1) k').Post (fun mode k'' => ((∀ r, mode ≠ .user .running r) → k.CanExit) →
        k''.Sound kernelP4 p2 ∧ Placed kernelP4 mode k'') (fun _ _ => False) := by
    intro k' h' hret' hcan
    by_cases hc : k.CanExit
    · refine (exitCurrent_sound (-1) h' (by rw [hret']; exact hret) (hcan hc)).imp_ok (fun _ _ h _ => h)
    · refine (exitCurrent_post (-1) k').imp_ok fun mode k'' hx hneed => absurd (hneed ?_) hc
      obtain ⟨_, -, hsched, -⟩ := hx
      exact hsched.not_running
  obtain ⟨a, ha, hp4⟩ := hown
  obtain ⟨p, hp, rfl⟩ := ProcessTable.spaces_eq_some.mp ha
  obtain ⟨kind, hm⟩ := h.memory
  have hcow := tryResolveCow_sound hm ha (hr _ ha)
  rw [hp4] at hcow
  refine userWrite_rule (fun _ => hexit k h rfl id) (fun _ => ⟨h, hret, nofun, fun _ _ _ => ⟨_, ha, hp4⟩⟩) (hcow.imp ?_ ?_)
  · intro o m hm' _
    cases o with
    | none => exact ⟨⟨hm', h.regions, h.backbuf⟩, hret, nofun, fun _ _ _ => ⟨_, ha, hp4⟩⟩
    | some g =>
      have hput := h.putSpace (v := ⟨m, p.addressSpace.replaceMapping page g⟩) hp hm' rfl
      have hsame : k.table.recordPage page (some g) =
          k.table.update k.table.current ({ · with addressSpace := p.addressSpace.replaceMapping page g }) := by
        unfold ProcessTable.recordPage ProcessTable.update
        rw [hp]
      rw [hsame]
      exact ⟨hput.1, hret, nofun, fun _ _ _ => hput.2.own ⟨_, ha, hp4⟩⟩
  · rintro _ _ rfl
    exact hexit k h rfl id

/-! ### Steps and runs -/

theorem Placed.stays {mode mode' : Mode} (h : Placed kernelP4 mode k) (hs : Stays k k')
    (hm : mode = .user n regs) (hm' : mode' ≠ .shell) : Placed kernelP4 mode' k' :=
  ⟨by rw [hs.returnCr3]; exact h.returnCr3, fun hsh => absurd hsh hm', fun _ _ _ => hs.own (h.ring3 n regs hm)⟩

theorem Placed.shell_stays (h : Placed kernelP4 .shell k) (hs : Stays k k') : Placed kernelP4 .shell k' :=
  ⟨by rw [hs.returnCr3]; exact h.returnCr3, fun _ => hs.cr3.trans (h.shell rfl), fun _ _ hm => nomatch hm⟩

theorem onTimer_sound (h : k.Sound kernelP4 p2) (hown : k.Own) (hret : ∀ c ∈ k.returnCr3, c = kernelP4)
    (hrel : k.table.current ≠ 0 → (∃ p ∈ k.table.currentProcess, p.signals ≠ []) → k.CanExit) :
    (onTimer (ε := Empty) regs k).Post (fun mode k' => k'.Sound kernelP4 p2 ∧ Placed kernelP4 mode k') (fun _ _ => False) := by
  refine onTimer_rule (deliverPending_sound h hret hrel) (fun _ _ h => h) ?_ ?_
  · rintro _ rfl -
    exact (reschedule_sound regs h hown hret).imp_ok fun _ k' ⟨h', hown', hret'⟩ => ⟨h', hret', nofun, fun _ _ _ => hown'⟩
  · rintro _ rfl -
    exact ⟨h, hret, nofun, fun _ _ _ => hown⟩

theorem onTimerInShell_sound (h : k.Sound kernelP4 p2) (hp : Placed kernelP4 .shell k)
    (hrel : k.table.current ≠ 0 → (∃ p ∈ k.table.currentProcess, p.signals ≠ []) → k.CanExit) :
    (onTimerInShell (ε := Empty) k).Post (fun mode k' => k'.Sound kernelP4 p2 ∧ Placed kernelP4 mode k')
      (fun _ _ => False) := by
  refine onTimerInShell_rule (deliverPending_sound h hp.returnCr3 hrel) (fun _ _ h => h) ?_
  rintro _ rfl
  exact ⟨h, hp⟩

theorem canExit_of_tick (ho : Orderly s .tick) (h : step s .tick = some s') (h0 : s.kernel.table.current ≠ 0)
    (hp : ∃ p ∈ s.kernel.table.currentProcess, p.signals ≠ []) : s.kernel.CanExit := by
  refine ho.2 s' h ?_
  obtain ⟨p, hp, hs⟩ := hp
  have hcur : s.kernel.table.currentProcess = some p := hp
  simp [exitCode, h0, hcur, hs]

theorem Machine.Sound.step (hs : s.Sound kernelP4 p2) (ho : Orderly s e) (h : RustKernel.step s e = some s') :
    s'.Sound kernelP4 p2 := by
  obtain ⟨x, hx, hok⟩ := step_eq_some h
  obtain ⟨hk, hp⟩ := hs
  cases hm : s.mode with
  | halted => rw [hm] at hx; cases e <;> cases hx
  | shell =>
    rw [hm] at hx hp
    cases e with
    | tick =>
      cases hx
      obtain ⟨hk', hp'⟩ := (onTimerInShell_sound hk hp (canExit_of_tick ho h)).ok hok
      exact ⟨hk', hp'⟩
    | spawn ram fat =>
      cases hx
      obtain ⟨hmode, hk', hstays⟩ := (shellCommand_rule (execFromAny_sound ram fat 0 hk (.inl (hp.shell rfl)) ho.1)).ok hok
      exact ⟨hk', hmode ▸ hp.shell_stays hstays⟩
    | runAll =>
      cases hx
      have hret : ∀ c ∈ (some s.kernel.cr3), c = kernelP4 := by
        rintro _ ⟨⟩
        exact hp.shell rfl
      have hk₁ : Kernel.Sound kernelP4 p2 { s.kernel with returnCr3 := some s.kernel.cr3 } := hk.congr
      obtain ⟨hk', hp'⟩ := (scheduleNext_sound (E := fun _ _ => False) hk₁ hret).ok hok
      exact ⟨hk', hp'⟩
    | sendSignal pid sig =>
      cases hx
      obtain ⟨hmode, hk', hstays⟩ := (shellCommand_rule (kill_sound pid sig hk)).ok hok
      exact ⟨hk', hmode ▸ hp.shell_stays hstays⟩
    | _ => cases hx
  | user n regs =>
    rw [hm] at hx
    have hown := hp.ring3 n regs hm
    have hexit : ∀ code, exitCurrent (ε := Empty) code s.kernel = .ok s'.mode s'.kernel → s.kernel.CanExit →
        s'.Sound kernelP4 p2 := fun code hok hcan =>
      have h' := (exitCurrent_sound (E := fun _ _ => False) code hk hp.returnCr3 hcan).ok hok
      ⟨h'.1, h'.2⟩
    cases e with
    | run regs' =>
      dsimp only [handler] at hx
      split_ifs at hx
      cases hx
      obtain ⟨hmode, hkernel⟩ := Outcome.ok.inj hok
      refine ⟨hkernel ▸ hk, ?_⟩
      rw [← hmode, ← hkernel]
      exact hp.stays (.refl _) hm (by simp)
    | write page =>
      dsimp only [handler] at hx
      split_ifs at hx
      cases hx
      obtain ⟨hk', hp'⟩ := (userWrite_sound page hk hown hp.returnCr3 ho.1).ok hok fun hne => ho.2 s' h (by
        rw [exitCode_write hne]
        rfl)
      exact ⟨hk', hp'⟩
    | syscall call =>
      obtain ⟨ret, hret, hmode⟩ := syscall_step hm h
      obtain ⟨hk', hstays⟩ := (syscallDispatch_sound call hk hown ho.1).ok hret
      exact ⟨hk', hp.stays hstays hm (by rw [hmode]; simp)⟩
    | exit code => cases hx; exact hexit code hok (ho.2 s' h rfl)
    | fault => cases hx; exact hexit (-1) hok (ho.2 s' h rfl)
    | tick =>
      cases hx
      obtain ⟨hk', hp'⟩ := (onTimer_sound hk hown hp.returnCr3 (canExit_of_tick ho h)).ok hok
      exact ⟨hk', hp'⟩
    | _ => cases hx

theorem Booted.sound_of_run {p4 p3 : ℕ} {tr : List (Machine × Event)} (hb : Booted s p4 p3 p2)
    (hrun : Run RustKernel.step s tr s') (ho : ∀ x ∈ tr, Orderly x.1 x.2) : s'.Sound p4 p2 :=
  hrun.invariant hb.sound ho fun _ _ _ hs ho h => hs.step ho h

/-- **No live frame is freed**, in a run of orderly events. -/
theorem free_not_live_of_run {p4 p3 p2 : ℕ} {tr : List (Machine × Event)} (hb : Booted s p4 p3 p2)
    (hrun : Run RustKernel.step s tr s') (ho : ∀ x ∈ tr, Orderly x.1 x.2) (f : ℕ)
    (hf : s'.kernel.mem.isUsed f = false) : ¬ s'.kernel.Live f :=
  (hb.sound_of_run hrun ho).not_live hf

end

def mapAndFork : List Event :=
  [.spawn (some tinyImage) none, .runAll, .syscall (.shmCreate 1), .syscall (.shmMap 1 2),
    .syscall (.shmUnmap SHM_VA_BASE), .syscall .fork, .write 0x40000, .tick, .exit 0, .syscall .wait, .exit 0]

/-- Frame 4120 was the region's, then the child's. -/
theorem free_not_live_mapAndFork : ∃ tr s, Run step bootMachine tr s ∧ (∀ x ∈ tr, Orderly x.1 x.2) ∧
    s.kernel.mem.isUsed 4120 = false ∧ ¬ s.kernel.Live 4120 := by
  have hfinal : (exec step Orderly bootMachine mapAndFork).any fun s => s.kernel.mem.isUsed 4120 = false := by
    decide +kernel
  obtain ⟨tr, s, hrun, ho, hfree⟩ := exists_run_of_any hfinal
  exact ⟨tr, s, hrun, ho, hfree, free_not_live_of_run booted_bootMachine hrun ho 4120 hfree⟩

/-- **A frame is freed while a process records it**: a program creates a region, maps it and exits. The zombie is still in
the table, with the region's frame among its pages. -/
theorem exit_frees_recorded_frame : ∃ tr s f, Run step bootMachine tr s ∧ s.kernel.mem.isUsed f = false ∧
    s.kernel.Live f := by
  have hfinal : (exec step (fun _ _ => True) bootMachine [.spawn (some tinyImage) none, .runAll, .syscall (.shmCreate 1),
      .syscall (.shmMap 1 2), .exit 0]).any fun s => s.kernel.mem.isUsed 4120 = false ∧
        ∃ p ∈ s.kernel.table.procs[1]?, p.addressSpace.mappedPages[SHM_VA_BASE / 4096]? = some 4120 := by
    decide +kernel
  obtain ⟨tr, s, hrun, -, hfree, p, hp, hpage⟩ := exists_run_of_any hfinal
  exact ⟨tr, s, 4120, hrun, hfree, .inl ⟨1, p, _, hp, hpage⟩⟩

end RustKernel
