import RustKernel.Kernel.Frames

/-!
# What events do to memory

Most events leave memory, the regions and the address spaces as they are. What the others do is said here once, in terms
of the calls they make: an exit cleans up the regions of the process, `wait` drops the child it reports, and a write that
is not allowed resolves a fault.
-/

namespace RustKernel

open Lib Exec Memory RustKernel.Task Ipc Gfx
open ProcessTable (spaces_update)

structure SameStore (k k' : Kernel) : Prop where
  mem : k'.mem = k.mem
  shm : k'.shm = k.shm
  frames : k'.fb.frames = k.fb.frames
  spaces : k'.table.spaces = k.table.spaces

theorem SameStore.refl (k : Kernel) : SameStore k k := ⟨rfl, rfl, rfl, rfl⟩

variable {k : Kernel}

theorem SameStore.trans {k' k'' : Kernel} (h : SameStore k k') (h' : SameStore k' k'') : SameStore k k'' :=
  ⟨h'.mem.trans h.mem, h'.shm.trans h.shm, h'.frames.trans h.frames, h'.spaces.trans h.spaces⟩

theorem SameStore.onTable {t : ProcessTable} (h : t.spaces = k.table.spaces) :
    SameStore k { k with table := t } := ⟨rfl, rfl, rfl, h⟩

def Ended (k k' : Kernel) : Prop := ∃ k₀ k₁, SameStore k k₀ ∧ cleanupPid (ε := Empty) k.table.current k₀ = .ok () k₁ ∧
  SameStore k₁ k'

section

variable {ε : Type} {E : ε → Kernel → Prop}

/-! ### Scheduling -/

theorem scheduleNext_store (k : Kernel) : (scheduleNext k).Post
    (fun mode k' => (∀ regs, mode ≠ .user .running regs) ∧ SameStore k k') E :=
  scheduleNext_rule (fun _ _ _ _ => ⟨nofun, rfl, rfl, rfl, rfl⟩) (fun _ _ => ⟨nofun, rfl, rfl, rfl, rfl⟩)
    fun _ _ _ => ⟨nofun, rfl, rfl, rfl, rfl⟩

theorem reschedule_store (frame : TrapFrame) (k : Kernel) : (reschedule frame k).Post (fun _ => SameStore k) E :=
  have hsave := ProcessTable.spaces_save k.table frame
  reschedule_rule (fun _ => ⟨rfl, rfl, rfl, hsave⟩) fun _ _ _ _ _ => ⟨rfl, rfl, rfl, hsave⟩

/-! ### Exit -/

theorem exitCurrent_store (code : ℤ) (k : Kernel) : (exitCurrent code k).Post
    (fun mode k' => (∀ regs, mode ≠ .user .running regs) ∧ Ended k k') (fun (_ : Empty) _ => False) := by
  refine exitCurrent_rule (R := fun k₁ => cleanupPid k.table.current (released k) = .ok () k₁)
    ((Outcome.post_self _).imp (fun _ _ h => h) nofun) fun p k₁ _ hclean => ?_
  refine (scheduleNext_store _).imp_ok fun mode k' h => ⟨h.1, released k, k₁, ⟨rfl, rfl, frames_released k, rfl⟩, hclean, ?_⟩
  exact (SameStore.onTable (ProcessTable.spaces_exit ..)).trans h.2

theorem deliverPending_store (s s' : Machine) : (deliverPending s.kernel).Post
    (fun r k' => match r with
      | none => k' = s.kernel ∧ exitCode s .tick s' = none
      | some _ => (exitCode s .tick s').isSome ∧ Ended s.kernel k') (fun (_ : Empty) _ => False) := by
  refine deliverPending_rule (fun h => ⟨rfl, exitCode_tick h⟩) fun p sig rest h0 hp hs => (exitCurrent_store _ _).imp_ok ?_
  rintro mode k' ⟨-, k₀, k₁, h₀, hclean, h₁⟩
  rw [ProcessTable.current_update] at hclean
  refine ⟨by simp [exitCode, h0, hp, hs], k₀, k₁, SameStore.trans (.onTable ?_) h₀, hclean, h₁⟩
  exact spaces_update (f := Process.withSignals rest) _ _ fun _ => rfl

/-! ### System calls -/

theorem kill_store (pid : ℕ) (sig : Signal) (k : Kernel) :
    (kill pid sig k).Post (fun _ => SameStore k) (fun _ => SameStore k) := by
  refine (kill_post pid sig k).imp ?_ fun _ _ h => h ▸ .refl k
  rintro _ _ rfl
  refine .onTable ?_
  rw [ProcessTable.spaces_wake, spaces_update (f := Process.signalled sig) _ pid fun _ => rfl]

def Waited (k k' : Kernel) : Option (ℕ × ℤ) → Prop
  | none => SameStore k k'
  | some (child, _) => ∃ k₁, SameStore k k₁ ∧ reap (ε := Empty) child k₁ = .ok () k'

theorem waited_of_reap {caller child : ℕ} {code : ℤ} {rest : List (ℕ × ℤ)} {k₁ : Kernel}
    (h₁ : k₁ = { k with table := k.table.update caller (Process.reporting rest) }) :
    (reap child k₁).Post (fun _ k' => Waited k k' (some (child, code))) (fun (_ : Empty) _ => False) := by
  refine (Outcome.post_self _).imp (fun _ _ h => ⟨k₁, h₁ ▸ .onTable ?_, h⟩) nofun
  exact spaces_update (f := Process.reporting rest) _ _ fun _ => rfl

theorem waitAny_store (caller : ℕ) (k : Kernel) :
    (waitAny caller k).Post (fun r k' => Waited k k' r) (fun (_ : Empty) _ => False) :=
  waitAny_rule (fun _ => .refl k) (fun _ _ _ => .onTable (spaces_update (f := Process.asleep) _ _ fun _ => rfl))
    fun _ _ _ _ _ _ => waited_of_reap rfl

theorem sysWait_store (k : Kernel) : (sysWait k).Post
    (fun _ k' => Waited k k' (k.table.currentProcess.bind (·.childrenExited.head?))) (fun (_ : Empty) _ => False) := by
  refine sysWait_rule (fun hp => ?_) (fun p hp hc => ?_) fun p child code rest hp hc => ?_
  · rw [hp]
    exact .refl k
  · rw [hp, Option.bind_some, hc]
    exact .onTable (spaces_update (f := Process.asleep) _ _ fun _ => rfl)
  · rw [hp, Option.bind_some, hc]
    exact waited_of_reap rfl

/-! ### Writes -/

theorem Task.ProcessTable.spaces_recordPage {t : ProcessTable} {a : AddressSpace} (ha : t.spaces[t.current]? = some a)
    (page : ℕ) (o : Option ℕ) : (t.recordPage page o).spaces = match o with
      | none => t.spaces
      | some g => t.spaces.insert t.current (a.replaceMapping page g) := by
  obtain ⟨p, hp, rfl⟩ := ProcessTable.spaces_eq_some.mp ha
  cases o with
  | none => rfl
  | some g => exact ProcessTable.spaces_update_space hp _ rfl

inductive Wrote (k : Kernel) (page : ℕ) : Mode → Kernel → Prop
  | allowed {regs : TrapFrame} : Wrote k page (.user .running regs) k
  | resolved {regs : TrapFrame} {o : Option ℕ} {m : PhysMem} : tryResolveCow k.cr3 page k.mem = .ok o m →
      Wrote k page (.user .running regs) { k with mem := m, table := k.table.recordPage page o }
  | killed {mode : Mode} {k' : Kernel} : (∀ regs, mode ≠ .user .running regs) → Ended k k' → Wrote k page mode k'
  | failed {mode : Mode} {k' : Kernel} {e : String} {m : PhysMem} : (∀ regs, mode ≠ .user .running regs) →
      tryResolveCow k.cr3 page k.mem = .err e m → Ended { k with mem := m } k' → Wrote k page mode k'

theorem userWrite_store (regs : TrapFrame) (page : ℕ) (k : Kernel) :
    (userWrite regs page k).Post (Wrote k page) (fun (_ : Empty) _ => False) :=
  userWrite_rule (fun _ => (exitCurrent_store _ k).imp_ok fun _ _ h => .killed h.1 h.2) .allowed
    ((Outcome.post_self _).imp (fun _ _ h => .resolved h) fun _ _ h =>
      (exitCurrent_store _ _).imp_ok fun _ _ h' => .failed h'.1 h h'.2)

/-! ### Events -/

def Event.plain : Event → Bool
  | .write _ | .spawn _ _ | .syscall .fork | .syscall (.exec _ _) | .syscall .wait | .syscall (.fbAcquire _)
  | .syscall (.shmCreate _) | .syscall (.shmMap _ _) | .syscall (.shmUnmap _) => false
  | _ => true

theorem syscallDispatch_plain {call : Syscall} (hplain : Event.plain (.syscall call) = true) (k : Kernel) :
    (syscallDispatch (ε := Empty) call k).Post (fun _ => SameStore k) (fun _ _ => False) := by
  cases call with
  | getpid => exact .refl k
  | kill pid sig =>
    show (sysKill pid sig k).Post _ _
    unfold sysKill
    cases Signal.fromNum (sig % 2 ^ 32) with
    | none => exact .refl k
    | some sig' => exact orMax_rule (post_bind (kill_store _ sig' k) fun _ _ h => h)
  | getuid => exact currentField_rule _ (.refl k)
  | geteuid => exact currentField_rule _ (.refl k)
  | getgid => exact currentField_rule _ (.refl k)
  | getegid => exact currentField_rule _ (.refl k)
  | setuid uid =>
    exact setId_rule (.refl k) (fun _ _ _ => .onTable (spaces_update _ _ fun _ => rfl))
      fun _ _ _ => .onTable (spaces_update _ _ fun _ => rfl)
  | setgid gid =>
    exact setId_rule (.refl k) (fun _ _ _ => .onTable (spaces_update _ _ fun _ => rfl))
      fun _ _ _ => .onTable (spaces_update _ _ fun _ => rfl)
  | other ret => exact .refl k
  | _ => cases hplain

theorem step_plain {s s' : Machine} {e : Event} (h : step s e = some s') (hplain : e.plain = true) :
    exitCode s e s' = none ∧ SameStore s.kernel s'.kernel ∨ (exitCode s e s').isSome ∧ Ended s.kernel s'.kernel := by
  obtain ⟨x, hx, hok⟩ := step_eq_some h
  let Q : Kernel → Prop := fun k' => exitCode s .tick s' = none ∧ SameStore s.kernel k' ∨
    (exitCode s .tick s').isSome ∧ Ended s.kernel k'
  cases hm : s.mode with
  | halted => rw [hm] at hx; cases e <;> cases hx
  | shell =>
    rw [hm] at hx
    cases e with
    | tick =>
      cases hx
      refine (onTimerInShell_rule (Q := fun _ => Q) (deliverPending_store s s') (fun _ _ h => .inr h) ?_).ok hok
      rintro _ ⟨rfl, h⟩
      exact .inl ⟨h, .refl _⟩
    | runAll =>
      cases hx
      have h₁ : SameStore s.kernel { s.kernel with returnCr3 := some s.kernel.cr3 } := ⟨rfl, rfl, rfl, rfl⟩
      exact .inl ⟨rfl, h₁.trans ((scheduleNext_store (E := fun _ _ => False) _).ok hok).2⟩
    | sendSignal pid sig =>
      cases hx
      exact .inl ⟨rfl, ((shellCommand_rule (kill_store pid sig s.kernel)).ok hok).2⟩
    | spawn ram fat => cases hplain
    | _ => cases hx
  | user n regs =>
    rw [hm] at hx
    cases e with
    | run regs' =>
      dsimp only [handler] at hx
      split_ifs at hx
      cases hx
      obtain ⟨-, hk⟩ := Outcome.ok.inj hok
      exact .inl ⟨rfl, hk ▸ .refl _⟩
    | write page => cases hplain
    | syscall call =>
      obtain ⟨ret, hret, -⟩ := syscall_step hm h
      exact .inl ⟨rfl, (syscallDispatch_plain hplain s.kernel).ok hret⟩
    | exit code => cases hx; exact .inr ⟨rfl, ((exitCurrent_store _ _).ok hok).2⟩
    | fault => cases hx; exact .inr ⟨rfl, ((exitCurrent_store _ _).ok hok).2⟩
    | tick =>
      cases hx
      refine (onTimer_rule (Q := fun _ => Q) (deliverPending_store s s') (fun _ _ h => .inr h) ?_ ?_).ok hok
      · rintro _ ⟨rfl, h⟩ -
        exact (reschedule_store regs _).imp_ok fun _ _ h' => .inl ⟨h, h'⟩
      · rintro _ ⟨rfl, h⟩ -
        exact .inl ⟨h, .refl _⟩
    | _ => cases hx

end

end RustKernel
