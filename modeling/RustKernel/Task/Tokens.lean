import RustKernel.Task.Lifecycle

/-!
# One token for each process

A process waits for its turn in the queue of `pick_next`, or has it and is current. It is queued when it is created,
when it is preempted, when its child exits and when it is sent a signal, in the last two cases if it sleeps: nobody
looks whether it is queued already, or current.
-/

namespace RustKernel

open Lib RustKernel.Task
open ProcessTable (stateOf_eq_some getElem?_procs_update runnable_update current_update stateOf_eq_view runnable_wake
  getElem?_procs_wake runnable_insert pickLoop_eq_none pickLoop_eq_some runnable_save stateOf_update)
open List (nodup_append mem_singleton mem_append)

structure QueuedOnce (t : ProcessTable) : Prop where
  nodup : t.runnable.Nodup
  awake : ∀ pid ∈ t.runnable, t.stateOf pid ≠ some .sleeping

structure OneToken (t : ProcessTable) : Prop extends QueuedOnce t where
  current : t.current ∉ t.runnable

section Table

variable {t t' : ProcessTable} {pid : ℕ}
variable {f : Process → Process}

theorem stateOf_update_ne (hf : ∀ p, t.procs[pid]? = some p → (f p).state = .sleeping → p.state = .sleeping) {q : ℕ}
    (h : t.stateOf q ≠ some .sleeping) : (t.update pid f).stateOf q ≠ some .sleeping := by
  intro hsleep
  obtain ⟨p, hp, hstate⟩ := stateOf_eq_some.1 hsleep
  rw [getElem?_procs_update] at hp
  split_ifs at hp with hq
  · obtain ⟨p₀, hp₀, rfl⟩ := Option.map_eq_some_iff.1 hp
    exact h (stateOf_eq_some.2 ⟨p₀, hq ▸ hp₀, hf p₀ hp₀ hstate⟩)
  · exact h (stateOf_eq_some.2 ⟨p, hp, hstate⟩)

theorem QueuedOnce.update (h : QueuedOnce t)
    (hf : ∀ p, t.procs[pid]? = some p → (f p).state = .sleeping → p.state = .sleeping) : QueuedOnce (t.update pid f) where
  nodup := by
    rw [runnable_update]
    exact h.nodup
  awake := fun q hq => by
    rw [runnable_update] at hq
    exact stateOf_update_ne hf (h.awake q hq)

theorem OneToken.update (h : OneToken t)
    (hf : ∀ p, t.procs[pid]? = some p → (f p).state = .sleeping → p.state = .sleeping) : OneToken (t.update pid f) where
  toQueuedOnce := h.toQueuedOnce.update hf
  current := by
    rw [runnable_update, current_update]
    exact h.current

theorem OneToken.asleep (h : OneToken t) : OneToken (t.update t.current Process.asleep) where
  nodup := by
    rw [runnable_update]
    exact h.nodup
  awake := fun q hq => by
    rw [runnable_update] at hq
    have hne : q ≠ t.current := fun heq => h.current (heq ▸ hq)
    rw [ProcessTable.stateOf, getElem?_procs_update, if_neg hne]
    exact h.awake q hq
  current := by
    rw [runnable_update, current_update]
    exact h.current

theorem OneToken.erase (h : OneToken t) (child : ℕ) : OneToken { t with procs := t.procs.erase child } where
  nodup := h.nodup
  awake := fun q hq => by
    rw [stateOf_eq_view, ProcessTable.view_erase]
    split_ifs
    · exact nofun
    · rw [← stateOf_eq_view]
      exact h.awake q hq
  current := h.current

theorem Task.Process.woken_ne_sleeping (p : Process) : p.woken.state ≠ .sleeping := by
  unfold Process.woken
  split_ifs with h
  · exact nofun
  · exact h

theorem QueuedOnce.wake (h : QueuedOnce t) (pid : ℕ) : QueuedOnce (t.wake pid) where
  nodup := by
    rw [runnable_wake]
    split_ifs with hsleep
    · exact nodup_append.2 ⟨h.nodup, List.nodup_singleton pid, fun a ha b hb hab =>
        h.awake pid (mem_singleton.1 hb ▸ hab ▸ ha) hsleep⟩
    · rw [List.append_nil]
      exact h.nodup
  awake := fun q hq hsleep => by
    obtain ⟨p, hp, hstate⟩ := stateOf_eq_some.1 hsleep
    rw [getElem?_procs_wake] at hp
    split_ifs at hp with hqp
    · obtain ⟨p₀, -, rfl⟩ := Option.map_eq_some_iff.1 hp
      exact p₀.woken_ne_sleeping hstate
    · rw [runnable_wake, mem_append] at hq
      rcases hq with hq | hq
      · exact h.awake q hq (stateOf_eq_some.2 ⟨p, hp, hstate⟩)
      · split_ifs at hq
        · exact hqp (mem_singleton.1 hq)
        · cases hq

theorem Task.Process.woken_state (p : Process) : p.woken.state = .runnable ↔ p.state = .runnable ∨ p.state = .sleeping := by
  unfold Process.woken
  split_ifs with h
  · simp [h]
  · simp [h]

theorem OneToken.wake (h : OneToken t) (hpid : pid = t.current → t.stateOf pid ≠ some .sleeping) :
    OneToken (t.wake pid) where
  toQueuedOnce := h.toQueuedOnce.wake pid
  current := by
    rw [ProcessTable.current_wake, runnable_wake, mem_append]
    rintro (hmem | hmem)
    · exact h.current hmem
    · split_ifs at hmem with hsleep
      · exact hpid (mem_singleton.1 hmem).symm hsleep
      · cases hmem

theorem OneToken.insert {p : Process} (h : OneToken t) (hp : p.state = .runnable) (hqueue : p.pid ∉ t.runnable)
    (hcur : p.pid ≠ t.current) : OneToken (t.insert p) where
  nodup := by
    rw [runnable_insert hp]
    exact nodup_append.2 ⟨h.nodup, List.nodup_singleton _, fun a ha b hb hab => hqueue (mem_singleton.1 hb ▸ hab ▸ ha)⟩
  awake := fun q hq => by
    rw [ProcessTable.stateOf, ProcessTable.getElem?_procs_insert]
    rw [runnable_insert hp, mem_append, mem_singleton] at hq
    split_ifs with hqp
    · simp [hp]
    · exact h.awake q (hq.resolve_right hqp)
  current := by
    rw [runnable_insert hp, mem_append, mem_singleton]
    rintro (hmem | heq)
    · exact h.current hmem
    · exact hcur heq.symm

theorem QueuedOnce.pickNext (h : QueuedOnce t) : QueuedOnce t.pickNext.2 := by
  cases hpick : t.pickNext.1 with
  | none =>
    have hnil : t.pickNext.2.runnable = [] := (pickLoop_eq_none hpick).1
    exact ⟨by rw [hnil]; exact List.nodup_nil, by rw [hnil]; exact nofun⟩
  | some next =>
    obtain ⟨-, skipped, hq, -⟩ := pickLoop_eq_some hpick
    have hsub : t.pickNext.2.runnable.Sublist t.runnable := by
      have hrest := (List.sublist_cons_self next t.pickNext.2.runnable).trans
        (List.sublist_append_right skipped (next :: t.pickNext.2.runnable))
      rw [hq]
      exact hrest
    exact ⟨h.nodup.sublist hsub, fun q hmem => h.awake q (hsub.subset hmem)⟩

theorem QueuedOnce.picked (h : QueuedOnce t) {next : ℕ} (hpick : t.pickNext.1 = some next) : next ∉ t.pickNext.2.runnable := by
  obtain ⟨-, skipped, hq, -⟩ := pickLoop_eq_some hpick
  have hnodup := h.nodup
  rw [hq] at hnodup
  exact (List.nodup_cons.1 (nodup_append.1 hnodup).2.1).1

theorem not_mem_pickNext (hpick : t.pickNext.1 = none) (pid : ℕ) : pid ∉ t.pickNext.2.runnable := by
  rw [show t.pickNext.2.runnable = [] from (pickLoop_eq_none hpick).1]
  exact List.not_mem_nil

theorem QueuedOnce.scheduled (h : QueuedOnce t) {mode : Mode} (hs : Scheduled t t' mode) : OneToken t' := by
  cases hs with
  | idle hnone _ => exact ⟨h.pickNext, not_mem_pickNext hnone _⟩
  | enter hpick _ => exact ⟨⟨h.pickNext.nodup, h.pickNext.awake⟩, h.picked hpick⟩

theorem OneToken.save (h : OneToken t) (frame : TrapFrame) : QueuedOnce (t.save frame) where
  nodup := by
    rw [runnable_save]
    split_ifs
    · exact nodup_append.2 ⟨h.nodup, List.nodup_singleton _, fun a ha b hb hab => h.current (mem_singleton.1 hb ▸ hab ▸ ha)⟩
    · rw [List.append_nil]
      exact h.nodup
  awake := fun q hq => by
    have hstate : (t.save frame).stateOf q = t.stateOf q := by
      rw [stateOf_eq_view, ProcessTable.view_save, stateOf_eq_view, Option.map_map]
      split_ifs <;> rfl
    rw [hstate]
    rw [runnable_save, mem_append] at hq
    rcases hq with hq | hq
    · exact h.awake q hq
    · split_ifs at hq with hrun
      · rw [mem_singleton.1 hq, hrun.2]
        exact nofun
      · cases hq

theorem OneToken.rescheduled (h : OneToken t) {frame frame' : TrapFrame} (hre : Rescheduled t frame t' frame') :
    OneToken t' := by
  have hsaved := h.save frame
  cases hre with
  | stay hpick =>
    refine ⟨hsaved.pickNext, ?_⟩
    have hcur : (t.save frame).pickNext.2.current = t.current := ProcessTable.current_save ..
    rw [hcur]
    rcases hpick with hnone | hself
    · exact not_mem_pickNext hnone _
    · exact hsaved.picked hself
  | switch hpick _ _ => exact ⟨⟨hsaved.pickNext.nodup, hsaved.pickNext.awake⟩, hsaved.picked hpick⟩

theorem QueuedOnce.exit (h : QueuedOnce t) (pid parent : ℕ) (code : ℤ) : QueuedOnce (t.exit pid parent code) :=
  ((h.update (f := Process.zombified code) fun _ _ => nofun).update (f := Process.told pid code) fun _ _ hs => hs).wake parent

end Table

/-! ### Runs -/

/-- No signal goes to the current process while it sleeps. -/
def CurrentNotWoken (s : Machine) (e : Event) : Prop :=
  e.target = some s.kernel.table.current → s.kernel.table.stateOf s.kernel.table.current ≠ some .sleeping
deriving Decidable

def FreshPid (s : Machine) (e : Event) : Prop :=
  ∀ s' ∈ step s e, s'.kernel.nextPid = s.kernel.nextPid ∨
    s.kernel.nextPid % 2 ^ 32 ∉ s.kernel.table.runnable ∧ s.kernel.nextPid % 2 ^ 32 ≠ s.kernel.table.current
deriving Decidable

variable {s s' : Machine} {e : Event}

theorem OneToken.step (hone : OneToken s.kernel.table) (hwoken : CurrentNotWoken s e) (hfresh : FreshPid s e)
    (h : step s e = some s') : OneToken s'.kernel.table := by
  -- the pid of a new process
  have hnew : ∀ {p : Process}, p.Newborn s.kernel → s'.kernel.nextPid = nextPidOf s.kernel →
      OneToken (s.kernel.table.insert p) := by
    intro p hborn hnext
    rcases hfresh s' h with hsame | ⟨hqueue, hcur⟩
    · exact absurd (hnext ▸ hsame) (nextPidOf_ne s.kernel)
    · exact hone.insert hborn.state (hborn.pid ▸ hqueue) (hborn.pid ▸ hcur)
  cases step_effect h with
  | quiet hquiet _ =>
    refine ⟨⟨hquiet.runnable ▸ hone.nodup, fun pid hmem => ?_⟩, ?_⟩
    · rw [stateOf_eq_view, hquiet.view, ← stateOf_eq_view]
      exact hone.awake pid (hquiet.runnable ▸ hmem)
    · rw [hquiet.runnable, hquiet.current]
      exact hone.current
  | spawned hsp _ =>
    rw [hsp.table]
    exact hnew hsp.newborn hsp.nextPid
  | @forked _ _ _ _ child _ hf _ =>
    rw [hf.table]
    exact (hnew hf.newborn hf.nextPid).update (f := Process.returning child.pid) fun _ _ hs => hs
  | @reaped _ _ _ _ child _ rest _ _ _ _ htt ht _ _ =>
    rw [ht, htt]
    exact (hone.update (f := Process.reporting rest) fun _ _ hs => hs).erase child
  | slept _ _ _ ht _ _ =>
    rw [ht]
    exact hone.asleep
  | @signalled _ _ pid sig htarget ht _ _ =>
    have hsig : OneToken (s.kernel.table.update pid (Process.signalled sig)) := hone.update fun _ _ hs => hs
    rw [ht]
    refine hsig.wake fun hpid hsleep => ?_
    rw [current_update] at hpid
    rw [stateOf_update (f := Process.signalled sig) fun _ => rfl] at hsleep
    exact hwoken (hpid ▸ htarget) (hpid ▸ hsleep)
  | @identified _ _ p p' hp hset ht _ _ =>
    rw [ht]
    refine hone.update fun q hq hsleep => ?_
    obtain rfl : q = p := Option.some.inj (hq.symm.trans hp)
    have hstate : p'.state = q.state := by cases hset <;> rfl
    exact hstate ▸ hsleep
  | exited _ _ hsched _ => exact (hone.toQueuedOnce.exit _ _ _).scheduled hsched
  | @signalDeath _ p sig rest _ _ _ _ hsched _ =>
    have hsignals : QueuedOnce (s.kernel.table.update s.kernel.table.current (Process.withSignals rest)) :=
      hone.toQueuedOnce.update fun _ _ hs => hs
    exact (hsignals.exit _ _ _).scheduled hsched
  | rescheduled _ hre _ _ => exact hone.rescheduled hre
  | ignored _ hsame _ =>
    rw [hsame.table]
    exact hone
  | started _ hsched _ => exact hone.toQueuedOnce.scheduled hsched

/-- **Each process is scheduled through one token.** In every run in which the current process is not woken and every new
process gets a pid that is neither queued nor current, no process, runnable or not, is twice in the queue and the
current pid together. -/
theorem one_token_of_run {p4 p3 p2 : ℕ} {s₀ : Machine} (h0 : Booted s₀ p4 p3 p2) {tr : List (Machine × Event)}
    (hrun : Run RustKernel.step s₀ tr s) (hok : ∀ x ∈ tr, CurrentNotWoken x.1 x.2 ∧ FreshPid x.1 x.2) (pid : ℕ) :
    (s.kernel.table.current :: s.kernel.table.runnable).count pid ≤ 1 := by
  have hone : OneToken s.kernel.table := by
    refine hrun.invariant (I := fun s => OneToken s.kernel.table) (K := fun s e => CurrentNotWoken s e ∧ FreshPid s e) ?_ hok
      fun a e b hinv hcond h =>
      hinv.step hcond.1 hcond.2 h
    rw [h0.table]
    exact ⟨⟨List.nodup_nil, nofun⟩, nofun⟩
  exact List.nodup_iff_count_le_one.1 (List.nodup_cons.2 ⟨hone.current, hone.nodup⟩) pid

def forkAndWake : List Event :=
  [.spawn (some Fs.tinyImage) none, .runAll, .syscall .fork, .syscall .wait, .tick, .syscall (.kill 1 9)]

theorem one_token_forkAndWake : ∃ tr s, Run step bootMachine tr s ∧
    (∀ x ∈ tr, CurrentNotWoken x.1 x.2 ∧ FreshPid x.1 x.2) ∧ s.kernel.table.stateOf 1 = some .runnable ∧
    (s.kernel.table.current :: s.kernel.table.runnable).count 1 ≤ 1 := by
  have hfinal : (exec step (fun s e => CurrentNotWoken s e ∧ FreshPid s e) bootMachine forkAndWake).any
      fun s => s.kernel.table.stateOf 1 = some .runnable := by
    decide +kernel
  obtain ⟨tr, s, hrun, hok, hs⟩ := exists_run_of_any hfinal
  exact ⟨tr, s, hrun, hok, hs, one_token_of_run booted_bootMachine hrun hok 1⟩

def waitAndKill : List Event := [.spawn (some Fs.tinyImage) none, .runAll, .syscall .wait, .syscall (.kill 1 15)]

/-- **Two tokens**: the process that `wait` has put to sleep goes on running; woken by its own signal it is queued while
it is current. -/
theorem two_tokens : ∃ tr s, Run step bootMachine tr s ∧ (s.mode matches .user _ _) = true ∧
    s.kernel.table.stateOf 1 = some .runnable ∧ (s.kernel.table.current :: s.kernel.table.runnable).count 1 = 2 := by
  have hfinal : (exec step (fun _ _ => True) bootMachine waitAndKill).any fun s => (s.mode matches .user _ _) = true ∧
      s.kernel.table.stateOf 1 = some .runnable ∧ (s.kernel.table.current :: s.kernel.table.runnable).count 1 = 2 := by
    decide +kernel
  obtain ⟨tr, s, hrun, -, hs⟩ := exists_run_of_any hfinal
  exact ⟨tr, s, hrun, hs⟩

/-! ### No token is lost -/

/-- A runnable process is in the queue, or `runs`. The pid 0 stands for the kernel: `reschedule` does not queue it. -/
def Queued (t : ProcessTable) (runs : ℕ → Prop) : Prop :=
  ∀ pid ≠ 0, t.stateOf pid = some .runnable → pid ∈ t.runnable ∨ runs pid

section Queue

variable {t t' : ProcessTable} {pid : ℕ} {f : Process → Process} {runs : ℕ → Prop}

theorem Queued.update (h : Queued t runs)
    (hf : ∀ p, t.procs[pid]? = some p → (f p).state = .runnable → p.state = .runnable) : Queued (t.update pid f) runs := by
  intro q h0 hq
  obtain ⟨p, hp, hstate⟩ := stateOf_eq_some.1 hq
  rw [getElem?_procs_update] at hp
  rw [runnable_update]
  split_ifs at hp with hqp
  · obtain ⟨p₀, hp₀, rfl⟩ := Option.map_eq_some_iff.1 hp
    exact h q h0 (stateOf_eq_some.2 ⟨p₀, hqp ▸ hp₀, hf p₀ hp₀ hstate⟩)
  · exact h q h0 (stateOf_eq_some.2 ⟨p, hp, hstate⟩)

theorem Queued.wake (h : Queued t runs) (pid : ℕ) : Queued (t.wake pid) runs := by
  intro q h0 hq
  obtain ⟨p, hp, hstate⟩ := stateOf_eq_some.1 hq
  rw [getElem?_procs_wake] at hp
  rw [runnable_wake, mem_append]
  split_ifs at hp with hqp
  · obtain ⟨p₀, hp₀, rfl⟩ := Option.map_eq_some_iff.1 hp
    have hst : t.stateOf pid = some p₀.state := stateOf_eq_some.2 ⟨p₀, hp₀, rfl⟩
    rcases p₀.woken_state.1 hstate with hrun | hsleep
    · exact (h q h0 (hqp ▸ hst.trans (congrArg some hrun))).imp .inl id
    · rw [if_pos (hst.trans (congrArg some hsleep))]
      exact .inl (.inr (mem_singleton.2 hqp))
  · exact (h q h0 (stateOf_eq_some.2 ⟨p, hp, hstate⟩)).imp .inl id

theorem Queued.insert {p : Process} (h : Queued t runs) (hp : p.state = .runnable) : Queued (t.insert p) runs := by
  intro q h0 hq
  rw [runnable_insert hp, mem_append]
  rw [ProcessTable.stateOf, ProcessTable.getElem?_procs_insert] at hq
  split_ifs at hq with hqp
  · exact .inl (.inr (mem_singleton.2 hqp))
  · exact (h q h0 hq).imp .inl id

theorem Queued.erase (h : Queued t runs) (child : ℕ) : Queued { t with procs := t.procs.erase child } runs := by
  intro q h0 hq
  rw [stateOf_eq_view, ProcessTable.view_erase] at hq
  split_ifs at hq
  · cases hq
  · exact h q h0 ((stateOf_eq_view t q).trans hq)

/-- The process that runs exits. -/
theorem Queued.exit (h : Queued t (· = t.current)) (parent : ℕ) (code : ℤ) :
    Queued (t.exit t.current parent code) fun _ => False := by
  have hzombie : Queued (t.update t.current (Process.zombified code)) fun _ => False := by
    intro q h0 hq
    refine .inl ((h.update (f := Process.zombified code) (fun _ _ hs => by cases hs) q h0 hq).resolve_right ?_)
    rintro rfl
    obtain ⟨p, hp, hstate⟩ := stateOf_eq_some.1 hq
    rw [getElem?_procs_update, if_pos rfl] at hp
    obtain ⟨p₀, -, rfl⟩ := Option.map_eq_some_iff.1 hp
    cases hstate
  exact (hzombie.update (f := Process.told t.current code) fun _ _ hs => hs).wake parent

/-- The process that runs is saved. -/
theorem Queued.save (h : Queued t (· = t.current)) (frame : TrapFrame) : Queued (t.save frame) fun _ => False := by
  intro q h0 hq
  have hstate : t.stateOf q = some .runnable := by
    rw [stateOf_eq_view, ProcessTable.view_save, Option.map_map] at hq
    rw [stateOf_eq_view, ← hq]
    split_ifs <;> rfl
  rw [runnable_save, mem_append]
  rcases h q h0 hstate with hmem | rfl
  · exact .inl (.inl hmem)
  · rw [if_pos ⟨h0, hstate⟩]
    exact .inl (.inr List.mem_cons_self)

/-- A pick takes one runnable process from the queue. -/
theorem Queued.pickNext (h : Queued t fun _ => False) : Queued t.pickNext.2 (t.pickNext.1 = some ·) := by
  intro q h0 hq
  have hmem := (h q h0 hq).resolve_right id
  cases hpick : t.pickNext.1 with
  | none => exact absurd hq ((pickLoop_eq_none hpick).2 q hmem)
  | some next =>
    obtain ⟨-, skipped, hqueue, hskip⟩ := pickLoop_eq_some hpick
    rw [hqueue, mem_append, List.mem_cons] at hmem
    rcases hmem with hmem | rfl | hmem
    · exact absurd hq (hskip q hmem)
    · exact .inr rfl
    · exact .inl hmem

theorem Queued.scheduled {mode : Mode} (h : Queued t fun _ => False) (hs : Scheduled t t' mode) :
    Queued t' fun q => mode.isUser = true ∧ q = t'.current := by
  intro q h0 hq
  cases hs with
  | idle hnone _ => exact .inl ((h.pickNext q h0 hq).resolve_right (by simp [hnone]))
  | enter hpick _ => exact (h.pickNext q h0 hq).imp id fun hnext => ⟨rfl, Option.some.inj (hnext.symm.trans hpick)⟩

theorem Queued.rescheduled {frame frame' : TrapFrame} (h : Queued t (· = t.current))
    (hre : Rescheduled t frame t' frame') : Queued t' (· = t'.current) := by
  intro q h0 hq
  have hpicked := (h.save frame).pickNext
  cases hre with
  | stay hpick =>
    refine (hpicked q h0 hq).imp id fun hnext => ?_
    rcases hpick with hnone | hself
    · cases hnone.symm.trans hnext
    · exact (Option.some.inj (hnext.symm.trans hself)).trans (ProcessTable.current_save ..).symm
  | switch hpick _ _ => exact (hpicked q h0 hq).imp id fun hnext => Option.some.inj (hnext.symm.trans hpick)

end Queue

/-- The process that runs is the current one, in ring 3. -/
def Machine.Runs (s : Machine) (pid : ℕ) : Prop := s.mode.isUser = true ∧ pid = s.kernel.table.current

theorem Calm.isUser {mode mode' : Mode} (h : Calm mode mode') : mode'.isUser = mode.isUser := by cases h <;> rfl

theorem Queued.step (hq : Queued s.kernel.table s.Runs) (hs : step s e = some s') : Queued s'.kernel.table s'.Runs := by
  have hcur : Queued s.kernel.table (· = s.kernel.table.current) := fun q h0 hst => (hq q h0 hst).imp id And.right
  -- the same process goes on, or none; in ring 3 the process that is current after the step runs
  have hcalm : Calm s.mode s'.mode → s'.kernel.table.current = s.kernel.table.current →
      Queued s'.kernel.table s.Runs → Queued s'.kernel.table s'.Runs := by
    intro hc ht hqueued q h0 hst
    refine (hqueued q h0 hst).imp id fun hrun => ⟨hc.isUser.trans hrun.1, hrun.2.trans ht.symm⟩
  have huser : ∀ {n : Entry} {regs : TrapFrame}, s'.mode = .user n regs →
      Queued s'.kernel.table (· = s'.kernel.table.current) → Queued s'.kernel.table s'.Runs :=
    fun hm hqueued q h0 hst => (hqueued q h0 hst).imp id fun hq => ⟨by rw [hm]; rfl, hq⟩
  cases step_effect hs with
  | quiet hquiet hc =>
    refine hcalm hc hquiet.current fun q h0 hst => ?_
    rw [hquiet.runnable]
    rw [stateOf_eq_view, hquiet.view, ← stateOf_eq_view] at hst
    exact hq q h0 hst
  | spawned hsp hc =>
    refine hcalm hc (by rw [hsp.table]; rfl) ?_
    rw [hsp.table]
    exact hq.insert hsp.newborn.state
  | @signalled _ _ pid sig _ ht _ hc =>
    refine hcalm hc (by simp [ht]) ?_
    rw [ht]
    exact (hq.update (f := Process.signalled sig) fun _ _ hst => hst).wake pid
  | identified hp hset ht _ hc =>
    refine hcalm hc (by simp [ht]) ?_
    rw [ht]
    refine hq.update fun q hq hst => ?_
    obtain rfl := Option.some.inj (hq.symm.trans hp)
    cases hset <;> exact hst
  | @forked _ _ _ _ child _ hf hm =>
    refine huser hm ?_
    rw [hf.table, current_update]
    exact (hcur.insert hf.newborn.state).update (f := Process.returning child.pid) fun _ _ hst => hst
  | @reaped _ _ _ _ child _ rest _ _ _ _ htt ht _ hm =>
    refine huser hm ?_
    rw [ht, htt]
    refine Queued.erase ?_ child
    rw [current_update]
    exact hcur.update (f := Process.reporting rest) fun _ _ hst => hst
  | slept _ _ _ ht _ hm =>
    refine huser hm ?_
    rw [ht, current_update]
    exact hcur.update fun _ _ hst => by cases hst
  | rescheduled _ hre _ hm => exact huser hm (hcur.rescheduled hre)
  | ignored _ hsame hm =>
    refine huser hm ?_
    rw [hsame.table]
    exact hcur
  | exited _ _ hsched _ => exact (hcur.exit _ _).scheduled hsched
  | @signalDeath _ p sig rest _ _ _ _ hsched _ =>
    have hpop : Queued (s.kernel.table.update s.kernel.table.current (Process.withSignals rest))
        (· = (s.kernel.table.update s.kernel.table.current (Process.withSignals rest)).current) := by
      rw [current_update]
      exact hcur.update fun _ _ hst => hst
    have hexit := hpop.exit p.parent sig.exitCode
    rw [current_update] at hexit
    exact hexit.scheduled hsched
  | started hm hsched _ =>
    refine Queued.scheduled (fun q h0 hst => (hq q h0 hst).imp id fun hrun => ?_) hsched
    have hshell := hrun.1
    rw [hm] at hshell
    cases hshell

/-- **No runnable process is lost.** In every run a runnable process, but one with pid 0, is queued or current, and while one
other than the current is runnable `pick_next` returns a runnable process. -/
theorem runnable_queued_of_run {p4 p3 p2 : ℕ} {s₀ : Machine} (h0 : Booted s₀ p4 p3 p2) {tr : List (Machine × Event)}
    (hrun : Run RustKernel.step s₀ tr s) (pid : ℕ) (hpid : pid ≠ 0) (hst : s.kernel.table.stateOf pid = some .runnable) :
    (pid ∈ s.kernel.table.runnable ∨ s.mode.isUser = true ∧ pid = s.kernel.table.current) ∧
    (pid ≠ s.kernel.table.current → ∃ next, s.kernel.table.pickNext.1 = some next ∧
      s.kernel.table.stateOf next = some .runnable) := by
  have hqueued : Queued s.kernel.table s.Runs := by
    refine hrun.invariant (I := fun s => Queued s.kernel.table s.Runs) (K := fun _ _ => True) ?_ (fun _ _ => trivial)
      fun _ _ _ h _ hs => h.step hs
    rw [h0.table]
    exact fun q _ hq => by cases hq
  refine ⟨hqueued pid hpid hst, fun hne => ?_⟩
  have hmem := (hqueued pid hpid hst).resolve_right fun hrun => hne hrun.2
  cases hpick : s.kernel.table.pickNext.1 with
  | none => exact absurd hst ((pickLoop_eq_none hpick).2 pid hmem)
  | some next => exact ⟨next, rfl, ProcessTable.stateOf_of_pickNext hpick⟩

theorem runnable_queued_forkAndWake : ∃ tr s, Run step bootMachine tr s ∧ s.kernel.table.stateOf 1 = some .runnable ∧
    ∃ next, s.kernel.table.pickNext.1 = some next ∧ s.kernel.table.stateOf next = some .runnable := by
  have hfinal : (exec step (fun _ _ => True) bootMachine forkAndWake).any fun s =>
      s.kernel.table.stateOf 1 = some .runnable ∧ 1 ≠ s.kernel.table.current := by
    decide +kernel
  obtain ⟨tr, s, hrun, -, hs, hne⟩ := exists_run_of_any hfinal
  exact ⟨tr, s, hrun, hs, (runnable_queued_of_run booted_bootMachine hrun 1 (by decide) hs).2 hne⟩

end RustKernel
