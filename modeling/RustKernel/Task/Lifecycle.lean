import RustKernel.Kernel.Machine

/-!
# The life of a process

What one event can do to one process (`Changes`), and what follows for every run: the process that runs in ring 3 is
in the table and is no zombie (`Alive`), and only a runnable process runs.
-/

namespace RustKernel

open Lib Memory RustKernel.Task
open Option (map_map map_eq_some_iff)
open ProcessTable (view_insert view_update_of_comm view_erase view_eq_some view_wake getElem?_procs_update view_save
  current_update)

variable {t t' : ProcessTable} {mode : Mode} {p : Process} {pid p4 p3 p2 : ℕ} {s₀ : Machine} {tr : List (Machine × Event)}

def Task.Process.Zombie (p : Process) : Prop := ∃ code, p.state = .zombie code

inductive Changes (s : Machine) (q : ℕ) (v : Process) : Process → Prop
  | same : Changes s q v v
  | saved (frame : TrapFrame) : q = s.kernel.table.current → Changes s q v (v.withFrame frame)
  | returning (pid : ℕ) : q = s.kernel.table.current → Changes s q v (v.returning pid)
  | reporting {c : ℕ × ℤ} {rest : List (ℕ × ℤ)} : q = s.kernel.table.current → v.childrenExited = c :: rest →
      Changes s q v (v.reporting rest)
  | asleep {n : Entry} {regs : TrapFrame} : s.mode = .user n regs → q = s.kernel.table.current → v.childrenExited = [] →
      Changes s q v v.asleep
  | signalled (sig : Signal) : Changes s q v (v.signalled sig).woken
  | setsId {w : Process} : q = s.kernel.table.current → SetsId v w → Changes s q v w
  | exits (code : ℤ) (signals : List Signal) : q = s.kernel.table.current →
      Changes s q v ((v.withSignals signals).zombified code)
  | told (code : ℤ) : q ≠ s.kernel.table.current → Changes s q v (v.told s.kernel.table.current code).woken
  | exitsTold (code : ℤ) (signals : List Signal) : q = s.kernel.table.current →
      Changes s q v (((v.withSignals signals).zombified code).told s.kernel.table.current code)

inductive Origin (s : Machine) (q : ℕ) (w : Process) (s' : Machine) : Prop
  | born {p : Process} : p.Newborn s.kernel → q = p.pid → s'.kernel.nextPid = nextPidOf s.kernel →
      w.state = .runnable → w.signals = [] → w.childrenExited = [] → w.parent = s.creator →
      w.ids = inherited s.kernel.table s.creator → Origin s q w s'
  | old {v : Process} : s.kernel.table.view q = some v → Changes s q v w → Origin s q w s'

variable {s s' : Machine} {e : Event} {q : ℕ} {w : Process} {v : Process} {n' : Entry} {regs' : TrapFrame}

theorem nextPidOf_ne (k : Kernel) : nextPidOf k ≠ k.nextPid := by
  unfold nextPidOf
  omega

theorem changes_of_exit {parent : ℕ} {code : ℤ} {signals : List Signal}
    (ht : ∀ q, t.view q = (s.kernel.table.view q).map fun v => if q = s.kernel.table.current then v.withSignals signals else v)
    (h : (t.exit s.kernel.table.current parent code).view q = some w) :
    ∃ v, s.kernel.table.view q = some v ∧ Changes s q v w := by
  rw [ProcessTable.view_exit, ht, map_map, map_eq_some_iff] at h
  obtain ⟨v, hv, rfl⟩ := h
  refine ⟨v, hv, ?_⟩
  by_cases hcur : q = s.kernel.table.current
  · by_cases hpar : q = parent
    · simp only [if_pos hcur, if_pos hpar]
      exact .exitsTold code signals hcur
    · simp only [if_pos hcur, if_neg hpar]
      exact .exits code signals hcur
  · by_cases hpar : q = parent
    · simp only [if_neg hcur, if_pos hpar]
      exact .told code hcur
    · simp only [if_neg hcur, if_neg hpar]
      exact .same

theorem Task.Scheduled.view (h : Scheduled t t' mode) (q : ℕ) : t'.view q = t.view q := by cases h <;> rfl

theorem Task.Rescheduled.view {frame frame' : TrapFrame} (h : Rescheduled t frame t' frame') (q : ℕ) :
    t'.view q = (t.save frame).view q := by
  cases h <;> rfl

theorem SetsId.view {p' : Process} (h : SetsId p p') : SetsId p.view p'.view := by
  cases h with
  | uid new h => exact .uid new h
  | gid new h => exact .gid new h
  | euid => exact .euid
  | egid => exact .egid

theorem origin_of_step (h : step s e = some s') (hw : s'.kernel.table.view q = some w) : Origin s q w s' := by
  cases step_effect h with
  | quiet hq _ =>
    rw [hq.view] at hw
    exact .old hw .same
  | @spawned _ _ p hsp _ =>
    rw [hsp.table, view_insert] at hw
    split_ifs at hw with hq
    · obtain rfl := Option.some.inj hw
      exact .born hsp.newborn hq hsp.nextPid hsp.newborn.state hsp.newborn.signals hsp.newborn.childrenExited hsp.parent hsp.ids
    · exact .old hw .same
  | @forked _ _ _ p child hm hf _ =>
    have hcreator := creator_user hm
    have hids : child.ids = inherited s.kernel.table s.creator := by
      unfold inherited
      rw [hcreator, hf.current, hf.ids]
    have hparent : child.parent = s.creator := hf.parent.trans hcreator.symm
    rw [hf.table, view_update_of_comm _ _ (Process.returning child.pid) (fun _ => rfl), view_insert, view_insert] at hw
    have hborn : ∀ v, v = child.view ∨ v = child.view.returning child.pid → q = child.pid → Origin s q v s' := by
      rintro v (rfl | rfl) hq
      · exact .born hf.newborn hq hf.nextPid hf.newborn.state hf.newborn.signals hf.newborn.childrenExited hparent hids
      · exact .born hf.newborn hq hf.nextPid hf.newborn.state hf.newborn.signals hf.newborn.childrenExited hparent hids
    split_ifs at hw with hcur hpid hpid
    · obtain rfl := Option.some.inj hw
      exact hborn _ (.inr rfl) (hcur.trans hpid)
    · obtain ⟨v, hv, rfl⟩ := map_eq_some_iff.mp hw
      exact .old (hcur ▸ hv) (.returning _ hcur)
    · exact hborn _ (.inl (Option.some.inj hw).symm) hpid
    · exact .old hw .same
  | @reaped _ _ _ p child code rest t _ hp hc htt ht _ _ =>
    rw [ht, view_erase] at hw
    split_ifs at hw with hchild
    rw [htt, view_update_of_comm _ _ (Process.reporting rest) fun _ => rfl] at hw
    split_ifs at hw with hcur
    · obtain ⟨v, hv, rfl⟩ := map_eq_some_iff.mp hw
      obtain rfl := ProcessTable.eq_view hp hv
      exact .old (hcur ▸ hv) (.reporting hcur hc)
    · exact .old hw .same
  | @slept _ _ _ p hm hp hc ht _ _ =>
    rw [ht, view_update_of_comm _ _ Process.asleep fun _ => rfl] at hw
    split_ifs at hw with hcur
    · obtain ⟨v, hv, rfl⟩ := map_eq_some_iff.mp hw
      obtain rfl := ProcessTable.eq_view hp hv
      exact .old (hcur ▸ hv) (.asleep hm hcur hc)
    · exact .old hw .same
  | @signalled _ _ pid sig _ ht _ _ =>
    rw [ht, view_wake, view_update_of_comm _ _ (Process.signalled sig) (fun _ => rfl),
      view_update_of_comm _ _ (Process.signalled sig) (fun _ => rfl), if_pos rfl] at hw
    split_ifs at hw with hq
    · rw [map_map] at hw
      obtain ⟨v, hv, rfl⟩ := map_eq_some_iff.mp hw
      exact .old (hq ▸ hv) (.signalled sig)
    · exact .old hw .same
  | @identified _ _ p p' hp hset ht _ _ =>
    unfold ProcessTable.view at hw
    rw [ht, getElem?_procs_update] at hw
    split_ifs at hw with hcur
    · rw [show s.kernel.table.procs[s.kernel.table.current]? = some p from hp] at hw
      obtain rfl : p'.view = w := Option.some.inj hw
      exact .old (view_eq_some.mpr ⟨p, hcur ▸ hp, rfl⟩) (.setsId hcur hset.view)
    · exact .old hw .same
  | @exited _ _ _ _ p code _ hp hsched _ =>
    rw [hsched.view] at hw
    have hsame : ∀ q, s.kernel.table.view q = (s.kernel.table.view q).map fun v =>
        if q = s.kernel.table.current then v.withSignals p.signals else v := by
      intro q
      by_cases hcur : q = s.kernel.table.current
      · have hv : s.kernel.table.view q = some p.view := view_eq_some.mpr ⟨p, hcur ▸ hp, rfl⟩
        rw [hv, Option.map_some, if_pos hcur]
        rfl
      · simp [hcur]
    obtain ⟨v, hv, hch⟩ := changes_of_exit hsame hw
    exact .old hv hch
  | @signalDeath _ p sig rest _ _ hp hs hsched _ =>
    rw [hsched.view] at hw
    have hpop : ∀ q, (s.kernel.table.update s.kernel.table.current (Process.withSignals rest)).view q =
        (s.kernel.table.view q).map fun v => if q = s.kernel.table.current then v.withSignals rest else v := by
      intro q
      rw [view_update_of_comm _ _ (Process.withSignals rest) fun _ => rfl]
      by_cases hcur : q = s.kernel.table.current
      · simp [hcur]
      · simp [hcur]
    obtain ⟨v, hv, hch⟩ := changes_of_exit hpop hw
    exact .old hv hch
  | rescheduled _ hre _ _ =>
    rw [hre.view, view_save] at hw
    obtain ⟨v, hv, rfl⟩ := map_eq_some_iff.mp hw
    split_ifs with hcur
    · exact .old hv (.saved _ hcur.1)
    · exact .old hv .same
  | ignored _ hsame _ =>
    rw [hsame.table] at hw
    exact .old hw .same
  | started _ hsched _ =>
    rw [hsched.view] at hw
    exact .old hw .same

/-! ### The running process -/

structure Alive (s : Machine) : Prop where
  running : ∀ {n : Entry} {regs : TrapFrame}, s.mode = .user n regs →
    ∃ v, s.kernel.table.view s.kernel.table.current = some v ∧ ¬ v.Zombie
  reports : ∀ pid v, s.kernel.table.view pid = some v → ¬ v.Zombie → ∀ c ∈ v.childrenExited, c.1 ≠ pid

theorem Process.not_zombie_of_runnable (h : p.state = .runnable) : ¬ p.Zombie := by
  rintro ⟨code, hcode⟩
  cases h.symm.trans hcode

theorem Task.ProcessTable.stateOf_of_pickNext {next : ℕ} (h : t.pickNext.1 = some next) : t.stateOf next = some .runnable :=
  (ProcessTable.pickLoop_eq_some h).1

theorem Task.Scheduled.runnable {n : Entry} {regs : TrapFrame} (h : Scheduled t t' (.user n regs)) :
    t'.stateOf t'.current = some .runnable := by
  cases h with
  | idle _ hm => rcases hm with hm | hm <;> cases hm
  | @enter next _ hpick _ =>
    show t.stateOf next = some .runnable
    exact ProcessTable.stateOf_of_pickNext hpick

theorem Task.ProcessTable.exists_view_of_stateOf {st : ProcessState}
    (h : t.stateOf pid = some st) : ∃ v, t.view pid = some v ∧ v.state = st := by
  rw [ProcessTable.stateOf_eq_view] at h
  exact map_eq_some_iff.mp h

theorem Task.Rescheduled.current {frame frame' : TrapFrame} (h : Rescheduled t frame t' frame')
    (hv : t.view t.current = some v) : ∃ w, t'.view t'.current = some w ∧ (w.state = .runnable ∨ w.state = v.state) := by
  cases h with
  | stay _ =>
    refine ⟨(if t.current = t.current ∧ t.current ≠ 0 then Process.withFrame frame else id) v, ?_, .inr ?_⟩
    · show (t.save frame).view (t.save frame).current = _
      rw [ProcessTable.current_save, view_save, hv, Option.map_some]
    · split_ifs <;> rfl
  | @switch next _ hpick _ _ =>
    obtain ⟨w, hw, hrun⟩ := ProcessTable.exists_view_of_stateOf (ProcessTable.stateOf_of_pickNext hpick)
    exact ⟨w, hw, .inl hrun⟩

theorem Calm.exists_user (h : Calm mode (.user n' regs')) : ∃ n regs, mode = .user n regs := by
  cases h with
  | sysret => exact ⟨_, _, rfl⟩
  | running => exact ⟨_, _, rfl⟩

theorem current_of_step (ha : Alive s) (h : step s e = some s')
    (hm' : s'.mode = .user n' regs') : ∃ w, s'.kernel.table.view s'.kernel.table.current = some w ∧ (w.state = .runnable ∨
        (∃ v n regs, s.mode = .user n regs ∧ s.kernel.table.view s.kernel.table.current = some v ∧ w.state = v.state) ∨
        (w.state = .sleeping ∧ e = .syscall .wait ∧ ∃ p, s.kernel.table.currentProcess = some p ∧ p.childrenExited = [])) := by
  have huser : Calm s.mode s'.mode → ∃ n regs, s.mode = .user n regs := by
    intro hc
    rw [hm'] at hc
    exact hc.exists_user
  have picked : ∀ {t : ProcessTable}, Scheduled t s'.kernel.table s'.mode →
      ∃ w, s'.kernel.table.view s'.kernel.table.current = some w ∧ w.state = .runnable := by
    intro t hsched
    rw [hm'] at hsched
    exact ProcessTable.exists_view_of_stateOf hsched.runnable
  cases step_effect h with
  | quiet hq hc =>
    obtain ⟨n, regs, hm⟩ := huser hc
    obtain ⟨v, hv, -⟩ := ha.running hm
    refine ⟨v, by rw [hq.view, hq.current, hv], .inr (.inl ⟨v, n, regs, hm, hv, rfl⟩)⟩
  | @spawned _ _ p hsp hc =>
    obtain ⟨n, regs, hm⟩ := huser hc
    obtain ⟨v, hv, -⟩ := ha.running hm
    rw [hsp.table, view_insert]
    split_ifs with hq
    · exact ⟨p.view, rfl, .inl hsp.newborn.state⟩
    · exact ⟨v, hv, .inr (.inl ⟨v, n, regs, hm, hv, rfl⟩)⟩
  | @forked _ n regs p child hm hf _ =>
    obtain ⟨v, hv, -⟩ := ha.running hm
    rw [hf.table, current_update, ProcessTable.current_insert,
      view_update_of_comm _ _ (Process.returning child.pid) (fun _ => rfl), if_pos rfl,
      view_insert]
    split_ifs with hq
    · exact ⟨_, rfl, .inl hf.newborn.state⟩
    · exact ⟨v.returning child.pid, by rw [hv, Option.map_some], .inr (.inl ⟨v, n, regs, hm, hv, rfl⟩)⟩
  | @reaped _ n regs p child code rest t hm hp hc htt ht _ _ =>
    obtain ⟨v, hv, hz⟩ := ha.running hm
    obtain rfl := ProcessTable.eq_view hp hv
    have hne : s.kernel.table.current ≠ child := fun heq =>
      ha.reports _ _ hv hz (child, code) (by rw [show p.view.childrenExited = _ from hc]; simp) heq.symm
    have hcur : s'.kernel.table.current = s.kernel.table.current := by
      rw [ht, htt]
      exact current_update ..
    rw [hcur, ht, view_erase, if_neg hne, htt,
      view_update_of_comm _ _ (Process.reporting rest) (fun _ => rfl), if_pos rfl, hv, Option.map_some]
    exact ⟨_, rfl, .inr (.inl ⟨_, n, regs, hm, rfl, rfl⟩)⟩
  | @slept _ n regs p hm hp hc ht _ _ =>
    obtain ⟨v, hv, -⟩ := ha.running hm
    rw [ht, current_update, view_update_of_comm _ _ Process.asleep (fun _ => rfl), if_pos rfl, hv, Option.map_some]
    exact ⟨_, rfl, .inr (.inr ⟨rfl, rfl, p, hp, hc⟩)⟩
  | @signalled _ _ pid sig _ ht _ hc =>
    obtain ⟨n, regs, hm⟩ := huser hc
    obtain ⟨v, hv, -⟩ := ha.running hm
    rw [ht, ProcessTable.current_wake, current_update, view_wake,
      view_update_of_comm _ _ (Process.signalled sig) (fun _ => rfl), if_pos rfl,
      view_update_of_comm _ _ (Process.signalled sig) (fun _ => rfl)]
    split_ifs with hq
    · refine ⟨(v.signalled sig).woken, by rw [← hq, hv]; rfl, ?_⟩
      unfold Process.woken
      split_ifs with hsleep
      · exact .inl rfl
      · exact .inr (.inl ⟨v, n, regs, hm, hv, rfl⟩)
    · exact ⟨v, hv, .inr (.inl ⟨v, n, regs, hm, hv, rfl⟩)⟩
  | @identified _ _ p p' hp hset ht _ hc =>
    obtain ⟨n, regs, hm⟩ := huser hc
    have hv : s.kernel.table.view s.kernel.table.current = some p.view := view_eq_some.mpr ⟨p, hp, rfl⟩
    refine ⟨p'.view, ?_, .inr (.inl ⟨p.view, n, regs, hm, hv, by cases hset <;> rfl⟩)⟩
    unfold ProcessTable.view
    rw [ht, current_update, getElem?_procs_update, if_pos rfl,
      show s.kernel.table.procs[s.kernel.table.current]? = some p from hp]
    rfl
  | exited _ _ hsched _ =>
    obtain ⟨w, hw, hrun⟩ := picked hsched
    exact ⟨w, hw, .inl hrun⟩
  | signalDeath _ _ _ _ hsched _ =>
    obtain ⟨w, hw, hrun⟩ := picked hsched
    exact ⟨w, hw, .inl hrun⟩
  | @rescheduled _ n regs _ hm hre _ _ =>
    obtain ⟨v, hv, -⟩ := ha.running hm
    obtain ⟨w, hw, hstate⟩ := hre.current hv
    exact ⟨w, hw, hstate.imp id fun h => .inl ⟨v, n, regs, hm, hv, h⟩⟩
  | @ignored _ n regs hm hsame _ =>
    obtain ⟨v, hv, -⟩ := ha.running hm
    exact ⟨v, by rw [hsame.table, hv], .inr (.inl ⟨v, n, regs, hm, hv, rfl⟩)⟩
  | started _ hsched _ =>
    obtain ⟨w, hw, hrun⟩ := picked hsched
    exact ⟨w, hw, .inl hrun⟩

theorem Changes.reports (h : Changes s q v w) (hw : ¬ w.Zombie) (hv : v.Zombie → q ≠ s.kernel.table.current ∨
    ∀ n regs, s.mode ≠ .user n regs) : ¬ v.Zombie ∧ ∀ c ∈ w.childrenExited, c ∈ v.childrenExited ∨ c.1 ≠ q := by
  have hwoken : ∀ p : Process, ¬ p.woken.Zombie → ¬ p.Zombie := by
    rintro p hp ⟨code, hcode⟩
    refine hp ⟨code, ?_⟩
    unfold Process.woken
    rw [if_neg (by rw [hcode]; simp), hcode]
  have hchildren : ∀ p : Process, p.woken.childrenExited = p.childrenExited := by
    intro p
    unfold Process.woken
    split_ifs <;> rfl
  cases h with
  | same => exact ⟨hw, fun c hc => .inl hc⟩
  | saved frame _ => exact ⟨hw, fun c hc => .inl hc⟩
  | returning pid _ => exact ⟨hw, fun c hc => .inl hc⟩
  | reporting _ hc =>
    refine ⟨hw, fun c hmem => .inl ?_⟩
    rw [hc]
    exact List.mem_cons_of_mem _ hmem
  | asleep hm hq hc =>
    refine ⟨fun hz => ?_, fun c hmem => .inl hmem⟩
    rcases hv hz with h | h
    · exact h hq
    · exact h _ _ hm
  | signalled sig =>
    refine ⟨hwoken (v.signalled sig) hw, fun c hc => .inl ?_⟩
    rwa [hchildren] at hc
  | setsId _ hset => cases hset <;> exact ⟨hw, fun c hc => .inl hc⟩
  | exits code signals _ => exact absurd ⟨code, rfl⟩ hw
  | told code hq =>
    refine ⟨hwoken (v.told _ code) hw, fun c hc => ?_⟩
    rw [hchildren] at hc
    rcases List.mem_append.mp hc with hc | hc
    · exact .inl hc
    · rw [List.mem_singleton.mp hc]
      exact .inr (Ne.symm hq)
  | exitsTold code signals _ => exact absurd ⟨code, rfl⟩ hw

theorem Alive.step (ha : Alive s) (h : step s e = some s') : Alive s' := by
  refine ⟨fun hm' => ?_, fun pid w hw hz c hc => ?_⟩
  · obtain ⟨w, hw, hstate⟩ := current_of_step ha h hm'
    refine ⟨w, hw, ?_⟩
    rintro ⟨code, hcode⟩
    rcases hstate with hrun | ⟨v, n, regs, hm, hv, hsame⟩ | ⟨hsleep, -⟩
    · cases hrun.symm.trans hcode
    · obtain ⟨v', hv', hz⟩ := ha.running hm
      obtain rfl : v = v' := Option.some.inj (hv.symm.trans hv')
      exact hz ⟨code, hsame ▸ hcode⟩
    · cases hsleep.symm.trans hcode
  · cases origin_of_step h hw with
    | born _ _ _ _ _ hnil _ _ =>
      rw [hnil] at hc
      cases hc
    | @old v hv hch =>
      have hidle : v.Zombie → pid ≠ s.kernel.table.current ∨ ∀ n regs, s.mode ≠ .user n regs := by
        intro hvz
        by_contra hcon
        push Not at hcon
        obtain ⟨rfl, n, regs, hm⟩ := hcon
        obtain ⟨v', hv', hz'⟩ := ha.running hm
        obtain rfl : v = v' := Option.some.inj (hv.symm.trans hv')
        exact hz' hvz
      obtain ⟨hvz, hsub⟩ := hch.reports hz hidle
      rcases hsub c hc with hc | hc
      · exact ha.reports pid v hv hvz c hc
      · exact hc

theorem Booted.alive (h : Booted s p4 p3 p2) : Alive s := by
  have hview : ∀ pid, s.kernel.table.view pid = none := by
    rw [h.table]
    simp [ProcessTable.view, ProcessTable.new]
  refine ⟨fun hm => ?_, fun pid v hv => ?_⟩
  · cases h.mode.symm.trans hm
  · rw [hview] at hv
    cases hv

/-! ### Only a runnable process runs -/

def Event.isWait : Event → Bool
  | .syscall .wait => true
  | _ => false

/-- A call of `wait` finds an exited child to report. -/
def WaitsForExited (s : Machine) (e : Event) : Prop :=
  e.isWait = true → ∀ p ∈ s.kernel.table.currentProcess, p.childrenExited ≠ []
deriving Decidable

/-- **Only a runnable process runs**: whenever control is in ring 3, the current process is in the table and runnable,
if no process has called `wait` without an exited child to be told of. -/
theorem current_runnable_of_run (h0 : Booted s₀ p4 p3 p2)
    (hrun : Run RustKernel.step s₀ tr s) (hok : ∀ x ∈ tr, WaitsForExited x.1 x.2) {n : Entry} {regs : TrapFrame}
    (hm : s.mode = .user n regs) : s.kernel.table.stateOf s.kernel.table.current = some .runnable := by
  have hinv : Alive s ∧ ∀ n regs, s.mode = .user n regs →
      ∃ v, s.kernel.table.view s.kernel.table.current = some v ∧ v.state = .runnable := by
    refine hrun.invariant (I := fun s => Alive s ∧ ∀ n regs, s.mode = .user n regs →
      ∃ v, s.kernel.table.view s.kernel.table.current = some v ∧ v.state = .runnable) ⟨h0.alive, fun n regs hm => ?_⟩ hok ?_
    · cases h0.mode.symm.trans hm
    · rintro a e b ⟨ha, hrunning⟩ hwait h
      refine ⟨ha.step h, fun n' regs' hm' => ?_⟩
      obtain ⟨w, hw, hstate⟩ := current_of_step ha h hm'
      refine ⟨w, hw, ?_⟩
      rcases hstate with hw | ⟨v, n, regs, hm, hv, hsame⟩ | ⟨-, rfl, p, hp, hnil⟩
      · exact hw
      · obtain ⟨v', hv', hrun⟩ := hrunning n regs hm
        obtain rfl : v = v' := Option.some.inj (hv.symm.trans hv')
        exact hsame.trans hrun
      · exact absurd hnil (hwait rfl p hp)
  obtain ⟨v, hv, hstate⟩ := hinv.2 n regs hm
  rw [ProcessTable.stateOf_eq_view, hv, Option.map_some, hstate]

def forkAndReap : List Event :=
  [.spawn (some Fs.tinyImage) none, .runAll, .syscall .fork, .tick, .exit 7, .syscall .wait]

theorem current_runnable_forkAndReap : ∃ tr s n regs, Run step bootMachine tr s ∧ s.mode = .user n regs ∧
    (∀ x ∈ tr, WaitsForExited x.1 x.2) ∧ s.kernel.table.stateOf s.kernel.table.current = some .runnable := by
  have hfinal : (exec step WaitsForExited bootMachine forkAndReap).any fun s => s.mode.isUser = true := by
    decide +kernel
  obtain ⟨tr, s, hrun, hok, hmode⟩ := exists_run_of_any hfinal
  obtain ⟨n, regs, hm⟩ := Mode.eq_user hmode
  exact ⟨tr, s, n, regs, hrun, hm, hok, current_runnable_of_run booted_bootMachine hrun hok hm⟩

def waitAlone : List Event := [.spawn (some Fs.tinyImage) none, .runAll, .syscall .wait]

/-- **A sleeping process runs**: `wait` marks its caller as sleeping, and returns to it. -/
theorem sleeper_runs : ∃ tr s, Run step bootMachine tr s ∧ (s.mode matches .user .sysret _) = true ∧
    s.kernel.table.stateOf s.kernel.table.current = some .sleeping := by
  have hfinal : (exec step (fun _ _ => True) bootMachine waitAlone).any fun s =>
      (s.mode matches .user .sysret _) = true ∧ s.kernel.table.stateOf s.kernel.table.current = some .sleeping := by
    decide +kernel
  obtain ⟨tr, s, hrun, -, hs⟩ := exists_run_of_any hfinal
  exact ⟨tr, s, hrun, hs⟩

end RustKernel
