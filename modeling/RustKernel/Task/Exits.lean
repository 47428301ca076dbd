import RustKernel.Task.Lifecycle
import RustKernel.Task.Lives

/-!
# Exit and wait

The machine refines the lives of `RustKernel.Task.Lives`: every event is a birth, an exit, a report or nothing
(`labelOf`), and does to the process table what that step does to the lives.
-/

namespace RustKernel

open Lib Memory RustKernel.Task
open ProcessTable (view_update_of_comm view_eq_some view_insert stateOf_eq_some)
open Option (map_some map_map bind_some bind_eq_some_iff)
open Function (update_apply update_of_ne update_self)

variable {p : Process} {pid : ℕ} {code : ℤ} {q : ℕ} {tr : List (Machine × Event)} {p4 p3 p2 : ℕ} {s₀ : Machine}

def Task.Process.life (p : Process) : Life where
  parent := p.parent
  exited := match p.state with
    | .zombie code => some code
    | _ => none
  unreported := p.childrenExited

def lives (s : Machine) : Lives where
  proc q := (s.kernel.table.view q).map Process.life
  next := s.kernel.nextPid

def labelOf (s : Machine) (e : Event) : Label :=
  match step s e with
  | none => .silent
  | some s' =>
    if s'.kernel.nextPid ≠ s.kernel.nextPid then .born (s.kernel.nextPid % 2 ^ 32) s.creator
    else match exitCode s e s', s.kernel.table.currentProcess with
      | some code, some p => .exit s.kernel.table.current p.parent code
      | _, _ => match reported s e with
        | some (child, code) => .report s.kernel.table.current child code
        | none => .silent

def history (tr : List (Machine × Event)) : List Label := tr.map fun x => labelOf x.1 x.2

variable {s s' : Machine} {e : Event} {t : ProcessTable} {H : List Label} {child : ℕ}

/-! ### The refinement -/

section

variable (h : step s e = some s')

include h

theorem labelOf_silent (hn : s'.kernel.nextPid = s.kernel.nextPid) (hs : Silent s e s') : labelOf s e = .silent := by
  simp only [labelOf, h]
  rw [if_neg (by simp [hn]), hs.exitCode, hs.reported]

theorem labelOf_born (hn : s'.kernel.nextPid = nextPidOf s.kernel) :
    labelOf s e = .born (s.kernel.nextPid % 2 ^ 32) s.creator := by
  simp only [labelOf, h]
  rw [if_pos (by rw [hn]; exact nextPidOf_ne _)]

theorem labelOf_exit (hn : s'.kernel.nextPid = s.kernel.nextPid) (hcode : exitCode s e s' = some code)
    (hp : s.kernel.table.currentProcess = some p) : labelOf s e = .exit s.kernel.table.current p.parent code := by
  simp only [labelOf, h]
  rw [if_neg (by simp [hn]), hcode, hp]

theorem labelOf_report (hn : s'.kernel.nextPid = s.kernel.nextPid) (hcode : exitCode s e s' = none) {child : ℕ}
    (hr : reported s e = some (child, code)) : labelOf s e = .report s.kernel.table.current child code := by
  simp only [labelOf, h]
  rw [if_neg (by simp [hn]), hcode, hr]

end

theorem Task.Process.life_woken (p : Process) : p.woken.life = p.life := by
  unfold Process.woken
  split_ifs with hs
  · unfold Process.life
    rw [hs]
  · rfl

theorem Task.Process.life_asleep (hp : ¬ p.Zombie) : p.asleep.life = p.life := by
  unfold Process.life Process.asleep
  cases hs : p.state with
  | zombie code => exact absurd ⟨code, hs⟩ hp
  | runnable => rfl
  | sleeping => rfl

theorem SetsId.life {p' : Process} (h : SetsId p p') : p'.life = p.life := by cases h <;> rfl

theorem lives_proc (hp : s.kernel.table.procs[q]? = some p) : (lives s).proc q = some p.life :=
  congrArg (Option.map Process.life) (view_eq_some.mpr ⟨p, hp, rfl⟩)

theorem reported_wait (hp : s.kernel.table.currentProcess = some p) : reported s (.syscall .wait) = p.childrenExited.head? := by
  simp only [reported, hp, bind_some]

theorem lives_congr (hproc : ∀ q, (s'.kernel.table.view q).map Process.life = (s.kernel.table.view q).map Process.life)
    (hn : s'.kernel.nextPid = s.kernel.nextPid) : lives s' = lives s := by
  unfold lives
  rw [funext hproc, hn]

theorem life_update {f : Process → Process} (hcomm : ∀ p, (f p).view = f p.view)
    (hf : ∀ v, t.view pid = some v → (f v).life = v.life) (q : ℕ) :
    ((t.update pid f).view q).map Process.life = (t.view q).map Process.life := by
  rw [view_update_of_comm _ _ f hcomm]
  split_ifs with hq
  · subst hq
    cases hv : t.view q with
    | none => rfl
    | some v =>
      rw [map_some, map_some, hf v hv]
      rfl
  · rfl

theorem Alive.creator (ha : Alive s) : s.creator = 0 ∨ ∃ l, (lives s).proc s.creator = some l := by
  unfold Machine.creator
  cases hm : s.mode with
  | user n regs =>
    obtain ⟨v, hv, -⟩ := ha.running hm
    exact .inr ⟨v.life, by unfold lives; dsimp only; rw [hv]; rfl⟩
  | shell => exact .inl rfl
  | halted => exact .inl rfl

theorem lives_born (ha : Alive s) (h : step s e = some s') (hnew : p.Newborn s.kernel)
    (hpar : p.parent = s.creator) (hn : s'.kernel.nextPid = nextPidOf s.kernel)
    (hview : ∀ q, (s'.kernel.table.view q).map Process.life =
      if q = p.pid then some p.life else (s.kernel.table.view q).map Process.life) :
    (lives s).Step (labelOf s e) (lives s') := by
  rw [labelOf_born h hn]
  have hlives : lives s' =
      { proc := Function.update (lives s).proc ((lives s).next % 2 ^ 32)
          (some { parent := s.creator, exited := none, unreported := [] })
        next := ((lives s).next + 1) % 2 ^ 64 } := by
    have hlife : p.life = { parent := s.creator, exited := none, unreported := [] } := by
      unfold Process.life
      rw [hpar, hnew.state, hnew.childrenExited]
    unfold lives
    congr 1
    funext q
    rw [hview, hlife, hnew.pid, update_apply]
  rw [hlives]
  exact .born ha.creator

theorem lives_exit (h : step s e = some s') (hn : s'.kernel.nextPid = s.kernel.nextPid)
    (hp : s.kernel.table.currentProcess = some p) (hcode : exitCode s e s' = some code)
    (ht : ∀ q, (t.view q).map Process.life = (s.kernel.table.view q).map Process.life)
    (hview : ∀ q, s'.kernel.table.view q = (t.exit s.kernel.table.current p.parent code).view q) :
    (lives s).Step (labelOf s e) (lives s') := by
  rw [labelOf_exit h hn hcode hp]
  have hlives : lives s' =
      { lives s with
        proc := fun q => ((lives s).proc q).map fun l' =>
          (if q = p.life.parent then Life.told s.kernel.table.current code else id)
            ((if q = s.kernel.table.current then Life.exits code else id) l') } := by
    unfold lives
    dsimp only
    congr 1
    funext q
    rw [hview, ProcessTable.view_exit, ← ht, Option.map_map, Option.map_map]
    congr 1
    funext v
    by_cases hpar : q = p.parent
    · have hpar' : q = p.life.parent := hpar
      simp only [Function.comp_apply, if_pos hpar, if_pos hpar', Process.life_woken]
      split_ifs <;> rfl
    · have hpar' : q ≠ p.life.parent := hpar
      simp only [Function.comp_apply, if_neg hpar, if_neg hpar']
      split_ifs <;> rfl
  rw [hlives]
  exact .exit (lives_proc hp)

theorem lives_step (ha : Alive s) (h : step s e = some s') : (lives s).Step (labelOf s e) (lives s') := by
  have silent : Silent s e s' → s'.kernel.nextPid = s.kernel.nextPid →
      (∀ q, (s'.kernel.table.view q).map Process.life = (s.kernel.table.view q).map Process.life) →
      (lives s).Step (labelOf s e) (lives s') := by
    intro hs hn hproc
    rw [labelOf_silent h hn hs, lives_congr hproc hn]
    exact .silent
  cases step_effect h with
  | quiet hq _ hs => exact silent hs hq.nextPid fun q => by rw [hq.view]
  | @spawned _ _ p hsp _ _ =>
    refine lives_born ha h hsp.newborn hsp.parent hsp.nextPid fun q => ?_
    rw [hsp.table, view_insert]
    split_ifs <;> rfl
  | @forked _ n regs p child hm hf _ =>
    refine lives_born ha h hf.newborn (hf.parent.trans (creator_user hm).symm) hf.nextPid fun q => ?_
    rw [hf.table, life_update (f := Process.returning child.pid) (fun _ => rfl) (fun _ _ => rfl), view_insert]
    split_ifs <;> rfl
  | @reaped _ n regs p child code rest t hm hp hc htt ht hn _ =>
    have hv : s.kernel.table.view s.kernel.table.current = some p.view := view_eq_some.mpr ⟨p, hp, rfl⟩
    rw [labelOf_report h hn rfl (by rw [reported_wait hp, hc]; rfl)]
    have hlives : lives s' =
        { lives s with
          proc := Function.update (Function.update (lives s).proc s.kernel.table.current
            (some { p.life with unreported := rest })) child none } := by
      unfold lives
      congr 1
      funext q
      rw [ht, ProcessTable.view_erase, htt, view_update_of_comm _ _ (Process.reporting rest) fun _ => rfl,
        update_apply, update_apply]
      split_ifs with hchild hcur
      · rfl
      · rw [hv]
        rfl
      · rfl
    rw [hlives]
    refine .report (L := lives s) (l := p.life) ?_ hc
    unfold lives
    dsimp only
    rw [hv]
    rfl
  | @slept _ n regs p hm hp hc ht hn _ =>
    refine silent ⟨rfl, by rw [reported_wait hp, hc]; rfl⟩ hn fun q => ?_
    rw [ht]
    refine life_update (f := Process.asleep) (fun _ => rfl) (fun v hv => Process.life_asleep ?_) q
    obtain ⟨v', hv', hz⟩ := ha.running hm
    rwa [Option.some.inj (hv.symm.trans hv')]
  | @signalled _ _ pid sig _ ht hn _ hs =>
    refine silent hs hn fun q => ?_
    rw [ht, ProcessTable.view_wake]
    split_ifs with hq
    · rw [map_map, show Process.life ∘ Process.woken = Process.life from funext Process.life_woken, hq]
      exact life_update (f := Process.signalled sig) (fun _ => rfl) (fun _ _ => rfl) pid
    · exact life_update (f := Process.signalled sig) (fun _ => rfl) (fun _ _ => rfl) q
  | @identified _ _ p p' hp hset ht hn _ hs =>
    refine silent hs hn fun q => ?_
    unfold ProcessTable.view
    rw [ht, ProcessTable.getElem?_procs_update]
    split_ifs with hq
    · rw [hq, show s.kernel.table.procs[s.kernel.table.current]? = some p from hp]
      exact congrArg some (hset.view.life)
    · rfl
  | exited _ hp hsched hn hcode _ => exact lives_exit h hn hp hcode (fun _ => rfl) hsched.view
  | @signalDeath _ p sig rest _ h0 hp hs hsched hn =>
    have hcode : exitCode s .tick s' = some sig.exitCode := by
      unfold exitCode
      rw [if_neg h0, hp, bind_some, hs]
      rfl
    refine lives_exit h hn hp hcode (t := s.kernel.table.update s.kernel.table.current (Process.withSignals rest)) ?_ ?_
    · exact life_update (fun _ => rfl) fun _ _ => rfl
    · exact hsched.view
  | rescheduled _ hre hn _ hs =>
    refine silent hs hn fun q => ?_
    rw [hre.view, ProcessTable.view_save, map_map]
    split_ifs <;> rfl
  | ignored _ hsame _ hs => exact silent hs hsame.nextPid fun q => by rw [hsame.table]
  | started _ hsched hn => exact silent ⟨rfl, rfl⟩ hn fun q => by rw [hsched.view]

/-! ### Runs -/

def PidsLast (s : Machine) (e : Event) : Prop :=
  ∀ s' ∈ step s e, s'.kernel.nextPid = s.kernel.nextPid ∨ s.kernel.nextPid < 2 ^ 32
deriving Decidable

def NoDeadSignals (s : Machine) : Event → Prop
  | .tick => ∀ p ∈ s.kernel.table.currentProcess, p.life.exited ≠ none → p.signals = []
  | _ => True

instance (s : Machine) (e : Event) : Decidable (NoDeadSignals s e) := by
  unfold NoDeadSignals
  split <;> infer_instance

def Ring3Ticks (s : Machine) : Event → Prop
  | .tick => s.mode ≠ .shell
  | _ => True

instance (s : Machine) (e : Event) : Decidable (Ring3Ticks s e) := by
  unfold Ring3Ticks
  split <;> infer_instance

theorem Task.Process.exited_eq_none : p.life.exited = none ↔ ¬ p.Zombie := by
  unfold Process.life Process.Zombie
  cases p.state <;> simp

theorem Task.Process.exited_eq_some : p.life.exited = some code ↔ p.state = .zombie code := by
  unfold Process.life
  cases p.state <;> simp

theorem exists_of_lives_proc {l : Life} (h : (lives s).proc q = some l) :
    ∃ p, s.kernel.table.procs[q]? = some p ∧ p.life = l := by
  obtain ⟨v, hv, rfl⟩ := Option.map_eq_some_iff.mp h
  obtain ⟨p, hp, rfl⟩ := view_eq_some.mp hv
  exact ⟨p, hp, rfl⟩

theorem lives_proc_eq_none : (lives s).proc q = none ↔ s.kernel.table.procs[q]? = none := by
  unfold lives ProcessTable.view
  simp

def Task.ProcessTable.Living (t : ProcessTable) (pid : ℕ) : Prop := ∃ p, t.procs[pid]? = some p ∧ ¬ p.Zombie

instance (t : ProcessTable) (pid : ℕ) : Decidable (t.Living pid) :=
  decidable_of_iff ((t.procs[pid]?).any (fun p => p.life.exited.isNone) = true) <| by
    simp [ProcessTable.Living, Option.any_eq_true, ← Process.exited_eq_none]

theorem living_iff : s.kernel.table.Living pid ↔ ∃ l, (lives s).proc pid = some l ∧ l.exited = none := by
  constructor
  · rintro ⟨p, hp, hz⟩
    exact ⟨p.life, lives_proc hp, Process.exited_eq_none.mpr hz⟩
  · rintro ⟨l, hl, hnone⟩
    obtain ⟨p, hp, rfl⟩ := exists_of_lives_proc hl
    exact ⟨p, hp, Process.exited_eq_none.mp hnone⟩

theorem exit_of_label (h : step s e = some s') {parent : ℕ} (hl : labelOf s e = .exit pid parent code) :
    ∃ p, s.kernel.table.currentProcess = some p ∧ exitCode s e s' = some code ∧ pid = s.kernel.table.current ∧
      parent = p.parent := by
  simp only [labelOf, h] at hl
  split_ifs at hl
  split at hl
  · rename_i code' p hcode hp
    obtain ⟨rfl, rfl, rfl⟩ := Label.exit.inj hl
    exact ⟨p, hp, hcode, rfl, rfl⟩
  · split at hl <;> cases hl

theorem Alive.noDeadSignals (ha : Alive s) (h : RustKernel.step s e = some s') (hring : Ring3Ticks s e) : NoDeadSignals s e := by
  cases e with
  | tick =>
    intro p hp hex
    obtain ⟨x, hx, -⟩ := step_eq_some h
    cases hm : s.mode with
    | shell => exact absurd hm hring
    | halted => rw [hm] at hx; cases hx
    | user n regs =>
      obtain ⟨v, hv, hz⟩ := ha.running hm
      obtain rfl := ProcessTable.eq_view hp hv
      exact absurd (Process.exited_eq_none.mpr hz) hex
  | _ => trivial

theorem exitsAlive_of_step (ha : Alive s) (h : step s e = some s') (hok : NoDeadSignals s e) :
    (lives s).ExitsAlive (labelOf s e) := by
  cases hl : labelOf s e with
  | exit pid parent code =>
    intro l hpid
    obtain ⟨p, hp, hcode, rfl, -⟩ := exit_of_label h hl
    obtain rfl := Option.mem_unique (lives_proc hp) hpid
    cases hm : s.mode with
    | user n regs =>
      obtain ⟨v, hv, hz⟩ := ha.running hm
      obtain rfl := ProcessTable.eq_view hp hv
      exact Process.exited_eq_none.mpr hz
    | shell | halted =>
      -- outside of ring 3 a process dies of a signal, which no zombie has
      obtain ⟨x, hx, -⟩ := step_eq_some h
      rw [hm] at hx
      cases e with
      | tick =>
        by_contra hne
        simp [exitCode, hp, hok p hp hne] at hcode
      | _ => first | (cases hx; done) | cases hcode
  | silent => trivial
  | born => trivial
  | report => trivial

theorem nextPid_ne_of_born (h : step s e = some s') {c p : ℕ} (hl : labelOf s e = .born c p) :
    s'.kernel.nextPid ≠ s.kernel.nextPid := by
  intro hn
  simp only [labelOf, h] at hl
  rw [if_neg (by simp [hn])] at hl
  split at hl
  · cases hl
  · split at hl <;> cases hl

theorem freshNumbers_of_step (h : step s e = some s') (hok : PidsLast s e) : (lives s).FreshNumbers (labelOf s e) := by
  cases hl : labelOf s e with
  | born pid parent => exact (hok s' h).resolve_left (nextPid_ne_of_born h hl)
  | silent => trivial
  | exit => trivial
  | report => trivial

structure Answered (s : Machine) (e : Event) (caller child : ℕ) (code : ℤ) : Prop where
  wait : e = .syscall .wait
  current : s.kernel.table.current = caller
  zombie : s.kernel.table.stateOf child = some (.zombie code)
  value : ∃ n regs s', s.mode = .user n regs ∧ step s e = some s' ∧
    s'.mode = .user .sysret (sysretFrame regs (waitValue child code))

structure Chronicle (tr : List (Machine × Event)) (s : Machine) : Prop where
  alive : Alive s
  recorded : Recorded (history tr) (lives s)
  answered : ∀ x ∈ tr, ∀ caller child code, labelOf x.1 x.2 = .report caller child code → Answered x.1 x.2 caller child code

/-- What `wait` returns: the first exited child and its code, or no child. -/
def waitResult (p : Process) : ℕ := (p.childrenExited.head?.map fun c => waitValue c.1 c.2).getD U64_MAX

theorem wait_step (hp : s.kernel.table.currentProcess = some p) {n : Entry} {regs : TrapFrame} (hm : s.mode = .user n regs)
    (h : step s (.syscall .wait) = some s') : s'.mode = .user .sysret (sysretFrame regs (waitResult p)) := by
  obtain ⟨ret, hret, hmode⟩ := syscall_step hm h
  have hvalue : ret = waitResult p := by
    refine (sysWait_rule (Q := fun ret _ => ret = waitResult p) (E := fun _ _ => False) (fun hnone => ?_)
      (fun q hq hc => ?_) fun q child code rest hq hc => ?_).ok hret
    · cases hp.symm.trans hnone
    · cases hp.symm.trans hq
      rw [waitResult, hc]
      rfl
    · cases hp.symm.trans hq
      rw [waitResult, hc]
      exact (reap_post _ _).imp_ok fun _ _ _ => rfl
  rw [hmode, hvalue]

theorem report_of_label (h : step s e = some s') {caller : ℕ} (hl : labelOf s e = .report caller child code) :
    caller = s.kernel.table.current ∧ reported s e = some (child, code) := by
  simp only [labelOf, h] at hl
  split_ifs at hl
  split at hl
  · cases hl
  · split at hl
    · obtain ⟨rfl, rfl, rfl⟩ := Label.report.inj hl
      exact ⟨rfl, by assumption⟩
    · cases hl

theorem answered_of_step (hrec : Recorded H (lives s)) (h : step s e = some s')
    {caller : ℕ} (hl : labelOf s e = .report caller child code) : Answered s e caller child code := by
  obtain ⟨rfl, hr⟩ := report_of_label h hl
  obtain rfl : e = .syscall .wait := by
    unfold reported at hr
    split at hr
    · rfl
    · cases hr
  obtain ⟨p, hp, hhead⟩ := bind_eq_some_iff.mp hr
  obtain ⟨n, regs, hm⟩ : ∃ n regs, s.mode = .user n regs := by
    obtain ⟨x, hx, -⟩ := step_eq_some h
    cases hm : s.mode with
    | user n regs => exact ⟨n, regs, rfl⟩
    | shell => rw [hm] at hx; cases hx
    | halted => rw [hm] at hx; cases hx
  have hmode := wait_step hp hm h
  unfold waitResult at hmode
  rw [hhead] at hmode
  obtain ⟨l, hl, hex, -⟩ := hrec.waiting _ _ (lives_proc hp) (child, code) (List.mem_of_mem_head? hhead)
  obtain ⟨p', hp', rfl⟩ := exists_of_lives_proc hl
  exact ⟨rfl, rfl, stateOf_eq_some.mpr ⟨p', hp', Process.exited_eq_some.mp hex⟩, n, regs, s', hm, h, hmode⟩

theorem Chronicle.step (hc : Chronicle tr s) (h : step s e = some s') (hpids : PidsLast s e)
    (hdead : NoDeadSignals s e) : Chronicle (tr ++ [(s, e)]) s' := by
  have hhist : history (tr ++ [(s, e)]) = history tr ++ [labelOf s e] := by simp [history]
  have hls := lives_step hc.alive h
  refine ⟨hc.alive.step h, ?_, ?_⟩
  · rw [hhist]
    exact hc.recorded.step (freshNumbers_of_step h hpids) (exitsAlive_of_step hc.alive h hdead) hls
  · intro x hx caller child code hl
    rcases List.mem_append.mp hx with hx | hx
    · exact hc.answered x hx caller child code hl
    · rw [List.mem_singleton] at hx
      subst hx
      exact answered_of_step hc.recorded h hl

theorem Booted.chronicle (h : Booted s p4 p3 p2) : Chronicle [] s := by
  have hproc : ∀ q, (lives s).proc q = none := by
    intro q
    rw [lives_proc_eq_none, h.table]
    simp [ProcessTable.new]
  have hnext : (lives s).next = 1 := h.nextPid
  exact ⟨h.alive, .init hproc (by omega) (by omega), by simp⟩

theorem chronicle_of_run (h0 : Booted s₀ p4 p3 p2)
    (hrun : Run RustKernel.step s₀ tr s) (hok : ∀ x ∈ tr, PidsLast x.1 x.2 ∧ NoDeadSignals x.1 x.2) : Chronicle tr s :=
  hrun.history (K := fun s e => PidsLast s e ∧ NoDeadSignals s e) h0.chronicle hok
    fun _ _ _ _ hc ⟨hpids, hdead⟩ h => hc.step h hpids hdead

/-! ### Exit happens once -/

def telling (P : ℕ) (s : Machine) (e : Event) : Option (ℕ × ℤ) := do
  let s' ← step s e
  let p ← s.kernel.table.procs[P]?
  let p' ← s'.kernel.table.procs[P]?
  (p'.childrenExited.drop p.childrenExited.length).head?

def tellings (P : ℕ) (tr : List (Machine × Event)) : List (ℕ × ℤ) := tr.filterMap fun x => telling P x.1 x.2

theorem labelOf_of_telling (ha : Alive s) (hrec : Recorded H (lives s)) (hpids : PidsLast s e) {P : ℕ}
    {c : ℕ × ℤ} (ht : telling P s e = some c) : labelOf s e = .exit c.1 P c.2 := by
  obtain ⟨s', h, ht⟩ := bind_eq_some_iff.mp ht
  obtain ⟨p, hp, ht⟩ := bind_eq_some_iff.mp ht
  obtain ⟨p', hp', ht⟩ := bind_eq_some_iff.mp ht
  have hP : (lives s).proc P = some p.life := lives_proc hp
  have hP' : (lives s').proc P = some p'.life := lives_proc hp'
  have hfresh := freshNumbers_of_step h hpids
  have hun : ∀ l : Life, p'.life = l → p'.childrenExited = l.unreported := fun l hl => by rw [← hl]; rfl
  -- what is dropped is all there is, unless something is appended
  have short : p'.childrenExited.length ≤ p.childrenExited.length → labelOf s e = .exit c.1 P c.2 := by
    intro hle
    rw [List.drop_eq_nil_of_le hle] at ht
    cases ht
  have hstep := lives_step ha h
  generalize labelOf s e = a at hstep hfresh short ⊢
  generalize hL : lives s' = L' at hstep hP'
  cases hstep with
  | silent =>
    rw [hP] at hP'
    refine short (le_of_eq ?_)
    rw [hun _ (Option.some.inj hP').symm]
    rfl
  | born _ =>
    have hn : (lives s).next < 2 ^ 32 := hfresh
    have hne : P ≠ (lives s).next % 2 ^ 32 := by
      rw [Nat.mod_eq_of_lt hn]
      exact (hrec.numbers _ _ hP).2.1.ne
    dsimp only at hP'
    rw [update_of_ne hne, hP] at hP'
    refine short (le_of_eq ?_)
    rw [hun _ (Option.some.inj hP').symm]
    rfl
  | @exit pid l code hl =>
    dsimp only at hP'
    rw [hP] at hP'
    have hlist := hun _ (Option.some.inj hP').symm
    by_cases hpar : P = l.parent
    · rw [if_pos hpar] at hlist
      have hlist' : p'.childrenExited = p.childrenExited ++ [(pid, code)] := by
        rw [hlist]
        split_ifs <;> rfl
      rw [hlist', List.drop_left] at ht
      rw [← Option.some.inj ht, hpar]
    · rw [if_neg hpar] at hlist
      refine short (le_of_eq ?_)
      rw [hlist]
      split_ifs <;> rfl
  | @report caller child code l rest hl hrest =>
    dsimp only at hP'
    by_cases hchild : P = child
    · rw [hchild, update_self] at hP'
      cases hP'
    · rw [update_of_ne hchild] at hP'
      by_cases hcaller : P = caller
      · rw [hcaller, update_self] at hP'
        rw [hcaller, hl] at hP
        refine short ?_
        rw [hun _ (Option.some.inj hP').symm, show p.childrenExited = l.unreported by rw [Option.some.inj hP]; rfl, hrest]
        exact Nat.le_succ _
      · rw [update_of_ne hcaller, hP] at hP'
        refine short (le_of_eq ?_)
        rw [hun _ (Option.some.inj hP').symm]
        rfl

theorem tellings_sublist_of_run (h0 : Booted s₀ p4 p3 p2) (hrun : Run RustKernel.step s₀ tr s)
    (hok : ∀ x ∈ tr, PidsLast x.1 x.2 ∧ NoDeadSignals x.1 x.2) (P : ℕ) : (tellings P tr).Sublist (exitsTo P (history tr)) := by
  refine (hrun.history (I := fun tr s => Chronicle tr s ∧ (tellings P tr).Sublist (exitsTo P (history tr)))
    (K := fun s e => PidsLast s e ∧ NoDeadSignals s e) ⟨h0.chronicle, List.Sublist.refl _⟩ hok ?_).2
  · rintro tr a e b ⟨hc, hsub⟩ ⟨hpids, hdead⟩ h
    refine ⟨hc.step h hpids hdead, ?_⟩
    have hhist : history (tr ++ [(a, e)]) = history tr ++ [labelOf a e] := by simp [history]
    have htell : tellings P (tr ++ [(a, e)]) = tellings P tr ++ (telling P a e).toList := by
      unfold tellings
      cases ht : telling P a e <;> simp [ht]
    rw [hhist, htell]
    cases ht : telling P a e with
    | none =>
      rw [Option.toList_none, List.append_nil]
      refine hsub.trans ?_
      unfold exitsTo
      rw [exits_append, List.filter_append, List.map_append]
      exact List.sublist_append_left ..
    | some c =>
      rw [labelOf_of_telling hc.alive hc.recorded hpids ht, exitsTo_append_exit, if_pos rfl]
      exact hsub.append (List.Sublist.refl _)

theorem stateOf_zombie_of_step (hc : Chronicle tr s) (hpids : PidsLast s e) (hdead : NoDeadSignals s e) (h : step s e = some s')
    (hz : s.kernel.table.stateOf pid = some (.zombie code)) : s'.kernel.table.stateOf pid = some (.zombie code) ∨
    s'.kernel.table.procs[pid]? = none ∧ ∃ caller, labelOf s e = .report caller pid code := by
  obtain ⟨p, hp, hcode⟩ := stateOf_eq_some.mp hz
  have hproc : (lives s).proc pid = some p.life := lives_proc hp
  have hex : p.life.exited = some code := Process.exited_eq_some.mpr hcode
  have still : (∃ l, (lives s').proc pid = some l ∧ l.exited = some code) →
      s'.kernel.table.stateOf pid = some (.zombie code) := by
    rintro ⟨l, hl, hlex⟩
    obtain ⟨p', hp', rfl⟩ := exists_of_lives_proc hl
    exact stateOf_eq_some.mpr ⟨p', hp', Process.exited_eq_some.mp hlex⟩
  have hfresh := freshNumbers_of_step h hpids
  have halive := exitsAlive_of_step hc.alive h hdead
  rw [← lives_proc_eq_none]
  have hstep := lives_step hc.alive h
  generalize labelOf s e = a at hstep hfresh halive ⊢
  generalize lives s' = L' at hstep still ⊢
  cases hstep with
  | silent => exact .inl (still ⟨_, hproc, hex⟩)
  | born _ =>
    have hn : (lives s).next < 2 ^ 32 := hfresh
    refine .inl (still ⟨p.life, ?_, hex⟩)
    rw [Nat.mod_eq_of_lt hn]
    exact (update_of_ne (hc.recorded.numbers _ _ hproc).2.1.ne ..).trans hproc
  | @exit q l code' hl =>
    have hne : pid ≠ q := by
      rintro rfl
      rw [hl] at hproc
      rw [← Option.some.inj hproc, halive l hl] at hex
      cases hex
    refine .inl (still ⟨_, by dsimp only; rw [hproc]; rfl, ?_⟩)
    split_ifs <;> exact hex
  | @report caller child code' l rest hl hrest =>
    by_cases hchild : pid = child
    · subst hchild
      obtain ⟨l', hl', hex', -⟩ := hc.recorded.waiting caller l hl (pid, code') (by rw [hrest]; exact List.mem_cons_self ..)
      rw [hproc] at hl'
      rw [← Option.some.inj hl', hex] at hex'
      obtain rfl : code = code' := Option.some.inj hex'
      exact .inr ⟨update_self .., caller, rfl⟩
    · refine .inl (still ?_)
      dsimp only
      rw [update_of_ne hchild]
      by_cases hcaller : pid = caller
      · rw [hcaller, hl] at hproc
        rw [hcaller, update_self, Option.some.inj hproc]
        exact ⟨_, rfl, hex⟩
      · rw [update_of_ne hcaller]
        exact ⟨_, hproc, hex⟩

/-- **Exit happens once.** In every run in which pids are not reused and no tick finds a signal pending for a zombie that
is still the current process: `exit_current` runs at most once for each process, a process is told of each child at most
once, and a zombie has exited with its code and keeps it until `wait` removes it. -/
theorem exit_once_of_run (h0 : Booted s₀ p4 p3 p2)
    (hrun : Run RustKernel.step s₀ tr s) (hok : ∀ x ∈ tr, PidsLast x.1 x.2 ∧ NoDeadSignals x.1 x.2) :
    ((exits (history tr)).map Exit.pid).Nodup ∧
    (∀ P, ((tellings P tr).map Prod.fst).Nodup) ∧
    ∀ pid code, s.kernel.table.stateOf pid = some (.zombie code) →
      (∃ parent, ⟨pid, parent, code⟩ ∈ exits (history tr)) ∧
      ∀ e s', PidsLast s e → NoDeadSignals s e → RustKernel.step s e = some s' →
        s'.kernel.table.stateOf pid = some (.zombie code) ∨
        s'.kernel.table.procs[pid]? = none ∧ ∃ caller, labelOf s e = .report caller pid code := by
  have hc := chronicle_of_run h0 hrun hok
  refine ⟨hc.recorded.once, fun P => ?_, fun pid code hz => ⟨?_, fun e s' hpids hdead h => ?_⟩⟩
  · exact (hc.recorded.exitsTo_nodup P).sublist ((tellings_sublist_of_run h0 hrun hok P).map Prod.fst)
  · obtain ⟨p, hp, hcode⟩ := ProcessTable.stateOf_eq_some.mp hz
    exact ⟨_, hc.recorded.recorded pid p.life code (lives_proc hp) (Process.exited_eq_some.mpr hcode)⟩
  · exact stateOf_zombie_of_step hc hpids hdead h hz

theorem exit_once_forkAndReap : ∃ tr s, Run step bootMachine tr s ∧
    (∀ x ∈ tr, PidsLast x.1 x.2 ∧ NoDeadSignals x.1 x.2) ∧ exits (history tr) = [⟨2, 1, 7⟩] ∧ tellings 1 tr = [(2, 7)] ∧
    ((exits (history tr)).map Exit.pid).Nodup ∧ ((tellings 1 tr).map Prod.fst).Nodup := by
  have hfinal : (exec step (fun s e => PidsLast s e ∧ NoDeadSignals s e) bootMachine forkAndReap).any fun _ => True := by
    decide +kernel
  obtain ⟨s, hrun, hok, -⟩ := run_of_any hfinal
  have honce := exit_once_of_run booted_bootMachine hrun hok
  exact ⟨_, s, hrun, hok, by decide +kernel, by decide +kernel, honce.1, honce.2.1 1⟩

def signalAfterExit : List Event :=
  [.spawn (some Fs.tinyImage) none, .runAll, .syscall .fork, .exit 0, .exit 5, .sendSignal 2 .kill]

/-- **A zombie exits again**: the child is still the current process in the shell, and the next tick delivers the signal to
it. `exit_current` runs a second time for it, its state changes from one code to another, and its parent is told of it
twice. -/
theorem exit_twice : ∃ tr s s', Run step bootMachine tr s ∧ s.mode = .shell ∧ step s .tick = some s' ∧
    s.kernel.table.stateOf 2 = some (.zombie 5) ∧ s'.kernel.table.stateOf 2 = some (.zombie 137) ∧
    (exits (history (tr ++ [(s, .tick)]))).map Exit.pid = [1, 2, 2] ∧
    tellings 1 (tr ++ [(s, .tick)]) = [(2, 5), (2, 137)] := by
  have hfinal : (exec step (fun _ _ => True) bootMachine signalAfterExit).any fun s => s.mode = .shell ∧
      s.kernel.table.stateOf 2 = some (.zombie 5) ∧ (∃ s' ∈ step s .tick, s'.kernel.table.stateOf 2 = some (.zombie 137)) ∧
      labelOf s .tick = .exit 2 1 137 ∧ telling 1 s .tick = some (2, 137) := by
    decide +kernel
  have hexits : exits (history (trace step bootMachine signalAfterExit)) = [⟨1, 0, 0⟩, ⟨2, 1, 5⟩] := by decide +kernel
  have htold : tellings 1 (trace step bootMachine signalAfterExit) = [(2, 5)] := by decide +kernel
  obtain ⟨s, hrun, -, hm, hz, ⟨s', hs', hz'⟩, hlabel, htell⟩ := run_of_any hfinal
  refine ⟨_, s, s', hrun, hm, hs', hz, hz', ?_, ?_⟩
  · unfold history at hexits ⊢
    rw [List.map_append, List.map_singleton, exits_append, hexits, hlabel]
    rfl
  · unfold tellings at htold ⊢
    rw [List.filterMap_append, htold, List.filterMap_cons, htell]
    rfl

/-! ### Exits are reported once and in order -/

/-- **Exits are reported once and in order.** In every run in which fewer than `2 ^ 32` pids are given and the timer ticks
in ring 3, the exits of the children of a process of the table are, in their order, those its calls of `wait` have returned,
followed by those in its `children_exited`. Each one returned was a zombie with that code, and is gone. -/
theorem wait_order_of_run (h0 : Booted s₀ p4 p3 p2)
    (hrun : Run RustKernel.step s₀ tr s) (hok : ∀ x ∈ tr, PidsLast x.1 x.2 ∧ Ring3Ticks x.1 x.2) {P : ℕ}
    (hP : s.kernel.table.procs[P]? = some p) :
    exitsTo P (history tr) = reportsTo P (history tr) ++ p.childrenExited ∧
    ∀ c ∈ reportsTo P (history tr), s.kernel.table.procs[c.1]? = none ∧ ∃ x ∈ tr, Answered x.1 x.2 P c.1 c.2 := by
  have hc : Chronicle tr s := hrun.history (K := fun s e => PidsLast s e ∧ Ring3Ticks s e) h0.chronicle hok
    fun _ _ _ _ hc ⟨hpids, hring⟩ h => hc.step h hpids (hc.alive.noDeadSignals h hring)
  refine ⟨hc.recorded.order P p.life (lives_proc hP), fun c hmem => ?_⟩
  rw [mem_reportsTo] at hmem
  refine ⟨lives_proc_eq_none.mp (hc.recorded.gone _ hmem).1, ?_⟩
  obtain ⟨a, ha, hreport⟩ := List.mem_filterMap.mp hmem
  obtain ⟨x, hx, rfl⟩ := List.mem_map.mp ha
  refine ⟨x, hx, hc.answered x hx P c.1 c.2 ?_⟩
  cases hl : labelOf x.1 x.2 with
  | report caller child code =>
    rw [hl] at hreport
    obtain ⟨rfl, rfl, rfl⟩ := Report.mk.inj (Option.some.inj hreport)
    rfl
  | silent => rw [hl] at hreport; cases hreport
  | born => rw [hl] at hreport; cases hreport
  | exit => rw [hl] at hreport; cases hreport

theorem wait_order_forkAndReap : ∃ tr s p, Run step bootMachine tr s ∧
    (∀ x ∈ tr, PidsLast x.1 x.2 ∧ Ring3Ticks x.1 x.2) ∧ s.kernel.table.procs[1]? = some p ∧
    reportsTo 1 (history tr) = [(2, 7)] ∧
    exitsTo 1 (history tr) = reportsTo 1 (history tr) ++ p.childrenExited := by
  have hfinal : (exec step (fun s e => PidsLast s e ∧ Ring3Ticks s e) bootMachine forkAndReap).any
      fun s => ∃ p ∈ s.kernel.table.procs[1]?, True := by
    decide +kernel
  obtain ⟨s, hrun, hok, p, hp, -⟩ := run_of_any hfinal
  exact ⟨_, s, p, hrun, hok, hp, by decide +kernel, (wait_order_of_run booted_bootMachine hrun hok hp).1⟩

/-! ### The contract of `wait` -/

def ulibWait (rax : ℕ) : ℤ := if rax = U64_MAX then -1 else if rax < 2 ^ 63 then rax else (rax : ℤ) - 2 ^ 64

/-- A child of the current process. -/
def Machine.Child (s : Machine) (child : ℕ) (p : Process) : Prop :=
  s.kernel.table.procs[child]? = some p ∧ p.parent = s.kernel.table.current

/-- A child that has exited and that no call of `wait` has returned. -/
def Unreported (tr : List (Machine × Event)) (s : Machine) (child : ℕ) : Prop :=
  ∃ p, s.Child child p ∧ p.Zombie ∧ ∀ r ∈ reports (history tr), r.child ≠ child

/-- What a caller expects of `wait` if it returns `r`. -/
structure WaitContract (tr : List (Machine × Event)) (s : Machine) (r : ℤ) : Prop where
  pid : 0 ≤ r → ∃ child : ℕ, r = child ∧ Unreported tr s child
  waits : (∃ child p, s.Child child p ∧ ¬ p.Zombie) → ∃ child, Unreported tr s child

theorem ulibWait_waitValue (code : ℤ) (h : child < 2 ^ 31) : ulibWait (waitValue child code) = waitValue child code := by
  unfold ulibWait waitValue U64_MAX
  rw [if_neg (by omega), if_pos (by omega)]

theorem ulibWait_neg (code : ℤ) (h : 2 ^ 31 ≤ child) (hlt : child < 2 ^ 32) : ulibWait (waitValue child code) < 0 := by
  unfold ulibWait waitValue U64_MAX
  split_ifs <;> omega

/-- Nobody has been told of a child that is in the table. -/
theorem Chronicle.unreported_iff (hc : Chronicle tr s) : Unreported tr s child ↔ ∃ p, s.Child child p ∧ p.Zombie := by
  refine ⟨fun ⟨p, hp, hz, _⟩ => ⟨p, hp, hz⟩, fun ⟨p, hp, hz⟩ => ⟨p, hp, hz, fun r hr heq => ?_⟩⟩
  have hgone := (hc.recorded.gone r hr).1
  rw [heq, lives_proc hp.1] at hgone
  cases hgone

/-- The children that have exited and have not been reported are those in `children_exited`. -/
theorem Chronicle.mem_childrenExited (hc : Chronicle tr s) (hp : s.kernel.table.currentProcess = some p) :
    (∃ code, (child, code) ∈ p.childrenExited) ↔ Unreported tr s child := by
  rw [hc.unreported_iff]
  constructor
  · rintro ⟨code, hmem⟩
    obtain ⟨l, hl, hex, hpar⟩ := hc.recorded.waiting _ _ (lives_proc hp) (child, code) hmem
    obtain ⟨q, hq, rfl⟩ := exists_of_lives_proc hl
    exact ⟨q, ⟨hq, hpar⟩, code, Process.exited_eq_some.mp hex⟩
  · rintro ⟨q, ⟨hq, hpar⟩, code, hz⟩
    have hexit := hc.recorded.recorded child q.life code (lives_proc hq) (Process.exited_eq_some.mpr hz)
    have hmem : (child, code) ∈ exitsTo s.kernel.table.current (history tr) := mem_exitsTo.mpr (hpar ▸ hexit)
    rw [hc.recorded.order _ _ (lives_proc hp)] at hmem
    refine ⟨code, (List.mem_append.mp hmem).resolve_left fun hrep => ?_⟩
    have hgone := (hc.recorded.gone _ (mem_reportsTo.mp hrep)).1
    cases (lives_proc hq).symm.trans hgone

/-- **The contract of `wait`** is kept by a call, in every run in which pids are not reused and no tick finds a signal pending
for a zombie, exactly if the caller has no child, neither a live one nor one that has exited and has not been reported; or if
the first one that has exited has a pid of at least `2 ^ 31`, and the value that is returned is negative. -/
theorem wait_contract_iff (h0 : Booted s₀ p4 p3 p2)
    (hrun : Run RustKernel.step s₀ tr s) (hok : ∀ x ∈ tr, PidsLast x.1 x.2 ∧ NoDeadSignals x.1 x.2)
    {n : Entry} {regs : TrapFrame} (hm : s.mode = .user n regs) (h : RustKernel.step s (.syscall .wait) = some s') :
    ∃ p, s.kernel.table.currentProcess = some p ∧ s'.mode = .user .sysret (sysretFrame regs (waitResult p)) ∧
      (WaitContract tr s (ulibWait (waitResult p)) ↔
        (∀ child q, ¬ s.Child child q) ∨ ∃ c ∈ p.childrenExited.head?, 2 ^ 31 ≤ c.1) := by
  have hc := chronicle_of_run h0 hrun hok
  obtain ⟨v, hv, -⟩ := hc.alive.running hm
  obtain ⟨p, hp, rfl⟩ := view_eq_some.mp hv
  refine ⟨p, hp, wait_step hp hm h, ?_⟩
  unfold waitResult
  cases hexited : p.childrenExited with
  | nil =>
    have hnone : ∀ child, ¬ Unreported tr s child := fun child hun => by
      obtain ⟨code, hmem⟩ := (hc.mem_childrenExited hp).mpr hun
      rw [hexited] at hmem
      cases hmem
    constructor
    · refine fun hcon => .inl fun child q hq => ?_
      by_cases hz : q.Zombie
      · exact hnone child (hc.unreported_iff.mpr ⟨q, hq, hz⟩)
      · obtain ⟨other, hun⟩ := hcon.waits ⟨child, q, hq, hz⟩
        exact hnone other hun
    · rintro (hno | ⟨c, ⟨⟩, -⟩)
      refine ⟨fun hr => ?_, fun ⟨child, q, hq, _⟩ => absurd hq (hno child q)⟩
      exact absurd hr (by decide)
  | cons c rest =>
    obtain ⟨child, code⟩ := c
    have hun : Unreported tr s child :=
      (hc.mem_childrenExited hp).mp ⟨code, by rw [hexited]; exact List.mem_cons_self ..⟩
    have hlt : ∀ {c q}, s.Child c q → 0 < c ∧ c < 2 ^ 32 := fun hq => by
      obtain ⟨hpos, hnext, -⟩ := hc.recorded.numbers _ _ (lives_proc hq.1)
      exact ⟨hpos, hnext.trans_le hc.recorded.next_le⟩
    have ⟨q, hq, _⟩ := hun
    constructor
    · intro hcon
      refine .inr ⟨(child, code), rfl, le_of_not_gt fun hsmall => ?_⟩
      -- the value is not negative, and greater than every pid
      have hvalue : ulibWait (waitValue child code) = waitValue child code := ulibWait_waitValue code hsmall
      obtain ⟨other, heq, q', hq', -⟩ := hcon.pid (hvalue ▸ Int.natCast_nonneg _)
      have hother := (hlt hq').2
      have hpos := (hlt hq).1
      have heq : waitValue child code = other := Int.ofNat.inj (hvalue.symm.trans heq)
      unfold waitValue at heq
      omega
    · rintro (hno | ⟨c, hc', hbig⟩)
      · exact absurd hq (hno child q)
      · obtain rfl : (child, code) = c := Option.some.inj hc'
        exact ⟨fun hr => absurd hr (not_le.mpr (ulibWait_neg code hbig (hlt hq).2)), fun _ => ⟨child, hun⟩⟩

def forkAndExit : List Event := [.spawn (some Fs.tinyImage) none, .runAll, .syscall .fork, .tick, .exit 7]

/-- A program without children calls `wait`, and is told so. -/
theorem wait_contract_alone : ∃ tr s s' p n regs, Run step bootMachine tr s ∧ s.mode = .user n regs ∧
    step s (.syscall .wait) = some s' ∧ s.kernel.table.currentProcess = some p ∧
    WaitContract tr s (ulibWait (waitResult p)) := by
  have hfinal : (exec step (fun s e => PidsLast s e ∧ NoDeadSignals s e) bootMachine
      [.spawn (some Fs.tinyImage) none, .runAll]).any fun s => s.mode.isUser = true ∧
        (∀ x ∈ s.kernel.table.procs.toList, x.2.parent ≠ s.kernel.table.current) ∧ ∃ s' ∈ step s (.syscall .wait), True := by
    decide +kernel
  obtain ⟨s, hrun, hok, hmode, hno, s', hs', -⟩ := run_of_any hfinal
  obtain ⟨n, regs, hm⟩ := Mode.eq_user hmode
  obtain ⟨p, hp, -, hiff⟩ := wait_contract_iff booted_bootMachine hrun hok hm hs'
  refine ⟨_, s, s', p, n, regs, hrun, hm, hs', hp, hiff.mpr (.inl fun child q hq => ?_)⟩
  exact hno (child, q) (Std.ExtTreeMap.mem_toList_iff_getElem?_eq_some.mpr hq.1) hq.2

def waitTooEarly : List Event := [.spawn (some Fs.tinyImage) none, .runAll, .syscall .fork]

def ulibWaits (s : Machine) : Option ℤ :=
  match step s (.syscall .wait) with
  | some ⟨_, .user .sysret regs⟩ => some (ulibWait regs.rax)
  | _ => none

/-- **`wait` does not keep its contract.** A child has exited, and the value is not negative, but it is nobody's pid: only
1 and 2 have been given. And a caller whose only child has not exited is answered at once. -/
theorem wait_breaks_contract :
    (∃ tr s, Run step bootMachine tr s ∧ s.kernel.nextPid = 3 ∧ ulibWaits s = some (2 * 2 ^ 32 + 7)) ∧
    ∃ tr s, Run step bootMachine tr s ∧ s.kernel.table.current = 1 ∧ s.kernel.table.stateOf 2 = some .runnable ∧
      exits (history tr) = [] ∧ ulibWaits s = some (-1) := by
  have hvalue : (exec step (fun _ _ => True) bootMachine forkAndExit).any fun s =>
      s.kernel.nextPid = 3 ∧ ulibWaits s = some (2 * 2 ^ 32 + 7) := by
    decide +kernel
  have hearly : (exec step (fun _ _ => True) bootMachine waitTooEarly).any fun s => s.kernel.table.current = 1 ∧
      s.kernel.table.stateOf 2 = some .runnable ∧ ulibWaits s = some (-1) := by
    decide +kernel
  obtain ⟨s, hrun, -, hs⟩ := run_of_any hvalue
  obtain ⟨s', hrun', -, hcurrent, hstate, hwaits⟩ := run_of_any hearly
  exact ⟨⟨_, s, hrun, hs⟩, _, s', hrun', hcurrent, hstate, by decide +kernel, hwaits⟩

end RustKernel
