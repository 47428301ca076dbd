import RustKernel.Task.Lifecycle

/-!
# What a process is resumed with

The registers a process has when it is interrupted, when it is resumed, and when it forks.
-/

namespace RustKernel

open Lib Memory RustKernel.Task
open ProcessTable (view_update_of_comm view_eq_some view_insert current_update)
open Function (update_self update_of_ne)

inductive Mark
  | created (frame : TrapFrame)
  | interrupted (frame : TrapFrame)
  deriving DecidableEq

def Mark.frame : Mark → TrapFrame
  | .created frame => frame
  | .interrupted frame => frame

def observe (marks : ℕ → Option Mark) (s : Machine) (e : Event) : ℕ → Option Mark :=
  match step s e with
  | none => marks
  | some s' =>
    if s'.kernel.nextPid ≠ s.kernel.nextPid then
      Function.update marks (s.kernel.nextPid % 2 ^ 32)
        ((s'.kernel.table.view (s.kernel.nextPid % 2 ^ 32)).map fun v => .created v.trapFrame)
    else match e, s.mode with
      | .tick, .user _ regs => Function.update marks s.kernel.table.current (some (.interrupted regs))
      | _, _ => marks

def marksOf (tr : List (Machine × Event)) : ℕ → Option Mark :=
  tr.foldl (fun marks x => observe marks x.1 x.2) fun _ => none

theorem marksOf_append (tr : List (Machine × Event)) (s : Machine) (e : Event) :
    marksOf (tr ++ [(s, e)]) = observe (marksOf tr) s e := by
  unfold marksOf
  rw [List.foldl_append]
  rfl

section

variable {marks marks' : ℕ → Option Mark} {t t' : ProcessTable} {mode mode' : Mode}

/-! ### Where the kernel has the registers -/

def Settled (marks : ℕ → Option Mark) (t : ProcessTable) : Prop :=
  ∀ q v, q ≠ 0 → t.view q = some v → ¬ v.Zombie → ∃ m, marks q = some m ∧ m.frame = v.trapFrame

def UserFrames (t : ProcessTable) : Prop := ∀ q v, t.view q = some v → v.trapFrame.cs % 4 = 3

def Task.Mode.InRing3 : Mode → Prop
  | .user _ _ => True
  | _ => False

structure Tracks (marks : ℕ → Option Mark) (t : ProcessTable) (mode : Mode) : Prop where
  ring3 : ∀ {n regs}, mode = .user n regs → regs.cs % 4 = 3
  frames : UserFrames t
  marked : ∀ q v, q ≠ 0 → t.view q = some v → ¬ v.Zombie → ∃ m, marks q = some m ∧
    m.frame.withRax 0 = v.trapFrame.withRax 0 ∧ (¬ mode.InRing3 ∨ q ≠ t.current → m.frame = v.trapFrame)
  timer : ∀ {regs r}, mode = .user .timer regs → t.current ≠ 0 → marks t.current = some (.interrupted r) → regs = r
  entered : ∀ {regs r}, mode = .user .enterUserspace regs → t.current ≠ 0 → marks t.current = some (.interrupted r) →
    regs = enterFrame r

def SameFrames (t t' : ProcessTable) : Prop :=
  ∀ q w, t'.view q = some w → ∃ v, t.view q = some v ∧ w.trapFrame = v.trapFrame ∧ (v.Zombie → w.Zombie)

theorem SameFrames.trans {t'' : ProcessTable} (h : SameFrames t t') (h' : SameFrames t' t'') : SameFrames t t'' := by
  intro q w hw
  obtain ⟨v, hv, hf, hz⟩ := h' q w hw
  obtain ⟨u, hu, hf', hz'⟩ := h q v hv
  exact ⟨u, hu, hf.trans hf', hz ∘ hz'⟩

theorem SameFrames.of_view (h : ∀ q, t'.view q = t.view q) : SameFrames t t' := by
  intro q w hw
  rw [h] at hw
  exact ⟨w, hw, rfl, id⟩

theorem SameFrames.update {pid : ℕ} {f : Process → Process} (hcomm : ∀ p, (f p).view = f p.view)
    (hf : ∀ v, t.view pid = some v → (f v).trapFrame = v.trapFrame ∧ (v.Zombie → (f v).Zombie)) :
    SameFrames t (t.update pid f) := by
  intro q w hw
  rw [view_update_of_comm _ _ f hcomm] at hw
  split_ifs at hw with hq
  · obtain ⟨v, hv, rfl⟩ := Option.map_eq_some_iff.mp hw
    exact ⟨v, hq ▸ hv, (hf v hv).1, (hf v hv).2⟩
  · exact ⟨w, hw, rfl, id⟩

theorem Task.Process.trapFrame_woken (p : Process) : p.woken.trapFrame = p.trapFrame := by
  unfold Process.woken
  split_ifs <;> rfl

theorem Task.Process.Zombie.woken {p : Process} (h : p.Zombie) : p.woken.Zombie := by
  obtain ⟨code, hcode⟩ := h
  unfold Process.woken
  rw [if_neg (by rw [hcode]; simp)]
  exact ⟨code, hcode⟩

theorem SameFrames.wake (t : ProcessTable) (pid : ℕ) : SameFrames t (t.wake pid) := by
  intro q w hw
  rw [ProcessTable.view_wake] at hw
  split_ifs at hw with hq
  · obtain ⟨v, hv, rfl⟩ := Option.map_eq_some_iff.mp hw
    exact ⟨v, hq ▸ hv, v.trapFrame_woken, fun hz => hz.woken⟩
  · exact ⟨w, hw, rfl, id⟩

theorem SameFrames.erase (t : ProcessTable) (pid : ℕ) : SameFrames t { t with procs := t.procs.erase pid } := by
  intro q w hw
  rw [ProcessTable.view_erase] at hw
  split_ifs at hw
  exact ⟨w, hw, rfl, id⟩

theorem UserFrames.same (h : UserFrames t) (hs : SameFrames t t') : UserFrames t' := by
  intro q w hw
  obtain ⟨v, hv, hf, -⟩ := hs q w hw
  rw [hf]
  exact h q v hv

theorem Calm.inRing3 (h : Calm mode mode') : mode'.InRing3 ↔ mode.InRing3 := by
  cases h <;> rfl

theorem Calm.ring3 {n : Entry} {regs : TrapFrame} (hc : Calm mode (.user n regs))
    (h : ∀ {n regs}, mode = .user n regs → regs.cs % 4 = 3) : regs.cs % 4 = 3 := by
  cases hc with
  | sysret hcs =>
    rw [hcs]
    decide
  | running hcs =>
    rw [hcs]
    exact h rfl

theorem Tracks.same (h : Tracks marks t mode) (hs : SameFrames t t') (hcur : t'.current = t.current) :
    Tracks marks t' mode := by
  refine ⟨h.ring3, h.frames.same hs, fun q w hq hw hz => ?_, hcur ▸ h.timer, hcur ▸ h.entered⟩
  obtain ⟨v, hv, hf, hvz⟩ := hs q w hw
  rw [hf, hcur]
  exact h.marked q v hq hv fun hz' => hz (hvz hz')

theorem Tracks.calm (h : Tracks marks t mode) (hs : SameFrames t t') (hcur : t'.current = t.current)
    (hc : Calm mode mode') : Tracks marks t' mode' := by
  refine ⟨fun hm => (hm ▸ hc).ring3 h.ring3, h.frames.same hs, fun q w hq hw hz => ?_, fun hm => ?_, fun hm => ?_⟩
  · rw [hc.inRing3]
    exact (h.same hs hcur).marked q w hq hw hz
  · rw [hm] at hc
    cases hc
  · rw [hm] at hc
    cases hc

theorem Settled.marked (hs : Settled marks t) (hview : ∀ q, t'.view q = t.view q) {q : ℕ} {v : Process} (hq : q ≠ 0)
    (hv : t'.view q = some v) (hz : ¬ v.Zombie) : ∃ m, marks q = some m ∧
      m.frame.withRax 0 = v.trapFrame.withRax 0 ∧ (¬ mode.InRing3 ∨ q ≠ t'.current → m.frame = v.trapFrame) := by
  rw [hview] at hv
  obtain ⟨m, hm, hframe⟩ := hs q v hq hv hz
  exact ⟨m, hm, by rw [hframe], fun _ => hframe⟩

theorem Settled.resumed (hs : Settled marks t) {next : ℕ} {p : Process} {r : TrapFrame} (hpick : t.pickNext.1 = some next)
    (hp : t.procs[next]? = some p) (h0 : next ≠ 0) (hr : marks next = some (.interrupted r)) : p.trapFrame = r := by
  have hv : t.view next = some p.view := view_eq_some.mpr ⟨p, hp, rfl⟩
  have hrun := ProcessTable.stateOf_of_pickNext hpick
  rw [ProcessTable.stateOf_eq_view, hv, Option.map_some, Option.some.injEq] at hrun
  obtain ⟨m, hm, hframe⟩ := hs next p.view h0 hv (Process.not_zombie_of_runnable hrun)
  obtain rfl := Option.some.inj (hm.symm.trans hr)
  exact hframe.symm

theorem Settled.scheduled (hs : Settled marks t) (hf : UserFrames t) (h : Scheduled t t' mode) : Tracks marks t' mode := by
  refine ⟨fun {n regs} hm => ?_, hf.same (.of_view h.view), fun q v hq hv hz => hs.marked h.view hq hv hz,
    fun {regs r} hm => ?_, fun {regs r} hm hcur hr => ?_⟩
  · cases h with
    | idle _ hmode => rw [hm] at hmode; rcases hmode with hmode | hmode <;> cases hmode
    | @enter next p hpick hp =>
      obtain ⟨-, rfl⟩ := Mode.user.inj hm
      exact hf next p.view (view_eq_some.mpr ⟨p, hp, rfl⟩)
  · subst hm
    cases h.entry
  · cases h with
    | idle _ hmode => rw [hm] at hmode; rcases hmode with hmode | hmode <;> cases hmode
    | @enter next p hpick hp =>
      obtain ⟨-, rfl⟩ := Mode.user.inj hm
      exact congrArg enterFrame (hs.resumed hpick hp hcur hr)

theorem Tracks.exit_settled (h : Tracks marks t mode) (hmarks : ∀ q, q ≠ t.current → marks' q = marks q) (parent : ℕ)
    (code : ℤ) : Settled marks' (t.exit t.current parent code) ∧ UserFrames (t.exit t.current parent code) := by
  have hview : ∀ q w, (t.exit t.current parent code).view q = some w → ∃ v, t.view q = some v ∧
      w.trapFrame = v.trapFrame ∧ (v.Zombie → w.Zombie) ∧ (q = t.current → w.Zombie) := by
    intro q w hw
    rw [ProcessTable.view_exit] at hw
    obtain ⟨v, hv, rfl⟩ := Option.map_eq_some_iff.mp hw
    refine ⟨v, hv, ?_⟩
    by_cases hcur : q = t.current
    · have hz : (v.zombified code).Zombie := ⟨code, rfl⟩
      by_cases hpar : q = parent
      · simp only [if_pos hcur, if_pos hpar]
        have hz' : ((v.zombified code).told t.current code).woken.Zombie := Process.Zombie.woken ⟨code, rfl⟩
        exact ⟨rfl, fun _ => hz', fun _ => hz'⟩
      · simp only [if_pos hcur, if_neg hpar]
        exact ⟨rfl, fun _ => hz, fun _ => hz⟩
    · by_cases hpar : q = parent
      · simp only [if_neg hcur, if_pos hpar, Function.comp_apply, Process.trapFrame_woken]
        exact ⟨rfl, fun ⟨c, hc⟩ => Process.Zombie.woken ⟨c, hc⟩, fun h => absurd h hcur⟩
      · simp only [if_neg hcur, if_neg hpar, id_eq]
        exact ⟨trivial, id, fun h => absurd h hcur⟩
  refine ⟨fun q w hq hw hz => ?_, fun q w hw => ?_⟩
  · obtain ⟨v, hv, hf, hvz, hcz⟩ := hview q w hw
    have hne : q ≠ t.current := fun heq => hz (hcz heq)
    obtain ⟨m, hm, -, hframe⟩ := h.marked q v hq hv fun hz' => hz (hvz hz')
    rw [hmarks q hne, hf]
    exact ⟨m, hm, hframe (.inr hne)⟩
  · obtain ⟨v, hv, hf, -⟩ := hview q w hw
    rw [hf]
    exact h.frames q v hv

theorem Tracks.born (h : Tracks marks t mode) {pid : ℕ} {v : Process} (hnew : t'.view pid = some v)
    (hcs : v.trapFrame.cs % 4 = 3) (hold : ∀ q w, q ≠ pid → t'.view q = some w → ∃ v, t.view q = some v ∧
      (v.Zombie → w.Zombie) ∧ w.trapFrame.withRax 0 = v.trapFrame.withRax 0 ∧
      (¬ mode.InRing3 ∨ q ≠ t.current → w.trapFrame = v.trapFrame)) (hcur : t'.current = t.current)
    (hc : Calm mode mode') : Tracks (Function.update marks pid (some (.created v.trapFrame))) t' mode' := by
  have hcs' : ∀ {a b : TrapFrame}, a.withRax 0 = b.withRax 0 → a.cs = b.cs := by
    intro a b heq
    have h := congrArg TrapFrame.cs heq
    exact h
  refine ⟨fun hm => (hm ▸ hc).ring3 h.ring3, fun q w hw => ?_, fun q w hq hw hz => ?_, fun hm => ?_, fun hm => ?_⟩
  · by_cases hq : q = pid
    · rw [hq, hnew] at hw
      rw [← Option.some.inj hw]
      exact hcs
    · obtain ⟨u, hu, -, hf, -⟩ := hold q w hq hw
      rw [hcs' hf]
      exact h.frames q u hu
  · by_cases hqp : q = pid
    · rw [hqp, hnew] at hw
      rw [hqp, update_self, ← Option.some.inj hw]
      exact ⟨_, rfl, rfl, fun _ => rfl⟩
    · obtain ⟨u, hu, hzu, hf, hf'⟩ := hold q w hqp hw
      obtain ⟨m, hm, hframe, hexact⟩ := h.marked q u hq hu fun hz' => hz (hzu hz')
      rw [update_of_ne hqp, hcur, hc.inRing3]
      exact ⟨m, hm, hframe.trans hf.symm, fun hor => (hexact hor).trans (hf' hor).symm⟩
  · rw [hm] at hc
    cases hc
  · rw [hm] at hc
    cases hc

theorem Tracks.rescheduled {n : Entry} {regs regs' : TrapFrame} (h : Tracks marks t (.user n regs))
    (hre : Rescheduled t regs t' regs') :
    Tracks (Function.update marks t.current (some (.interrupted regs))) t' (.user .timer regs') := by
  -- the table with the interrupted process saved
  have hsaved : ∀ q w, (t.save regs).view q = some w → ∃ v, t.view q = some v ∧ (v.Zombie → w.Zombie) ∧
      w.trapFrame = (if q = t.current ∧ t.current ≠ 0 then regs else v.trapFrame) := by
    intro q w hw
    rw [ProcessTable.view_save] at hw
    obtain ⟨v, hv, rfl⟩ := Option.map_eq_some_iff.mp hw
    refine ⟨v, hv, ?_⟩
    split_ifs <;> exact ⟨id, rfl⟩
  have hsettled : Settled (Function.update marks t.current (some (.interrupted regs))) (t.save regs) := by
    intro q w hq hw hz
    obtain ⟨v, hv, hvz, hf⟩ := hsaved q w hw
    by_cases hcur : q = t.current
    · rw [if_pos ⟨hcur, fun h0 => hq (hcur.trans h0)⟩] at hf
      rw [hcur, update_self, hf]
      exact ⟨_, rfl, rfl⟩
    · rw [if_neg fun hand => hcur hand.1] at hf
      obtain ⟨m, hm, -, hframe⟩ := h.marked q v hq hv fun hz' => hz (hvz hz')
      rw [update_of_ne hcur, hf]
      exact ⟨m, hm, hframe (.inr hcur)⟩
  have hframes : UserFrames (t.save regs) := by
    intro q w hw
    obtain ⟨v, hv, -, hf⟩ := hsaved q w hw
    rw [hf]
    split_ifs
    · exact h.ring3 rfl
    · exact h.frames q v hv
  refine ⟨fun {n' r} hm => ?_, hframes.same (.of_view hre.view), fun q w hq hw hz => hsettled.marked hre.view hq hw hz,
    fun {r r'} hm hcur hr => ?_, fun {r r'} hm => by cases hm⟩
  · obtain ⟨-, rfl⟩ := Mode.user.inj hm
    cases hre with
    | stay _ => exact h.ring3 rfl
    | @switch next p _ _ hp => exact hframes next p.view (view_eq_some.mpr ⟨p, hp, rfl⟩)
  · obtain ⟨-, rfl⟩ := Mode.user.inj hm
    cases hre with
    | stay _ =>
      have hsame : (t.save regs).pickNext.2.current = t.current := ProcessTable.current_save ..
      rw [hsame, update_self] at hr
      exact (Mark.interrupted.inj (Option.some.inj hr))
    | @switch next p hpick _ hp =>
      exact hsettled.resumed hpick hp hcur hr

end

/-! ### Every event -/

section

variable {marks : ℕ → Option Mark} {s s' : Machine} {e : Event}
variable {p4 p3 p2 : ℕ}

theorem observe_calm (h : step s e = some s') (hn : s'.kernel.nextPid = s.kernel.nextPid) (hc : Calm s.mode s'.mode) :
    observe marks s e = marks := by
  unfold observe
  rw [h]
  dsimp only
  rw [if_neg (by simp [hn])]
  split
  · next hm => exact absurd hc (not_calm_of_tick hm h)
  · rfl

theorem observe_tick {n : Entry} {regs : TrapFrame} (hm : s.mode = .user n regs) (h : step s .tick = some s')
    (hn : s'.kernel.nextPid = s.kernel.nextPid) :
    observe marks s .tick = Function.update marks s.kernel.table.current (some (.interrupted regs)) := by
  unfold observe
  rw [h]
  dsimp only
  rw [if_neg (by simp [hn]), hm]

theorem observe_of_ne (h : step s e = some s') (hn : s'.kernel.nextPid = s.kernel.nextPid) {q : ℕ}
    (hq : q ≠ s.kernel.table.current) : observe marks s e q = marks q := by
  have hother : (∀ n regs, ¬ (e = .tick ∧ s.mode = .user n regs)) → observe marks s e = marks := by
    intro hno
    unfold observe
    rw [h]
    dsimp only
    rw [if_neg (by simp [hn])]
    split
    · next hm => exact absurd ⟨rfl, hm⟩ (hno _ _)
    · rfl
  by_cases htick : ∃ n regs, e = .tick ∧ s.mode = .user n regs
  · obtain ⟨n, regs, rfl, hm⟩ := htick
    rw [observe_tick hm h hn, update_of_ne hq]
  · rw [hother fun n regs hand => htick ⟨n, regs, hand⟩]

theorem observe_born (h : step s e = some s') (hn : s'.kernel.nextPid = nextPidOf s.kernel) {v : Process}
    (hv : s'.kernel.table.view (s.kernel.nextPid % 2 ^ 32) = some v) :
    observe marks s e = Function.update marks (s.kernel.nextPid % 2 ^ 32) (some (.created v.trapFrame)) := by
  unfold observe
  rw [h]
  dsimp only
  rw [if_pos (by rw [hn]; exact nextPidOf_ne _), hv]
  rfl

theorem Tracks.step (ht : Tracks marks s.kernel.table s.mode) (ha : Alive s) (h : RustKernel.step s e = some s') :
    Tracks (observe marks s e) s'.kernel.table s'.mode := by
  cases step_effect h with
  | quiet hq hc _ =>
    rw [observe_calm h hq.nextPid hc]
    exact ht.calm (.of_view hq.view) hq.current hc
  | @spawned _ _ p hsp hc _ =>
    have hpid : p.pid = s.kernel.nextPid % 2 ^ 32 := hsp.newborn.pid
    have hv : s'.kernel.table.view (s.kernel.nextPid % 2 ^ 32) = some p.view := by
      rw [hsp.table, view_insert, if_pos hpid.symm]
    rw [observe_born h hsp.nextPid hv]
    refine ht.born hv ?_ (fun q w hq hw => ?_) (by rw [hsp.table]; rfl) hc
    · obtain ⟨entry, rsp, hframe⟩ := hsp.trapFrame
      show p.trapFrame.cs % 4 = 3
      rw [hframe]
      show USER_CODE % 4 = 3
      decide
    · rw [hsp.table, view_insert, if_neg (by rw [hpid]; exact hq)] at hw
      exact ⟨w, hw, id, rfl, fun _ => rfl⟩
  | @forked _ n regs p child hm hf hm' =>
    have hpid : child.pid = s.kernel.nextPid % 2 ^ 32 := hf.newborn.pid
    have hview : ∀ q, s'.kernel.table.view q = if q = s.kernel.table.current then
        ((s.kernel.table.insert child).view s.kernel.table.current).map (Process.returning child.pid)
        else (s.kernel.table.insert child).view q := by
      intro q
      rw [hf.table, view_update_of_comm _ _ (Process.returning child.pid) fun _ => rfl]
    have hpcs : p.trapFrame.cs % 4 = 3 :=
      ht.frames _ p.view (view_eq_some.mpr ⟨p, hf.current, rfl⟩)
    have hccs : child.trapFrame.cs % 4 = 3 := by
      rw [hf.trapFrame]
      exact hpcs
    obtain ⟨v, hv, hvcs⟩ : ∃ v, s'.kernel.table.view (s.kernel.nextPid % 2 ^ 32) = some v ∧ v.trapFrame.cs % 4 = 3 := by
      rw [hview, ← hpid]
      split_ifs with hcur
      · rw [← hcur, view_insert, if_pos rfl]
        exact ⟨_, rfl, hccs⟩
      · rw [view_insert, if_pos rfl]
        exact ⟨_, rfl, hccs⟩
    rw [observe_born h hf.nextPid hv]
    refine ht.born hv hvcs (fun q w hq hw => ?_) (by rw [hf.table]; exact current_update ..) ?_
    · rw [hview, view_insert, view_insert, if_neg (c := q = child.pid) (by rw [hpid]; exact hq)] at hw
      split_ifs at hw with hcur hcp
      · exact absurd (hcur.trans (hcp.trans hpid)) hq
      · obtain ⟨u, hu, rfl⟩ := Option.map_eq_some_iff.mp hw
        refine ⟨u, hcur ▸ hu, id, rfl, fun hor => ?_⟩
        rcases hor with hring | hne
        · rw [hm] at hring
          exact absurd trivial hring
        · exact absurd hcur hne
      · exact ⟨w, hw, id, rfl, fun _ => rfl⟩
    · rw [hm, hm']
      exact .sysret rfl
  | @reaped _ n regs p child code rest t hm _ _ htt htab hn hm' =>
    have hc : Calm s.mode s'.mode := by
      rw [hm, hm']
      exact .sysret rfl
    rw [observe_calm h hn hc]
    have hreport : SameFrames s.kernel.table t := by
      rw [htt]
      exact .update (f := Process.reporting rest) (fun _ => rfl) fun _ _ => ⟨rfl, id⟩
    refine ht.calm ?_ ?_ hc
    · rw [htab]
      exact hreport.trans (.erase t child)
    · rw [htab, htt]
      exact current_update ..
  | @slept _ n regs p hm _ _ htab hn hm' =>
    have hc : Calm s.mode s'.mode := by
      rw [hm, hm']
      exact .sysret rfl
    rw [observe_calm h hn hc, htab]
    refine ht.calm (.update (f := Process.asleep) (fun _ => rfl) fun v hv => ⟨rfl, fun hz => ?_⟩)
      (current_update ..) hc
    obtain ⟨v', hv', hz'⟩ := ha.running hm
    rw [hv] at hv'
    exact absurd (Option.some.inj hv' ▸ hz) hz'
  | @signalled _ _ pid sig _ htab hn hc _ =>
    rw [observe_calm h hn hc, htab]
    have hsig : SameFrames s.kernel.table (s.kernel.table.update pid (Process.signalled sig)) :=
      .update (f := Process.signalled sig) (fun _ => rfl) fun _ _ => ⟨rfl, id⟩
    refine ht.calm (hsig.trans (.wake _ pid)) ?_ hc
    rw [ProcessTable.current_wake, current_update]
  | @identified _ _ p p' hp hset htab hn hc _ =>
    rw [observe_calm h hn hc, htab]
    refine ht.calm (fun q w hw => ?_) (current_update ..) hc
    unfold ProcessTable.view at hw
    rw [ProcessTable.getElem?_procs_update] at hw
    split_ifs at hw with hq
    · rw [show s.kernel.table.procs[s.kernel.table.current]? = some p from hp] at hw
      obtain rfl : p'.view = w := Option.some.inj hw
      refine ⟨p.view, view_eq_some.mpr ⟨p, hq ▸ hp, rfl⟩, ?_⟩
      cases hset <;> exact ⟨rfl, id⟩
    · exact ⟨w, hw, rfl, id⟩
  | @exited _ _ n regs p code hm _ hsched hn _ _ =>
    obtain ⟨hs, hf⟩ := ht.exit_settled (fun q hq => observe_of_ne h hn hq) p.parent code
    exact hs.scheduled hf hsched
  | @signalDeath _ p sig rest _ _ hp _ hsched hn =>
    have hpop : SameFrames s.kernel.table (s.kernel.table.update s.kernel.table.current (Process.withSignals rest)) :=
      .update (f := Process.withSignals rest) (fun _ => rfl) fun _ _ => ⟨rfl, id⟩
    have hcur := current_update s.kernel.table s.kernel.table.current (Process.withSignals rest)
    have hsettled := (ht.same hpop hcur).exit_settled (fun q hq => observe_of_ne h hn (hcur ▸ hq)) p.parent sig.exitCode
    rw [hcur] at hsettled
    exact hsettled.1.scheduled hsettled.2 hsched
  | @rescheduled _ n regs regs' hm hre hn hm' _ =>
    rw [observe_tick hm h hn, hm']
    rw [hm] at ht
    exact ht.rescheduled hre
  | ignored hm _ _ _ hcs => exact absurd (ht.ring3 hm) hcs
  | started hm hsched hn =>
    have hmarks : observe marks s .runAll = marks := by
      unfold observe
      rw [h]
      dsimp only
      rw [if_neg (by simp [hn])]
    rw [hmarks]
    have hs : Settled marks s.kernel.table := by
      intro q v hq hv hz
      obtain ⟨m, hmark, -, hframe⟩ := ht.marked q v hq hv hz
      exact ⟨m, hmark, hframe (.inl (by rw [hm]; exact id))⟩
    exact hs.scheduled ht.frames hsched

theorem Booted.tracks (h : Booted s p4 p3 p2) (marks : ℕ → Option Mark) :
    Tracks marks s.kernel.table s.mode := by
  have hview : ∀ q v, s.kernel.table.view q ≠ some v := by
    rw [h.table]
    simp [ProcessTable.view, ProcessTable.new]
  rw [h.mode]
  refine ⟨fun hm => ?_, fun q v hv => absurd hv (hview q v), fun q v _ hv => absurd hv (hview q v), fun hm => ?_,
    fun hm => ?_⟩
  · cases hm
  · cases hm
  · cases hm

theorem tracks_of_run {s₀ : Machine} (h0 : Booted s₀ p4 p3 p2) {tr : List (Machine × Event)}
    (hrun : Run RustKernel.step s₀ tr s) : Alive s ∧ Tracks (marksOf tr) s.kernel.table s.mode := by
  refine hrun.history (K := fun _ _ => True) (I := fun tr s => Alive s ∧ Tracks (marksOf tr) s.kernel.table s.mode)
    ⟨h0.alive, h0.tracks _⟩ (fun _ _ => trivial) ?_
  rintro tr a e b ⟨ha, ht⟩ - h
  rw [marksOf_append]
  exact ⟨ha.step h, ht.step ha h⟩

/-! ### Resuming -/

/-- **A process is resumed with the registers it was last interrupted with if and only if** it is resumed by the timer, or
its general registers were all zero. -/
theorem resumed_iff_of_run {s₀ : Machine} (h0 : Booted s₀ p4 p3 p2) {tr : List (Machine × Event)}
    (hrun : Run RustKernel.step s₀ tr s) {n : Entry} {regs r : TrapFrame} (hm : s.mode = .user n regs)
    (hn : n = .timer ∨ n = .enterUserspace) (hpid : s.kernel.table.current ≠ 0)
    (hr : marksOf tr s.kernel.table.current = some (.interrupted r)) :
    regs = r ↔ n = .timer ∨ r.toGprs = {} := by
  obtain ⟨-, ht⟩ := tracks_of_run h0 hrun
  rcases hn with rfl | rfl
  · exact ⟨fun _ => .inl rfl, fun _ => ht.timer hm hpid hr⟩
  · rw [ht.entered hm hpid hr]
    constructor
    · intro heq
      refine .inr ?_
      rw [← heq]
      rfl
    · rintro (h | hzero)
      · cases h
      · unfold enterFrame
        rw [← hzero]

end

def userRegs (rip rbx rcx r11 : ℕ) : TrapFrame :=
  { rbx, rcx, r11, rip, rsp := 0x7fffffffeff0, rflags := 0x202, cs := USER_CODE, ss := USER_DATA }

def takeTurns : List Event :=
  [.spawn (some Fs.tinyImage) none, .runAll, .syscall .fork, .run (userRegs 0x40000000 7 0 0), .tick, .tick]

theorem resumed_takeTurns : ∃ tr s regs r, Run step bootMachine tr s ∧ s.mode = .user .timer regs ∧
    marksOf tr s.kernel.table.current = some (.interrupted r) ∧ r.rbx = 7 ∧ regs = r := by
  have hfinal : (exec step (fun _ _ => True) bootMachine takeTurns).any fun s => s.kernel.table.current = 1 ∧
      s.mode = .user .timer (userRegs 0x40000000 7 0 0) ∧
      marksOf (trace step bootMachine takeTurns) s.kernel.table.current =
        some (.interrupted (userRegs 0x40000000 7 0 0)) := by
    decide +kernel
  obtain ⟨s, hrun, -, hcur, hm, hmark⟩ := run_of_any hfinal
  exact ⟨_, s, _, _, hrun, hm, hmark, rfl,
    (resumed_iff_of_run booted_bootMachine hrun hm (.inl rfl) (by rw [hcur]; decide) hmark).mpr (.inl rfl)⟩

def resumeByExit : List Event :=
  [.spawn (some Fs.tinyImage) none, .runAll, .syscall .fork, .run (userRegs 0x40000000 7 0 0), .tick, .exit 0]

/-- **A register is lost**: a process is interrupted with 7 in `rbx`, and resumed by `schedule_next` with 0. -/
theorem resumed_with_zero : ∃ tr s regs r, Run step bootMachine tr s ∧ s.mode = .user .enterUserspace regs ∧
    marksOf tr s.kernel.table.current = some (.interrupted r) ∧ r.rbx = 7 ∧ regs.rbx = 0 := by
  have hfinal : (exec step (fun _ _ => True) bootMachine resumeByExit).any fun s =>
      s.mode = .user .enterUserspace (userRegs 0x40000000 0 0 0) ∧
      marksOf (trace step bootMachine resumeByExit) s.kernel.table.current =
        some (.interrupted (userRegs 0x40000000 7 0 0)) := by
    decide +kernel
  obtain ⟨s, hrun, -, hm, hmark⟩ := run_of_any hfinal
  exact ⟨_, s, _, _, hrun, hm, hmark, rfl, rfl⟩

/-! ### Forking -/

section

variable {s s' : Machine}

/-- **A child starts with the registers its parent was last interrupted with**, or was created with, and 0 in `rax`: it
starts where its parent forks if and only if these are the registers the parent returns from the call with. The
parent finds the pid of the child in `rax`. -/
theorem fork_frame_of_run {p4 p3 p2 : ℕ} {s₀ : Machine} (h0 : Booted s₀ p4 p3 p2) {tr : List (Machine × Event)}
    (hrun : Run RustKernel.step s₀ tr s) {n : Entry} {regs : TrapFrame} (hm : s.mode = .user n regs)
    (hpid : s.kernel.table.current ≠ 0) (hnew : s.kernel.nextPid % 2 ^ 32 ≠ s.kernel.table.current)
    (h : RustKernel.step s (.syscall .fork) = some s') (hsome : s'.kernel.nextPid ≠ s.kernel.nextPid) :
    ∃ (m : Mark) (child : Process), marksOf tr s.kernel.table.current = some m ∧
      child.pid = s.kernel.nextPid % 2 ^ 32 ∧ s'.kernel.table.procs[child.pid]? = some child ∧
      s'.mode = .user .sysret (sysretFrame regs child.pid) ∧ child.trapFrame = m.frame.withRax 0 ∧
      (child.trapFrame = sysretFrame regs 0 ↔ m.frame.withRax 0 = sysretFrame regs 0) := by
  obtain ⟨ha, ht⟩ := tracks_of_run h0 hrun
  obtain ⟨ret, hret, hm'⟩ := syscall_step hm h
  rcases (orMax_post (fork_post s.kernel)).ok hret with ⟨p, child, hf, rfl⟩ | ⟨-, m, hsame⟩
  · obtain ⟨v, hv, hz⟩ := ha.running hm
    obtain rfl := ProcessTable.eq_view hf.current hv
    obtain ⟨m, hmark, hframe, -⟩ := ht.marked _ _ hpid hv hz
    have hchild : child.trapFrame = m.frame.withRax 0 := hf.trapFrame.trans hframe.symm
    refine ⟨m, child, hmark, hf.newborn.pid, ?_, hm', hchild, by rw [hchild]⟩
    rw [hf.table, ProcessTable.getElem?_procs_update, if_neg (by rw [hf.newborn.pid]; exact hnew),
      ProcessTable.getElem?_procs_insert, if_pos rfl]
  · exact absurd (congrArg Kernel.nextPid hsame) hsome

end

def forkAgain : List Event :=
  [.spawn (some Fs.tinyImage) none, .runAll, .run (userRegs 0x40000002 7 0x40000002 0x202), .tick,
    .run (userRegs 0x40000000 7 0x40000002 0x202)]

theorem fork_frame_forkAgain : ∃ tr s s' regs child, Run step bootMachine tr s ∧ s.mode = .user .running regs ∧
    step s (.syscall .fork) = some s' ∧ s'.kernel.table.procs[2]? = some child ∧ child.trapFrame = sysretFrame regs 0 := by
  have hfinal : (exec step (fun _ _ => True) bootMachine forkAgain).any fun s => s.kernel.table.current = 1 ∧
      s.kernel.nextPid = 2 ∧ s.mode = .user .running (userRegs 0x40000000 7 0x40000002 0x202) ∧
      ∃ s' ∈ step s (.syscall .fork), s'.kernel.nextPid = 3 := by
    decide +kernel
  have hmark : marksOf (trace step bootMachine forkAgain) 1 =
      some (.interrupted (userRegs 0x40000002 7 0x40000002 0x202)) := by
    decide +kernel
  obtain ⟨s, hrun, -, hcur, hnext, hm, s', hs', hnext'⟩ := run_of_any hfinal
  obtain ⟨m, child, hm₁, hpid, hchild, -, -, hiff⟩ := fork_frame_of_run booted_bootMachine hrun hm (by rw [hcur]; decide)
    (by rw [hcur, hnext]; decide) hs' (by rw [hnext, hnext']; decide)
  rw [hcur, hmark] at hm₁
  obtain rfl := Option.some.inj hm₁
  rw [hnext] at hpid
  rw [hpid] at hchild
  exact ⟨_, s, s', _, child, hrun, hm, hs', hchild, hiff.mpr rfl⟩

def runAndFork : List Event :=
  [.spawn (some Fs.tinyImage) none, .runAll, .run (userRegs 0x40000010 7 0 0)]

/-- **A child starts in the wrong place**: its parent forks at `0x40000010` with 7 in `rbx`, and it starts at the entry of
the program with 0 in `rbx`. -/
theorem fork_stale_frame : ∃ tr s s' regs child, Run step bootMachine tr s ∧ s.mode = .user .running regs ∧
    step s (.syscall .fork) = some s' ∧ s'.mode = .user .sysret (sysretFrame regs 2) ∧
    s'.kernel.table.procs[2]? = some child ∧ child.trapFrame ≠ sysretFrame regs 0 ∧
    (sysretFrame regs 0).rip = 0x40000012 ∧ child.trapFrame.rip = 0x40000000 ∧ regs.rbx = 7 ∧ child.trapFrame.rbx = 0 := by
  have hfinal : (exec step (fun _ _ => True) bootMachine runAndFork).any fun s =>
      s.mode = .user .running (userRegs 0x40000010 7 0 0) ∧ ∃ s' ∈ step s (.syscall .fork),
        s'.mode = .user .sysret (sysretFrame (userRegs 0x40000010 7 0 0) 2) ∧
        ∃ child ∈ s'.kernel.table.procs[2]?, child.trapFrame = userRegs 0x40000000 0 0 0 := by
    decide +kernel
  obtain ⟨s, hrun, -, hm, s', hs', hm', child, hchild, hframe⟩ := run_of_any hfinal
  refine ⟨_, s, s', _, child, hrun, hm, hs', hm', hchild, ?_, rfl, ?_, rfl, ?_⟩
  · rw [hframe]
    decide
  · rw [hframe]
    rfl
  · rw [hframe]
    rfl

end RustKernel
