import RustKernel.Task.Exits

/-!
# Identities, numbers, and `exec`

Who a process runs as, what number it has, and what program it runs.
-/

namespace RustKernel

open Lib Memory RustKernel.Task Fs

variable {s s' : Machine} {e : Event} {n : Entry} {regs : TrapFrame}
variable {q : ℕ} {v w : Process} {tr : List (Machine × Event)} {H : List Label} {a : Label} {L L₀ : Lives}

/-! ### `exec` -/

def Loads (p4 : ℕ) (s : Machine) (ram fat : Option (List Byte)) : Prop :=
  (∃ bin, (ram = some bin ∨ fat = some bin) ∧ ∃ r m, spawnSpace p4 bin s.kernel.mem = .ok r m) ∨
    ∃ pid k, execFromAny ram fat s.kernel.table.current s.kernel = .ok pid k

structure Replaced (s : Machine) (regs : TrapFrame) (s' : Machine) : Prop where
  noReturn : ∀ ret, s'.mode ≠ .user .sysret (sysretFrame regs ret)
  size : s'.kernel.table.procs.size = s.kernel.table.procs.size
  same : ∃ p p', s.kernel.table.currentProcess = some p ∧
    s'.kernel.table.procs[s.kernel.table.current]? = some p' ∧ p'.parent = p.parent ∧ p'.ids = p.ids

structure ExecContract (p4 : ℕ) (s : Machine) (regs : TrapFrame) (ram fat : Option (List Byte)) (s' : Machine) : Prop where
  replaced : Loads p4 s ram fat → Replaced s regs s'
  failed : ¬ Loads p4 s ram fat →
    s'.mode = .user .sysret (sysretFrame regs U64_MAX) ∧ s'.kernel.table = s.kernel.table

theorem exec_step {ram fat : Option (List Byte)} (hm : s.mode = .user n regs)
    (h : step s (.syscall (.exec ram fat)) = some s') :
    (∃ p k, execFromAny ram fat s.kernel.table.current s.kernel = .ok p.pid k ∧
      Spawned s.kernel s.kernel.table.current p s'.kernel ∧ s'.mode = .user .sysret (sysretFrame regs p.pid)) ∨
    ((∀ pid k, execFromAny ram fat s.kernel.table.current s.kernel ≠ .ok pid k) ∧
      SameTasks s.kernel s'.kernel ∧ s'.mode = .user .sysret (sysretFrame regs U64_MAX)) := by
  obtain ⟨ret, hret, hmode⟩ := syscall_step hm h
  rw [hmode]
  let P : Kernel → Prop := fun k' => (∃ e, execFromAny ram fat s.kernel.table.current s.kernel = .err e k') ∧ SameTasks s.kernel k'
  have hpost := ((Outcome.post_self _).and (execFromAny_post ram fat s.kernel.table.current s.kernel)).imp_err
    (fun e k' ⟨hfail, m, hk⟩ => (⟨⟨e, hfail⟩, hk ▸ ⟨rfl, rfl⟩⟩ : P k'))
  rcases (orMax_post hpost).ok hret with ⟨hok, p, hp, rfl⟩ | ⟨rfl, ⟨e, hfail⟩, hsame⟩
  · exact .inl ⟨p, _, hok, hp, rfl⟩
  · exact .inr ⟨fun pid k hok => (nomatch hok.symm.trans hfail), hsame, rfl⟩

/-- **`exec` keeps its contract if and only if the file does not load.** Whatever comes of it, the call returns to its
caller; if it succeeds, what it returns is the pid of a new process, a child of the caller with the caller's identity. -/
theorem exec_contract_iff (p4 : ℕ) {ram fat : Option (List Byte)} (hm : s.mode = .user n regs)
    (h : step s (.syscall (.exec ram fat)) = some s') :
    (ExecContract p4 s regs ram fat s' ↔ ¬ Loads p4 s ram fat) ∧
    ∀ pid k, execFromAny ram fat s.kernel.table.current s.kernel = .ok pid k →
      s'.mode = .user .sysret (sysretFrame regs pid) ∧ ∃ p, p.pid = pid ∧ p.parent = s.kernel.table.current ∧
        p.ids = inherited s.kernel.table s.kernel.table.current ∧ s'.kernel.table = s.kernel.table.insert p := by
  rcases exec_step hm h with ⟨p, k, hok, hp, hm'⟩ | ⟨hfail, hsame, hm'⟩
  · refine ⟨⟨fun hc hl => (hc.replaced hl).noReturn _ hm', fun hno => ?_⟩, fun pid k' hok' => ?_⟩
    · exact absurd (.inr ⟨_, _, hok⟩) hno
    · obtain ⟨rfl, -⟩ := Outcome.ok.inj (hok.symm.trans hok')
      exact ⟨hm', p, rfl, hp.parent, hp.ids, hp.table⟩
  · refine ⟨⟨fun hc hl => (hc.replaced hl).noReturn _ hm', fun hno => ?_⟩, fun pid k' hok' => ?_⟩
    · exact ⟨fun hl => absurd hl hno, fun _ => ⟨hm', hsame.table⟩⟩
    · exact absurd hok' (hfail pid k')

def startOne : List Event := [.spawn (some tinyImage) none, .runAll]

theorem exec_contract_missing : ∃ tr s s' n regs, Run step bootMachine tr s ∧ s.mode = .user n regs ∧
    step s (.syscall (.exec none none)) = some s' ∧ ¬ Loads 272 s none none ∧ ExecContract 272 s regs none none s' := by
  have hfinal : (exec step (fun _ _ => True) bootMachine startOne).any fun s => s.mode.isUser = true ∧
      (∃ s' ∈ step s (.syscall (.exec none none)), True) ∧
      ¬ (execFromAny none none s.kernel.table.current s.kernel).Returns fun _ _ => True := by
    decide +kernel
  obtain ⟨s, hrun, -, hmode, ⟨s', hs', -⟩, hcall⟩ := run_of_any hfinal
  have hno : ¬ Loads 272 s none none := by
    rintro (⟨bin, hbin, -⟩ | ⟨pid, k, hok⟩)
    · rcases hbin with hbin | hbin <;> cases hbin
    · exact hcall ⟨pid, k, hok, trivial⟩
  obtain ⟨n, regs, hm⟩ := Mode.eq_user hmode
  exact ⟨_, s, s', n, regs, hrun, hm, hs', hno, (exec_contract_iff 272 hm hs').1.mpr hno⟩

def returnsMax (s : Machine) (call : Syscall) : Bool :=
  match s.mode, step s (.syscall call) with
  | .user _ regs, some s' => s'.mode = .user .sysret (sysretFrame regs U64_MAX)
  | _, _ => false

theorem exists_of_returnsMax {call : Syscall} (h : returnsMax s call = true) : ∃ s' regs n, s.mode = .user n regs ∧
    step s (.syscall call) = some s' ∧ s'.mode = .user .sysret (sysretFrame regs U64_MAX) := by
  unfold returnsMax at h
  split at h
  · next n regs s' hm hs => exact ⟨s', regs, n, hm, hs, of_decide_eq_true h⟩
  · cases h

/-- **`exec` returns to its caller**: a program executes an image that the kernel can load, and goes on. -/
theorem exec_returns : ∃ tr s s' n regs, Run step bootMachine tr s ∧ s.mode = .user n regs ∧
    step s (.syscall (.exec (some tinyImage) none)) = some s' ∧ Loads 272 s (some tinyImage) none ∧
    s'.mode = .user .sysret (sysretFrame regs U64_MAX) ∧
    ¬ ExecContract 272 s regs (some tinyImage) none s' := by
  have hfinal : (exec step (fun _ _ => True) bootMachine startOne).any fun s =>
      ((spawnSpace 272 tinyImage s.kernel.mem).Returns fun _ _ => True) ∧ returnsMax s (.exec (some tinyImage) none) := by
    decide +kernel
  obtain ⟨s, hrun, -, ⟨r, m, hspawn, -⟩, hret⟩ := run_of_any hfinal
  obtain ⟨s', regs, n, hm, hs', hm'⟩ := exists_of_returnsMax hret
  have hl : Loads 272 s (some tinyImage) none := .inl ⟨tinyImage, .inl rfl, r, m, hspawn⟩
  exact ⟨_, s, s', n, regs, hrun, hm, hs', hl, hm', fun hc => (hc.replaced hl).noReturn _ hm'⟩

/-! ### Identities -/

def EqualIds (s : Machine) : Prop := ∀ q v, s.kernel.table.view q = some v → v.uid = v.euid ∧ v.gid = v.egid

structure Numbered (s : Machine) : Prop where
  next_pos : 0 < s.kernel.nextPid
  given : ∀ q v, s.kernel.table.view q = some v → 0 < q ∧ q < s.kernel.nextPid

inductive Descends (H : List Label) (q : ℕ) : ℕ → Prop
  | self : Descends H q q
  | child {p c : ℕ} : Descends H q p → .born c p ∈ H → Descends H q c

theorem Changes.ids (h : Changes s q v w) : w.ids = v.ids ∨ SetsId v w := by
  have hwoken : ∀ p : Process, p.woken.ids = p.ids := by
    intro p
    unfold Process.woken
    split_ifs <;> rfl
  cases h with
  | setsId _ hset => exact .inr hset
  | signalled sig => exact .inl (hwoken _)
  | told code _ => exact .inl (hwoken _)
  | same => exact .inl rfl
  | saved => exact .inl rfl
  | returning => exact .inl rfl
  | reporting => exact .inl rfl
  | asleep => exact .inl rfl
  | exits => exact .inl rfl
  | exitsTold => exact .inl rfl

theorem Task.Process.ids_eq (h : w.ids = v.ids) : w.uid = v.uid ∧ w.gid = v.gid ∧ w.euid = v.euid ∧ w.egid = v.egid :=
  Ids.mk.inj h

theorem SetsId.equal (h : SetsId v w) (hv : v.uid = v.euid ∧ v.gid = v.egid) : w.uid = w.euid ∧ w.gid = w.egid := by
  cases h with
  | uid new _ => exact ⟨rfl, hv.2⟩
  | gid new _ => exact ⟨hv.1, rfl⟩
  | euid => exact ⟨rfl, hv.2⟩
  | egid => exact ⟨hv.1, rfl⟩

theorem SetsId.ids_eq (h : SetsId v w) (hv : v.uid = v.euid ∧ v.gid = v.egid) (hroot : v.euid ≠ 0) : w.ids = v.ids := by
  cases h with
  | uid new h0 => exact absurd h0 hroot
  | gid new h0 => exact absurd h0 hroot
  | euid =>
    unfold Process.ids
    rw [hv.1]
  | egid =>
    unfold Process.ids
    rw [hv.2]

theorem inherited_view {t : ProcessTable} (h : t.view q = some v) : inherited t q = v.ids := by
  obtain ⟨p, hp, rfl⟩ := ProcessTable.view_eq_some.mp h
  unfold inherited
  rw [hp]
  rfl

theorem EqualIds.step (heq : EqualIds s) (h : RustKernel.step s e = some s') : EqualIds s' := by
  intro q w hw
  cases origin_of_step h hw with
  | born _ _ _ _ _ _ _ hids =>
    cases hc : s.kernel.table.view s.creator with
    | some v =>
      rw [inherited_view hc] at hids
      obtain ⟨hu, hg, heu, heg⟩ := Process.ids_eq hids
      rw [hu, hg, heu, heg]
      exact heq _ _ hc
    | none =>
      have hnone : s.kernel.table.procs[s.creator]? = none := Option.map_eq_none_iff.mp hc
      unfold inherited at hids
      rw [hnone] at hids
      obtain ⟨hu, hg, heu, heg⟩ := Ids.mk.inj hids
      rw [hu, hg, heu, heg]
      exact ⟨rfl, rfl⟩
  | @old v hv hch =>
    rcases hch.ids with hids | hset
    · obtain ⟨hu, hg, heu, heg⟩ := Process.ids_eq hids
      rw [hu, hg, heu, heg]
      exact heq q v hv
    · exact hset.equal (heq q v hv)

theorem nextPid_of_step (ha : Alive s) (h : step s e = some s') (hpids : PidsLast s e) : s'.kernel.nextPid = s.kernel.nextPid ∨
    (s'.kernel.nextPid = s.kernel.nextPid + 1 ∧ labelOf s e = .born s.kernel.nextPid s.creator) := by
  by_cases hn : s'.kernel.nextPid = s.kernel.nextPid
  · exact .inl hn
  · have hlt : s.kernel.nextPid < 2 ^ 32 := (hpids s' h).resolve_left hn
    rcases (lives_step ha h).next with hsame | hnext
    · exact absurd hsame hn
    · refine .inr ⟨?_, ?_⟩
      · have hnext : s'.kernel.nextPid = (s.kernel.nextPid + 1) % 2 ^ 64 := hnext
        omega
      · unfold labelOf
        rw [h]
        dsimp only
        rw [if_pos hn, Nat.mod_eq_of_lt hlt]

theorem Numbered.step (hnum : Numbered s) (ha : Alive s) (h : RustKernel.step s e = some s') (hpids : PidsLast s e) :
    Numbered s' := by
  have hnext := nextPid_of_step ha h hpids
  refine ⟨?_, fun q w hw => ?_⟩
  · have hpos := hnum.next_pos
    omega
  · cases origin_of_step h hw with
    | born hnew hq hn _ _ _ _ _ =>
      have hlt : s.kernel.nextPid < 2 ^ 32 := by
        refine (hpids s' h).resolve_left fun hsame => ?_
        exact nextPidOf_ne s.kernel (hn.symm.trans hsame)
      rw [hq, hnew.pid]
      have hpos := hnum.next_pos
      have hne := nextPidOf_ne s.kernel
      omega
    | old hv _ =>
      have hgiven := hnum.given q _ hv
      omega

def BirthsBelow (H : List Label) (next : ℕ) : Prop := ∀ c p, .born c p ∈ H → 0 < c ∧ c < next ∧ p < next

theorem BirthsBelow.step (hb : BirthsBelow (history tr) s.kernel.nextPid) (hnum : Numbered s) (ha : Alive s)
    (h : RustKernel.step s e = some s') (hpids : PidsLast s e) : BirthsBelow (history (tr ++ [(s, e)])) s'.kernel.nextPid := by
  intro c p hmem
  have hnext := nextPid_of_step ha h hpids
  rw [history, List.map_append, List.mem_append] at hmem
  rcases hmem with hmem | hmem
  · have hlt := hb c p hmem
    omega
  · rw [List.map_singleton, List.mem_singleton] at hmem
    have hpos := hnum.next_pos
    obtain ⟨hsucc, hborn⟩ := hnext.resolve_left (nextPid_ne_of_born h hmem.symm)
    obtain ⟨rfl, rfl⟩ := Label.born.inj (hmem.trans hborn)
    have hlt : s.creator < s.kernel.nextPid := by
      rcases ha.creator with hzero | ⟨l, hl⟩
      · omega
      · obtain ⟨v, hv, -⟩ := Option.map_eq_some_iff.mp hl
        exact (hnum.given _ _ hv).2
    omega

theorem Descends.bounds {next d : ℕ} (h : Descends H q d) (hb : BirthsBelow H next) (hq : 0 < q ∧ q < next) :
    0 < d ∧ d < next := by
  cases h with
  | self => exact hq
  | child _ hmem =>
    obtain ⟨h1, h2, -⟩ := hb _ _ hmem
    exact ⟨h1, h2⟩

theorem Descends.append {next d : ℕ} (hb : BirthsBelow H next) (ha : ∀ c p, a = .born c p → c = next)
    (h : Descends (H ++ [a]) q d) : Descends H q d ∨ ∃ p, Descends H q p ∧ a = .born d p := by
  induction h with
  | self => exact .inl .self
  | @child p c _ hmem ih =>
    rcases List.mem_append.mp hmem with hin | hin
    · rcases ih with ih | ⟨p', -, hborn⟩
      · exact .inl (.child ih hin)
      · -- the parent would be the process just born
        have hlt := (hb c p hin).2.2
        have hp := ha p p' hborn
        omega
    · rw [List.mem_singleton] at hin
      rcases ih with ih | ⟨p', hd, hborn⟩
      · exact .inr ⟨p, ih, hin.symm⟩
      · obtain ⟨rfl, rfl⟩ := Label.born.inj (hin.trans hborn)
        exact .inl hd

structure Unprivileged (q : ℕ) (ids : Ids) (tr : List (Machine × Event)) (s : Machine) : Prop where
  alive : Alive s
  numbered : Numbered s
  equal : EqualIds s
  births : BirthsBelow (history tr) s.kernel.nextPid
  given : 0 < q ∧ q < s.kernel.nextPid
  kept : ∀ d w, Descends (history tr) q d → s.kernel.table.view d = some w → w.ids = ids

theorem Unprivileged.step {ids : Ids} (hu : Unprivileged q ids tr s) (hroot : ids.euid ≠ 0) (h : RustKernel.step s e = some s')
    (hpids : PidsLast s e) : Unprivileged q ids (tr ++ [(s, e)]) s' := by
  have hnext := nextPid_of_step hu.alive h hpids
  have hgiven : 0 < q ∧ q < s'.kernel.nextPid := by
    have hq := hu.given
    omega
  refine ⟨hu.alive.step h, hu.numbered.step hu.alive h hpids, hu.equal.step h,
    hu.births.step hu.numbered hu.alive h hpids, hgiven, fun d w hd hw => ?_⟩
  have hlabel : ∀ c p, labelOf s e = .born c p → c = s.kernel.nextPid ∧ p = s.creator := by
    intro c p hl
    obtain ⟨-, hborn⟩ := hnext.resolve_left (nextPid_ne_of_born h hl)
    exact Label.born.inj (hl.symm.trans hborn)
  rw [history, List.map_append] at hd
  rcases hd.append hu.births fun c p hl => (hlabel c p hl).1 with hd | ⟨p, hd, hborn⟩
  · cases origin_of_step h hw with
    | born hnew hpid hn _ _ _ _ _ =>
      -- a newborn has a number nobody descended from `q` has
      have hlt := (hd.bounds hu.births hu.given).2
      have hmod : s.kernel.nextPid < 2 ^ 32 :=
        (hpids s' h).resolve_left fun hsame => nextPidOf_ne s.kernel (hn.symm.trans hsame)
      rw [hpid, hnew.pid] at hlt
      omega
    | @old v hv hch =>
      have hids := hu.kept d v hd hv
      rcases hch.ids with hsame | hset
      · exact hsame.trans hids
      · refine (hset.ids_eq (hu.equal d v hv) ?_).trans hids
        rw [show v.euid = v.ids.euid from rfl, hids]
        exact hroot
  · obtain ⟨rfl, rfl⟩ := hlabel _ _ hborn
    have hpos := (hd.bounds hu.births hu.given).1
    rcases hu.alive.creator with hzero | ⟨l, hl⟩
    · omega
    · obtain ⟨v, hv, -⟩ := Option.map_eq_some_iff.mp hl
      have hids := hu.kept _ v hd hv
      cases origin_of_step h hw with
      | born _ _ _ _ _ _ _ hinh => rw [hinh, inherited_view hv, hids]
      | old hold _ =>
        have hlt := (hu.numbered.given _ _ hold).2
        omega

/-- **No privilege escalation.** In every run, as long as pids last, from a machine whose processes have equal real and
effective identities: they stay equal; and once a process has an effective user other than the superuser, neither it nor
anything created from it ever is the superuser, or has another group. -/
theorem no_escalation_of_run {s₀ s₁ : Machine} (ha : Alive s₀) (hnum : Numbered s₀) (heq : EqualIds s₀)
    {tr' : List (Machine × Event)} (hrun : Run RustKernel.step s₀ tr s₁) (hrun' : Run RustKernel.step s₁ tr' s)
    (hok : ∀ x ∈ tr, PidsLast x.1 x.2) (hok' : ∀ x ∈ tr', PidsLast x.1 x.2) :
    EqualIds s ∧ ∀ q v, s₁.kernel.table.view q = some v → v.euid ≠ 0 →
      ∀ d w, Descends (history tr') q d → s.kernel.table.view d = some w →
        w.uid ≠ 0 ∧ w.euid ≠ 0 ∧ w.gid = v.gid ∧ w.egid = v.egid := by
  have hfirst : Alive s₁ ∧ Numbered s₁ ∧ EqualIds s₁ := by
    refine hrun.invariant (I := fun s => Alive s ∧ Numbered s ∧ EqualIds s) ⟨ha, hnum, heq⟩ hok ?_
    rintro a e b ⟨ha, hnum, heq⟩ hpids h
    exact ⟨ha.step h, hnum.step ha h hpids, heq.step h⟩
  obtain ⟨ha₁, hnum₁, heq₁⟩ := hfirst
  refine ⟨hrun'.keeps heq₁ fun _ _ _ heq h => heq.step h, fun q v hv hroot d w hd hw => ?_⟩
  have hstart : Unprivileged q v.ids [] s₁ := by
    refine ⟨ha₁, hnum₁, heq₁, by simp [BirthsBelow, history], hnum₁.given q v hv, fun d w hd hw => ?_⟩
    cases hd with
    | self => rw [← Option.some.inj (hv.symm.trans hw)]
    | child _ hmem => cases hmem
  have hend : Unprivileged q v.ids tr' s :=
    hrun'.history (K := PidsLast) hstart hok' fun _ _ _ _ hu hpids h => hu.step hroot h hpids
  obtain ⟨hu, hg, heu, heg⟩ := Process.ids_eq (hend.kept d w hd hw)
  have hequal := (heq₁ q v hv).1
  exact ⟨by rw [hu, hequal]; exact hroot, by rw [heu]; exact hroot, hg, heg⟩

theorem Booted.numbered {p4 p3 p2 : ℕ} (h : Booted s p4 p3 p2) : Numbered s ∧ EqualIds s := by
  have hview : ∀ q, s.kernel.table.view q = none := by
    rw [h.table]
    simp [ProcessTable.view, ProcessTable.new]
  refine ⟨⟨by rw [h.nextPid]; exact Nat.one_pos, fun q v hv => ?_⟩, fun q v hv => ?_⟩
  · rw [hview] at hv
    cases hv
  · rw [hview] at hv
    cases hv

def dropRoot : List Event := [.spawn (some tinyImage) none, .runAll, .syscall (.setuid 5)]

def tryRoot : List Event := [.syscall .fork, .tick, .syscall (.setuid 0)]

theorem no_escalation_tryRoot : ∃ tr s₁ tr' s v w, Run step bootMachine tr s₁ ∧ Run step s₁ tr' s ∧
    s₁.kernel.table.view 1 = some v ∧ v.euid = 5 ∧ Descends (history tr') 1 2 ∧ s.kernel.table.current = 2 ∧
    s.kernel.table.view 2 = some w ∧ w.uid ≠ 0 ∧ w.euid ≠ 0 := by
  have hdrop : (exec step PidsLast bootMachine dropRoot).any fun s => (∃ v ∈ s.kernel.table.view 1, v.euid = 5) ∧
      .born 2 1 ∈ history (trace step s tryRoot) ∧ (exec step PidsLast s tryRoot).any fun s =>
        s.kernel.table.current = 2 ∧ ∃ w ∈ s.kernel.table.view 2, True := by
    decide +kernel
  obtain ⟨s₁, hrun, hok, ⟨v, hv, heuid⟩, hborn, htry⟩ := run_of_any hdrop
  obtain ⟨s, hrun', hok', hcurrent, w, hw, -⟩ := run_of_any htry
  have hstart := booted_bootMachine.numbered
  have hkept := (no_escalation_of_run booted_bootMachine.alive hstart.1 hstart.2 hrun hrun' hok hok').2 1 v hv
    (by rw [heuid]; decide) 2 w (.child .self hborn) hw
  exact ⟨_, s₁, _, s, v, w, hrun, hrun', hv, heuid, .child .self hborn, hcurrent, hw, hkept.1, hkept.2.1⟩

/-! ### Numbers are given once -/

def Task.Label.gives? : Label → Option ℕ
  | .born pid _ => some pid
  | _ => none

def Task.given (H : List Label) : List ℕ := H.filterMap Label.gives?

theorem Task.given_append (H : List Label) (a : Label) : given (H ++ [a]) = given H ++ a.gives?.toList := by
  unfold given
  cases h : a.gives? <;> simp [h]

structure Task.Counted (H : List Label) (L : Lives) : Prop where
  next : L.next = (given H).length + 1
  below : ∀ c ∈ given H, 0 < c ∧ c < L.next
  among : ∀ q l, L.proc q = some l → q ∈ given H

theorem Task.Counted.quiet {L' : Lives} (h : Counted H L) (ha : a.gives? = none)
    (hn : L'.next = L.next) (hp : ∀ q l', L'.proc q = some l' → ∃ l, L.proc q = some l) : Counted (H ++ [a]) L' := by
  have hg : given (H ++ [a]) = given H := by
    rw [given_append, ha]
    exact List.append_nil _
  refine ⟨by rw [hg, hn, h.next], ?_, fun q l' hq => ?_⟩
  · rw [hg, hn]
    exact h.below
  · obtain ⟨l, hl⟩ := hp q l' hq
    exact hg ▸ h.among q l hl

theorem Task.Counted.step {L' : Lives} (h : Counted H L)
    (hfew : (given (H ++ [a])).length < 2 ^ 32) (hs : L.Step a L') : Counted (H ++ [a]) L' := by
  cases hs with
  | silent => exact h.quiet rfl rfl fun q l' hq => ⟨l', hq⟩
  | @born parent _ =>
    have hg : given (H ++ [.born (L.next % 2 ^ 32) parent]) = given H ++ [L.next % 2 ^ 32] := given_append ..
    have hnext := h.next
    rw [hg, List.length_append, List.length_singleton] at hfew
    refine ⟨?_, fun c hc => ?_, fun q l hq => ?_⟩
    · rw [hg, List.length_append, List.length_singleton]
      dsimp only
      omega
    · rw [hg, List.mem_append, List.mem_singleton] at hc
      dsimp only
      rcases hc with hc | rfl
      · have := h.below c hc
        omega
      · omega
    · rw [hg, List.mem_append, List.mem_singleton]
      simp only [Function.update_apply] at hq
      split_ifs at hq with hnew
      · exact .inr hnew
      · exact .inl (h.among q l hq)
  | exit _ =>
    refine h.quiet rfl rfl fun q l' hq => ?_
    obtain ⟨l, hl, -⟩ := Option.map_eq_some_iff.mp hq
    exact ⟨l, hl⟩
  | @report caller child _ l₀ _ hcaller _ =>
    refine h.quiet rfl rfl fun q l' hq => ?_
    simp only [Function.update_apply] at hq
    split_ifs at hq with hchild hq'
    · exact ⟨l₀, hq' ▸ hcaller⟩
    · exact ⟨l', hq⟩

theorem counted_of_run {s₀ : Machine} (ha : Alive s₀) (h0 : Counted [] (lives s₀)) (hrun : Run RustKernel.step s₀ tr s) :
    (given (history tr)).length < 2 ^ 32 → Alive s ∧ Counted (history tr) (lives s) := by
  induction hrun with
  | nil => exact fun _ => ⟨ha, h0⟩
  | @snoc tr s s' e _ hs ih =>
    intro hfew
    rw [history, List.map_append] at hfew ⊢
    have hle : (given (history tr)).length ≤ (given (history tr ++ [labelOf s e])).length := by
      rw [given_append, List.length_append]
      omega
    obtain ⟨ha, hc⟩ := ih (hle.trans_lt hfew)
    exact ⟨ha.step hs, hc.step hfew (lives_step ha hs)⟩

/-- **A pid identifies one process**, in every run, as long as fewer than `2 ^ 32 - 1` processes have been created: what
`alloc_pid` returns is not the kernel's 0, nobody in the table has it, so `insert` replaces nobody, and nobody ever had
it, so nothing kept under it, a mailbox or a record of shared memory, was another process's. -/
theorem allocPid_fresh_of_run {s₀ : Machine} {p4 p3 p2 pid : ℕ} {k : Kernel} (h0 : Booted s₀ p4 p3 p2)
    (hrun : Run RustKernel.step s₀ tr s) (hfew : (given (history tr)).length < 2 ^ 32 - 1)
    (h : allocPid (ε := String) s.kernel = .ok pid k) :
    pid ≠ 0 ∧ s.kernel.table.procs[pid]? = none ∧ pid ∉ given (history tr) ∧
      ∀ p : Process, p.pid = pid → ∀ (q : ℕ) (old : Process), s.kernel.table.procs[q]? = some old →
        (s.kernel.table.insert p).procs[q]? = some old := by
  have hboot : ∀ q : ℕ, s₀.kernel.table.procs[q]? = none := by
    rw [h0.table]
    simp [ProcessTable.new]
  have hstart : Counted [] (lives s₀) := by
    refine ⟨h0.nextPid, fun c hc => absurd hc List.not_mem_nil, fun q l hq => ?_⟩
    obtain ⟨v, hv, -⟩ := Option.map_eq_some_iff.mp hq
    obtain ⟨p, hp, -⟩ := ProcessTable.view_eq_some.mp hv
    rw [hboot] at hp
    cases hp
  have hc := (counted_of_run h0.alive hstart hrun (by omega)).2
  have hnext : s.kernel.nextPid = (given (history tr)).length + 1 := hc.next
  have hpid : pid = s.kernel.nextPid := by
    obtain ⟨rfl, -⟩ := (allocPid_post (E := fun _ _ => False) s.kernel).ok h
    exact Nat.mod_eq_of_lt (by omega)
  have hnew : pid ∉ given (history tr) := by
    intro hmem
    exact absurd (hc.below pid hmem).2 (by rw [hpid]; exact Nat.lt_irrefl _)
  have hnone : s.kernel.table.procs[pid]? = none := by
    cases hp : s.kernel.table.procs[pid]? with
    | none => rfl
    | some p =>
      have hlife : ((lives s).proc pid).isSome := by
        change ((s.kernel.table.view pid).map _).isSome
        rw [ProcessTable.view, hp]
        rfl
      obtain ⟨l, hl⟩ := Option.isSome_iff_exists.mp hlife
      exact absurd (hc.among pid l hl) hnew
  refine ⟨by omega, hnone, hnew, fun p hp q old hq => ?_⟩
  rw [ProcessTable.getElem?_procs_insert, if_neg ?_, hq]
  rintro rfl
  rw [hp, hnone] at hq
  cases hq

theorem allocPid_fresh_forkAndReap : ∃ tr s k, Run step bootMachine tr s ∧ (given (history tr)).length < 2 ^ 32 - 1 ∧
    allocPid (ε := String) s.kernel = .ok 3 k ∧ 3 ∉ given (history tr) ∧ s.kernel.table.procs[3]? = none := by
  have hfinal : (exec step (fun _ _ => True) bootMachine forkAndReap).any fun s =>
      (given (history (trace step bootMachine forkAndReap))).length < 2 ^ 32 - 1 ∧
      (allocPid (ε := String) s.kernel).Returns fun pid _ => pid = 3 := by
    decide +kernel
  obtain ⟨s, hrun, -, hfew, pid, k, halloc, rfl⟩ := run_of_any hfinal
  obtain ⟨-, hnone, hnew, -⟩ := allocPid_fresh_of_run booted_bootMachine hrun hfew halloc
  exact ⟨_, s, _, hrun, hfew, halloc, hnew, hnone⟩

end RustKernel
