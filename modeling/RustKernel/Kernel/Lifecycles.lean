import RustKernel.Kernel.Orderly
import RustKernel.Kernel.Storage
import RustKernel.Memory.Leaks

/-!
# The frames of a process, from its creation to its end

A process is created by `spawn_from_elf` or `fork`, runs, ends, and is reaped by `wait_any`. Are the same frames free then as
before? No: the level-3 table of the process stays in use, and a creation that fails leaves a table as well.
-/

namespace RustKernel

open Lib Exec Memory RustKernel.Task Ipc Gfx Fs

def Machine.ownEvent (s : Machine) (pid : ℕ) : Event → Bool
  | .write page => decide (s.kernel.table.current = pid ∧ ∀ a ∈ s.kernel.table.spaces[pid]?, s.kernel.cr3 = a.p4 ∧
      ∀ f ∈ cowFrame s.kernel.mem a.p4 page, a.mappedPages[page]? = some f)
  | .syscall .wait => (reported s (.syscall .wait)).isNone
  | e => e.plain

def Undisturbed (pid : ℕ) (s : Machine) (e : Event) : Prop :=
  s.ownEvent pid e = true ∧
    ∀ s' ∈ step s e, (exitCode s e s').isSome → ∀ m ∈ s.kernel.shm.mappings, m.pid ≠ s.kernel.table.current
deriving Decidable

structure Tracked (m : PhysMem) (kind : ℕ → Kind) (a : AddressSpace) : Prop where
  root : kind a.p4 = .table 4
  pages : ∀ page f : ℕ, a.mappedPages[page]? = some f → Mapped m a.p4 page ∧ kind f = .data

section

variable {k k' : Kernel} {kind : ℕ → Kind} {pid : ℕ} {m₀ : PhysMem}

/-- The process has a level-3 table that was a free frame of `m₀`. -/
def Leaks (m₀ : PhysMem) (pid : ℕ) (k : Kernel) : Prop := ∃ a, k.table.spaces[pid]? = some a ∧ Leaking m₀ a k.mem

theorem Joins.leaks {a : AddressSpace} {m : PhysMem} (h : Joins k a m k') (ha : Leaking m₀ a m) :
    Leaks m₀ (k.nextPid % 2 ^ 32) k' := by
  refine ⟨a, ?_, by rw [h.mem]; exact ha⟩
  rw [h.spaces]
  exact Std.ExtTreeMap.getElem?_insert_self

/-! ### Creation -/

theorem spawnFromElf_leaks (bin : List Byte) (parent : ℕ) (hl : Layout k.mem kind) (hcr3 : kind k.cr3 = .table 4)
    (hpid : k.table.procs[k.nextPid % 2 ^ 32]? = none) : (spawnFromElf bin parent k).Post
      (fun pid k' => Leaks k.mem pid k') (fun _ k' => Wasted k.mem k'.mem) := by
  refine (spawnFromElf_joins parent hpid (spawnSpace_leaking bin hl hcr3)).imp ?_ ?_
  · rintro _ k' ⟨rfl, r, m, ha, hj⟩
    exact hj.leaks ha
  · rintro _ _ ⟨m, rfl, h⟩
    exact h

theorem fork_leaks (hl : Layout k.mem kind) (hpid : k.table.procs[k.nextPid % 2 ^ 32]? = none)
    (hparent : ∀ a ∈ k.table.spaces[k.table.current]?, Tracked k.mem kind a) :
    (fork k).Post (fun pid k' => Leaks k.mem pid k') (fun _ _ => True) := by
  cases hp : k.table.procs[k.table.current]? with
  | none =>
    unfold fork
    rw [get_bind, hp]
    trivial
  | some p =>
    have ht := hparent p.addressSpace (ProcessTable.spaces_eq_some.mpr ⟨p, hp, rfl⟩)
    refine (fork_joins hpid hp (cloneCow_leaking hl ht.root ht.pages)).imp ?_ fun _ _ _ => trivial
    rintro _ k' ⟨rfl, c, m, ha, hj⟩
    exact hj.leaks ha

/-! ### Life -/

theorem Leaks.congr (h : Leaks m₀ pid k) (hmem : k'.mem = k.mem) (hspaces : k'.table.spaces = k.table.spaces) :
    Leaks m₀ pid k' := by
  obtain ⟨a, ha, hleak⟩ := h
  exact ⟨a, by rw [hspaces]; exact ha, by rw [hmem]; exact hleak⟩

theorem Leaks.same (h : Leaks m₀ pid k) (hs : SameStore k k') : Leaks m₀ pid k' := h.congr hs.mem hs.spaces

theorem Ended.same (h : Ended k k') (hm : ∀ m ∈ k.shm.mappings, m.pid ≠ k.table.current) :
    k'.mem = k.mem ∧ k'.table.spaces = k.table.spaces := by
  obtain ⟨k₀, k₁, h₀, hclean, h₁⟩ := h
  have hnone : k₀.shm.mappings.filter (·.pid = k.table.current) = [] := by
    rw [h₀.shm]
    simpa using hm
  unfold cleanupPid at hclean
  rw [get_bind, hnone] at hclean
  obtain ⟨-, rfl⟩ := Outcome.ok.inj hclean
  exact ⟨h₁.mem.trans h₀.mem, h₁.spaces.trans h₀.spaces⟩

theorem Leaks.ended (h : Leaks m₀ pid k) (he : Ended k k')
    (hm : ∀ m ∈ k.shm.mappings, m.pid ≠ k.table.current) : Leaks m₀ pid k' := h.congr (he.same hm).1 (he.same hm).2

theorem Leaks.step {s s' : Machine} {e : Event} (h : Leaks m₀ pid s.kernel) (hu : Undisturbed pid s e)
    (hstep : RustKernel.step s e = some s') : Leaks m₀ pid s'.kernel := by
  obtain ⟨hu, hexit⟩ := hu
  have hplain : e.plain = true → Leaks m₀ pid s'.kernel := fun hp => by
    rcases step_plain hstep hp with ⟨-, hsame⟩ | ⟨hcode, hended⟩
    · exact h.same hsame
    · exact h.ended hended (hexit s' hstep hcode)
  obtain ⟨x, hx, hok⟩ := step_eq_some hstep
  cases hm : s.mode with
  | halted => rw [hm] at hx; cases e <;> cases hx
  | shell =>
    rw [hm] at hx
    cases e with
    | spawn ram fat => cases hu
    | tick => exact hplain rfl
    | runAll => exact hplain rfl
    | sendSignal pid sig => exact hplain rfl
    | _ => cases hx
  | user n regs =>
    rw [hm] at hx
    cases e with
    | write page =>
      dsimp only [handler] at hx
      split_ifs at hx
      cases hx
      obtain ⟨hcur, hown⟩ := of_decide_eq_true hu
      have ⟨a, ha, t, kind, hfree, hkeep⟩ := h
      obtain ⟨hcr3, hrec⟩ := hown a ha
      have hcow := hkeep.resolve hrec
      rw [← hcr3] at hcow
      have hkill : (∀ r, s'.mode ≠ .user .running r) → ∀ m ∈ s.kernel.shm.mappings, m.pid ≠ s.kernel.table.current :=
        fun hne => hexit s' hstep (by
          rw [exitCode_write hne]
          rfl)
      obtain ⟨k', mode'⟩ := s'
      cases (userWrite_store _ _ _).ok hok with
      | allowed => exact h
      | resolved hres =>
        rename_i o m
        obtain ⟨kind', hkeep'⟩ := hcow.ok hres
        have hspaces := ProcessTable.spaces_recordPage (t := s.kernel.table) (by rw [hcur]; exact ha) page o
        refine ⟨_, ?_, t, kind', hfree, hkeep'⟩
        rw [hspaces]
        cases o with
        | none => exact ha
        | some g =>
          rw [hcur]
          exact Std.ExtTreeMap.getElem?_insert_self
      | killed hne hended => exact h.ended hended (hkill hne)
      | failed hne hres hended =>
        rw [hcow.err hres] at hended
        exact h.ended hended (hkill hne)
    | syscall call =>
      obtain ⟨ret, hret, -⟩ := syscall_step hm hstep
      cases call with
      | wait =>
        have hstore := (sysWait_store s.kernel).ok hret
        rw [show s.kernel.table.currentProcess.bind (·.childrenExited.head?) = none from
          Option.isNone_iff_eq_none.mp hu] at hstore
        exact h.same hstore
      | _ => exact hplain hu
    | run regs' => exact hplain rfl
    | exit code => exact hplain rfl
    | fault => exact hplain rfl
    | tick => exact hplain rfl
    | _ => cases hx

/-! ### Reaping -/

theorem Leaks.reap (h : Leaks m₀ pid k) (hreap : Task.reap (ε := Empty) pid k = .ok () k') :
    ∃ t, m₀.isUsed t = false ∧ k'.mem.isUsed t = true := by
  obtain ⟨a, ha, t, kind, hfree, hkeep⟩ := h
  obtain ⟨p, hp, rfl⟩ := ProcessTable.spaces_eq_some.mp ha
  unfold Task.reap at hreap
  rw [get_bind, hp] at hreap
  have hdrop := onMem_post (k := { k with table := { k.table with procs := k.table.procs.erase pid } }) (ε := Empty) hkeep.drop
  obtain ⟨m, rfl, hused⟩ := hdrop.ok hreap
  exact ⟨t, hfree, hused⟩

/-- **Lifecycles leak frames.** If `spawn_from_elf` fails, the frames that are free are those of before exactly if none was. If it
or `fork` succeeds, and the new process is reaped after a life that nobody disturbs, they never are those of before. -/
theorem lifecycle_frames (hl : Layout k.mem kind) (hcr3 : kind k.cr3 = .table 4)
    (hpid : k.table.procs[k.nextPid % 2 ^ 32]? = none)
    (hparent : ∀ a ∈ k.table.spaces[k.table.current]?, Tracked k.mem kind a) :
    (∀ bin parent e k', spawnFromElf bin parent k = .err e k' →
      ((∀ f, k'.mem.isUsed f = k.mem.isUsed f) ↔ Exhausted k.mem)) ∧
    ∀ pid k₁, ((∃ bin parent, spawnFromElf bin parent k = .ok pid k₁) ∨ fork k = .ok pid k₁) →
      ∀ mode tr s caller code k', Run step ⟨k₁, mode⟩ tr s → (∀ x ∈ tr, Undisturbed pid x.1 x.2) →
      waitAny (ε := Empty) caller s.kernel = .ok (some (pid, code)) k' → ¬ ∀ f, k'.mem.isUsed f = k.mem.isUsed f := by
  have hdiffer : ∀ {k' : Kernel}, (∃ t, k.mem.isUsed t = false ∧ k'.mem.isUsed t = true) →
      ¬ ∀ f, k'.mem.isUsed f = k.mem.isUsed f := by
    rintro k' ⟨t, hfree, hused⟩ hsame
    rw [hsame, hfree] at hused
    cases hused
  refine ⟨fun bin parent e k' herr => ?_, ?_⟩
  · rcases (spawnFromElf_leaks bin parent hl hcr3 hpid).err herr with ⟨hnone, hmem⟩ | ⟨hleft, hwaste⟩
    · exact iff_of_true (fun f => by rw [hmem]) hnone
    · exact iff_of_false (hdiffer hwaste) hleft
  intro pid k₁ hcreate mode tr s caller code k' hrun hlife hwait
  have hstart : Leaks k.mem pid k₁ := by
    rcases hcreate with ⟨bin, parent, hspawn⟩ | hfork
    · exact (spawnFromElf_leaks bin parent hl hcr3 hpid).ok hspawn
    · exact (fork_leaks hl hpid hparent).ok hfork
  have hend : Leaks k.mem pid s.kernel :=
    hrun.invariant (I := fun s => Leaks k.mem pid s.kernel) (K := fun s e => Undisturbed pid s e) hstart hlife
      fun _ _ _ h hu hstep => h.step hu hstep
  obtain ⟨k₂, hsame, hreap⟩ := (waitAny_store _ _).ok hwait
  exact hdiffer ((hend.same hsame).reap hreap)

end

/-! ### Lifecycles in the small machine -/

def reapAfter (create : Exec String Kernel ℕ) (es : List Event) (s : Machine) : Option Kernel :=
  match create s.kernel with
  | .ok pid k₁ => (exec step (Undisturbed pid) ⟨k₁, s.mode⟩ es).bind fun s₂ =>
    match waitAny (ε := Empty) 1 s₂.kernel with
    | .ok (some (child, _)) k' => if child = pid then some k' else none
    | _ => none
  | _ => none

structure Lifecycle (create : Exec String Kernel ℕ) (s : Machine) (pid : ℕ) (k₁ : Kernel) (tr : List (Machine × Event))
    (s₂ : Machine) (code : ℤ) (k' : Kernel) : Prop where
  created : create s.kernel = .ok pid k₁
  run : Run step ⟨k₁, s.mode⟩ tr s₂
  undisturbed : ∀ x ∈ tr, Undisturbed pid x.1 x.2
  reaped : waitAny (ε := Empty) 1 s₂.kernel = .ok (some (pid, code)) k'

theorem lifecycle_of_reapAfter {create : Exec String Kernel ℕ} {es : List Event} {s : Machine} {k' : Kernel}
    (h : reapAfter create es s = some k') : ∃ pid k₁ tr s₂ code, Lifecycle create s pid k₁ tr s₂ code k' := by
  unfold reapAfter at h
  split at h
  · rename_i pid k₁ hcreate
    obtain ⟨s₂, hexec, hwait⟩ := Option.bind_eq_some_iff.mp h
    obtain ⟨hrun, hlife⟩ := run_of_exec hexec
    split at hwait
    · rename_i child code k₃ hreap
      split_ifs at hwait with hchild
      cases hwait
      exact ⟨pid, k₁, _, s₂, code, hcreate, hrun, hlife, hchild ▸ hreap⟩
    · cases hwait
  · cases h

/-- A program forks, and its child exits and is reaped. -/
theorem lifecycle_frames_fork : ∃ tr s, Run step bootMachine tr s ∧ ∃ pid k₁ tr' s₂ code k',
    Lifecycle fork s pid k₁ tr' s₂ code k' ∧ ¬ ∀ f, k'.mem.isUsed f = s.kernel.mem.isUsed f := by
  have hfinal : (exec step Orderly bootMachine [.spawn (some tinyImage) none, .runAll]).any fun s =>
      s.kernel.table.procs[s.kernel.nextPid % 2 ^ 32]? = none ∧
      (∃ a ∈ s.kernel.table.spaces[s.kernel.table.current]?, s.kernel.cr3 = a.p4) ∧
      (reapAfter fork [.tick, .exit 0] s).isSome := by decide +kernel
  obtain ⟨tr, s, hrun, ho, hpid, ⟨a, ha, hcr3⟩, hsome⟩ := exists_run_of_any hfinal
  obtain ⟨k', hreap⟩ := Option.isSome_iff_exists.mp hsome
  obtain ⟨pid, k₁, tr', s₂, code, hlife⟩ := lifecycle_of_reapAfter hreap
  obtain ⟨kind, hm⟩ := (booted_bootMachine.sound_of_run hrun ho).kernel.memory
  have htracked : ∀ b ∈ s.kernel.table.spaces[s.kernel.table.current]?, Tracked s.kernel.mem kind b := by
    intro b hb
    exact ⟨hm.root hb, fun page f hf => ⟨(hm.pages _ b page f hb hf).mapped,
      hm.data _ b f hb (AddressSpace.mem_frames.mpr ⟨page, hf⟩)⟩⟩
  exact ⟨tr, s, hrun, pid, k₁, tr', s₂, code, k', hlife,
    (lifecycle_frames hm.layout (hcr3 ▸ hm.root ha) hpid htracked).2 pid k₁ (.inr hlife.created) s.mode tr' s₂ 1 code k'
      hlife.run hlife.undisturbed hlife.reaped⟩

/-- **Frames leak**: when `spawn_from_elf` is given a file it rejects, and when a process that was spawned or forked has
been reaped. -/
theorem lifecycle_leaks :
    (∃ e k' f, spawnFromElf [] 0 bootMachine.kernel = .err e k' ∧ bootMachine.kernel.mem.isUsed f = false ∧
      k'.mem.isUsed f = true) ∧
    ∀ create ∈ [spawnFromElf tinyImage 1, fork], ∃ tr s pid k₁ tr' s₂ code k' f, Run step bootMachine tr s ∧
      Lifecycle create s pid k₁ tr' s₂ code k' ∧ s.kernel.mem.isUsed f = false ∧ k'.mem.isUsed f = true := by
  have leaks : ∀ create start es, (exec step Orderly bootMachine start).any (fun s =>
        ∃ k' ∈ reapAfter create es s, s.kernel.mem.isUsed 4121 = false ∧ k'.mem.isUsed 4121 = true) →
      ∃ tr s pid k₁ tr' s₂ code k' f, Run step bootMachine tr s ∧ Lifecycle create s pid k₁ tr' s₂ code k' ∧
        s.kernel.mem.isUsed f = false ∧ k'.mem.isUsed f = true := by
    intro create start es h
    obtain ⟨tr, s, hrun, -, k', hreap, hfree, hused⟩ := exists_run_of_any h
    obtain ⟨pid, k₁, tr', s₂, code, hlife⟩ := lifecycle_of_reapAfter hreap
    exact ⟨tr, s, pid, k₁, tr', s₂, code, k', 4121, hrun, hlife, hfree, hused⟩
  refine ⟨?_, fun create hcreate => ?_⟩
  · have hbad : (spawnFromElf [] 0 bootMachine.kernel).Fails fun _ k' =>
        bootMachine.kernel.mem.isUsed 4096 = false ∧ k'.mem.isUsed 4096 = true := by decide +kernel
    obtain ⟨e, k', hspawn, hk'⟩ := hbad
    exact ⟨e, k', 4096, hspawn, hk'⟩
  · rcases List.mem_cons.mp hcreate with rfl | hcreate
    · exact leaks _ [.spawn (some tinyImage) none] [.runAll, .tick, .exit 0] (by decide +kernel)
    · obtain rfl := List.mem_singleton.mp hcreate
      exact leaks _ [.spawn (some tinyImage) none, .runAll] [.tick, .exit 0] (by decide +kernel)

end RustKernel
