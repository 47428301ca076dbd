import RustKernel.Memory.Privacy
import RustKernel.Task.Schedule

/-!
# The machine

One processor that runs user programs in ring 3 and the kernel between them: the events that enter the kernel, and
what the kernel does with each.
-/

namespace RustKernel

open Lib Exec Memory RustKernel.Task Ipc Gfx

variable {ε : Type} {E : ε → Kernel → Prop}

/-- The system calls. `exec` comes with what the ramfs and the FAT volume hold under its path; `other` stands for the calls that
change no process, region or page table. -/
inductive Syscall
  | getpid
  | fork
  | exec (ram fat : Option (List Byte))
  | wait
  | kill (pid sig : ℕ)
  | getuid
  | geteuid
  | getgid
  | getegid
  | setuid (uid : ℕ)
  | setgid (gid : ℕ)
  | fbAcquire (outPtr : ℕ)
  | shmCreate (size : ℕ)
  | shmMap (handle mode : ℕ)
  | shmUnmap (ptr : ℕ)
  | other (ret : ℕ)

/-- What enters the kernel: user programs, the timer, and the commands of the shell. -/
inductive Event
  | run (regs : TrapFrame)
  | write (page : ℕ)
  | syscall (call : Syscall)
  | exit (code : ℤ)
  | fault
  | tick
  | spawn (ram fat : Option (List Byte))
  | runAll
  | sendSignal (pid : ℕ) (sig : Signal)

/-- The kernel, and who is running. -/
structure Machine where
  kernel : Kernel
  mode : Mode

variable {ε : Type}

/-! ### System calls -/

/-- An error becomes `u64::MAX`. -/
def orMax (x : Exec String Kernel ℕ) : Exec ε Kernel ℕ := do
  match ← Exec.attempt x with
  | .ok v => pure v
  | .error _ => pure U64_MAX

def currentField (field : Process → ℕ) : Exec ε Kernel ℕ := do
  let k ← Exec.get
  match k.table.currentProcess with
  | some p => pure (field p)
  | none => pure U64_MAX

/-- `sys_setuid` and `sys_setgid`: root sets both ids, others set the effective one back to the real one. -/
def setId (real : Process → ℕ) (setBoth setEffective : Process → Process) (new : ℕ) : Exec ε Kernel ℕ := do
  let k ← Exec.get
  match k.table.currentProcess with
  | none => pure U64_MAX
  | some p =>
    if p.euid = 0 then do
      onTable (·.update k.table.current setBoth)
      pure 0
    else if new = real p then do
      onTable (·.update k.table.current setEffective)
      pure 0
    else pure U64_MAX

def sysSetuid (new : ℕ) : Exec ε Kernel ℕ :=
  setId Process.uid ({ · with uid := new, euid := new }) ({ · with euid := new }) new

def sysSetgid (new : ℕ) : Exec ε Kernel ℕ :=
  setId Process.gid ({ · with gid := new, egid := new }) ({ · with egid := new }) new

def sysExec (ram fat : Option (List Byte)) : Exec ε Kernel ℕ := do
  let k ← Exec.get
  orMax (execFromAny ram fat k.table.current)

def waitValue (pid : ℕ) (code : ℤ) : ℕ := pid * 2 ^ 32 + (code % 2 ^ 32).toNat

def sysWait : Exec ε Kernel ℕ := do
  let k ← Exec.get
  match ← waitAny k.table.current with
  | some (pid, code) => pure (waitValue pid code)
  | none => pure U64_MAX

def sysKill (pid sig : ℕ) : Exec ε Kernel ℕ :=
  match Signal.fromNum (sig % 2 ^ 32) with
  | none => pure U64_MAX
  | some s => orMax do
    kill (pid % 2 ^ 32) s
    pure 0

def syscallDispatch : Syscall → Exec ε Kernel ℕ
  | .getpid => do
    let k ← Exec.get
    pure k.table.current
  | .fork => orMax fork
  | .exec ram fat => sysExec ram fat
  | .wait => sysWait
  | .kill pid sig => sysKill pid sig
  | .getuid => currentField Process.uid
  | .geteuid => currentField Process.euid
  | .getgid => currentField Process.gid
  | .getegid => currentField Process.egid
  | .setuid uid => sysSetuid (uid % 2 ^ 32)
  | .setgid gid => sysSetgid (gid % 2 ^ 32)
  | .fbAcquire outPtr => sysFbAcquire outPtr
  | .shmCreate size => sysShmCreate size
  | .shmMap handle mode => sysShmMap handle mode
  | .shmUnmap ptr => sysShmUnmap ptr
  | .other ret => pure ret

/-- The registers that `sysret` goes back to the program with. -/
def sysretFrame (regs : TrapFrame) (ret : ℕ) : TrapFrame :=
  { regs with
    rax := ret
    rcx := (regs.rip + 2) % 2 ^ 64
    r11 := regs.rflags
    rip := (regs.rip + 2) % 2 ^ 64
    cs := USER_CODE
    ss := USER_DATA }

def syscallEntry (regs : TrapFrame) (call : Syscall) : Exec ε Kernel Mode := do
  let ret ← syscallDispatch call
  pure (.user .sysret (sysretFrame regs ret))

/-! ### Faults -/

/-- A store of ring 3 to a page, and the fault it may raise. -/
def userWrite (regs : TrapFrame) (page : ℕ) : Exec ε Kernel Mode := do
  let k ← Exec.get
  match mmu k.mem k.cr3 page with
  | none => exitCurrent (-1)
  | some access =>
    if access.user && access.writable then pure (.user .running regs)
    else do
      match ← Exec.attempt (onMem (tryResolveCow k.cr3 page)) with
      | .error _ => exitCurrent (-1)
      | .ok none => pure (.user .running regs)
      | .ok (some frame) => do
        onTable (·.update k.table.current fun p => { p with addressSpace := p.addressSpace.replaceMapping page frame })
        pure (.user .running regs)

/-! ### Steps -/

def shellCommand {α : Type} (x : Exec String Kernel α) : Exec ε Kernel Mode := do
  let _ ← Exec.attempt x
  pure .shell

/-- What the kernel runs on an event, or `none` where the event cannot happen. -/
def handler : Mode → Event → Option (Exec Empty Kernel Mode)
  | .user _ regs, .run regs' =>
    if regs'.cs = regs.cs ∧ regs'.ss = regs.ss then some (pure (.user .running regs')) else none
  | .user _ regs, .write page => if page < 2 ^ 35 then some (userWrite regs page) else none
  | .user _ regs, .syscall call => some (syscallEntry regs call)
  | .user _ _, .exit code => some (exitCurrent code)
  | .user _ _, .fault => some (exitCurrent (-1))
  | .user _ regs, .tick => some (onTimer regs)
  | .shell, .tick => some onTimerInShell
  | .shell, .spawn ram fat => some (shellCommand (execFromAny ram fat 0))
  | .shell, .runAll => some runUntilAllExit
  | .shell, .sendSignal pid sig => some (shellCommand (kill pid sig))
  | _, _ => none

/-- One event. The bytes that ring 3 stores (`userWrite`), and those that system calls put into user buffers (`Syscall.other`),
are assumed to change no page table and nothing else that the kernel keeps in memory. -/
def step (s : Machine) (e : Event) : Option Machine :=
  (handler s.mode e).bind fun x => (x s.kernel).next (fun mode kernel => ⟨kernel, mode⟩) (fun e _ => nomatch e)

/-- The state the shell starts in: the tables of `boot.asm` with what `map_mmio` has added (`KernelTables.mapMmio`), and no
process yet. -/
structure Booted (s : Machine) (p4 p3 p2 : ℕ) : Prop where
  tables : KernelTables s.kernel.mem p4 p3 p2
  cr3 : s.kernel.cr3 = p4
  refcount : ∀ f, s.kernel.mem.refcount f = 0
  table : s.kernel.table = ProcessTable.new
  nextPid : s.kernel.nextPid = 1
  returnCr3 : s.kernel.returnCr3 = none
  shm : s.kernel.shm = { table := ∅, mappings := [], vaNext := ∅, nextHandle := 1 }
  fb : s.kernel.fb.owner = 0 ∧ s.kernel.fb.frames = []
  mode : s.mode = .shell

def bootMachine : Machine where
  kernel :=
    { mem := smallMachine, cr3 := 272, table := ProcessTable.new, nextPid := 1, returnCr3 := none
      shm := { table := ∅, mappings := [], vaNext := ∅, nextHandle := 1 }
      fb := { geometry := none, owner := 0, frames := [], va := 0, len := 0 } }
  mode := .shell

theorem booted_bootMachine : Booted bootMachine 272 273 274 where
  tables := bootTables_smallMachine.kernelTables
  cr3 := rfl
  refcount := fun _ => rfl
  table := rfl
  nextPid := rfl
  returnCr3 := rfl
  shm := rfl
  fb := ⟨rfl, rfl⟩
  mode := rfl

/-! ### What an event does to the process table -/

/-- The processor goes on with the same program or in the shell. -/
inductive Calm : Mode → Mode → Prop
  | sysret {n : Entry} {regs regs' : TrapFrame} : regs'.cs = USER_CODE → Calm (.user n regs) (.user .sysret regs')
  | running {n : Entry} {regs regs' : TrapFrame} : regs'.cs = regs.cs → Calm (.user n regs) (.user .running regs')
  | shell : Calm .shell .shell

/-- What `setuid` and `setgid` may do to a process. -/
inductive SetsId (p : Process) : Process → Prop
  | uid (new : ℕ) : p.euid = 0 → SetsId p { p with uid := new, euid := new }
  | gid (new : ℕ) : p.euid = 0 → SetsId p { p with gid := new, egid := new }
  | euid : SetsId p { p with euid := p.uid }
  | egid : SetsId p { p with egid := p.gid }

def Machine.creator (s : Machine) : ℕ := match s.mode with
  | .user _ _ => s.kernel.table.current
  | _ => 0

/-- The code with which the event ends the current process, if it does. -/
def exitCode (s : Machine) (e : Event) (s' : Machine) : Option ℤ :=
  match e with
  | .exit code => some code
  | .fault => some (-1)
  | .write _ => match s'.mode with
    | .user .running _ => none
    | _ => some (-1)
  | .tick =>
    if s.kernel.table.current = 0 then none
    else s.kernel.table.currentProcess.bind fun p => p.signals.head?.map Signal.exitCode
  | _ => none

/-- The child that `wait` reports, and its code. -/
def reported (s : Machine) : Event → Option (ℕ × ℤ)
  | .syscall .wait => s.kernel.table.currentProcess.bind (·.childrenExited.head?)
  | _ => none

/-- The process that an event sends a signal to. -/
def Event.target : Event → Option ℕ
  | .syscall (.kill pid sig) => (Signal.fromNum (sig % 2 ^ 32)).map fun _ => pid % 2 ^ 32
  | .sendSignal pid _ => some pid
  | _ => none

/-- No exit and no report. -/
structure Silent (s : Machine) (e : Event) (s' : Machine) : Prop where
  exitCode : exitCode s e s' = none
  reported : reported s e = none

/-- All that an event can do to the process table. -/
inductive Effect (s : Machine) : Event → Machine → Prop
  | quiet {e : Event} {s' : Machine} : Quiet s.kernel s'.kernel → Calm s.mode s'.mode → Silent s e s' → Effect s e s'
  | spawned {e : Event} {s' : Machine} {p : Process} : Spawned s.kernel s.creator p s'.kernel → Calm s.mode s'.mode →
      Silent s e s' → Effect s e s'
  | forked {s' : Machine} {n : Entry} {regs : TrapFrame} {p child : Process} : s.mode = .user n regs →
      Forked s.kernel p child s'.kernel → s'.mode = .user .sysret (sysretFrame regs child.pid) →
      Effect s (.syscall .fork) s'
  | reaped {s' : Machine} {n : Entry} {regs : TrapFrame} {p : Process} {child : ℕ} {code : ℤ} {rest : List (ℕ × ℤ)}
      {t : ProcessTable} : s.mode = .user n regs → s.kernel.table.currentProcess = some p →
      p.childrenExited = (child, code) :: rest →
      t = s.kernel.table.update s.kernel.table.current (Process.reporting rest) →
      s'.kernel.table = { t with procs := t.procs.erase child } → s'.kernel.nextPid = s.kernel.nextPid →
      s'.mode = .user .sysret (sysretFrame regs (waitValue child code)) → Effect s (.syscall .wait) s'
  | slept {s' : Machine} {n : Entry} {regs : TrapFrame} {p : Process} : s.mode = .user n regs →
      s.kernel.table.currentProcess = some p → p.childrenExited = [] →
      s'.kernel.table = s.kernel.table.update s.kernel.table.current Process.asleep →
      s'.kernel.nextPid = s.kernel.nextPid → s'.mode = .user .sysret (sysretFrame regs U64_MAX) →
      Effect s (.syscall .wait) s'
  | signalled {e : Event} {s' : Machine} {pid : ℕ} {sig : Signal} : e.target = some pid →
      s'.kernel.table = (s.kernel.table.update pid (Process.signalled sig)).wake pid →
      s'.kernel.nextPid = s.kernel.nextPid → Calm s.mode s'.mode → Silent s e s' → Effect s e s'
  | identified {e : Event} {s' : Machine} {p p' : Process} : s.kernel.table.currentProcess = some p → SetsId p p' →
      s'.kernel.table = s.kernel.table.update s.kernel.table.current (fun _ => p') →
      s'.kernel.nextPid = s.kernel.nextPid → Calm s.mode s'.mode → Silent s e s' → Effect s e s'
  | exited {e : Event} {s' : Machine} {n : Entry} {regs : TrapFrame} {p : Process} {code : ℤ} :
      s.mode = .user n regs → s.kernel.table.currentProcess = some p →
      Scheduled (s.kernel.table.exit s.kernel.table.current p.parent code) s'.kernel.table s'.mode →
      s'.kernel.nextPid = s.kernel.nextPid → exitCode s e s' = some code → reported s e = none → Effect s e s'
  | signalDeath {s' : Machine} {p : Process} {sig : Signal} {rest : List Signal} : s.mode ≠ .halted →
      s.kernel.table.current ≠ 0 → s.kernel.table.currentProcess = some p → p.signals = sig :: rest →
      Scheduled ((s.kernel.table.update s.kernel.table.current (Process.withSignals rest)).exit s.kernel.table.current
        p.parent sig.exitCode) s'.kernel.table s'.mode →
      s'.kernel.nextPid = s.kernel.nextPid → Effect s .tick s'
  | rescheduled {s' : Machine} {n : Entry} {regs regs' : TrapFrame} : s.mode = .user n regs →
      Rescheduled s.kernel.table regs s'.kernel.table regs' → s'.kernel.nextPid = s.kernel.nextPid →
      s'.mode = .user .timer regs' → Silent s .tick s' → Effect s .tick s'
  | ignored {s' : Machine} {n : Entry} {regs : TrapFrame} : s.mode = .user n regs → SameTasks s.kernel s'.kernel →
      s'.mode = .user .timer regs → Silent s .tick s' → regs.cs % 4 ≠ 3 → Effect s .tick s'
  | started {s' : Machine} : s.mode = .shell → Scheduled s.kernel.table s'.kernel.table s'.mode →
      s'.kernel.nextPid = s.kernel.nextPid → Effect s .runAll s'

theorem Task.Scheduled.entry {t t' : ProcessTable} {n : Entry} {regs : TrapFrame} (h : Scheduled t t' (.user n regs)) :
    n = .enterUserspace := by
  cases h with
  | idle _ hm => rcases hm with hm | hm <;> cases hm
  | enter _ _ => rfl

theorem Task.Scheduled.not_running {t t' : ProcessTable} {mode : Mode} (h : Scheduled t t' mode) (regs : TrapFrame) :
    mode ≠ .user .running regs := by
  rintro rfl
  cases h.entry

section Rules

variable {k : Kernel} {P : Kernel → Prop} {x : Exec String Kernel ℕ}

theorem orMax_post {Q : ℕ → Kernel → Prop} (hx : (x k).Post Q (fun _ => P)) :
    (orMax (ε := ε) x k).Post (fun v k' => Q v k' ∨ v = U64_MAX ∧ P k') (fun _ _ => False) :=
  post_attempt_bind hx (fun _ _ h => .inl h) fun _ _ h => .inr ⟨rfl, h⟩

theorem orMax_rule (hx : (x k).Post (fun _ => P) (fun _ => P)) : (orMax (ε := ε) x k).Post (fun _ => P) (fun _ _ => False) :=
  post_attempt_bind hx (fun _ _ h => h) fun _ _ h => h

theorem shellCommand_rule {α : Type} {x : Exec String Kernel α} (hx : (x k).Post (fun _ => P) (fun _ => P)) :
    (shellCommand (ε := ε) x k).Post (fun mode k' => mode = .shell ∧ P k') (fun _ _ => False) :=
  post_attempt_bind hx (fun _ _ h => ⟨rfl, h⟩) fun _ _ h => ⟨rfl, h⟩

theorem currentField_rule (field : Process → ℕ) (h : P k) : (currentField (ε := ε) field k).Post (fun _ => P) (fun _ _ => False) := by
  unfold currentField
  rw [get_bind]
  cases k.table.currentProcess with
  | none => exact h
  | some p => exact h

theorem setId_rule {real : Process → ℕ} {setBoth setEffective : Process → Process} {new : ℕ} (h : P k)
    (hboth : ∀ p, k.table.currentProcess = some p → p.euid = 0 →
      P { k with table := k.table.update k.table.current setBoth })
    (heff : ∀ p, k.table.currentProcess = some p → new = real p →
      P { k with table := k.table.update k.table.current setEffective }) :
    (setId (ε := ε) real setBoth setEffective new k).Post (fun _ => P) (fun _ _ => False) := by
  unfold setId
  rw [get_bind]
  cases hp : k.table.currentProcess with
  | none => exact h
  | some p =>
    dsimp only
    split_ifs with hroot hreal
    · exact hboth p hp hroot
    · exact heff p hp hreal
    · exact h

theorem sysWait_rule {Q : ℕ → Kernel → Prop} (hnone : k.table.currentProcess = none → Q U64_MAX k)
    (hsleep : ∀ p, k.table.currentProcess = some p → p.childrenExited = [] →
      Q U64_MAX { k with table := k.table.update k.table.current Process.asleep })
    (hreap : ∀ p child code rest, k.table.currentProcess = some p → p.childrenExited = (child, code) :: rest →
      (reap child { k with table := k.table.update k.table.current (Process.reporting rest) }).Post
        (fun _ => Q (waitValue child code)) E) : (sysWait k).Post Q E := by
  let R : Option (ℕ × ℤ) → Kernel → Prop := fun r => Q (r.elim U64_MAX fun x => waitValue x.1 x.2)
  refine post_bind (x := waitAny k.table.current) (waitAny_rule (Q := R) hnone hsleep hreap) fun r k' h => ?_
  cases r with
  | none => exact h
  | some x => exact h

/-- The table after a page of the current process has been copied to frame `g`. -/
def Task.ProcessTable.recordPage (t : ProcessTable) (page : ℕ) : Option ℕ → ProcessTable
  | none => t
  | some g => t.update t.current fun p => { p with addressSpace := p.addressSpace.replaceMapping page g }

theorem userWrite_rule {regs : TrapFrame} {page : ℕ} {Q : Mode → Kernel → Prop}
    (hfault : mmu k.mem k.cr3 page = none → (exitCurrent (-1) k).Post Q E) (hallowed : Q (.user .running regs) k)
    (hcow : (tryResolveCow k.cr3 page k.mem).Post
      (fun o m => Q (.user .running regs) { k with mem := m, table := k.table.recordPage page o })
      (fun _ m => (exitCurrent (-1) { k with mem := m }).Post Q E)) : (userWrite regs page k).Post Q E := by
  unfold userWrite
  rw [get_bind]
  cases hmmu : mmu k.mem k.cr3 page with
  | none => exact hfault hmmu
  | some access =>
    dsimp only
    split_ifs
    · exact hallowed
    · refine post_attempt_bind (onMem_post hcow) ?_ ?_
      · rintro o _ ⟨m, rfl, h⟩
        cases o with
        | none => exact h
        | some g => exact h
      · rintro _ _ ⟨m, rfl, h⟩
        exact h

end Rules

theorem setId_post {real : Process → ℕ} {setBoth setEffective : Process → Process} {new : ℕ}
    (hboth : ∀ p, p.euid = 0 → SetsId p (setBoth p)) (heff : ∀ p, new = real p → SetsId p (setEffective p)) (k : Kernel) :
    (setId (ε := ε) real setBoth setEffective new k).Post
      (fun _ k' => SameTasks k k' ∨ ∃ p p', k.table.currentProcess = some p ∧ SetsId p p' ∧
        k'.table = k.table.update k.table.current (fun _ => p') ∧ k'.nextPid = k.nextPid) (fun _ _ => False) := by
  have hupdate : ∀ {p : Process} (f : Process → Process), k.table.currentProcess = some p →
      k.table.update k.table.current f = k.table.update k.table.current fun _ => f p := by
    intro p f hp
    unfold ProcessTable.update
    rw [show k.table.procs[k.table.current]? = some p from hp]
  exact setId_rule (.inl (.refl k)) (fun p hp hroot => .inr ⟨p, _, hp, hboth p hroot, hupdate _ hp, rfl⟩)
    fun p hp hreal => .inr ⟨p, _, hp, heff p hreal, hupdate _ hp, rfl⟩

section

variable {s s' : Machine} {n : Entry} {regs : TrapFrame} {ret : ℕ} {k' : Kernel}
variable {call : Syscall} {e : Event} {mode : Mode}

private theorem calm_sysret (hm : s.mode = .user n regs) (ret : ℕ) : Calm s.mode (.user .sysret (sysretFrame regs ret)) :=
  hm ▸ .sysret rfl

theorem creator_user (hm : s.mode = .user n regs) : s.creator = s.kernel.table.current := by
  unfold Machine.creator
  rw [hm]

private theorem effect_of_setsId (hm : s.mode = .user n regs) (hw : reported s (.syscall call) = none)
    (h : SameTasks s.kernel k' ∨ ∃ p p', s.kernel.table.currentProcess = some p ∧ SetsId p p' ∧
      k'.table = s.kernel.table.update s.kernel.table.current (fun _ => p') ∧ k'.nextPid = s.kernel.nextPid) :
    Effect s (.syscall call) ⟨k', .user .sysret (sysretFrame regs ret)⟩ := by
  rcases h with h | ⟨p, p', hp, hset, ht, hn⟩
  · exact .quiet h.quiet (calm_sysret hm _) ⟨rfl, hw⟩
  · exact .identified hp hset ht hn (calm_sysret hm _) ⟨rfl, hw⟩

theorem wait_effect (hm : s.mode = .user n regs) (hx : sysWait (ε := Empty) s.kernel = .ok ret k') :
    Effect s (.syscall .wait) ⟨k', .user .sysret (sysretFrame regs ret)⟩ := by
  refine (sysWait_rule (Q := fun ret k' => Effect s (.syscall .wait) ⟨k', .user .sysret (sysretFrame regs ret)⟩)
    (E := fun _ _ => False) (fun hp => ?_) (fun p hp hc => .slept hm hp hc rfl rfl rfl) fun p child code rest hp hc =>
      (reap_post child _).imp_ok ?_).ok hx
  · refine .quiet (SameTasks.refl _).quiet (calm_sysret hm _) ⟨rfl, ?_⟩
    rw [reported, hp]
    rfl
  · rintro _ _ ⟨m, rfl⟩
    exact .reaped hm hp hc rfl rfl rfl rfl

theorem kill_effect {pid sig : ℕ} (hm : s.mode = .user n regs) (hx : sysKill (ε := Empty) pid sig s.kernel = .ok ret k') :
    Effect s (.syscall (.kill pid sig)) ⟨k', .user .sysret (sysretFrame regs ret)⟩ := by
  unfold sysKill at hx
  cases hs : Signal.fromNum (sig % 2 ^ 32) with
  | none =>
    rw [hs] at hx
    cases hx
    exact .quiet (SameTasks.refl _).quiet (calm_sysret hm _) ⟨rfl, rfl⟩
  | some sig' =>
    rw [hs] at hx
    have hkill : ((do kill (pid % 2 ^ 32) sig'; pure 0 : Exec String Kernel ℕ) s.kernel).Post (fun _ k' => k' = _) _ :=
      post_bind (kill_post _ sig' s.kernel) fun _ _ h => h
    rcases (orMax_post hkill).ok hx with rfl | ⟨-, rfl⟩
    · exact .signalled (congrArg (Option.map _) hs) rfl rfl (calm_sysret hm _) ⟨rfl, rfl⟩
    · exact .quiet (SameTasks.refl _).quiet (calm_sysret hm _) ⟨rfl, rfl⟩

theorem syscall_effect (hm : s.mode = .user n regs) (hx : syscallDispatch (ε := Empty) call s.kernel = .ok ret k') :
    Effect s (.syscall call) ⟨k', .user .sysret (sysretFrame regs ret)⟩ := by
  have quiet : reported s (.syscall call) = none → Quiet s.kernel k' →
      Effect s (.syscall call) ⟨k', .user .sysret (sysretFrame regs ret)⟩ :=
    fun hw h => .quiet h (calm_sysret hm _) ⟨rfl, hw⟩
  have same : reported s (.syscall call) = none → SameTasks s.kernel k' →
      Effect s (.syscall call) ⟨k', .user .sysret (sysretFrame regs ret)⟩ :=
    fun hw h => quiet hw h.quiet
  cases call with
  | getpid => cases hx; exact same rfl (.refl _)
  | fork =>
    rcases (orMax_post (fork_post s.kernel)).ok hx with ⟨p, child, hf, rfl⟩ | ⟨-, m, rfl⟩
    · exact .forked hm hf rfl
    · exact same rfl ⟨rfl, rfl⟩
  | exec ram fat =>
    rcases (orMax_post (execFromAny_post ram fat _ s.kernel)).ok hx with ⟨p, hp, -⟩ | ⟨-, m, rfl⟩
    · rw [← creator_user hm] at hp
      exact .spawned hp (calm_sysret hm _) ⟨rfl, rfl⟩
    · exact same rfl ⟨rfl, rfl⟩
  | wait => exact wait_effect hm hx
  | kill pid sig => exact kill_effect hm hx
  | getuid => exact same rfl ((currentField_rule _ (.refl _)).ok hx)
  | geteuid => exact same rfl ((currentField_rule _ (.refl _)).ok hx)
  | getgid => exact same rfl ((currentField_rule _ (.refl _)).ok hx)
  | getegid => exact same rfl ((currentField_rule _ (.refl _)).ok hx)
  | setuid uid =>
    exact effect_of_setsId hm rfl ((setId_post (fun _ h => .uid _ h) (fun p h => by rw [h]; exact .euid) s.kernel).ok hx)
  | setgid gid =>
    exact effect_of_setsId hm rfl ((setId_post (fun _ h => .gid _ h) (fun p h => by rw [h]; exact .egid) s.kernel).ok hx)
  | fbAcquire outPtr => exact quiet rfl ((sysFbAcquire_quiet outPtr s.kernel).ok hx).1
  | shmCreate size => exact same rfl ((sysShmCreate_same (E := fun _ _ => False) size s.kernel).ok hx)
  | shmMap handle mode => exact quiet rfl ((sysShmMap_quiet handle mode s.kernel).ok hx)
  | shmUnmap ptr => exact quiet rfl ((sysShmUnmap_quiet ptr s.kernel).ok hx)
  | other v => cases hx; exact same rfl (.refl _)

theorem exit_effect {code : ℤ} (hm : s.mode = .user n regs) (hx : exitCurrent (ε := Empty) code s.kernel = .ok mode k')
    (hcode : (∀ regs', mode ≠ .user .running regs') → exitCode s e ⟨k', mode⟩ = some code) (hw : reported s e = none) :
    Effect s e ⟨k', mode⟩ := by
  obtain ⟨p, hp, hsched, hn⟩ := (exitCurrent_post (E := fun _ _ => False) code s.kernel).ok hx
  exact .exited hm hp hsched hn (hcode hsched.not_running) hw

theorem exitCode_write {page : ℕ} (h : ∀ regs', mode ≠ .user .running regs') :
    exitCode s (.write page) ⟨k', mode⟩ = some (-1) := by
  unfold exitCode
  dsimp only
  split
  · exact absurd rfl (h _)
  · rfl

theorem write_effect {page : ℕ} (hm : s.mode = .user n regs)
    (hx : userWrite (ε := Empty) regs page s.kernel = .ok mode k') : Effect s (.write page) ⟨k', mode⟩ := by
  have running : ∀ {k'}, Quiet s.kernel k' → Effect s (.write page) ⟨k', .user .running regs⟩ := fun hq =>
    .quiet hq (by rw [hm]; exact .running rfl) ⟨rfl, rfl⟩
  have exit : ∀ m, (exitCurrent (ε := Empty) (-1) { s.kernel with mem := m }).Post
      (fun mode k' => Effect s (.write page) ⟨k', mode⟩) (fun _ _ => False) := by
    refine fun m => (exitCurrent_post (-1) _).imp_ok ?_
    rintro mode k' ⟨p, hp, hsched, hn⟩
    exact .exited hm hp hsched hn (exitCode_write hsched.not_running) rfl
  refine (userWrite_rule (Q := fun mode k' => Effect s (.write page) ⟨k', mode⟩) (fun _ => exit s.kernel.mem)
    (running (SameTasks.refl _).quiet) ((Outcome.post_true _).imp (fun o m _ => running ?_) fun _ m _ => exit m)).ok hx
  cases o with
  | none => exact SameTasks.quiet ⟨rfl, rfl⟩
  | some g => exact ⟨ProcessTable.view_update fun _ => rfl, ProcessTable.runnable_update .., ProcessTable.current_update .., rfl⟩

theorem exitCode_tick (h : s.kernel.table.current = 0 ∨ ∀ p ∈ s.kernel.table.currentProcess, p.signals = []) :
    exitCode s .tick s' = none := by
  unfold exitCode
  rcases h with h | h
  · rw [if_pos h]
  · split_ifs
    · rfl
    · cases hp : s.kernel.table.currentProcess with
      | none => rfl
      | some p =>
        rw [Option.bind_some, h p hp]
        rfl

theorem tick_effect (hm : s.mode = .user n regs) (hx : onTimer (ε := Empty) regs s.kernel = .ok mode k') :
    Effect s .tick ⟨k', mode⟩ := by
  refine (onTimer_rule (Q := fun mode k' => Effect s .tick ⟨k', mode⟩) (E := fun _ _ => False)
    (deliverPending_post s.kernel) ?_ ?_ ?_).ok hx
  · rintro mode k' ⟨p, sig, rest, h0, hp, hs, hn, hsched⟩
    exact .signalDeath (by rw [hm]; simp) h0 hp hs hsched hn
  · rintro _ ⟨rfl, hs⟩ -
    exact (reschedule_post regs s.kernel).imp_ok fun f k' h => .rescheduled hm h.1 h.2 rfl ⟨exitCode_tick hs, rfl⟩
  · rintro _ ⟨rfl, hs⟩ hring
    exact .ignored hm (.refl _) rfl ⟨exitCode_tick hs, rfl⟩ hring

theorem step_eq_some (h : step s e = some s') : ∃ x, handler s.mode e = some x ∧ x s.kernel = .ok s'.mode s'.kernel := by
  obtain ⟨x, hx, hnext⟩ := Option.bind_eq_some_iff.mp h
  refine ⟨x, hx, ?_⟩
  rcases (x s.kernel).post_true.next hnext with ⟨mode, k, hok, -, rfl⟩ | ⟨e, _⟩
  · exact hok
  · exact e.elim

theorem syscall_step (hm : s.mode = .user n regs) (h : step s (.syscall call) = some s') :
    ∃ ret, syscallDispatch (ε := Empty) call s.kernel = .ok ret s'.kernel ∧ s'.mode = .user .sysret (sysretFrame regs ret) := by
  obtain ⟨x, hx, hok⟩ := step_eq_some h
  rw [hm] at hx
  cases hx
  obtain ⟨ret, k', hret, hok⟩ := bind_eq_ok.mp hok
  obtain ⟨hmode, rfl⟩ := Outcome.ok.inj hok
  exact ⟨ret, hret, hmode.symm⟩

theorem not_calm_of_tick (hm : s.mode = .user n regs) (h : step s .tick = some s') : ¬ Calm s.mode s'.mode := by
  obtain ⟨x, hx, hok⟩ := step_eq_some h
  rw [hm] at hx ⊢
  cases hx
  refine (onTimer_rule (Q := fun mode _ => ¬ Calm (.user n regs) mode) (E := fun _ _ => False)
    (deliverPending_post s.kernel) ?_ (fun k' _ _ => (reschedule_post regs k').imp_ok fun _ _ _ => nofun) fun _ _ _ => nofun).ok hok
  rintro mode k' ⟨p, sig, rest, -, -, -, -, hsched⟩ hcalm
  cases hcalm with
  | sysret _ => cases hsched.entry
  | running _ => cases hsched.entry

theorem shellTick_effect (hm : s.mode = .shell) (hx : onTimerInShell (ε := Empty) s.kernel = .ok mode k') :
    Effect s .tick ⟨k', mode⟩ := by
  refine (onTimerInShell_rule (Q := fun mode k' => Effect s .tick ⟨k', mode⟩) (E := fun _ _ => False)
    (deliverPending_post s.kernel) ?_ ?_).ok hx
  · rintro mode k' ⟨p, sig, rest, h0, hp, hs, hn, hsched⟩
    exact .signalDeath (by rw [hm]; simp) h0 hp hs hsched hn
  · rintro _ ⟨rfl, hs⟩
    exact .quiet (SameTasks.refl _).quiet (by rw [hm]; exact .shell) ⟨exitCode_tick hs, rfl⟩

theorem spawn_effect {ram fat : Option (List Byte)} (hm : s.mode = .shell)
    (hx : shellCommand (ε := Empty) (execFromAny ram fat 0) s.kernel = .ok mode k') : Effect s (.spawn ram fat) ⟨k', mode⟩ := by
  have hc : s.creator = 0 := by
    unfold Machine.creator
    rw [hm]
  have hcalm : Calm s.mode Mode.shell := by rw [hm]; exact .shell
  have h := (shellCommand_rule (P := fun k' => (∃ p, Spawned s.kernel 0 p k') ∨ SameTasks s.kernel k')
    ((execFromAny_post ram fat 0 s.kernel).imp (fun _ _ ⟨p, hp, _⟩ => .inl ⟨p, hp⟩) fun _ _ ⟨m, h⟩ => .inr (h ▸ ⟨rfl, rfl⟩))).ok hx
  obtain ⟨rfl, ⟨p, hp⟩ | h⟩ := h
  · exact .spawned (hc.symm ▸ hp) hcalm ⟨rfl, rfl⟩
  · exact .quiet h.quiet hcalm ⟨rfl, rfl⟩

theorem sendSignal_effect {pid : ℕ} {sig : Signal} (hm : s.mode = .shell)
    (hx : shellCommand (ε := Empty) (kill pid sig) s.kernel = .ok mode k') : Effect s (.sendSignal pid sig) ⟨k', mode⟩ := by
  have hcalm : Calm s.mode Mode.shell := by rw [hm]; exact .shell
  obtain ⟨rfl, h⟩ := (shellCommand_rule (P := fun k' => k' = _ ∨ k' = _)
    ((kill_post pid sig s.kernel).imp (fun _ _ => .inl) fun _ _ => .inr)).ok hx
  rcases h with rfl | rfl
  · exact .signalled rfl rfl rfl hcalm ⟨rfl, rfl⟩
  · exact .quiet (SameTasks.refl _).quiet hcalm ⟨rfl, rfl⟩

theorem step_effect (h : step s e = some s') : Effect s e s' := by
  obtain ⟨x, hx, hok⟩ := step_eq_some h
  obtain ⟨k', mode'⟩ := s'
  cases hm : s.mode with
  | halted => rw [hm] at hx; cases e <;> cases hx
  | shell =>
    rw [hm] at hx
    cases e with
    | tick => cases hx; exact shellTick_effect hm hok
    | spawn ram fat => cases hx; exact spawn_effect hm hok
    | runAll =>
      cases hx
      obtain ⟨hsched, hn⟩ := (scheduleNext_post (E := fun _ _ => False) { s.kernel with returnCr3 := some s.kernel.cr3 }).ok hok
      exact .started hm hsched hn
    | sendSignal pid sig => cases hx; exact sendSignal_effect hm hok
    | _ => cases hx
  | user n regs =>
    rw [hm] at hx
    cases e with
    | run regs' =>
      dsimp only [handler] at hx
      split_ifs at hx with hsegments
      cases hx
      cases hok
      exact .quiet (SameTasks.refl _).quiet (by rw [hm]; exact .running hsegments.1) ⟨rfl, rfl⟩
    | write page =>
      dsimp only [handler] at hx
      split_ifs at hx
      cases hx
      exact write_effect hm hok
    | syscall call =>
      cases hx
      obtain ⟨ret, k₁, hret, hok⟩ := bind_eq_ok.mp hok
      cases hok
      exact syscall_effect hm hret
    | exit code => cases hx; exact exit_effect hm hok (fun _ => rfl) rfl
    | fault => cases hx; exact exit_effect hm hok (fun _ => rfl) rfl
    | tick => cases hx; exact tick_effect hm hok
    | _ => cases hx

end

end RustKernel
