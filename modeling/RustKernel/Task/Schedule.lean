import RustKernel.Fs.Elf
import RustKernel.Gfx.Framebuffer
import RustKernel.Ipc.Shm
import RustKernel.Memory.Roots

/-!
# Creating, ending and switching processes

The calls of `task/process.rs`, `on_timer` of `task/preempt.rs` and `deliver_pending` of `task/signal.rs`.
-/

namespace RustKernel.Task

open Lib Exec Memory Ipc Gfx Fs

inductive Entry
  | sysret
  | timer
  | enterUserspace
  | running
  deriving DecidableEq

inductive Mode
  | shell
  | user (entry : Entry) (regs : TrapFrame)
  | halted
  deriving DecidableEq

def Mode.isUser : Mode → Bool
  | .user _ _ => true
  | _ => false

theorem Mode.eq_user {m : Mode} (h : m.isUser = true) : ∃ n regs, m = .user n regs := by
  cases m with
  | user n regs => exact ⟨n, regs, rfl⟩
  | shell => cases h
  | halted => cases h

variable {ε : Type} {E : ε → Kernel → Prop}

def onTable (f : ProcessTable → ProcessTable) : Exec ε Kernel Unit := Exec.modify fun k => { k with table := f k.table }

/-! ### Creation -/

def allocPid : Exec ε Kernel ℕ := do
  let k ← Exec.get
  Exec.modify fun k => { k with nextPid := (k.nextPid + 1) % 2 ^ 64 }
  pure (k.nextPid % 2 ^ 32)

def insertProcess (p : Process) : Exec ε Kernel Unit := do
  let k ← Exec.get
  onTable (·.insert p)
  match k.table.procs[p.pid]? with
  | some old => onMem old.addressSpace.drop
  | none => pure ()

def startFrame (entry rsp : ℕ) : TrapFrame := { rip := entry, rsp, rflags := 0x202, cs := USER_CODE, ss := USER_DATA }

structure Ids where
  uid : ℕ
  gid : ℕ
  euid : ℕ
  egid : ℕ

def Process.ids (p : Process) : Ids := { uid := p.uid, gid := p.gid, euid := p.euid, egid := p.egid }

def inherited (t : ProcessTable) (parent : ℕ) : Ids :=
  match t.procs[parent]? with
  | some p => p.ids
  | none => { uid := 0, gid := 0, euid := 0, egid := 0 }

def spawnFromElf (bin : List Byte) (parent : ℕ) : Exec String Kernel ℕ := do
  let k ← Exec.get
  let (space, entry, rsp) ← onMem (spawnSpace k.cr3 bin)
  let ids := inherited k.table parent
  let pid ← allocPid
  insertProcess
    { pid, parent, state := .runnable, addressSpace := space, trapFrame := startFrame entry rsp,
      signals := [], childrenExited := [], uid := ids.uid, gid := ids.gid, euid := ids.euid, egid := ids.egid }
  pure pid

def execImage (image : Option (List Byte)) (parent : ℕ) : Exec String Kernel ℕ :=
  match image with
  | some bin => spawnFromElf bin parent
  | none => Exec.throw "exec: fichier introuvable"

def execFromAny (ram fat : Option (List Byte)) (parent : ℕ) : Exec String Kernel ℕ := do
  match ← Exec.attempt (execImage ram parent) with
  | .ok pid => pure pid
  | .error _ => execImage fat parent

def fork : Exec String Kernel ℕ := do
  let k ← Exec.get
  let cur := k.table.current
  match k.table.procs[cur]? with
  | none => Exec.throw "pas de process courant"
  | some parent => do
    let space ← onMem parent.addressSpace.cloneCow
    let pid ← allocPid
    insertProcess
      { pid, parent := cur, state := .runnable, addressSpace := space, trapFrame := parent.trapFrame.withRax 0,
        signals := [], childrenExited := [], uid := parent.uid, gid := parent.gid, euid := parent.euid,
        egid := parent.egid }
    onTable (·.update cur (Process.returning pid))
    pure pid

/-! ### Scheduling -/

def enterFrame (tf : TrapFrame) : TrapFrame := { tf with toGprs := {} }

def switchTo (next : ℕ) : Exec ε Kernel Process := do
  onTable ({ · with current := next })
  let k ← Exec.get
  let p ← Exec.expect k.table.procs[next]?
  Exec.modify fun k => { k with cr3 := p.addressSpace.p4 }
  pure p

def pickNext : Exec ε Kernel (Option ℕ) := do
  let k ← Exec.get
  onTable fun t => t.pickNext.2
  pure k.table.pickNext.1

def returnToShell : Exec ε Kernel Mode := do
  let k ← Exec.get
  match k.returnCr3 with
  | none => pure .halted
  | some cr3 => do
    Exec.modify fun k => { k with returnCr3 := none, cr3 }
    pure .shell

def scheduleNext : Exec ε Kernel Mode := do
  match ← pickNext with
  | none => returnToShell
  | some next => do
    let p ← switchTo next
    pure (.user .enterUserspace (enterFrame p.trapFrame))

def runUntilAllExit : Exec ε Kernel Mode := do
  Exec.modify fun k => { k with returnCr3 := some k.cr3 }
  scheduleNext

def reschedule (frame : TrapFrame) : Exec ε Kernel TrapFrame := do
  onTable (·.save frame)
  match ← pickNext with
  | none => pure frame
  | some next => do
    let k ← Exec.get
    if next = k.table.current then pure frame
    else do
      let p ← switchTo next
      pure p.trapFrame

/-! ### Exit, wait, signals -/

def exitCurrent (code : ℤ) : Exec ε Kernel Mode := do
  let k ← Exec.get
  let pid := k.table.current
  releaseIfOwner pid
  cleanupPid pid
  let p ← Exec.expect k.table.procs[pid]?
  onTable (·.exit pid p.parent code)
  scheduleNext

def reap (pid : ℕ) : Exec ε Kernel Unit := do
  let k ← Exec.get
  onTable fun t => { t with procs := t.procs.erase pid }
  match k.table.procs[pid]? with
  | some dead => onMem dead.addressSpace.drop
  | none => pure ()

def waitAny (caller : ℕ) : Exec ε Kernel (Option (ℕ × ℤ)) := do
  let k ← Exec.get
  match k.table.procs[caller]? with
  | none => pure none
  | some p =>
    match p.childrenExited with
    | (child, code) :: rest => do
      onTable (·.update caller (Process.reporting rest))
      reap child
      pure (some (child, code))
    | [] => do
      onTable (·.update caller Process.asleep)
      pure none

def kill (pid : ℕ) (sig : Signal) : Exec String Kernel Unit := do
  let k ← Exec.get
  match k.table.procs[pid]? with
  | none => Exec.throw "pid inconnu"
  | some _ => onTable fun t => (t.update pid (Process.signalled sig)).wake pid

def deliverPending : Exec ε Kernel (Option Mode) := do
  let k ← Exec.get
  if k.table.current = 0 then pure none
  else match k.table.currentProcess with
    | none => pure none
    | some cur =>
      match cur.signals with
      | [] => pure none
      | sig :: rest => do
        onTable (·.update k.table.current (Process.withSignals rest))
        let mode ← exitCurrent sig.exitCode
        pure (some mode)

def onTimer (frame : TrapFrame) : Exec ε Kernel Mode := do
  match ← deliverPending with
  | some mode => pure mode
  | none =>
    if frame.cs % 4 = 3 then do
      let frame ← reschedule frame
      pure (.user .timer frame)
    else pure (.user .timer frame)

def onTimerInShell : Exec ε Kernel Mode := do
  match ← deliverPending with
  | some mode => pure mode
  | none => pure .shell

/-! ### What the calls do to the process table -/

structure Process.Newborn (p : Process) (k : Kernel) : Prop where
  pid : p.pid = k.nextPid % 2 ^ 32
  state : p.state = .runnable
  signals : p.signals = []
  childrenExited : p.childrenExited = []

def nextPidOf (k : Kernel) : ℕ := (k.nextPid + 1) % 2 ^ 64

inductive Scheduled (t : ProcessTable) : ProcessTable → Mode → Prop
  | idle {mode : Mode} : t.pickNext.1 = none → mode = .shell ∨ mode = .halted → Scheduled t t.pickNext.2 mode
  | enter {next : ℕ} {p : Process} : t.pickNext.1 = some next → t.procs[next]? = some p →
      Scheduled t { t.pickNext.2 with current := next } (.user .enterUserspace (enterFrame p.trapFrame))

inductive Rescheduled (t : ProcessTable) (frame : TrapFrame) : ProcessTable → TrapFrame → Prop
  | stay : (t.save frame).pickNext.1 = none ∨ (t.save frame).pickNext.1 = some t.current →
      Rescheduled t frame (t.save frame).pickNext.2 frame
  | switch {next : ℕ} {p : Process} : (t.save frame).pickNext.1 = some next → next ≠ t.current →
      (t.save frame).procs[next]? = some p →
      Rescheduled t frame { (t.save frame).pickNext.2 with current := next } p.trapFrame

@[simp] theorem ProcessTable.current_save (t : ProcessTable) (frame : TrapFrame) : (t.save frame).current = t.current := by
  unfold ProcessTable.save
  split_ifs
  · rfl
  · split
    · dsimp only
      split_ifs <;> simp
    · rfl

section

variable {E : ε → Kernel → Prop} {k : Kernel}

theorem onTable_post (f : ProcessTable → ProcessTable) (k : Kernel) :
    (onTable f k).Post (fun _ k' => k' = { k with table := f k.table }) E := rfl

theorem pickNext_post (k : Kernel) : (pickNext k).Post
    (fun r k' => r = k.table.pickNext.1 ∧ k' = { k with table := k.table.pickNext.2 }) E :=
  ⟨rfl, rfl⟩

theorem switchTo_post (next : ℕ) (k : Kernel) : (switchTo next k).Post
    (fun p k' => k.table.procs[next]? = some p ∧
      k' = { k with table := { k.table with current := next }, cr3 := p.addressSpace.p4 }) E := by
  refine post_bind (onTable_post _ k) fun _ k₁ h₁ => ?_
  rw [get_bind, h₁]
  refine post_bind post_expect fun p k₂ h₂ => ?_
  rw [h₂.2]
  exact ⟨h₂.1, rfl⟩

theorem returnToShell_rule {Q : Mode → Kernel → Prop} (hhalt : k.returnCr3 = none → Q .halted k)
    (hshell : ∀ cr3, k.returnCr3 = some cr3 → Q .shell { k with returnCr3 := none, cr3 }) : (returnToShell k).Post Q E := by
  unfold returnToShell
  rw [get_bind]
  cases hc : k.returnCr3 with
  | none => exact hhalt hc
  | some cr3 => exact hshell cr3 hc

theorem scheduleNext_rule {Q : Mode → Kernel → Prop} (henter : ∀ next p, k.table.pickNext.1 = some next →
      k.table.procs[next]? = some p → Q (.user .enterUserspace (enterFrame p.trapFrame))
        { k with table := { k.table.pickNext.2 with current := next }, cr3 := p.addressSpace.p4 })
    (hhalt : k.table.pickNext.1 = none → k.returnCr3 = none → Q .halted { k with table := k.table.pickNext.2 })
    (hshell : ∀ cr3, k.table.pickNext.1 = none → k.returnCr3 = some cr3 →
      Q .shell { k with table := k.table.pickNext.2, returnCr3 := none, cr3 }) : (scheduleNext k).Post Q E := by
  refine post_bind (pickNext_post k) ?_
  rintro r _ ⟨hr, rfl⟩
  cases r with
  | none => exact returnToShell_rule (hhalt hr.symm) fun cr3 => hshell cr3 hr.symm
  | some next =>
    refine post_bind (switchTo_post next _) ?_
    rintro p _ ⟨hp, rfl⟩
    exact henter next p hr.symm hp

theorem scheduleNext_post (k : Kernel) : (scheduleNext k).Post
    (fun mode k' => Scheduled k.table k'.table mode ∧ k'.nextPid = k.nextPid) E :=
  scheduleNext_rule (fun _ _ hr hp => ⟨.enter hr hp, rfl⟩) (fun hr _ => ⟨.idle hr (.inr rfl), rfl⟩)
    fun _ hr _ => ⟨.idle hr (.inl rfl), rfl⟩

theorem reschedule_rule {frame : TrapFrame} {Q : TrapFrame → Kernel → Prop}
    (hstay : (k.table.save frame).pickNext.1 = none ∨ (k.table.save frame).pickNext.1 = some k.table.current →
      Q frame { k with table := (k.table.save frame).pickNext.2 })
    (hswitch : ∀ next p, (k.table.save frame).pickNext.1 = some next → next ≠ k.table.current →
      (k.table.save frame).procs[next]? = some p → Q p.trapFrame
        { k with table := { (k.table.save frame).pickNext.2 with current := next }, cr3 := p.addressSpace.p4 }) :
    (reschedule frame k).Post Q E := by
  refine post_bind (onTable_post _ k) ?_
  rintro _ _ rfl
  refine post_bind (pickNext_post _) ?_
  rintro r _ ⟨hr, rfl⟩
  cases r with
  | none => exact hstay (.inl hr.symm)
  | some next =>
    dsimp only
    rw [get_bind]
    have hcur : (k.table.save frame).pickNext.2.current = k.table.current := ProcessTable.current_save ..
    split_ifs with hnext
    · exact hstay (.inr (by rw [← hr, hnext, hcur]))
    · refine post_bind (switchTo_post next _) ?_
      rintro p _ ⟨hp, rfl⟩
      exact hswitch next p hr.symm (by rwa [hcur] at hnext) hp

theorem reschedule_post (frame : TrapFrame) (k : Kernel) : (reschedule frame k).Post
    (fun frame' k' => Rescheduled k.table frame k'.table frame' ∧ k'.nextPid = k.nextPid) E :=
  reschedule_rule (fun h => ⟨.stay h, rfl⟩) fun _ _ hr hne hp => ⟨.switch hr hne hp, rfl⟩

/-- The kernel after the current process has given up the framebuffer. -/
def released (k : Kernel) : Kernel :=
  { k with fb := if k.fb.owner = k.table.current then { k.fb with owner := 0, va := 0 } else k.fb }

theorem frames_released (k : Kernel) : (released k).fb.frames = k.fb.frames := by
  unfold released
  dsimp only
  split_ifs <;> rfl

theorem exitCurrent_rule {code : ℤ} {R : Kernel → Prop} {Q : Mode → Kernel → Prop}
    (hclean : (cleanupPid k.table.current (released k)).Post (fun _ => R) E)
    (hnext : ∀ p k', k.table.procs[k.table.current]? = some p → R k' →
      (scheduleNext { k' with table := k'.table.exit k.table.current p.parent code }).Post Q E) :
    (exitCurrent code k).Post Q E := by
  unfold exitCurrent
  rw [get_bind]
  refine post_bind (onFb_post _ k) ?_
  rintro _ _ rfl
  refine post_bind hclean fun _ k₁ h₁ => ?_
  refine post_bind post_expect ?_
  rintro p _ ⟨hp, rfl⟩
  exact post_bind (onTable_post _ _) (by rintro _ _ rfl; exact hnext p _ hp h₁)

theorem exitCurrent_post (code : ℤ) (k : Kernel) : (exitCurrent code k).Post
    (fun mode k' => ∃ p, k.table.procs[k.table.current]? = some p ∧
      Scheduled (k.table.exit k.table.current p.parent code) k'.table mode ∧ k'.nextPid = k.nextPid) E := by
  refine exitCurrent_rule (cleanupPid_same _ _) fun p k₁ hp h₁ => (scheduleNext_post _).imp_ok fun mode k' h => ⟨p, hp, ?_⟩
  rwa [h₁.table, h₁.nextPid] at h

end

theorem allocPid_post (k : Kernel) : (allocPid k).Post
    (fun pid k' => pid = k.nextPid % 2 ^ 32 ∧ k' = { k with nextPid := nextPidOf k }) E :=
  ⟨rfl, rfl⟩

theorem drop_post (a : AddressSpace) (m : PhysMem) : (a.drop (ε := ε) m).Post (fun _ _ => True) (fun _ _ => False) := by
  unfold AddressSpace.drop
  split_ifs
  · trivial
  · exact (destroy_post a m).imp_ok (fun _ _ _ => trivial)

theorem insertProcess_post (p : Process) (k : Kernel) : (insertProcess p k).Post
    (fun _ k' => ∃ m, k' = { k with mem := m, table := k.table.insert p }) E := by
  unfold insertProcess
  rw [get_bind]
  refine post_bind (onTable_post _ k) ?_
  rintro _ _ rfl
  cases k.table.procs[p.pid]? with
  | none => exact ⟨k.mem, rfl⟩
  | some old => exact post_zoom ((drop_post old.addressSpace k.mem).imp (fun _ m _ => ⟨m, rfl⟩) fun _ _ h => h.elim)

structure Spawned (k : Kernel) (creator : ℕ) (p : Process) (k' : Kernel) : Prop where
  newborn : p.Newborn k
  parent : p.parent = creator
  ids : p.ids = inherited k.table creator
  trapFrame : ∃ entry rsp, p.trapFrame = startFrame entry rsp
  table : k'.table = k.table.insert p
  nextPid : k'.nextPid = nextPidOf k
  shm : k'.shm = k.shm

theorem execImage_post (image : Option (List Byte)) (parent : ℕ) (k : Kernel) : (execImage image parent k).Post
    (fun pid k' => ∃ p, Spawned k parent p k' ∧ pid = p.pid) (fun _ k' => ∃ m, k' = { k with mem := m }) := by
  cases image with
  | none => exact ⟨k.mem, rfl⟩
  | some bin =>
    refine post_bind (x := Exec.get) (Q := fun a k' => a = k ∧ k' = k) ⟨rfl, rfl⟩ ?_
    rintro _ _ ⟨rfl, rfl⟩
    refine post_bind ((onMem_post (Outcome.post_true _)).imp_err fun _ _ ⟨m, h, _⟩ => ⟨m, h⟩) ?_
    rintro ⟨space, entry, rsp⟩ _ ⟨m, rfl, -⟩
    refine post_bind (allocPid_post _) ?_
    rintro _ _ ⟨rfl, rfl⟩
    refine post_bind (insertProcess_post _ _) ?_
    rintro _ _ ⟨m', rfl⟩
    exact ⟨_, ⟨⟨rfl, rfl, rfl, rfl⟩, rfl, rfl, ⟨entry, rsp, rfl⟩, rfl, rfl, rfl⟩, rfl⟩

theorem execFromAny_post (ram fat : Option (List Byte)) (parent : ℕ) (k : Kernel) : (execFromAny ram fat parent k).Post
    (fun pid k' => ∃ p, Spawned k parent p k' ∧ pid = p.pid) (fun _ k' => ∃ m, k' = { k with mem := m }) := by
  refine post_attempt_bind (execImage_post ram parent k) (fun _ _ h => h) ?_
  rintro _ _ ⟨m, rfl⟩
  refine (execImage_post fat parent _).imp ?_ ?_
  · rintro pid k' ⟨p, hp, hpid⟩
    exact ⟨p, { hp with newborn := { hp.newborn with } }, hpid⟩
  · rintro _ _ ⟨m', rfl⟩
    exact ⟨m', rfl⟩

structure Forked (k : Kernel) (p child : Process) (k' : Kernel) : Prop where
  current : k.table.procs[k.table.current]? = some p
  newborn : child.Newborn k
  parent : child.parent = k.table.current
  trapFrame : child.trapFrame = p.trapFrame.withRax 0
  ids : child.ids = p.ids
  table : k'.table = (k.table.insert child).update k.table.current (Process.returning child.pid)
  nextPid : k'.nextPid = nextPidOf k
  shm : k'.shm = k.shm

theorem fork_post (k : Kernel) : (fork k).Post
    (fun pid k' => ∃ parent child, Forked k parent child k' ∧ pid = child.pid) (fun _ k' => ∃ m, k' = { k with mem := m }) := by
  unfold fork
  rw [get_bind]
  cases hp : k.table.procs[k.table.current]? with
  | none => exact ⟨k.mem, rfl⟩
  | some parent =>
    refine post_bind ((onMem_post (Outcome.post_true _)).imp_err fun _ _ ⟨m, h, _⟩ => ⟨m, h⟩) ?_
    rintro space _ ⟨m, rfl, -⟩
    refine post_bind (allocPid_post _) ?_
    rintro _ _ ⟨rfl, rfl⟩
    refine post_bind (insertProcess_post _ _) ?_
    rintro _ _ ⟨m', rfl⟩
    refine ⟨parent, _, ⟨hp, ?_, ?_, ?_, ?_, rfl, rfl, rfl⟩, ?_⟩
    · exact ⟨rfl, rfl, rfl, rfl⟩
    all_goals rfl

theorem reap_post (pid : ℕ) (k : Kernel) : (reap pid k).Post
    (fun _ k' => ∃ m, k' = { k with mem := m, table := { k.table with procs := k.table.procs.erase pid } }) E := by
  unfold reap
  rw [get_bind]
  refine post_bind (onTable_post _ k) ?_
  rintro _ _ rfl
  cases k.table.procs[pid]? with
  | none => exact ⟨k.mem, rfl⟩
  | some dead => exact post_zoom ((drop_post _ _).imp (fun _ m _ => ⟨m, rfl⟩) fun _ _ h => h.elim)

section

variable {k : Kernel} {caller : ℕ}

theorem waitAny_rule {Q : Option (ℕ × ℤ) → Kernel → Prop} (hnone : k.table.procs[caller]? = none → Q none k)
    (hsleep : ∀ p, k.table.procs[caller]? = some p → p.childrenExited = [] →
      Q none { k with table := k.table.update caller Process.asleep })
    (hreap : ∀ p child code rest, k.table.procs[caller]? = some p → p.childrenExited = (child, code) :: rest →
      (reap child { k with table := k.table.update caller (Process.reporting rest) }).Post
        (fun _ => Q (some (child, code))) E) : (waitAny caller k).Post Q E := by
  unfold waitAny
  rw [get_bind]
  cases hp : k.table.procs[caller]? with
  | none => exact hnone hp
  | some p =>
    dsimp only
    cases hc : p.childrenExited with
    | nil => exact hsleep p hp hc
    | cons head rest =>
      refine post_bind (onTable_post _ k) ?_
      rintro _ _ rfl
      exact post_bind (hreap p head.1 head.2 rest hp hc) fun _ _ h => h

theorem kill_post (pid : ℕ) (sig : Signal) (k : Kernel) : (kill pid sig k).Post
    (fun _ k' => k' = { k with table := (k.table.update pid (Process.signalled sig)).wake pid }) (fun _ k' => k' = k) := by
  unfold kill
  rw [get_bind]
  cases k.table.procs[pid]? with
  | none => exact rfl
  | some p => exact rfl

theorem deliverPending_rule {Q : Option Mode → Kernel → Prop}
    (hnone : k.table.current = 0 ∨ (∀ p ∈ k.table.currentProcess, p.signals = []) → Q none k)
    (hsignal : ∀ p sig rest, k.table.current ≠ 0 → k.table.currentProcess = some p → p.signals = sig :: rest →
      (exitCurrent sig.exitCode { k with table := k.table.update k.table.current (Process.withSignals rest) }).Post
        (fun mode => Q (some mode)) E) : (deliverPending k).Post Q E := by
  unfold deliverPending
  rw [get_bind]
  split_ifs with h0
  · exact hnone (.inl h0)
  cases hp : k.table.currentProcess with
  | none => exact hnone (.inr (by simp [hp]))
  | some p =>
    dsimp only
    cases hs : p.signals with
    | nil => exact hnone (.inr (by simp [hp, hs]))
    | cons sig rest =>
      refine post_bind (onTable_post _ k) ?_
      rintro _ _ rfl
      exact post_bind (hsignal p sig rest h0 hp hs) fun _ _ h => h

theorem deliverPending_post (k : Kernel) : (deliverPending k).Post
    (fun r k' => match r with
      | none => k' = k ∧ (k.table.current = 0 ∨ ∀ p ∈ k.table.currentProcess, p.signals = [])
      | some mode => ∃ p sig rest, k.table.current ≠ 0 ∧ k.table.procs[k.table.current]? = some p ∧
          p.signals = sig :: rest ∧ k'.nextPid = k.nextPid ∧
          Scheduled ((k.table.update k.table.current (Process.withSignals rest)).exit k.table.current p.parent
            sig.exitCode) k'.table mode) E := by
  refine deliverPending_rule (fun h => ⟨rfl, h⟩) fun p sig rest h0 hp hs => (exitCurrent_post _ _).imp_ok ?_
  rintro mode k' ⟨q, hq, hsched, hn⟩
  rw [ProcessTable.current_update] at hq hsched
  rw [ProcessTable.getElem?_procs_update, if_pos rfl, show k.table.procs[k.table.current]? = some p from hp] at hq
  obtain rfl := Option.some.inj hq
  exact ⟨p, sig, rest, h0, hp, hs, hn, hsched⟩

theorem onTimer_rule {frame : TrapFrame} {R : Option Mode → Kernel → Prop} {Q : Mode → Kernel → Prop}
    (hdeliver : (deliverPending k).Post R E) (hsome : ∀ mode k', R (some mode) k' → Q mode k')
    (hring3 : ∀ k', R none k' → frame.cs % 4 = 3 → (reschedule frame k').Post (fun f => Q (.user .timer f)) E)
    (hring0 : ∀ k', R none k' → frame.cs % 4 ≠ 3 → Q (.user .timer frame) k') : (onTimer frame k).Post Q E := by
  refine post_bind hdeliver fun r k' h => ?_
  cases r with
  | some mode => exact hsome mode k' h
  | none =>
    dsimp only
    split_ifs with hring
    · exact post_bind (hring3 k' h hring) fun _ _ h => h
    · exact hring0 k' h hring

theorem onTimerInShell_rule {R : Option Mode → Kernel → Prop} {Q : Mode → Kernel → Prop}
    (hdeliver : (deliverPending k).Post R E) (hsome : ∀ mode k', R (some mode) k' → Q mode k')
    (hnone : ∀ k', R none k' → Q .shell k') : (onTimerInShell k).Post Q E := by
  refine post_bind hdeliver fun r k' h => ?_
  cases r with
  | some mode => exact hsome mode k' h
  | none => exact hnone k' h

end

end RustKernel.Task
