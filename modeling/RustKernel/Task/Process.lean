import RustKernel.Lib.TreeMap
import RustKernel.Memory.AddressSpace

/-!
# Processes and the process table

`task/process.rs`, `task/signal.rs` and the `TrapFrame` of `task/preempt.rs`: what a process is, and the
operations on the process table `PROCS` that need neither memory nor the other kernel tables.
-/

namespace RustKernel.Task

open Lib Memory
open Option (map_map)

/-! ### Registers -/

structure Gprs where
  rax : ℕ := 0
  rbx : ℕ := 0
  rcx : ℕ := 0
  rdx : ℕ := 0
  rsi : ℕ := 0
  rdi : ℕ := 0
  rbp : ℕ := 0
  r8 : ℕ := 0
  r9 : ℕ := 0
  r10 : ℕ := 0
  r11 : ℕ := 0
  r12 : ℕ := 0
  r13 : ℕ := 0
  r14 : ℕ := 0
  r15 : ℕ := 0
  deriving DecidableEq

structure TrapFrame extends Gprs where
  rip : ℕ
  rsp : ℕ
  rflags : ℕ
  cs : ℕ
  ss : ℕ
  deriving DecidableEq

def TrapFrame.withRax (tf : TrapFrame) (v : ℕ) : TrapFrame := { tf with rax := v }

def USER_CODE : ℕ := 0x23

def USER_DATA : ℕ := 0x1b

/-! ### Signals -/

inductive Signal
  | int | kill | term | segv | ill | bus
  deriving DecidableEq

namespace Signal

def fromNum : ℕ → Option Signal
  | 2 => some .int
  | 7 => some .bus
  | 9 => some .kill
  | 11 => some .segv
  | 4 => some .ill
  | 15 => some .term
  | _ => none

def num : Signal → ℕ
  | .int => 2
  | .ill => 4
  | .bus => 7
  | .kill => 9
  | .segv => 11
  | .term => 15

def exitCode (s : Signal) : ℤ := 128 + s.num

end Signal

/-! ### Processes -/

inductive ProcessState
  | runnable
  | sleeping
  | zombie (code : ℤ)
  deriving DecidableEq

structure Process where
  pid : ℕ
  parent : ℕ
  state : ProcessState
  addressSpace : AddressSpace
  trapFrame : TrapFrame
  signals : List Signal
  childrenExited : List (ℕ × ℤ)
  uid : ℕ
  gid : ℕ
  euid : ℕ
  egid : ℕ

def Process.view (p : Process) : Process := { p with addressSpace := { p4 := 0, mappedPages := ∅ } }

namespace Process

def zombified (code : ℤ) (p : Process) : Process := { p with state := .zombie code }

def asleep (p : Process) : Process := { p with state := .sleeping }

def woken (p : Process) : Process := if p.state = .sleeping then { p with state := .runnable } else p

def told (pid : ℕ) (code : ℤ) (p : Process) : Process := { p with childrenExited := p.childrenExited ++ [(pid, code)] }

def reporting (rest : List (ℕ × ℤ)) (p : Process) : Process := { p with childrenExited := rest }

def withFrame (frame : TrapFrame) (p : Process) : Process := { p with trapFrame := frame }

def returning (v : ℕ) (p : Process) : Process := { p with trapFrame := p.trapFrame.withRax v }

def signalled (sig : Signal) (p : Process) : Process := { p with signals := p.signals ++ [sig] }

def withSignals (rest : List Signal) (p : Process) : Process := { p with signals := rest }

end Process

structure ProcessTable where
  procs : Std.ExtTreeMap ℕ Process
  runnable : List ℕ
  current : ℕ

namespace ProcessTable

variable (t : ProcessTable)

def new : ProcessTable := { procs := ∅, runnable := [], current := 0 }

def currentProcess : Option Process := t.procs[t.current]?

def insert (p : Process) : ProcessTable :=
  { t with
    procs := t.procs.insert p.pid p
    runnable := if p.state = .runnable then t.runnable ++ [p.pid] else t.runnable }

def update (pid : ℕ) (f : Process → Process) : ProcessTable :=
  match t.procs[pid]? with
  | some p => { t with procs := t.procs.insert pid (f p) }
  | none => t

def wake (pid : ℕ) : ProcessTable :=
  match t.procs[pid]? with
  | some p =>
    if p.state = .sleeping then { t.update pid Process.woken with runnable := t.runnable ++ [pid] } else t
  | none => t

def stateOf (pid : ℕ) : Option ProcessState := (t.procs[pid]?).map Process.state

def pickLoop : List ℕ → Option ℕ × List ℕ
  | [] => (none, [])
  | pid :: rest => if t.stateOf pid = some .runnable then (some pid, rest) else pickLoop rest

def pickNext : Option ℕ × ProcessTable :=
  let r := t.pickLoop t.runnable
  (r.1, { t with runnable := r.2 })

def exit (pid parent : ℕ) (code : ℤ) : ProcessTable :=
  ((t.update pid (Process.zombified code)).update parent (Process.told pid code)).wake parent

def save (frame : TrapFrame) : ProcessTable :=
  if t.current = 0 then t
  else match t.procs[t.current]? with
    | some cur =>
      let t' := t.update t.current (Process.withFrame frame)
      if cur.state = .runnable then { t' with runnable := t'.runnable ++ [t.current] } else t'
    | none => t

end ProcessTable

/-! ### What a change of one process leaves of the others -/

namespace ProcessTable

variable {t : ProcessTable} {pid : ℕ} {f : Process → Process}

def view (t : ProcessTable) (pid : ℕ) : Option Process := (t.procs[pid]?).map Process.view

theorem view_eq_some {v : Process} : t.view pid = some v ↔ ∃ p, t.procs[pid]? = some p ∧ p.view = v :=
  Option.map_eq_some_iff

theorem eq_view {p v : Process} (hp : t.procs[pid]? = some p) (hv : t.view pid = some v) : v = p.view := by
  obtain ⟨p', hp', rfl⟩ := view_eq_some.mp hv
  rw [Option.mem_unique hp' hp]

theorem stateOf_eq_view (t : ProcessTable) (pid : ℕ) : t.stateOf pid = (t.view pid).map Process.state := by
  unfold stateOf view
  rw [map_map]
  rfl

theorem stateOf_eq_some {s : ProcessState} : t.stateOf pid = some s ↔ ∃ p, t.procs[pid]? = some p ∧ p.state = s := by
  simp [stateOf]

@[simp] theorem getElem?_procs_insert (t : ProcessTable) (p : Process) (q : ℕ) :
    (t.insert p).procs[q]? = if q = p.pid then some p else t.procs[q]? := by
  have h := congrFun (TreeMap.getElem?_insert_eq_update t.procs p.pid p) q
  rwa [Function.update_apply] at h

@[simp] theorem current_insert (t : ProcessTable) (p : Process) : (t.insert p).current = t.current := rfl

theorem runnable_insert {p : Process} (hp : p.state = .runnable) : (t.insert p).runnable = t.runnable ++ [p.pid] :=
  if_pos hp

@[simp] theorem getElem?_procs_update (t : ProcessTable) (pid : ℕ) (f : Process → Process) (q : ℕ) :
    (t.update pid f).procs[q]? = if q = pid then (t.procs[pid]?).map f else t.procs[q]? := by
  unfold update
  cases hp : t.procs[pid]? with
  | some p =>
    have h := congrFun (TreeMap.getElem?_insert_eq_update t.procs pid (f p)) q
    rwa [Function.update_apply] at h
  | none =>
    by_cases hq : q = pid
    · simp [hq, hp]
    · simp [hq]

@[simp] theorem current_update (t : ProcessTable) (pid : ℕ) (f : Process → Process) : (t.update pid f).current = t.current := by
  unfold update
  split <;> rfl

@[simp] theorem runnable_update (t : ProcessTable) (pid : ℕ) (f : Process → Process) :
    (t.update pid f).runnable = t.runnable := by
  unfold update
  split <;> rfl

theorem view_update (hf : ∀ p, (f p).view = p.view) (q : ℕ) : (t.update pid f).view q = t.view q := by
  unfold view
  rw [getElem?_procs_update]
  split_ifs with h
  · rw [h, map_map, show Process.view ∘ f = Process.view from funext hf]
  · rfl

theorem stateOf_update (hf : ∀ p, (f p).state = p.state) (q : ℕ) : (t.update pid f).stateOf q = t.stateOf q := by
  unfold stateOf
  rw [getElem?_procs_update]
  split_ifs with h
  · rw [h, map_map, show Process.state ∘ f = Process.state from funext hf]
  · rfl

@[simp] theorem getElem?_procs_wake (t : ProcessTable) (pid q : ℕ) :
    (t.wake pid).procs[q]? = if q = pid then (t.procs[pid]?).map Process.woken else t.procs[q]? := by
  unfold wake
  cases hp : t.procs[pid]? with
  | none =>
    by_cases hq : q = pid
    · simp [hq, hp]
    · simp [hq]
  | some p =>
    by_cases hs : p.state = .sleeping
    · by_cases hq : q = pid
      · simp [hp, hs]
      · simp [hq, hs]
    · by_cases hq : q = pid
      · simp [hq, hp, hs, Process.woken]
      · simp [hq, hs]

@[simp] theorem current_wake (t : ProcessTable) (pid : ℕ) : (t.wake pid).current = t.current := by
  unfold wake
  split
  · split_ifs <;> simp
  · rfl

theorem runnable_wake (t : ProcessTable) (pid : ℕ) :
    (t.wake pid).runnable = t.runnable ++ if t.stateOf pid = some .sleeping then [pid] else [] := by
  unfold wake stateOf
  cases hp : t.procs[pid]? with
  | none => simp
  | some p =>
    by_cases hs : p.state = .sleeping
    · simp [hs]
    · simp [hs]

/-! ### Views after an operation -/

theorem view_insert (t : ProcessTable) (p : Process) (q : ℕ) :
    (t.insert p).view q = if q = p.pid then some p.view else t.view q := by
  unfold view
  rw [getElem?_procs_insert]
  split_ifs <;> rfl

theorem view_update_of_comm (t : ProcessTable) (pid : ℕ) (f : Process → Process) (hf : ∀ p, (f p).view = f p.view) (q : ℕ) :
    (t.update pid f).view q = if q = pid then (t.view pid).map f else t.view q := by
  unfold view
  rw [getElem?_procs_update]
  split_ifs with h
  · rw [map_map, map_map, show Process.view ∘ f = f ∘ Process.view from funext hf]
  · rfl

theorem view_wake (t : ProcessTable) (pid q : ℕ) :
    (t.wake pid).view q = if q = pid then (t.view pid).map Process.woken else t.view q := by
  have hcomm : Process.view ∘ Process.woken = Process.woken ∘ Process.view := by
    funext p
    unfold Process.woken Process.view
    dsimp only [Function.comp_apply]
    split_ifs <;> rfl
  unfold view
  rw [getElem?_procs_wake]
  split_ifs with h
  · rw [map_map, map_map, hcomm]
  · rfl

theorem view_erase (t : ProcessTable) (pid q : ℕ) :
    view { t with procs := t.procs.erase pid } q = if q = pid then none else t.view q := by
  have h := congrFun (TreeMap.getElem?_erase_eq_update t.procs pid) q
  rw [Function.update_apply] at h
  unfold view
  rw [h]
  split_ifs <;> rfl

theorem view_exit (t : ProcessTable) (pid parent : ℕ) (code : ℤ) (q : ℕ) :
    (t.exit pid parent code).view q = (t.view q).map fun v =>
      (if q = parent then Process.woken ∘ Process.told pid code else id) ((if q = pid then Process.zombified code else id) v) := by
  unfold exit
  have htold := view_update_of_comm (t.update pid (Process.zombified code)) parent (Process.told pid code) fun _ => rfl
  have hzombie := view_update_of_comm t pid (Process.zombified code) fun _ => rfl
  rw [view_wake, htold, htold, hzombie, hzombie]
  by_cases hq : q = parent
  · subst hq
    by_cases hp : q = pid
    · subst hp
      simp [Function.comp_def]
    · simp [hp, Function.comp_def]
  · by_cases hp : q = pid
    · subst hp
      simp [hq]
    · simp [hq, hp]

theorem view_save (t : ProcessTable) (frame : TrapFrame) (q : ℕ) : (t.save frame).view q =
    (t.view q).map (if q = t.current ∧ t.current ≠ 0 then Process.withFrame frame else id) := by
  unfold save
  by_cases h0 : t.current = 0
  · simp [h0]
  · rw [if_neg h0]
    cases hcur : t.procs[t.current]? with
    | none =>
      have hnone : t.view t.current = none := by simp [view, hcur]
      by_cases hq : q = t.current
      · simp [hq, hnone]
      · simp [hq]
    | some cur =>
      have hup : (t.update t.current (Process.withFrame frame)).view q =
          (t.view q).map (if q = t.current ∧ t.current ≠ 0 then Process.withFrame frame else id) := by
        rw [view_update_of_comm t t.current (Process.withFrame frame) fun _ => rfl]
        by_cases hq : q = t.current
        · subst hq
          simp [h0]
        · simp [hq]
      dsimp only
      by_cases hrun : cur.state = .runnable
      · rw [if_pos hrun]
        exact hup
      · rw [if_neg hrun]
        exact hup

theorem runnable_save (t : ProcessTable) (frame : TrapFrame) : (t.save frame).runnable =
    t.runnable ++ if t.current ≠ 0 ∧ t.stateOf t.current = some .runnable then [t.current] else [] := by
  unfold save stateOf
  by_cases h0 : t.current = 0
  · simp [h0]
  · rw [if_neg h0]
    cases hcur : t.procs[t.current]? with
    | none => simp
    | some cur =>
      by_cases hrun : cur.state = .runnable
      · simp [h0, hrun]
      · simp [hrun]

/-! ### Choosing the next process -/

theorem pickLoop_eq_some {pid : ℕ} : ∀ {q : List ℕ}, (t.pickLoop q).1 = some pid →
    t.stateOf pid = some .runnable ∧
      ∃ skipped, q = skipped ++ pid :: (t.pickLoop q).2 ∧ ∀ x ∈ skipped, t.stateOf x ≠ some .runnable
  | [], h => by cases h
  | x :: rest, h => by
    unfold pickLoop at h ⊢
    by_cases hx : t.stateOf x = some .runnable
    · rw [if_pos hx] at h ⊢
      obtain rfl : x = pid := Option.some.inj h
      exact ⟨hx, [], rfl, by simp⟩
    · rw [if_neg hx] at h ⊢
      obtain ⟨hpid, skipped, hq, hall⟩ := pickLoop_eq_some h
      refine ⟨hpid, x :: skipped, by rw [List.cons_append, ← hq], ?_⟩
      simpa [hx] using hall

theorem pickLoop_eq_none : ∀ {q : List ℕ}, (t.pickLoop q).1 = none →
    (t.pickLoop q).2 = [] ∧ ∀ x ∈ q, t.stateOf x ≠ some .runnable
  | [], _ => ⟨rfl, by simp⟩
  | x :: rest, h => by
    unfold pickLoop at h ⊢
    by_cases hx : t.stateOf x = some .runnable
    · rw [if_pos hx] at h
      cases h
    · rw [if_neg hx] at h ⊢
      obtain ⟨hrest, hall⟩ := pickLoop_eq_none h
      exact ⟨hrest, by simpa [hx] using hall⟩

end ProcessTable

end RustKernel.Task
