import Mathlib.Data.Finset.Card
import RustKernel.Lib.Exec
import RustKernel.Lib.Run

/-!
# The executor of the async tasks

`Executor` and `queue_task` of `task/executor.rs`. Ready tasks are kept twice: their ids are in the bounded queue
`task_queue`, and in the set `queued_tasks` so that nobody queues a task twice.
-/

namespace RustKernel.Async

open Lib

def CAPACITY : ℕ := 256

inductive Caller where
  | spawn
  | drain
  deriving DecidableEq

inductive Pc where
  | outside
  | mark (id : ℕ) (caller : Caller)
  | push (id : ℕ) (caller : Caller)
  | undo (id : ℕ) (caller : Caller)
  | drain
  | pop
  | unmark (id : ℕ)
  | poll (id : ℕ)
  | polling (id : ℕ)
  | sleep
  | panicked
  deriving DecidableEq

def Caller.ret : Caller → Pc
  | .spawn => .outside
  | .drain => .drain

structure Executor where
  tasks : Finset ℕ
  queue : List ℕ
  queued : Finset ℕ
  spawnQueue : List ℕ
  taskCount : ℕ
  created : ℕ
  wakers : Finset ℕ
  pending : Finset ℕ
  pc : Pc

def Executor.new : Executor :=
  { tasks := ∅, queue := [], queued := ∅, spawnQueue := [], taskCount := 0, created := 0, wakers := ∅, pending := ∅,
    pc := .outside }

namespace Executor

def nextId (s : Executor) : ℕ := s.created % 2 ^ 64

def spawn (s : Executor) : Executor :=
  let id := s.nextId
  if id ∈ s.tasks then { s with created := s.created + 1, pc := .panicked }
  else { s with
    created := s.created + 1, tasks := insert id s.tasks, taskCount := s.taskCount + 1, pc := .mark id .spawn }

def spawnGlobal (s : Executor) : Executor :=
  { s with created := s.created + 1, spawnQueue := s.spawnQueue ++ [s.nextId] }

def wake (id : ℕ) (s : Executor) : Executor :=
  let s := { s with pending := insert id s.pending }
  if id ∈ s.queued then s
  else if s.queue.length < CAPACITY then { s with queued := insert id s.queued, queue := s.queue ++ [id] }
  else s

def cpu (ready : Bool) (s : Executor) : Option Executor :=
  match s.pc with
  | .outside | .panicked => none
  | .mark id k =>
    if id ∈ s.queued then some { s with pending := insert id s.pending, pc := k.ret }
    else some { s with queued := insert id s.queued, pc := .push id k }
  | .push id k =>
    if s.queue.length < CAPACITY then
      some { s with queue := s.queue ++ [id], pending := insert id s.pending, pc := k.ret }
    else some { s with pc := .undo id k }
  | .undo id k =>
    let s := { s with queued := s.queued.erase id, pending := insert id s.pending }
    match k with
    | .spawn => some { s with pc := .panicked }
    | .drain => some { s with pc := .drain }
  | .drain =>
    match s.spawnQueue with
    | [] => some { s with pc := .pop }
    | id :: rest =>
      if id ∈ s.tasks then some { s with spawnQueue := rest }
      else some { s with
        spawnQueue := rest, tasks := insert id s.tasks, taskCount := s.taskCount + 1, pc := .mark id .drain }
  | .pop =>
    match s.queue with
    | [] => some { s with pc := .sleep }
    | id :: rest => some { s with queue := rest, pc := .unmark id }
  | .unmark id => some { s with queued := s.queued.erase id, pc := .poll id }
  | .poll id =>
    if id ∈ s.tasks then
      some { s with wakers := insert id s.wakers, pending := s.pending.erase id, pc := .polling id }
    else some { s with pc := .pop }
  | .polling id =>
    if ready then some { s with tasks := s.tasks.erase id, taskCount := s.taskCount - 1, pc := .pop }
    else some { s with pc := .pop }
  | .sleep => some { s with pc := .drain }

def draining (s : Executor) : Bool :=
  match s.pc with
  | .drain | .mark _ .drain | .push _ .drain | .undo _ .drain => true
  | _ => false

end Executor

inductive Event where
  | spawn
  | run
  | spawnGlobal
  | cpu (ready : Bool)
  | wake (id : ℕ)

def step (s : Executor) : Event → Option Executor
  | .spawn => if s.pc = .outside then some s.spawn else none
  | .run => if s.pc = .outside then some { s with pc := .drain } else none
  | .spawnGlobal => if s.pc ≠ .panicked ∧ s.draining = false then some s.spawnGlobal else none
  | .cpu ready => s.cpu ready
  | .wake id => if s.pc ≠ .panicked ∧ id ∈ s.wakers then some (s.wake id) else none

def Fits (s : Executor) : Prop := (s.tasks ∪ s.queue.toFinset).card ≤ CAPACITY ∧ s.created < 2 ^ 64
deriving Decidable

def NotLost (s : Executor) : Prop :=
  ∀ id ∈ s.pending, id ∈ s.tasks → id ∈ s.queue ∨ s.pc = .unmark id ∨ s.pc = .poll id

/-! ### The invariant -/

structure New (s : Executor) (id : ℕ) : Prop where
  tasks : id ∉ s.tasks
  queued : id ∉ s.queued
  wakers : id ∉ s.wakers
  pending : id ∉ s.pending

structure Sound (s : Executor) : Prop where
  nodup : s.queue.Nodup
  marked : ∀ id ∈ s.queue, id ∈ s.queued
  inQueue : ∀ id ∈ s.queued, id ∈ s.queue ∨ s.pc = .unmark id ∨ ∃ k, s.pc = .push id k
  popped : ∀ id, s.pc = .unmark id → id ∉ s.queue ∧ id ∈ s.queued
  marking : ∀ id k, s.pc = .mark id k → id ∈ s.tasks ∧ id ∉ s.queued ∧ id ∉ s.wakers ∧ id ∉ s.pending ∧ id ∉ s.spawnQueue
  pushing : ∀ id k, s.pc = .push id k → id ∈ s.tasks ∧ id ∉ s.queue ∧ id ∈ s.queued ∧ id ∉ s.wakers ∧ id ∉ s.pending ∧
    id ∉ s.spawnQueue
  undoing : ∀ id k, s.pc ≠ .undo id k
  known : ∀ id, (id ∈ s.tasks ∨ id ∈ s.queued ∨ id ∈ s.wakers ∨ id ∈ s.pending ∨ id ∈ s.spawnQueue) → id < s.created
  waiting : ∀ id ∈ s.spawnQueue, New s id
  spawned : s.spawnQueue.Nodup
  notLost : NotLost s
  calm : s.pc ≠ .panicked

theorem sound_new : Sound Executor.new := by constructor <;> simp [Executor.new, NotLost]

namespace Sound

variable {s s' : Executor}
variable {id : ℕ} {k : Caller} {rest : List ℕ}

section

variable (h : Sound s)
include h

section

variable (hfits : Fits s)
include hfits

theorem room (htask : id ∈ s.tasks) (hqueue : id ∉ s.queue) : s.queue.length < CAPACITY := by
  have hsub : insert id s.queue.toFinset ⊆ s.tasks ∪ s.queue.toFinset := by
    intro j hj
    rcases Finset.mem_insert.mp hj with rfl | hj
    · exact Finset.mem_union_left _ htask
    · exact Finset.mem_union_right _ hj
  have hcard := (Finset.card_le_card hsub).trans hfits.1
  rw [Finset.card_insert_of_notMem (by simpa using hqueue), List.toFinset_card_of_nodup h.nodup] at hcard
  omega

theorem nextId : s.nextId = s.created ∧ New s s.created ∧ s.created ∉ s.spawnQueue := by
  have hlt : ∀ {P : Prop}, (P → s.created < s.created) → ¬ P := fun hP hp => lt_irrefl _ (hP hp)
  refine ⟨Nat.mod_eq_of_lt hfits.2, ⟨?_, ?_, ?_, ?_⟩, ?_⟩ <;> refine hlt fun hmem => h.known _ ?_ <;> simp [hmem]

theorem spawn (hpc : s.pc = .outside) : Sound s.spawn := by
  obtain ⟨hid, hnew, hwait⟩ := h.nextId hfits
  simp only [Executor.spawn, hid, if_neg hnew.tasks]
  constructor <;> grind [Sound, New, NotLost]

theorem spawnGlobal : Sound s.spawnGlobal := by
  obtain ⟨hid, hnew, hwait⟩ := h.nextId hfits
  simp only [Executor.spawnGlobal]
  constructor <;> grind [Sound, New, NotLost]

theorem wake (hwaker : id ∈ s.wakers) : Sound (s.wake id) := by
  have hroom : id ∈ s.tasks → id ∉ s.queued → s.queue.length < CAPACITY :=
    fun htask hqueued => h.room hfits htask fun hmem => hqueued (h.marked id hmem)
  unfold Executor.wake
  dsimp only
  split_ifs with hqueued hlength
  · constructor <;> grind [Sound, New, NotLost]
  · constructor <;> grind [Sound, New, NotLost]
  · constructor <;> grind [Sound, New, NotLost]

end

theorem mark (hpc : s.pc = .mark id k) : Sound { s with queued := insert id s.queued, pc := .push id k } := by
  constructor
  case inQueue =>
    intro j hj
    rcases Finset.mem_insert.mp hj with rfl | hj
    · exact Or.inr (Or.inr ⟨k, rfl⟩)
    · have hqueue := h.inQueue j hj
      simp only [hpc, reduceCtorEq, exists_false, or_false] at hqueue
      exact Or.inl hqueue
  all_goals grind [Sound, New, NotLost]

theorem push (hpc : s.pc = .push id k) :
    Sound { s with queue := s.queue ++ [id], pending := insert id s.pending, pc := k.ret } := by
  cases k <;> constructor <;> grind [Sound, New, NotLost, Caller.ret]

theorem drain (hpc : s.pc = .drain) (hspawn : s.spawnQueue = id :: rest) (n : ℕ) :
    Sound { s with spawnQueue := rest, tasks := insert id s.tasks, taskCount := n, pc := .mark id .drain } := by
  constructor <;> grind [Sound, New, NotLost]

theorem pop (hpc : s.pc = .pop) (hqueue : s.queue = id :: rest) :
    Sound { s with queue := rest, pc := .unmark id } := by
  constructor <;> grind [Sound, New, NotLost]

theorem unmark (hpc : s.pc = .unmark id) : Sound { s with queued := s.queued.erase id, pc := .poll id } := by
  constructor <;> grind [Sound, New, NotLost]

theorem poll (hpc : s.pc = .poll id) (htask : id ∈ s.tasks) :
    Sound { s with wakers := insert id s.wakers, pending := s.pending.erase id, pc := .polling id } := by
  constructor <;> grind [Sound, New, NotLost]

theorem finish (hpc : s.pc = .polling id) (n : ℕ) :
    Sound { s with tasks := s.tasks.erase id, taskCount := n, pc := .pop } := by
  constructor <;> grind [Sound, New, NotLost]

theorem goTo {pc : Pc} (hto : pc = .drain ∨ pc = .pop ∨ pc = .sleep)
    (hfrom : s.pc = .outside ∨ s.pc = .drain ∨ s.pc = .pop ∨ s.pc = .sleep ∨
      ∃ id, s.pc = .polling id ∨ (s.pc = .poll id ∧ id ∉ s.tasks)) :
    Sound { s with pc := pc } := by
  constructor <;> grind [Sound, New, NotLost]

theorem cpu (hfits : Fits s) {ready : Bool} (hcpu : s.cpu ready = some s') : Sound s' := by
  unfold Executor.cpu at hcpu
  split at hcpu
  case h_1 | h_2 => exact absurd hcpu (by simp)
  case h_3 id k hpc =>
    rw [if_neg (h.marking id k hpc).2.1, Option.some.injEq] at hcpu
    exact hcpu ▸ h.mark hpc
  case h_4 id k hpc =>
    have hpush := h.pushing id k hpc
    rw [if_pos (h.room hfits hpush.1 hpush.2.1), Option.some.injEq] at hcpu
    exact hcpu ▸ h.push hpc
  case h_5 id k hpc => exact absurd hpc (h.undoing id k)
  case h_6 hpc =>
    split at hcpu
    case h_1 => exact Option.some.inj hcpu ▸ h.goTo (Or.inr (Or.inl rfl)) (by simp [hpc])
    case h_2 id rest hspawn =>
      rw [if_neg (h.waiting id (by simp [hspawn])).tasks, Option.some.injEq] at hcpu
      exact hcpu ▸ h.drain hpc hspawn _
  case h_7 hpc =>
    split at hcpu
    case h_1 => exact Option.some.inj hcpu ▸ h.goTo (Or.inr (Or.inr rfl)) (by simp [hpc])
    case h_2 id rest hqueue => exact Option.some.inj hcpu ▸ h.pop hpc hqueue
  case h_8 id hpc => exact Option.some.inj hcpu ▸ h.unmark hpc
  case h_9 id hpc =>
    split_ifs at hcpu with htask
    · exact Option.some.inj hcpu ▸ h.poll hpc htask
    · exact Option.some.inj hcpu ▸ h.goTo (Or.inr (Or.inl rfl)) (by simp [hpc, htask])
  case h_10 id hpc =>
    split_ifs at hcpu
    · exact Option.some.inj hcpu ▸ h.finish hpc _
    · exact Option.some.inj hcpu ▸ h.goTo (Or.inr (Or.inl rfl)) (by simp [hpc])
  case h_11 hpc => exact Option.some.inj hcpu ▸ h.goTo (Or.inl rfl) (by simp [hpc])

theorem step (hfits : Fits s) {e : Event} (hstep : step s e = some s') : Sound s' := by
  cases e with
  | spawn =>
    obtain ⟨hpc, rfl⟩ := by simpa only [Async.step, Option.ite_none_right_eq_some, Option.some.injEq] using hstep
    exact h.spawn hfits hpc
  | run =>
    obtain ⟨hpc, rfl⟩ := by simpa only [Async.step, Option.ite_none_right_eq_some, Option.some.injEq] using hstep
    exact h.goTo (Or.inl rfl) (Or.inl hpc)
  | spawnGlobal =>
    obtain ⟨_, rfl⟩ := by simpa only [Async.step, Option.ite_none_right_eq_some, Option.some.injEq] using hstep
    exact h.spawnGlobal hfits
  | cpu ready => exact h.cpu hfits hstep
  | wake id =>
    obtain ⟨⟨_, hwaker⟩, rfl⟩ := by simpa only [Async.step, Option.ite_none_right_eq_some, Option.some.injEq] using hstep
    exact h.wake hfits hwaker

end

end Sound

/-! ### Runs -/

/-- **No wake-up and no spawned task is lost while the queue can hold all tasks**, however the interrupts fall between the
operations of the executor; no task is queued twice, and `spawn` does not panic. -/
theorem no_wakeup_lost {tr : List (Executor × Event)} {s : Executor} (h : Run step Executor.new tr s)
    (hfits : ∀ p ∈ tr, Fits p.1) : NotLost s ∧ s.queue.Nodup ∧ s.pc ≠ .panicked := by
  have hsound : Sound s := h.invariant (K := fun s _ => Fits s) sound_new hfits
    (fun s e t hs hK hstep => hs.step hK hstep)
  exact ⟨hsound.notLost, hsound.nodup, hsound.calm⟩

/-- Two tasks, each woken while it is polled, the first of them twice. -/
theorem no_wakeup_lost_two : ∃ tr s, Run step Executor.new tr s ∧ (∀ p ∈ tr, Fits p.1) ∧ s.queue = [0, 1] ∧
    s.pending = {0, 1} ∧ NotLost s ∧ s.queue.Nodup ∧ s.pc ≠ .panicked := by
  have hfinal : (exec step (fun s _ => Fits s) Executor.new
      ([.spawn, .cpu false, .cpu false, .spawnGlobal, .run] ++ List.replicate 7 (.cpu false) ++ [.wake 0] ++
        List.replicate 4 (.cpu false) ++ [.wake 0, .wake 1])).any fun s => s.queue = [0, 1] ∧ s.pending = {0, 1} := by
    decide +kernel
  obtain ⟨tr, s, hrun, hfits, hqueue, hpending⟩ := exists_run_of_any hfinal
  exact ⟨tr, s, hrun, hfits, hqueue, hpending, no_wakeup_lost hrun hfits⟩

def spawned (n : ℕ) : Executor :=
  { tasks := Finset.range n, queue := List.range n, queued := Finset.range n, spawnQueue := [], taskCount := n, created := n,
    wakers := ∅, pending := Finset.range n, pc := .outside }

theorem nextId_of_created {s : Executor} {n : ℕ} (hs : s.created = n) (hn : n ≤ CAPACITY) : s.nextId = n := by
  rw [Executor.nextId, hs]
  exact Nat.mod_eq_of_lt (lt_of_le_of_lt hn (by decide))

theorem run_spawned (n : ℕ) (hn : n ≤ CAPACITY) : ∃ tr, Run step Executor.new tr (spawned n) := by
  induction n with
  | zero => exact ⟨[], .nil⟩
  | succ n ih =>
    obtain ⟨tr, hrun⟩ := ih (by omega)
    have hcap : n < CAPACITY := hn
    have hid : ∀ s : Executor, s.created = n → s.nextId = n := fun s hs => nextId_of_created hs hcap.le
    have hexec : exec step (fun _ _ => True) (spawned n) [.spawn, .cpu false, .cpu false] = some (spawned (n + 1)) := by
      simp [exec, step, Executor.spawn, Executor.cpu, spawned, hid, hcap, Caller.ret, Finset.range_add_one, List.range_succ]
    exact ⟨_, hrun.append (run_of_exec hexec).1⟩

/-- **The 257th task**: `Executor::spawn` panics, and a task that comes through `SPAWN_QUEUE` is in the map and never
queued. -/
theorem full_queue_loses_task : (∃ tr s, Run step Executor.new tr s ∧ s.pc = .panicked) ∧
    ∃ tr s, Run step Executor.new tr s ∧ 256 ∈ s.pending ∧ 256 ∈ s.tasks ∧ 256 ∉ s.queue ∧ s.pc = .drain := by
  obtain ⟨tr, hrun⟩ := run_spawned CAPACITY le_rfl
  have hid : ∀ s : Executor, s.created = 256 → s.nextId = 256 := fun s hs => nextId_of_created hs le_rfl
  have hpanic : (exec step (fun _ _ => True) (spawned CAPACITY) [.spawn, .cpu false, .cpu false, .cpu false]).any
      fun s => s.pc = .panicked := by
    simp [exec, step, Executor.spawn, Executor.cpu, spawned, CAPACITY, hid]
  have hlost : (exec step (fun _ _ => True) (spawned CAPACITY)
      [.spawnGlobal, .run, .cpu false, .cpu false, .cpu false, .cpu false]).any
      fun s => 256 ∈ s.pending ∧ 256 ∈ s.tasks ∧ 256 ∉ s.queue ∧ s.pc = .drain := by
    simp [exec, step, Executor.spawnGlobal, Executor.draining, Executor.cpu, spawned, CAPACITY, hid]
  obtain ⟨tr₁, s₁, hrun₁, -, hs₁⟩ := exists_run_of_any hpanic
  obtain ⟨tr₂, s₂, hrun₂, -, hs₂⟩ := exists_run_of_any hlost
  exact ⟨⟨_, s₁, hrun.append hrun₁, hs₁⟩, _, s₂, hrun.append hrun₂, hs₂⟩

end RustKernel.Async
