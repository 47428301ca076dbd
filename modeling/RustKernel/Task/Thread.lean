import Mathlib.Data.List.Rotate
import RustKernel.Lib.Exec
import RustKernel.Lib.RoundRobin
import RustKernel.Lib.Run
import RustKernel.Lib.TreeMap

/-!
# Kernel threads

`task/thread.rs`: the cooperative threads of the kernel, scheduled in turn from one vector.
-/

namespace RustKernel.Threads

open Lib Exec

variable {cur : ℕ}

inductive ThreadState where
  | runnable
  | running
  | finished
  deriving DecidableEq

structure Thread where
  serial : ℕ
  name : String
  state : ThreadState
  rsp : ℕ
  deriving DecidableEq

def Thread.id (t : Thread) : ℕ := t.serial % 2 ^ 64

structure Scheduler where
  threads : List Thread
  current : ℕ
  deriving DecidableEq

namespace Scheduler

def new : Scheduler := { threads := [], current := 0 }

def markCurrentFinished (s : Scheduler) : Scheduler :=
  { s with threads := s.threads.modify s.current fun t => { t with state := .finished } }

def stepDown (t : Thread) : Thread := if t.state = .running then { t with state := .runnable } else t

def pickNext {ε : Type} : Exec ε Scheduler (Option (ℕ × ℕ)) := do
  let s ← Exec.get
  let n := s.threads.length
  if n < 2 then pure none
  else
    match (List.range' 1 n).find? fun offset => (s.threads[(s.current + offset) % n]?).any (·.state = .runnable) with
    | none => pure none
    | some offset => do
      let idx := (s.current + offset) % n
      let old ← Exec.expect s.threads[s.current]?
      let threads := s.threads.set s.current (stepDown old)
      let next ← Exec.expect threads[idx]?
      Exec.modify fun s => { s with threads := threads.set idx { next with state := .running }, current := idx }
      pure (some (s.current, next.rsp))

def spawn (thread : Thread) (s : Scheduler) : Scheduler :=
  let threads := s.threads ++ [thread]
  -- the first thread is the one that runs
  if threads.length = 1 then { threads := threads.modify 0 fun t => { t with state := .running }, current := 0 }
  else { s with threads }

end Scheduler

def retainWithIndex {α σ : Type} (f : ℕ → α → σ → Bool × σ) : ℕ → List α → σ → List α × σ
  | _, [], st => ([], st)
  | i, x :: xs, st =>
    let k := f i x st
    let rest := retainWithIndex f (i + 1) xs k.2
    (if k.1 then x :: rest.1 else rest.1, rest.2)

abbrev EntryPoints := Std.ExtTreeMap ℕ ℕ

def reapOne (cur i : ℕ) (t : Thread) (st : ℕ × EntryPoints) : Bool × ℕ × EntryPoints :=
  if t.state = .finished ∧ i ≠ cur then (false, if i < cur then st.1 + 1 else st.1, st.2.erase t.id) else (true, st)

inductive Phase where
  | running
  | exiting
  | panicked
  deriving DecidableEq

structure System where
  sched : Scheduler
  entryPoints : EntryPoints
  nextSerial : ℕ
  rsp : ℕ
  phase : Phase

namespace System

def boot : System := { sched := .new, entryPoints := ∅, nextSerial := 1, rsp := 0, phase := .running }

def initAsMain (s : System) : System :=
  if s.sched.threads.isEmpty then
    { s with sched := { threads := [{ serial := 0, name := "main", state := .running, rsp := 0 }], current := 0 } }
  else s

def spawn (name : String) (entry rsp : ℕ) (s : System) : System :=
  let thread : Thread := { serial := s.nextSerial, name, state := .runnable, rsp }
  { s with
    sched := s.sched.spawn thread
    entryPoints := s.entryPoints.insert thread.id entry
    nextSerial := s.nextSerial + 1 }

def contextSwitch (old newRsp sp : ℕ) (s : System) : System :=
  { s with
    sched := { s.sched with threads := s.sched.threads.modify old fun t => { t with rsp := sp } }
    rsp := newRsp }

def goOn (s : System) : System := if s.phase = .exiting then { s with phase := .panicked } else s

def yieldNow (sp : ℕ) (s : System) : System :=
  match (Scheduler.pickNext s.sched : Outcome Empty _ _) with
  | .ok none sched => goOn { s with sched }
  | .ok (some (old, newRsp)) sched => contextSwitch old newRsp sp { s with sched, phase := .running }
  | _ => { s with phase := .panicked }

def reap (s : System) : System :=
  let kept := retainWithIndex (reapOne s.sched.current) 0 s.sched.threads (0, s.entryPoints)
  if kept.2.1 ≤ s.sched.current then
    { s with sched := { threads := kept.1, current := s.sched.current - kept.2.1 }, entryPoints := kept.2.2 }
  else { s with phase := .panicked }

def exit (s : System) : System := { s with sched := s.sched.markCurrentFinished, phase := .exiting }

def current? (s : System) : Option Thread := s.sched.threads[s.sched.current]?

end System

inductive Event where
  | spawn (name : String) (entry rsp : ℕ)
  | yieldNow (sp : ℕ)
  | reap
  | exit

def step (s : System) : Event → Option System
  | .spawn name entry rsp => if s.phase = .running then some (s.spawn name entry rsp) else none
  | .yieldNow sp => if s.phase = .panicked then none else some (s.yieldNow sp)
  | .reap => if s.phase = .running then some s.reap else none
  | .exit => if s.phase = .running then some s.exit else none

def selected (s : System) : Event → Option ℕ
  | .yieldNow sp =>
    match (Scheduler.pickNext s.sched : Outcome Empty _ _) with
    | .ok (some _) _ => (s.yieldNow sp).current?.map Thread.serial
    | _ => none
  | _ => none

def selections (tr : List (System × Event)) : List ℕ := tr.filterMap fun x => selected x.1 x.2

/-! ### Picking the next thread -/

namespace Scheduler

variable {s s' : Scheduler} {ε : Type} {t : Thread} {i : ℕ}

def order (s : Scheduler) : List Thread := s.threads.rotate (s.current + 1)

def queue (s : Scheduler) : List ℕ := s.order.map Thread.serial

theorem queue_eq (s : Scheduler) : s.queue = (s.threads.map Thread.serial).rotate (s.current + 1) := by
  rw [queue, order, List.map_rotate]

theorem mem_order : t ∈ s.order ↔ t ∈ s.threads := List.mem_rotate

theorem getElem?_order {k : ℕ} (hk : k < s.threads.length) :
    s.order[k]? = s.threads[(s.current + (k + 1)) % s.threads.length]? := by
  rw [order, List.getElem?_rotate hk]
  congr 2
  omega

theorem order_of_cut {before behind : List Thread} (h : s.threads = before ++ t :: behind)
    (hcur : s.current = before.length) : s.order = behind ++ (before ++ [t]) := by
  have hlen : s.current + 1 = (before ++ [t]).length := by simp [hcur]
  have hcut : s.threads = (before ++ [t]) ++ behind := by simp [h]
  rw [order, hlen, hcut, List.rotate_append_length_eq]

structure Selects (s : Scheduler) (old next : Thread) (pre post : List Thread) (s' : Scheduler) : Prop where
  left : s.threads[s.current]? = some old
  order_eq : s.order = pre ++ next :: post
  passed : ∀ t ∈ pre, t.state ≠ .runnable
  runnable : next.state = .runnable
  place : s.threads[s'.current]? = some next
  moved : s'.current ≠ s.current
  current_eq : s'.current = (s.current + (pre.length + 1)) % s.threads.length
  threads_eq : s'.threads = (s.threads.set s.current (stepDown old)).set s'.current { next with state := .running }

theorem pickNext_cases {old : Thread} (hold : s.threads[s.current]? = some old) (hrun : old.state ≠ .runnable) :
    (pickNext s = (.ok none s : Outcome ε _ _) ∧ ∀ t ∈ s.threads, t.state ≠ .runnable) ∨ ∃ next pre post s',
    pickNext s = (.ok (some (s.current, next.rsp)) s' : Outcome ε _ _) ∧ s.Selects old next pre post s' := by
  obtain ⟨hlt, hget⟩ := List.getElem?_eq_some_iff.mp hold
  unfold pickNext
  rw [get_bind]
  by_cases hn : s.threads.length < 2
  · -- only the current thread is there
    rw [if_pos hn]
    refine .inl ⟨rfl, fun t ht => ?_⟩
    obtain ⟨i, hi, rfl⟩ := List.getElem_of_mem ht
    have hic : i = s.current := by omega
    subst hic
    rwa [hget]
  · rw [if_neg hn]
    cases hfind : (List.range' 1 s.threads.length).find? fun offset =>
        (s.threads[(s.current + offset) % s.threads.length]?).any (·.state = .runnable) with
    | none =>
      refine .inl ⟨rfl, fun t ht hstate => ?_⟩
      obtain ⟨k, hk, htk⟩ := List.getElem_of_mem (mem_order.mpr ht)
      have hk' : k < s.threads.length := by simpa [order] using hk
      have hnone := List.find?_eq_none.mp hfind (k + 1) (List.mem_range'_1.mpr ⟨by omega, by omega⟩)
      rw [← getElem?_order hk', List.getElem?_eq_getElem hk, htk] at hnone
      simp [hstate] at hnone
    | some offset =>
      obtain ⟨hp, hmem, hbefore⟩ := List.find?_range'_eq_some.mp hfind
      obtain ⟨h1, hle⟩ : 1 ≤ offset ∧ offset < 1 + s.threads.length := by simpa using hmem
      obtain ⟨k, rfl⟩ : ∃ k, offset = k + 1 := ⟨offset - 1, by omega⟩
      have hk : k < s.threads.length := by omega
      have hk' : k < s.order.length := by simpa [order] using hk
      rw [← getElem?_order hk, List.getElem?_eq_getElem hk'] at hp
      have hrunnable : s.order[k].state = .runnable := by simpa using hp
      have hplace : s.threads[(s.current + (k + 1)) % s.threads.length]? = some s.order[k] := by
        rw [← getElem?_order hk, List.getElem?_eq_getElem hk']
      have hmoved : (s.current + (k + 1)) % s.threads.length ≠ s.current := by
        intro h
        rw [h, hold, Option.some.injEq] at hplace
        exact hrun (hplace ▸ hrunnable)
      let idx := (s.current + (k + 1)) % s.threads.length
      let s' : Scheduler := { threads := (s.threads.set s.current (stepDown old)).set idx { s.order[k] with state := .running },
                              current := idx }
      refine .inr ⟨s.order[k], s.order.take k, s.order.drop (k + 1), s', ?_, ?_⟩
      · dsimp only
        rw [hold, expect_some, pure_bind, List.getElem?_set_ne hmoved.symm, hplace, expect_some, pure_bind, modify_bind]
        rfl
      · refine ⟨hold, ?_, ?_, hrunnable, hplace, hmoved, ?_, rfl⟩
        · rw [← List.drop_eq_getElem_cons hk', List.take_append_drop]
        · intro t ht hstate
          obtain ⟨j, hj, rfl⟩ := List.getElem_of_mem ht
          rw [List.length_take] at hj
          have hj' : j < s.threads.length := by omega
          have hnot := hbefore (j + 1) (by omega) (by omega)
          rw [← getElem?_order hj', List.getElem?_eq_getElem (by omega)] at hnot
          rw [List.getElem_take] at hstate
          simp [hstate] at hnot
        · rw [List.length_take, Nat.min_eq_left hk'.le]

theorem map_set_of_eq {α β : Type} {f : α → β} {l : List α} {a b : α} (h : l[i]? = some a) (hf : f b = f a) :
    (l.set i b).map f = l.map f := by
  obtain ⟨hi, rfl⟩ := List.getElem?_eq_some_iff.mp h
  rw [List.map_set, hf, ← List.getElem_map f (h := by simpa using hi), List.set_getElem_self]

theorem map_modify_of_eq {α β : Type} {f : α → β} {g : α → α} {l : List α} (hf : ∀ a, f (g a) = f a) :
    (l.modify i g).map f = l.map f := by
  refine List.ext_getElem? fun j => ?_
  rw [List.getElem?_map, List.getElem?_map, List.getElem?_modify]
  cases l[j]? with
  | none => rfl
  | some a => by_cases h : i = j <;> simp [h, hf]

@[simp] theorem stepDown_serial (t : Thread) : (stepDown t).serial = t.serial := by
  unfold stepDown
  split_ifs <;> rfl

namespace Selects

variable {old next : Thread} {pre post : List Thread}

theorem serials (h : s.Selects old next pre post s') : s'.threads.map Thread.serial = s.threads.map Thread.serial := by
  have hplace : (s.threads.set s.current (stepDown old))[s'.current]? = some next := by
    rw [List.getElem?_set_ne h.moved.symm, h.place]
  rw [h.threads_eq, map_set_of_eq hplace (by rfl), map_set_of_eq h.left (stepDown_serial old)]

theorem queue_eq (h : s.Selects old next pre post s') :
    s'.queue = post.map Thread.serial ++ pre.map Thread.serial ++ [next.serial] := by
  have hlen : (s.threads.map Thread.serial).length = s.threads.length := List.length_map _
  calc s'.queue
      = (s.threads.map Thread.serial).rotate (s'.current + 1) := by rw [Scheduler.queue_eq, h.serials]
    _ = (s.threads.map Thread.serial).rotate (s.current + 1 + (pre.length + 1)) := by
        rw [h.current_eq, ← List.rotate_mod _ (s.current + 1 + (pre.length + 1)), ← List.rotate_mod, hlen, Nat.mod_add_mod]
        congr 2
        omega
    _ = (s.queue).rotate (pre.length + 1) := by rw [← List.rotate_rotate, ← Scheduler.queue_eq]
    _ = ((pre.map Thread.serial ++ [next.serial]) ++ post.map Thread.serial).rotate
          (pre.map Thread.serial ++ [next.serial]).length := by
        rw [queue, h.order_eq]
        simp
    _ = post.map Thread.serial ++ pre.map Thread.serial ++ [next.serial] := by
        rw [List.rotate_append_length_eq, List.append_assoc]

end Selects

end Scheduler

/-! ### Reaping -/

def Thread.alive (t : Thread) : Bool := t.state ≠ .finished

theorem retainWithIndex_append {α σ : Type} (f : ℕ → α → σ → Bool × σ) (ys : List α) : ∀ (xs : List α) (i : ℕ) (st : σ),
    retainWithIndex f i (xs ++ ys) st =
      ((retainWithIndex f i xs st).1 ++ (retainWithIndex f (i + xs.length) ys (retainWithIndex f i xs st).2).1,
        (retainWithIndex f (i + xs.length) ys (retainWithIndex f i xs st).2).2)
  | [], i, st => by simp [retainWithIndex]
  | x :: xs, i, st => by
    have hlen : i + (x :: xs).length = i + 1 + xs.length := by
      rw [List.length_cons]
      omega
    rw [List.cons_append, retainWithIndex, retainWithIndex_append f ys xs, hlen]
    simp only [retainWithIndex]
    split_ifs <;> rfl

theorem reapOne_of_ne {i : ℕ} (t : Thread) (st : ℕ × EntryPoints) (h : i ≠ cur) :
    (reapOne cur i t st).1 = t.alive ∧ (reapOne cur i t st).2.1 = st.1 + if !t.alive && decide (i < cur) then 1 else 0 := by
  unfold reapOne Thread.alive
  by_cases hf : t.state = .finished
  · by_cases hi : i < cur <;> simp [hf, h, hi]
  · simp [hf]

theorem retain_before : ∀ (ts : List Thread) (i : ℕ) (st : ℕ × EntryPoints), i + ts.length ≤ cur →
    (retainWithIndex (reapOne cur) i ts st).1 = ts.filter Thread.alive ∧
      (retainWithIndex (reapOne cur) i ts st).2.1 + (ts.filter Thread.alive).length = st.1 + ts.length
  | [], i, st, _ => by simp [retainWithIndex]
  | t :: ts, i, st, h => by
    rw [List.length_cons] at h
    obtain ⟨hk, hn⟩ := reapOne_of_ne t st (show i ≠ cur by omega)
    obtain ⟨hrest, hcount⟩ := retain_before ts (i + 1) (reapOne cur i t st).2 (show i + 1 + ts.length ≤ cur by omega)
    have hi : i < cur := by omega
    simp only [retainWithIndex, hk, hrest, List.filter_cons, List.length_cons]
    rw [hn] at hcount
    cases ht : t.alive with
    | true =>
      simp only [ht, Bool.not_true, Bool.false_and, Bool.false_eq_true, if_false, if_true, List.length_cons] at hcount ⊢
      exact ⟨trivial, by omega⟩
    | false =>
      simp only [ht, hi, Bool.not_false, decide_true, Bool.and_self, Bool.false_eq_true, if_false, if_true] at hcount ⊢
      exact ⟨trivial, by omega⟩

theorem retain_behind : ∀ (ts : List Thread) (i : ℕ) (st : ℕ × EntryPoints), cur < i →
    (retainWithIndex (reapOne cur) i ts st).1 = ts.filter Thread.alive ∧ (retainWithIndex (reapOne cur) i ts st).2.1 = st.1
  | [], i, st, _ => by simp [retainWithIndex]
  | t :: ts, i, st, h => by
    obtain ⟨hk, hn⟩ := reapOne_of_ne t st (show i ≠ cur by omega)
    obtain ⟨hrest, hcount⟩ := retain_behind ts (i + 1) (reapOne cur i t st).2 (show cur < i + 1 by omega)
    have hi : ¬ i < cur := by omega
    simp only [retainWithIndex, hk, hrest, hcount, hn, hi, List.filter_cons, decide_false, Bool.and_false,
      Bool.false_eq_true, if_false, Nat.add_zero, and_self]

theorem reap_eq {s : System} {before behind : List Thread} {t : Thread}
    (h : s.sched.threads = before ++ t :: behind) (hcur : s.sched.current = before.length) :
    s.reap.sched = { threads := before.filter Thread.alive ++ t :: behind.filter Thread.alive,
                     current := (before.filter Thread.alive).length } ∧
      s.reap.phase = s.phase ∧ s.reap.nextSerial = s.nextSerial := by
  obtain ⟨hb, hcount⟩ := retain_before before 0 (0, s.entryPoints) (show 0 + before.length ≤ s.sched.current by omega)
  generalize hmid : retainWithIndex (reapOne s.sched.current) 0 before (0, s.entryPoints) = mid at hb hcount
  obtain ⟨hr, hsame⟩ := retain_behind behind (before.length + 1) mid.2 (show s.sched.current < before.length + 1 by omega)
  have hself : reapOne s.sched.current before.length t mid.2 = (true, mid.2) := by simp [reapOne, hcur]
  have hall : retainWithIndex (reapOne s.sched.current) 0 s.sched.threads (0, s.entryPoints) =
      (before.filter Thread.alive ++ t :: behind.filter Thread.alive,
        (retainWithIndex (reapOne s.sched.current) (before.length + 1) behind mid.2).2) := by
    rw [h, retainWithIndex_append, hmid, hb, Nat.zero_add, retainWithIndex, hself]
    simp only [hr, if_true]
  have hle : mid.2.1 ≤ s.sched.current := by omega
  have hnew : s.sched.current - mid.2.1 = (before.filter Thread.alive).length := by omega
  unfold System.reap
  simp only [hall, hsame]
  rw [if_pos hle, hnew]
  exact ⟨rfl, rfl, rfl⟩

end RustKernel.Threads
