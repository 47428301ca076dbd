import Mathlib.Algebra.Order.Ring.Nat
import Mathlib.Data.List.Nodup
import RustKernel.Lib.Exec
import RustKernel.Lib.Run

/-!
# Sleeping

`time/sleep.rs`. A `Sleep` that is polled before its deadline puts an entry with its waker into the list `TIMERS`; the timer
interrupt counts `NOW` up, and if nobody holds the lock of the list it wakes the entries that are due and takes them out.
-/

namespace RustKernel.Time

open Lib Exec

def TICKS_PER_SEC : ℕ := 100

structure TimerEntry where
  deadline : ℕ
  waker : ℕ
  fired : Bool
  sleep : ℕ

inductive Pc where
  | new
  | ready
  | pending
  | checked
  | pushing (entry : ℕ)
  | pushed (entry : ℕ)
  | released (entry : ℕ)
  | holding (entry : ℕ)
  | written (entry : ℕ)
deriving DecidableEq

structure Sleep where
  entry : Option ℕ
  deadline : ℕ
  task : ℕ
  pc : Pc
  since : ℕ

structure Board where
  now : ℕ
  timers : List ℕ
  entries : List TimerEntry
  log : List (ℕ × ℕ)

structure Timers extends Board where
  locked : Bool
  held : List ℕ
  sleeps : List Sleep

def start : Timers := { now := 0, timers := [], locked := false, entries := [], held := [], sleeps := [], log := [] }

namespace Timers

variable {ε : Type}

def fire (p : ℕ) (e : TimerEntry) (s : Timers) : Timers :=
  { s with entries := s.entries.set p { e with fired := true }, log := s.log ++ [(e.sleep, e.waker)] }

def retain (now : ℕ) : List ℕ → Exec ε Timers (List ℕ)
  | [] => pure []
  | p :: ps => do
    let s ← Exec.get
    let e ← Exec.expect s.entries[p]?
    if p ∈ s.held then Exec.diverge
    else if !e.fired && e.deadline ≤ now then do
      Exec.modify (fire p e)
      retain now ps
    else do
      let rest ← retain now ps
      pure (p :: rest)

def advance : Exec ε Timers Unit := do
  let s ← Exec.get
  Exec.modify fun s => { s with now := (s.now + 1) % 2 ^ 64 }
  let now ← Exec.add 64 s.now 1
  if s.locked then pure ()
  else do
    let kept ← retain now s.timers
    Exec.modify fun s => { s with timers := kept }

def sleepMs (ms task : ℕ) (s : Timers) : Timers :=
  let ticks := min (ms * TICKS_PER_SEC) (2 ^ 64 - 1) / 1000
  let deadline := min (s.now + max ticks 1) (2 ^ 64 - 1)
  { s with sleeps := s.sleeps ++ [{ entry := none, deadline, task, pc := .new, since := s.log.length }] }

def put (i : ℕ) (σ : Sleep) (s : Timers) : Timers := { s with sleeps := s.sleeps.set i σ }

def poll (i : ℕ) (s : Timers) : Option Timers := do
  let σ ← s.sleeps[i]?
  match σ.pc with
  | .new | .ready | .pending =>
    some (put i { σ with pc := if σ.deadline ≤ s.now then .ready else .checked, since := s.log.length } s)
  | _ => none

def pollStep (i : ℕ) (s : Timers) : Option Timers := do
  let σ ← s.sleeps[i]?
  match σ.pc, σ.entry with
  | .checked, none =>
    if s.locked then none
    else
      let e : TimerEntry := { deadline := σ.deadline, waker := σ.task, fired := false, sleep := i }
      some (put i { σ with pc := .pushing s.entries.length } { s with locked := true, entries := s.entries ++ [e] })
  | .pushing p, _ => some (put i { σ with pc := .pushed p } { s with timers := s.timers ++ [p] })
  | .pushed p, _ => some (put i { σ with pc := .released p } { s with locked := false })
  | .released p, _ => some (put i { σ with entry := some p, pc := .pending } s)
  | .checked, some p => if p ∈ s.held then none else some (put i { σ with pc := .holding p } { s with held := p :: s.held })
  | .holding p, _ =>
    some (put i { σ with pc := .written p } { s with entries := s.entries.modify p ({ · with waker := σ.task }) })
  | .written p, _ => some (put i { σ with pc := .pending } { s with held := s.held.erase p })
  | _, _ => none

end Timers

inductive Event where
  | sleepMs (ms task : ℕ)
  | poll (sleep : ℕ)
  | step (sleep : ℕ)
  | tick

def step (s : Timers) : Event → Option Timers
  | .sleepMs ms task => some (s.sleepMs ms task)
  | .poll i => s.poll i
  | .step i => s.pollStep i
  | .tick => (Timers.advance (ε := Empty) s).next (fun _ s' => s') (fun e _ => nomatch e)

/-! ### The invariant -/

def Sleep.made (σ : Sleep) : Option ℕ :=
  match σ.pc with
  | .pushing p | .pushed p | .released p => some p
  | _ => σ.entry

def Sleep.waits (σ : Sleep) : Prop := σ.pc ≠ .new ∧ σ.pc ≠ .ready

structure EntryOf (b : Board) (i : ℕ) (σ : Sleep) (p : ℕ) (e : TimerEntry) : Prop where
  sleep : e.sleep = i
  deadline : e.deadline = σ.deadline
  waker : e.waker = σ.task
  queued : e.fired = false → p ∈ b.timers ∨ σ.pc = .pushing p
  fired : e.fired = true → e.deadline ≤ b.now ∧ ∃ n, b.log[n]? = some (i, σ.task) ∧ (σ.waits → σ.since ≤ n)

structure Fine (b : Board) (i : ℕ) (σ : Sleep) : Prop where
  entry : ∀ p, σ.made = some p → ∃ e, b.entries[p]? = some e ∧ EntryOf b i σ p e
  since : σ.since ≤ b.log.length
  stored : σ.pc = .pending → σ.made ≠ none
  locks : ∀ p, σ.pc = .holding p ∨ σ.pc = .written p → σ.made = some p
  ready : σ.pc = .ready → σ.deadline ≤ b.now
  unqueued : ∀ p, σ.pc = .pushing p → p ∉ b.timers ∧ ∀ e : TimerEntry, b.entries[p]? = some e → e.fired = false

structure Sound (s : Timers) : Prop where
  sleeps : ∀ (i : ℕ) (σ : Sleep), s.sleeps[i]? = some σ → Fine s.toBoard i σ
  owned : ∀ (p : ℕ) (e : TimerEntry), s.entries[p]? = some e → ∃ σ : Sleep, s.sleeps[e.sleep]? = some σ ∧ σ.made = some p
  nodup : s.timers.Nodup
  queued : ∀ p ∈ s.timers, ∃ e : TimerEntry, s.entries[p]? = some e ∧ e.fired = false
  once : (s.log.map Prod.fst).Nodup
  woken : ∀ x ∈ s.log, ∃ (p : ℕ) (e : TimerEntry), s.entries[p]? = some e ∧ e.sleep = x.1 ∧ e.fired = true

theorem sound_start : Sound start where
  sleeps := nofun
  owned := nofun
  nodup := List.nodup_nil
  queued := nofun
  once := List.nodup_nil
  woken := nofun

section Sound

variable {s : Timers} {i p q : ℕ} {σ σ' τ : Sleep} {e : TimerEntry}
variable {α : Type} {l : List α} {j : ℕ} {x : α} {a : α} {b : Board}

theorem Sound.entryOf (h : Sound s) (he : s.entries[p]? = some e) : ∃ σ : Sleep, s.sleeps[e.sleep]? = some σ ∧ σ.made = some p ∧
    EntryOf s.toBoard e.sleep σ p e := by
  obtain ⟨σ, hσ, hmade⟩ := h.owned p e he
  obtain ⟨e', he', hof⟩ := (h.sleeps _ σ hσ).entry p hmade
  cases he.symm.trans he'
  exact ⟨σ, hσ, hmade, hof⟩

theorem Sound.entry_eq (h : Sound s) {e' : TimerEntry} (he : s.entries[p]? = some e) (he' : s.entries[q]? = some e')
    (hsame : e.sleep = e'.sleep) : p = q := by
  obtain ⟨σ, hσ, hmade⟩ := h.owned p e he
  obtain ⟨σ', hσ', hmade'⟩ := h.owned q e' he'
  rw [hsame] at hσ
  cases hσ.symm.trans hσ'
  exact Option.some.inj (hmade.symm.trans hmade')

theorem getElem?_concat_of_some {l' : List α} (h : l[j]? = some x) : (l ++ l')[j]? = some x := by
  rw [List.getElem?_append_left (List.getElem?_eq_some_iff.mp h).1]
  exact h

theorem getElem?_concat_eq_some (h : (l ++ [a])[j]? = some x) : l[j]? = some x ∨ j = l.length ∧ x = a := by
  rcases Nat.lt_or_ge j l.length with hlt | hge
  · rw [List.getElem?_append_left hlt] at h
    exact .inl h
  · rw [List.getElem?_append_right hge, List.getElem?_singleton] at h
    split_ifs at h with hj
    exact .inr ⟨by omega, (Option.some.inj h).symm⟩

theorem getElem?_set_eq_some (h : (l.set i a)[j]? = some x) : j = i ∧ x = a ∨ j ≠ i ∧ l[j]? = some x := by
  rw [List.getElem?_set] at h
  split_ifs at h with hij hlt
  · cases h
    exact .inl ⟨hij.symm, rfl⟩
  · exact .inr ⟨fun hji => hij hji.symm, h⟩

theorem Sound.owned_set (h : Sound s) (hi : s.sleeps[i]? = some σ) (hmade : σ'.made = σ.made) (he : s.entries[p]? = some e) :
    ∃ τ : Sleep, (s.sleeps.set i σ')[e.sleep]? = some τ ∧ τ.made = some p := by
  obtain ⟨τ, hτ, hp⟩ := h.owned p e he
  by_cases hie : e.sleep = i
  · rw [hie] at hτ ⊢
    cases hi.symm.trans hτ
    exact ⟨σ', List.getElem?_set_self (List.getElem?_eq_some_iff.mp hi).1, hmade.trans hp⟩
  · exact ⟨τ, (List.getElem?_set_ne (Ne.symm hie)).trans hτ, hp⟩

theorem Sound.put (h : Sound s) (hi : s.sleeps[i]? = some σ) (hmade : σ'.made = σ.made) (hfine : Fine s.toBoard i σ')
    (locked : Bool) (held : List ℕ) : Sound { s with locked := locked, held := held, sleeps := s.sleeps.set i σ' } where
  sleeps j τ hj := by
    rcases getElem?_set_eq_some hj with ⟨rfl, rfl⟩ | ⟨-, hj⟩
    · exact hfine
    · exact h.sleeps j τ hj
  owned _ _ := h.owned_set hi hmade
  nodup := h.nodup
  queued := h.queued
  once := h.once
  woken := h.woken

theorem Fine.move {pc : Pc} {entry : Option ℕ} (h : Fine b i σ) (hwaits : σ.waits) (hmade : σ.made = some p)
    (hmade' : Sleep.made { σ with pc, entry } = some p) (hpc : ∀ q, σ.pc ≠ .pushing q) (hpc' : ∀ q, pc ≠ .pushing q)
    (hready' : pc ≠ .ready) (hlock : ∀ q, pc = .holding q ∨ pc = .written q → q = p) : Fine b i { σ with pc, entry } where
  entry q hq := by
    cases hmade'.symm.trans hq
    obtain ⟨e, he, hof⟩ := h.entry p hmade
    refine ⟨e, he, hof.sleep, hof.deadline, hof.waker, fun hf => .inl ?_, fun hf => ?_⟩
    · exact (hof.queued hf).resolve_right (hpc p)
    · obtain ⟨hdue, n, hn, hsince⟩ := hof.fired hf
      exact ⟨hdue, n, hn, fun _ => hsince hwaits⟩
  since := h.since
  stored _ hnone := nomatch hmade'.symm.trans hnone
  locks q hq := hmade'.trans (congrArg some (hlock q hq).symm)
  ready hready := absurd hready hready'
  unqueued q hq := absurd hq (hpc' q)

theorem Fine.poll (h : Fine b i σ) (hmade : σ.made = σ.entry) (hpc : ∀ q, σ.pc ≠ .pushing q) :
    Fine b i { σ with pc := if σ.deadline ≤ b.now then .ready else .checked, since := b.log.length } := by
  by_cases hdue : σ.deadline ≤ b.now
  · rw [if_pos hdue]
    refine ⟨fun p hp => ?_, Nat.le_refl _, nofun, nofun, fun _ => hdue, nofun⟩
    obtain ⟨e, he, hof⟩ := h.entry p (hmade.trans hp)
    refine ⟨e, he, hof.sleep, hof.deadline, hof.waker, fun hf => .inl ((hof.queued hf).resolve_right (hpc p)), fun hf => ?_⟩
    obtain ⟨hle, n, hn, -⟩ := hof.fired hf
    exact ⟨hle, n, hn, fun hwaits => absurd rfl hwaits.2⟩
  · rw [if_neg hdue]
    refine ⟨fun p hp => ?_, Nat.le_refl _, nofun, nofun, nofun, nofun⟩
    obtain ⟨e, he, hof⟩ := h.entry p (hmade.trans hp)
    refine ⟨e, he, hof.sleep, hof.deadline, hof.waker, fun hf => .inl ((hof.queued hf).resolve_right (hpc p)), fun hf => ?_⟩
    -- an entry that has fired was due
    exact absurd (hof.deadline ▸ (hof.fired hf).1) hdue

section

variable (h : Sound s)
include h

theorem Sound.sleepMs (ms task : ℕ) : Sound (s.sleepMs ms task) where
  sleeps j τ hj := by
    rcases getElem?_concat_eq_some hj with hj | ⟨-, rfl⟩
    · exact h.sleeps j τ hj
    · exact ⟨nofun, Nat.le_refl _, nofun, nofun, nofun, nofun⟩
  owned p e he := by
    obtain ⟨σ, hσ, hmade⟩ := h.owned p e he
    exact ⟨σ, getElem?_concat_of_some hσ, hmade⟩
  nodup := h.nodup
  queued := h.queued
  once := h.once
  woken := h.woken

theorem Sound.enter (hi : s.sleeps[i]? = some σ) (hmade : σ.made = none) (locked : Bool) :
    Sound { s with
      locked := locked
      entries := s.entries ++ [{ deadline := σ.deadline, waker := σ.task, fired := false, sleep := i }]
      sleeps := s.sleeps.set i { σ with pc := .pushing s.entries.length } } where
  sleeps j τ hj := by
    rcases getElem?_set_eq_some hj with ⟨rfl, rfl⟩ | ⟨-, hj⟩
    · refine ⟨fun p hp => ?_, (h.sleeps j σ hi).since, nofun, nofun, nofun, fun p hp => ⟨fun hmem => ?_, fun e he => ?_⟩⟩
      · cases hp
        exact ⟨_, List.getElem?_concat_length, rfl, rfl, rfl, fun _ => .inr rfl, nofun⟩
      · cases hp
        obtain ⟨e, he, -⟩ := h.queued _ hmem
        exact absurd (List.getElem?_eq_some_iff.mp he).1 (Nat.lt_irrefl _)
      · cases hp
        cases List.getElem?_concat_length.symm.trans he
        rfl
    · obtain ⟨hentry, hsince, hstored, hlocks, hready, hunqueued⟩ := h.sleeps j τ hj
      refine ⟨fun p hp => ?_, hsince, hstored, hlocks, hready, fun p hp => ⟨(hunqueued p hp).1, fun e he => ?_⟩⟩
      · obtain ⟨e, he, hof⟩ := hentry p hp
        exact ⟨e, getElem?_concat_of_some he, hof.sleep, hof.deadline, hof.waker, hof.queued, hof.fired⟩
      · rcases getElem?_concat_eq_some he with he | ⟨-, rfl⟩
        · exact (hunqueued p hp).2 e he
        · rfl
  owned p e he := by
    rcases getElem?_concat_eq_some he with he | ⟨rfl, rfl⟩
    · obtain ⟨τ, hτ, hp⟩ := h.owned p e he
      have hne : i ≠ e.sleep := by
        rintro rfl
        cases hi.symm.trans hτ
        exact nomatch hmade.symm.trans hp
      exact ⟨τ, (List.getElem?_set_ne hne).trans hτ, hp⟩
    · exact ⟨_, List.getElem?_set_self (List.getElem?_eq_some_iff.mp hi).1, rfl⟩
  nodup := h.nodup
  queued p hp := by
    obtain ⟨e, he, hf⟩ := h.queued p hp
    exact ⟨e, getElem?_concat_of_some he, hf⟩
  once := h.once
  woken x hx := by
    obtain ⟨p, e, he, hsleep, hf⟩ := h.woken x hx
    exact ⟨p, e, getElem?_concat_of_some he, hsleep, hf⟩

theorem Sound.push (hi : s.sleeps[i]? = some σ) (hpc : σ.pc = .pushing p) :
    Sound { s with timers := s.timers ++ [p], sleeps := s.sleeps.set i { σ with pc := .pushed p } } := by
  have hmade : σ.made = some p := by simp only [Sleep.made, hpc]
  obtain ⟨hentry, hsince, -, -, -, hunqueued⟩ := h.sleeps i σ hi
  obtain ⟨e, he, hof⟩ := hentry p hmade
  obtain ⟨hnew, hunfired⟩ := hunqueued p hpc
  refine ⟨fun j τ hj => ?_, fun _ _ => h.owned_set hi hmade.symm, ?_, fun q hq => ?_, h.once, h.woken⟩
  · rcases getElem?_set_eq_some hj with ⟨rfl, rfl⟩ | ⟨hne, hj⟩
    · refine ⟨fun q hq => ?_, hsince, nofun, nofun, nofun, nofun⟩
      cases hq
      refine ⟨e, he, hof.sleep, hof.deadline, hof.waker, fun _ => .inl (List.mem_append_right _ (List.mem_singleton.mpr rfl)), ?_⟩
      rw [hunfired e he]
      exact nofun
    · obtain ⟨hentry', hsince', hstored', hlocks', hready', hunqueued'⟩ := h.sleeps j τ hj
      refine ⟨fun q hq => ?_, hsince', hstored', hlocks', hready', fun q hq => ⟨fun hmem => ?_, (hunqueued' q hq).2⟩⟩
      · obtain ⟨e', he', hof'⟩ := hentry' q hq
        refine ⟨e', he', hof'.sleep, hof'.deadline, hof'.waker, fun hf => ?_, hof'.fired⟩
        exact (hof'.queued hf).imp_left (List.mem_append_left _)
      · -- the entry it is about to put there is its own, not that of the first
        rcases List.mem_append.mp hmem with hmem | hmem
        · exact (hunqueued' q hq).1 hmem
        · cases List.mem_singleton.mp hmem
          obtain ⟨e', he', hof'⟩ := hentry' p (by simp only [Sleep.made, hq])
          cases he.symm.trans he'
          exact hne (hof'.sleep.symm.trans hof.sleep)
  · refine List.nodup_append.mpr ⟨h.nodup, List.pairwise_singleton _ p, fun a ha b hb hab => ?_⟩
    cases List.mem_singleton.mp hb
    exact hnew (hab ▸ ha)
  · rcases List.mem_append.mp hq with hq | hq
    · exact h.queued q hq
    · cases List.mem_singleton.mp hq
      exact ⟨e, he, hunfired e he⟩

theorem Sound.fire (he : s.entries[p]? = some e) (hunfired : e.fired = false) (hdue : e.deadline ≤ s.now)
    {timers : List ℕ} (hnodup : timers.Nodup) (hmem : ∀ q, q ∈ timers ↔ q ∈ s.timers ∧ q ≠ p) (hp : p ∈ s.timers) :
    Sound { s.fire p e with timers } := by
  have hset : (s.entries.set p { e with fired := true })[p]? = some { e with fired := true } :=
    List.getElem?_set_self (List.getElem?_eq_some_iff.mp he).1
  have hother {q : ℕ} (hq : q ≠ p) : (s.entries.set p { e with fired := true })[q]? = s.entries[q]? :=
    List.getElem?_set_ne (Ne.symm hq)
  refine ⟨fun j τ hj => ?_, fun q e' he' => ?_, hnodup, fun q hq => ?_, ?_, fun x hx => ?_⟩
  · obtain ⟨hentry, hsince, hstored, hlocks, hready, hunqueued⟩ := h.sleeps j τ hj
    refine ⟨fun q hq => ?_, ?_, hstored, hlocks, hready, fun q hq => ⟨fun hin => ?_, fun e' he' => ?_⟩⟩
    · obtain ⟨e', he', hof⟩ := hentry q hq
      by_cases hqp : q = p
      · cases hqp
        cases he.symm.trans he'
        refine ⟨_, hset, hof.sleep, hof.deadline, hof.waker, nofun, fun _ => ⟨hdue, s.log.length, ?_, fun _ => hsince⟩⟩
        rw [← hof.sleep, ← hof.waker]
        exact List.getElem?_concat_length
      · refine ⟨e', (hother hqp).trans he', hof.sleep, hof.deadline, hof.waker, fun hf => ?_, fun hf => ?_⟩
        · exact (hof.queued hf).imp_left fun hin => (hmem q).mpr ⟨hin, hqp⟩
        · obtain ⟨hle, n, hn, hwaits⟩ := hof.fired hf
          exact ⟨hle, n, getElem?_concat_of_some hn, hwaits⟩
    · exact Nat.le_trans hsince (by simp only [Timers.fire, List.length_append, Nat.le_add_right])
    · exact (hunqueued q hq).1 ((hmem q).mp hin).1
    · have hqp : q ≠ p := fun hqp => (hunqueued q hq).1 (hqp ▸ hp)
      exact (hunqueued q hq).2 e' ((hother hqp).symm.trans he')
  · rcases getElem?_set_eq_some he' with ⟨rfl, rfl⟩ | ⟨-, he'⟩
    · exact h.owned q e he
    · exact h.owned q e' he'
  · obtain ⟨hin, hqp⟩ := (hmem q).mp hq
    obtain ⟨e', he', hf⟩ := h.queued q hin
    exact ⟨e', (hother hqp).trans he', hf⟩
  · -- what is in the log belongs to an entry that has fired, and a `Sleep` has one entry
    change ((s.log ++ [(e.sleep, e.waker)]).map Prod.fst).Nodup
    rw [List.map_append]
    refine List.nodup_append.mpr ⟨h.once, List.pairwise_singleton _ _, fun a ha b hb hab => ?_⟩
    obtain ⟨x, hx, rfl⟩ := List.mem_map.mp ha
    obtain ⟨q, e', he', hsleep, hf⟩ := h.woken x hx
    cases h.entry_eq he he' ((List.mem_singleton.mp hb).symm.trans (hab.symm.trans hsleep.symm))
    cases he.symm.trans he'
    exact nomatch hunfired.symm.trans hf
  · rcases List.mem_append.mp hx with hx | hx
    · obtain ⟨q, e', he', hsleep, hf⟩ := h.woken x hx
      have hqp : q ≠ p := by
        rintro rfl
        cases he.symm.trans he'
        exact nomatch hunfired.symm.trans hf
      exact ⟨q, e', (hother hqp).trans he', hsleep, hf⟩
    · cases List.mem_singleton.mp hx
      exact ⟨p, _, hset, rfl, rfl⟩

theorem Sound.later {now : ℕ} (hnow : s.now ≤ now) : Sound { s with now := now } := by
  refine ⟨fun j τ hj => ?_, h.owned, h.nodup, h.queued, h.once, h.woken⟩
  obtain ⟨hentry, hsince, hstored, hlocks, hready, hunqueued⟩ := h.sleeps j τ hj
  refine ⟨fun p hp => ?_, hsince, hstored, hlocks, fun hpc => Nat.le_trans (hready hpc) hnow, hunqueued⟩
  obtain ⟨e, he, hof⟩ := hentry p hp
  refine ⟨e, he, hof.sleep, hof.deadline, hof.waker, hof.queued, fun hf => ?_⟩
  exact ⟨Nat.le_trans (hof.fired hf).1 hnow, (hof.fired hf).2⟩

end

end Sound

/-! ### A tick -/

section Tick

variable {ε : Type} {s s' : Timers}

structure Retained (s : Timers) (pre kept : List ℕ) (s' : Timers) : Prop where
  sound : Sound { s' with timers := pre ++ kept }
  now : s'.now = s.now
  sleeps : s'.sleeps = s.sleeps
  deadlines : ∀ (p : ℕ) (e : TimerEntry), s'.entries[p]? = some e →
    ∃ e₀ : TimerEntry, s.entries[p]? = some e₀ ∧ e₀.deadline = e.deadline
  later : ∀ p ∈ kept, ∀ e : TimerEntry, s'.entries[p]? = some e → s.now < e.deadline

theorem retain_cases (ps pre : List ℕ) (s : Timers) (h : Sound { s with timers := pre ++ ps }) :
    (∃ p ∈ ps, p ∈ s.held) ∧ Timers.retain (ε := ε) s.now ps s = .diverge ∨
      (∀ p ∈ ps, p ∉ s.held) ∧ ∃ kept s', Timers.retain (ε := ε) s.now ps s = .ok kept s' ∧ Retained s pre kept s' := by
  induction ps generalizing pre s with
  | nil => exact .inr ⟨nofun, [], s, rfl, h, rfl, rfl, fun p e he => ⟨e, he, rfl⟩, nofun⟩
  | cons p ps ih =>
    obtain ⟨e, he, hunfired⟩ := h.queued p (List.mem_append_right _ List.mem_cons_self)
    by_cases hheld : p ∈ s.held
    · refine .inl ⟨⟨p, List.mem_cons_self, hheld⟩, ?_⟩
      simp only [Timers.retain, get_bind, he, expect_some, pure_bind, if_pos hheld, Exec.diverge]
    by_cases hdue : e.deadline ≤ s.now
    · -- the entry fires
      have hthis : Timers.retain (ε := ε) s.now (p :: ps) s = Timers.retain s.now ps (s.fire p e) := by
        simp only [Timers.retain, get_bind, he, expect_some, pure_bind, if_neg hheld, hunfired, Bool.not_false,
          Bool.true_and, decide_eq_true hdue, if_true, modify_bind]
      obtain ⟨hpre, hps, hdisj⟩ := List.nodup_append.mp h.nodup
      obtain ⟨hnotin, hps⟩ := List.nodup_cons.mp hps
      have hsound : Sound { s.fire p e with timers := pre ++ ps } := by
        refine h.fire he hunfired hdue (List.nodup_append.mpr ⟨hpre, hps, fun a ha b hb => ?_⟩) (fun q => ?_) ?_
        · exact hdisj a ha b (List.mem_cons_of_mem p hb)
        · have hpp : p ∉ pre := fun hp => hdisj p hp p List.mem_cons_self rfl
          grind
        · exact List.mem_append_right _ List.mem_cons_self
      rcases ih pre (s.fire p e) hsound with ⟨⟨q, hq, hqheld⟩, hrun⟩ | ⟨hfree, kept, s', hrun, hretained⟩
      · exact .inl ⟨⟨q, List.mem_cons_of_mem p hq, hqheld⟩, hthis.trans hrun⟩
      · obtain ⟨hsound, hnow, hsleeps, hdeadlines, hlater⟩ := hretained
        refine .inr ⟨List.forall_mem_cons.mpr ⟨hheld, hfree⟩, kept, s', hthis.trans hrun, hsound, hnow, hsleeps,
          fun q e' he' => ?_, hlater⟩
        obtain ⟨e₀, he₀, hd⟩ := hdeadlines q e' he'
        rcases getElem?_set_eq_some he₀ with ⟨rfl, rfl⟩ | ⟨-, he₀⟩
        · exact ⟨e, he, hd⟩
        · exact ⟨e₀, he₀, hd⟩
    · -- it stays
      have hthis : Timers.retain (ε := ε) s.now (p :: ps) s =
          (do let rest ← Timers.retain s.now ps; pure (p :: rest) : Exec ε Timers (List ℕ)) s := by
        simp only [Timers.retain, get_bind, he, expect_some, pure_bind, if_neg hheld, hunfired, Bool.not_false,
          Bool.true_and, decide_eq_false hdue, Bool.false_eq_true, if_false]
      rcases ih (pre ++ [p]) s (by rw [List.append_assoc]; exact h) with
        ⟨⟨q, hq, hqheld⟩, hrun⟩ | ⟨hfree, kept, s', hrun, hretained⟩
      · refine .inl ⟨⟨q, List.mem_cons_of_mem p hq, hqheld⟩, hthis.trans ?_⟩
        exact bind_of_diverge hrun
      · obtain ⟨hsound, hnow, hsleeps, hdeadlines, hlater⟩ := hretained
        refine .inr ⟨List.forall_mem_cons.mpr ⟨hheld, hfree⟩, p :: kept, s', hthis.trans (bind_of_ok hrun), ?_, hnow, hsleeps,
          hdeadlines, fun q hq e' he' => ?_⟩
        · rw [List.append_assoc] at hsound
          exact hsound
        · rcases List.mem_cons.mp hq with rfl | hq
          · obtain ⟨e₀, he₀, hd⟩ := hdeadlines q e' he'
            cases he.symm.trans he₀
            omega
          · exact hlater q hq e' he'

theorem advance_cases (h : Sound s) (hnow : s.now + 1 < 2 ^ 64) : s.locked = true ∧
    Timers.advance (ε := ε) s = .ok () { s with now := s.now + 1 } ∨ s.locked = false ∧ (∃ p ∈ s.timers, p ∈ s.held) ∧
    Timers.advance (ε := ε) s = .diverge ∨ s.locked = false ∧ (∀ p ∈ s.timers, p ∉ s.held) ∧ ∃ kept s',
    Timers.advance (ε := ε) s = .ok () { s' with timers := kept } ∧ Retained { s with now := s.now + 1 } [] kept s' := by
  have hthis : Timers.advance (ε := ε) s = (if s.locked then pure () else do
      let kept ← Timers.retain (s.now + 1) s.timers
      Exec.modify fun s => { s with timers := kept } : Exec ε Timers Unit) { s with now := s.now + 1 } := by
    simp only [Timers.advance, get_bind, modify_bind, add_of_lt hnow, pure_bind, Nat.mod_eq_of_lt hnow]
  by_cases hlocked : s.locked
  · rw [if_pos hlocked] at hthis
    exact .inl ⟨hlocked, hthis⟩
  · rw [if_neg hlocked] at hthis
    rw [Bool.not_eq_true] at hlocked
    have hlater : Sound { s with now := s.now + 1 } := h.later (Nat.le_succ _)
    rcases retain_cases (ε := ε) s.timers [] { s with now := s.now + 1 } hlater with
      ⟨hheld, hrun⟩ | ⟨hfree, kept, s', hrun, hretained⟩
    · refine .inr (.inl ⟨hlocked, hheld, hthis.trans ?_⟩)
      exact bind_of_diverge hrun
    · exact .inr (.inr ⟨hlocked, hfree, kept, s', hthis.trans (bind_of_ok hrun), hretained⟩)

theorem Sound.tick (h : Sound s) (hstep : step s .tick = some s') : Sound s' := by
  unfold step at hstep
  by_cases hnow : s.now + 1 < 2 ^ 64
  · rcases advance_cases (ε := Empty) h hnow with ⟨-, hrun⟩ | ⟨-, -, hrun⟩ | ⟨-, -, kept, s'', hrun, hretained⟩
    · rw [hrun] at hstep
      cases hstep
      exact h.later (Nat.le_succ _)
    · rw [hrun] at hstep
      exact nomatch hstep
    · rw [hrun] at hstep
      cases hstep
      exact hretained.sound
  · have hpanic : Timers.advance (ε := Empty) s = .panic := by
      simp only [Timers.advance, get_bind, Exec.add, if_neg hnow]
      rfl
    rw [hpanic] at hstep
    exact nomatch hstep

end Tick

/-! ### Runs -/

section Runs

variable {s s' : Timers} {i : ℕ} {σ : Sleep} {tr : List (Timers × Event)}

theorem Sound.poll (h : Sound s) (hstep : s.poll i = some s') : Sound s' := by
  obtain ⟨σ, hi, hstep⟩ := Option.bind_eq_some_iff.mp hstep
  have hfine := h.sleeps i σ hi
  cases hpc : σ.pc with
  | new | ready | pending =>
    have hmade : σ.made = σ.entry := by simp only [Sleep.made, hpc]
    simp only [hpc, Option.some.injEq] at hstep
    rw [← hstep]
    refine h.put hi ?_ (hfine.poll hmade (by simp [hpc])) s.locked s.held
    by_cases hdue : σ.deadline ≤ s.now
    · simp only [if_pos hdue, Sleep.made, hpc]
    · simp only [if_neg hdue, Sleep.made, hpc]
  | _ => simp only [hpc, reduceCtorEq] at hstep

theorem Sound.move (h : Sound s) (hi : s.sleeps[i]? = some σ) {p : ℕ} (pc : Pc) (entry : Option ℕ) (hwaits : σ.waits)
    (hmade : σ.made = some p) (hmade' : Sleep.made { σ with pc, entry } = some p) (hpc : ∀ q, σ.pc ≠ .pushing q)
    (hpc' : ∀ q, pc ≠ .pushing q) (hready : pc ≠ .ready) (hlock : ∀ q, pc = .holding q ∨ pc = .written q → q = p)
    (locked : Bool) (held : List ℕ) :
    Sound { s with locked := locked, held := held, sleeps := s.sleeps.set i { σ with pc, entry } } :=
  h.put hi (hmade'.trans hmade.symm) ((h.sleeps i σ hi).move hwaits hmade hmade' hpc hpc' hready hlock) locked held

theorem Sound.pollStep (h : Sound s) (hstep : s.pollStep i = some s') : Sound s' := by
  obtain ⟨σ, hi, hstep⟩ := Option.bind_eq_some_iff.mp hstep
  have hfine := h.sleeps i σ hi
  cases hpc : σ.pc with
  | new | ready | pending => simp only [hpc, reduceCtorEq] at hstep
  | checked =>
    have hmade : σ.made = σ.entry := by simp only [Sleep.made, hpc]
    cases hentry : σ.entry with
    | none =>
      simp only [hpc, hentry, Option.ite_none_left_eq_some, Option.some.injEq] at hstep
      rw [← hstep.2]
      have hnext := h.enter hi (hmade.trans hentry) true
      rw [hentry] at hnext
      exact hnext
    | some p =>
      simp only [hpc, hentry, Option.ite_none_left_eq_some, Option.some.injEq] at hstep
      rw [← hstep.2]
      exact h.move hi (.holding p) (some p) (by simp [Sleep.waits, hpc]) (hmade.trans hentry) rfl (by simp [hpc]) nofun nofun
        (by simp) _ _
  | pushing p =>
    simp only [hpc, Option.some.injEq] at hstep
    rw [← hstep]
    exact h.push hi hpc
  | pushed p =>
    simp only [hpc, Option.some.injEq] at hstep
    rw [← hstep]
    exact h.move hi (.released p) σ.entry (by simp [Sleep.waits, hpc]) (by simp only [Sleep.made, hpc]) rfl
      (by simp [hpc]) nofun nofun (by simp) _ _
  | released p =>
    simp only [hpc, Option.some.injEq] at hstep
    rw [← hstep]
    exact h.move hi .pending (some p) (by simp [Sleep.waits, hpc]) (by simp only [Sleep.made, hpc]) rfl
      (by simp [hpc]) nofun nofun (by simp) _ _
  | holding p =>
    have hmade : σ.made = some p := hfine.locks p (.inl hpc)
    obtain ⟨e, he, hof⟩ := hfine.entry p hmade
    simp only [hpc, Option.some.injEq] at hstep
    -- the waker is that of the task as before
    have hsame : s.entries.modify p ({ · with waker := σ.task }) = s.entries := by
      refine List.ext_getElem? fun q => ?_
      rw [List.getElem?_modify]
      by_cases hq : p = q
      · simp only [← hq, he, ← hof.waker]
        rfl
      · simp only [if_neg hq]
        exact Option.map_id'
    rw [← hstep, hsame]
    have hentry : σ.entry = some p := by simpa only [Sleep.made, hpc] using hmade
    exact h.move hi (.written p) σ.entry (by simp [Sleep.waits, hpc]) hmade hentry (by simp [hpc]) nofun nofun (by simp) _ _
  | written p =>
    have hmade : σ.made = some p := hfine.locks p (.inr hpc)
    simp only [hpc, Option.some.injEq] at hstep
    rw [← hstep]
    have hentry : σ.entry = some p := by simpa only [Sleep.made, hpc] using hmade
    exact h.move hi .pending σ.entry (by simp [Sleep.waits, hpc]) hmade hentry (by simp [hpc]) nofun nofun (by simp) _ _

theorem Sound.step {ev : Event} (h : Sound s) (hstep : step s ev = some s') : Sound s' := by
  cases ev with
  | sleepMs ms task =>
    cases hstep
    exact h.sleepMs ms task
  | poll i => exact h.poll hstep
  | step i => exact h.pollStep hstep
  | tick => exact h.tick hstep

theorem sound_of_run (hrun : Run step start tr s) : Sound s :=
  hrun.keeps sound_start fun _ _ _ h hstep => h.step hstep

def Timers.owner (s : Timers) (p : ℕ) : Option ℕ := (s.entries[p]?).map TimerEntry.sleep

theorem Sound.count_owner (h : Sound s) (i : ℕ) : (s.timers.map s.owner).count (some i) ≤ 1 := by
  refine List.nodup_iff_count_le_one.mp (h.nodup.map_on fun p hp q hq hsame => ?_) _
  obtain ⟨e, he, -⟩ := h.queued p hp
  obtain ⟨e', he', -⟩ := h.queued q hq
  rw [Timers.owner, Timers.owner, he, he'] at hsame
  exact h.entry_eq he he' (Option.some.inj hsame)

theorem Sound.woken_due (h : Sound s) {x : ℕ × ℕ} (hx : x ∈ s.log) :
    ∃ σ : Sleep, s.sleeps[x.1]? = some σ ∧ σ.deadline ≤ s.now := by
  obtain ⟨p, e, he, hsleep, hfired⟩ := h.woken x hx
  obtain ⟨σ, hσ, -, hof⟩ := h.entryOf he
  exact ⟨σ, hsleep ▸ hσ, hof.deadline ▸ (hof.fired hfired).1⟩

theorem Sound.tick_wakes (h : Sound s) (hlocked : s.locked = false) (hheld : ∀ p ∈ s.timers, p ∉ s.held)
    (hnow : s.now + 1 < 2 ^ 64) : ∃ s', Time.step s .tick = some s' ∧ s'.now = s.now + 1 ∧ ∀ (i : ℕ) (σ : Sleep),
    s.sleeps[i]? = some σ → σ.pc = .pending → σ.deadline ≤ s'.now → ∃ n, σ.since ≤ n ∧ s'.log[n]? = some (i, σ.task) := by
  rcases advance_cases (ε := Empty) h hnow with ⟨hl, -⟩ | ⟨-, ⟨p, hp, hph⟩, -⟩ | ⟨-, -, kept, s', hrun, hretained⟩
  · exact nomatch hl.symm.trans hlocked
  · exact absurd hph (hheld p hp)
  · obtain ⟨hsound, hnow', hsleeps, -, hlater⟩ := hretained
    refine ⟨{ s' with timers := kept }, by rw [Time.step, hrun]; rfl, hnow', fun i σ hi hpc hdue => ?_⟩
    have hfine := hsound.sleeps i σ (by rw [← hi, ← hsleeps])
    obtain ⟨p, hp⟩ := Option.ne_none_iff_exists'.mp (hfine.stored hpc)
    obtain ⟨e, he, hof⟩ := hfine.entry p hp
    cases hf : e.fired with
    | true =>
      obtain ⟨-, n, hn, hsince⟩ := hof.fired hf
      exact ⟨n, hsince (by simp [Sleep.waits, hpc]), hn⟩
    | false =>
      -- it would still be in the list, and so not be due
      have hkept := (hof.queued hf).resolve_right (by simp [hpc])
      have hahead := hlater p hkept e he
      rw [hof.deadline, ← hnow'] at hahead
      exact absurd hdue (Nat.not_le.mpr hahead)

/-- **No `Sleep` is woken early, twice or not at all.** -/
theorem sleep_timers (hrun : Run step start tr s) :
    (∀ (i : ℕ) (σ : Sleep), s.sleeps[i]? = some σ → σ.pc = .ready → σ.deadline ≤ s.now) ∧
    (∀ x ∈ s.log, ∃ σ : Sleep, s.sleeps[x.1]? = some σ ∧ σ.deadline ≤ s.now) ∧
    (∀ i, (s.timers.map s.owner).count (some i) ≤ 1 ∧ (s.log.map Prod.fst).count i ≤ 1) ∧
    (s.locked = false → (∀ p ∈ s.timers, p ∉ s.held) → s.now + 1 < 2 ^ 64 → ∃ s', step s .tick = some s' ∧ s'.now = s.now + 1 ∧
      ∀ (i : ℕ) (σ : Sleep), s.sleeps[i]? = some σ → σ.pc = .pending → σ.deadline ≤ s'.now →
        ∃ n, σ.since ≤ n ∧ s'.log[n]? = some (i, σ.task)) := by
  have h : Sound s := sound_of_run hrun
  refine ⟨fun i σ hi => (h.sleeps i σ hi).ready, fun x => h.woken_due, fun i => ⟨h.count_owner i, ?_⟩, h.tick_wakes⟩
  exact List.nodup_iff_count_le_one.mp h.once i

def polledOnce : List Event :=
  [.sleepMs 1000 0, .sleepMs 10 1, .poll 0, .step 0, .step 0, .step 0, .step 0, .poll 1, .step 1, .step 1, .step 1, .step 1]

theorem sleep_timers_ten : ∃ tr s, Run step start tr s ∧ ∃ s', step s .tick = some s' ∧ (1, 1) ∈ s'.log := by
  have hexec : (exec step (fun _ _ => True) start polledOnce).any fun s => s.locked = false ∧ s.held = [] ∧ s.now = 0 ∧
      ∃ σ ∈ s.sleeps[1]?, σ.pc = .pending ∧ σ.deadline = 1 ∧ σ.task = 1 := by decide +kernel
  obtain ⟨tr, s, hrun, -, hlocked, hheld, hnow, σ, hi, hpc, hdeadline, htask⟩ := exists_run_of_any hexec
  obtain ⟨s', hs', hnow', hall⟩ := (sleep_timers hrun).2.2.2 hlocked (by simp [hheld]) (by rw [hnow]; decide)
  obtain ⟨n, -, hn⟩ := hall 1 σ hi hpc (Nat.le_of_eq (by rw [hdeadline, hnow', hnow]))
  rw [htask] at hn
  exact ⟨tr, s, hrun, s', hs', List.mem_of_getElem? hn⟩

/-- **A tick that interrupts a poll while it stores its waker never returns**: here that of the longer `Sleep`, which is polled
once more; the other is due, and is not woken. -/
theorem tick_spins : ∃ tr s, Run step start tr s ∧ s.locked = false ∧
    (∃ σ : Sleep, s.sleeps[1]? = some σ ∧ σ.pc = .pending ∧ σ.deadline ≤ s.now + 1) ∧ s.log = [] ∧
    Timers.advance (ε := Empty) s = .diverge ∧ step s .tick = none := by
  have hexec : (exec step (fun _ _ => True) start (polledOnce ++ [.poll 0, .step 0])).any fun s => s.locked = false ∧
      s.now = 0 ∧ s.log = [] ∧ (∃ σ ∈ s.sleeps[1]?, σ.pc = .pending ∧ σ.deadline = 1) ∧ s.timers = [0, 1] ∧
      s.held = [0] := by decide +kernel
  obtain ⟨tr, s, hrun, -, hlocked, hnow, hlog, ⟨σ, hi, hpc, hdeadline⟩, htimers, hheld⟩ := exists_run_of_any hexec
  have hspins : Timers.advance (ε := Empty) s = .diverge := by
    rcases advance_cases (ε := Empty) (sound_of_run hrun) (by rw [hnow]; decide) with ⟨hl, -⟩ | ⟨-, -, h⟩ | ⟨-, hfree, -⟩
    · exact nomatch hl.symm.trans hlocked
    · exact h
    · exact absurd (by simp [hheld]) (hfree 0 (by simp [htimers]))
  exact ⟨tr, s, hrun, hlocked, ⟨σ, hi, hpc, Nat.le_of_eq (by rw [hdeadline, hnow])⟩, hlog, hspins,
    by simp only [step, hspins]; rfl⟩

end Runs

end RustKernel.Time
