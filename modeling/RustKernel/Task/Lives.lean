import Mathlib.Algebra.Order.Ring.Nat
import Mathlib.Data.List.Nodup

/-!
# Births, exits and reports

What processes are to each other, and nothing else of them: who a process was created by, whether it has exited and
with which code, and which exited children it has still to be told of by `wait`. A process is born, exits, or reports
a child to its parent's `wait`; the history of these three is kept beside the lives.
-/

namespace RustKernel.Task

open Function (update_self update_of_ne)
open List (mem_map mem_filter mem_append mem_singleton map_append nodup_append mem_append_left)

/-- A process: who created it, the code it has exited with, and the exits it has still to be told of. -/
structure Life where
  parent : ℕ
  exited : Option ℤ
  unreported : List (ℕ × ℤ)

def Life.told (pid : ℕ) (code : ℤ) (l : Life) : Life := { l with unreported := l.unreported ++ [(pid, code)] }

def Life.exits (code : ℤ) (l : Life) : Life := { l with exited := some code }

/-- The processes by pid, and the counter that pids are taken from. -/
structure Lives where
  proc : ℕ → Option Life
  next : ℕ

variable {L : Lives} {L' : Lives} {a : Label} {H : List Label}

/-- What a step adds to the history. -/
inductive Label
  | silent
  | born (pid parent : ℕ)
  | exit (pid parent : ℕ) (code : ℤ)
  | report (caller child : ℕ) (code : ℤ)
  deriving DecidableEq

structure Exit where
  pid : ℕ
  parent : ℕ
  code : ℤ
  deriving DecidableEq

structure Report where
  caller : ℕ
  child : ℕ
  code : ℤ
  deriving DecidableEq

namespace Label

def exit? : Label → Option Exit
  | .exit pid parent code => some ⟨pid, parent, code⟩
  | _ => none

def report? : Label → Option Report
  | .report caller child code => some ⟨caller, child, code⟩
  | _ => none

end Label

def exits (H : List Label) : List Exit := H.filterMap Label.exit?

def reports (H : List Label) : List Report := H.filterMap Label.report?

/-- The children of `parent` that have exited, in this order, with their codes. -/
def exitsTo (parent : ℕ) (H : List Label) : List (ℕ × ℤ) :=
  ((exits H).filter (·.parent = parent)).map fun x => (x.pid, x.code)

/-- The children that `wait` has reported to `caller`, in this order. -/
def reportsTo (caller : ℕ) (H : List Label) : List (ℕ × ℤ) :=
  ((reports H).filter (·.caller = caller)).map fun r => (r.child, r.code)

/-- A birth takes the next pid, which may be in use; an exit is told to the parent; a report takes the child away. -/
inductive Lives.Step (L : Lives) : Label → Lives → Prop
  | silent : Lives.Step L .silent L
  | born {parent : ℕ} : parent = 0 ∨ (∃ l, L.proc parent = some l) →
      Lives.Step L (.born (L.next % 2 ^ 32) parent)
        { proc := Function.update L.proc (L.next % 2 ^ 32) (some { parent, exited := none, unreported := [] })
          next := (L.next + 1) % 2 ^ 64 }
  | exit {pid : ℕ} {l : Life} {code : ℤ} : L.proc pid = some l →
      Lives.Step L (.exit pid l.parent code)
        { L with
          proc := fun q => (L.proc q).map fun l' =>
            (if q = l.parent then Life.told pid code else id) ((if q = pid then Life.exits code else id) l') }
  | report {caller child : ℕ} {code : ℤ} {l : Life} {rest : List (ℕ × ℤ)} : L.proc caller = some l →
      l.unreported = (child, code) :: rest →
      Lives.Step L (.report caller child code)
        { L with
          proc := Function.update (Function.update L.proc caller (some { l with unreported := rest })) child none }

theorem Lives.Step.next (h : L.Step a L') : L'.next = L.next ∨ L'.next = (L.next + 1) % 2 ^ 64 := by
  cases h with
  | silent => exact .inl rfl
  | born _ => exact .inr rfl
  | exit _ => exact .inl rfl
  | report _ _ => exact .inl rfl

/-! ### What a step leaves of each life -/

/-- The life `l` of `q` after `pid`, a child of `P`, has exited. -/
structure Life.AfterExit (pid P : ℕ) (code : ℤ) (q : ℕ) (l l' : Life) : Prop where
  parent : l'.parent = l.parent
  exited : l'.exited = if q = pid then some code else l.exited
  unreported : l'.unreported = l.unreported ++ if q = P then [(pid, code)] else []

namespace Lives

variable {q pid parent caller child n : ℕ} {code : ℤ} {rest : List (ℕ × ℤ)} {l m new : Life}

theorem born_cases {proc : ℕ → Option Life} (h : Function.update proc n (some new) q = some m) :
    (q = n ∧ m = new) ∨ (q ≠ n ∧ proc q = some m) := by
  by_cases hq : q = n
  · rw [hq, update_self] at h
    exact .inl ⟨hq, (Option.some.inj h).symm⟩
  · rw [update_of_ne hq] at h
    exact .inr ⟨hq, h⟩

theorem afterExit (q pid parent : ℕ) (code : ℤ) (l : Life) : Life.AfterExit pid parent code q l
    ((if q = parent then Life.told pid code else id) ((if q = pid then Life.exits code else id) l)) := by
  constructor <;> split_ifs <;> simp [Life.told, Life.exits]

theorem exit_cases (h : ((L.proc q).map fun l' =>
    (if q = parent then Life.told pid code else id) ((if q = pid then Life.exits code else id) l')) = some m) :
    ∃ m₀, L.proc q = some m₀ ∧ m₀.AfterExit pid parent code q m := by
  obtain ⟨m₀, hm₀, rfl⟩ := Option.map_eq_some_iff.mp h
  exact ⟨m₀, hm₀, afterExit ..⟩

theorem exit_stays (hm : L.proc q = some m) : ∃ m', ((L.proc q).map fun l' =>
    (if q = parent then Life.told pid code else id) ((if q = pid then Life.exits code else id) l')) = some m' ∧
      m.AfterExit pid parent code q m' := by
  rw [hm]
  exact ⟨_, rfl, afterExit ..⟩

theorem report_cases (hl : L.proc caller = some l)
    (h : Function.update (Function.update L.proc caller (some { l with unreported := rest })) child none q = some m) :
    q ≠ child ∧ ∃ m₀, L.proc q = some m₀ ∧ m.parent = m₀.parent ∧ m.exited = m₀.exited ∧
      ((q = caller ∧ m₀ = l ∧ m.unreported = rest) ∨ (q ≠ caller ∧ m = m₀)) := by
  by_cases hq : q = child
  · simp [hq] at h
  · rw [update_of_ne hq] at h
    refine ⟨hq, ?_⟩
    rcases born_cases h with ⟨rfl, rfl⟩ | ⟨hne, hm⟩
    · exact ⟨l, hl, rfl, rfl, .inl ⟨rfl, rfl, rfl⟩⟩
    · exact ⟨m, hm, rfl, rfl, .inr ⟨hne, rfl⟩⟩

theorem report_stays (hl : L.proc caller = some l) (hm : L.proc q = some m) (hq : q ≠ child) :
    ∃ m', Function.update (Function.update L.proc caller (some { l with unreported := rest })) child none q = some m' ∧
      m'.parent = m.parent ∧ m'.exited = m.exited ∧ (m' = m ∨ (q = caller ∧ m = l ∧ m'.unreported = rest)) := by
  rw [update_of_ne hq]
  by_cases hc : q = caller
  · subst hc
    obtain rfl := Option.some.inj (hl.symm.trans hm)
    exact ⟨_, update_self .., rfl, rfl, .inr ⟨rfl, rfl, rfl⟩⟩
  · exact ⟨m, (update_of_ne hc ..).trans hm, rfl, rfl, .inl rfl⟩

end Lives

/-! ### Histories, one step longer -/

section

variable (H : List Label) (P : ℕ) {a : Label}

theorem exits_append (a : Label) : exits (H ++ [a]) = exits H ++ a.exit?.toList := by
  unfold exits
  cases h : a.exit? <;> simp [h]

theorem reports_append (a : Label) : reports (H ++ [a]) = reports H ++ a.report?.toList := by
  unfold reports
  cases h : a.report? <;> simp [h]

theorem exitsTo_append_exit (pid parent : ℕ) (code : ℤ) :
    exitsTo P (H ++ [.exit pid parent code]) = exitsTo P H ++ if P = parent then [(pid, code)] else [] := by
  unfold exitsTo
  rw [exits_append]
  by_cases h : P = parent <;> simp [Label.exit?, h, eq_comm]

theorem exitsTo_append_of_none (h : a.exit? = none) : exitsTo P (H ++ [a]) = exitsTo P H := by
  unfold exitsTo
  rw [exits_append, h]
  simp

theorem reportsTo_append_report (caller child : ℕ) (code : ℤ) :
    reportsTo P (H ++ [.report caller child code]) = reportsTo P H ++ if caller = P then [(child, code)] else [] := by
  unfold reportsTo
  rw [reports_append]
  by_cases h : caller = P <;> simp [Label.report?, h]

theorem reportsTo_append_of_none (h : a.report? = none) : reportsTo P (H ++ [a]) = reportsTo P H := by
  unfold reportsTo
  rw [reports_append, h]
  simp

variable {H P} {c : ℕ × ℤ}

theorem mem_exitsTo : c ∈ exitsTo P H ↔ ⟨c.1, P, c.2⟩ ∈ exits H := by
  unfold exitsTo
  simp only [mem_map, mem_filter, decide_eq_true_eq]
  constructor
  · rintro ⟨x, ⟨hx, rfl⟩, rfl⟩
    exact hx
  · intro h
    exact ⟨_, ⟨h, rfl⟩, rfl⟩

theorem mem_reportsTo : c ∈ reportsTo P H ↔ ⟨P, c.1, c.2⟩ ∈ reports H := by
  unfold reportsTo
  simp only [mem_map, mem_filter, decide_eq_true_eq]
  constructor
  · rintro ⟨x, ⟨hx, rfl⟩, rfl⟩
    exact hx
  · intro h
    exact ⟨_, ⟨h, rfl⟩, rfl⟩

end

/-! ### What history and lives say about each other -/

def Lives.FreshNumbers (L : Lives) : Label → Prop
  | .born _ _ => L.next < 2 ^ 32
  | _ => True

def Lives.ExitsAlive (L : Lives) : Label → Prop
  | .exit pid _ _ => ∀ l, L.proc pid = some l → l.exited = none
  | _ => True

/-- The history and the lives agree, as long as no pid is used twice. -/
structure Recorded (H : List Label) (L : Lives) : Prop where
  next_pos : 0 < L.next
  next_le : L.next ≤ 2 ^ 32
  numbers : ∀ q l, L.proc q = some l → 0 < q ∧ q < L.next ∧ l.parent < q
  exit_numbers : ∀ x ∈ exits H, x.parent < x.pid ∧ x.pid < L.next
  report_numbers : ∀ r ∈ reports H, r.caller < L.next
  once : ((exits H).map Exit.pid).Nodup
  exited : ∀ x ∈ exits H, ∀ l, L.proc x.pid = some l → l.exited = some x.code ∧ l.parent = x.parent
  recorded : ∀ q l code, L.proc q = some l → l.exited = some code → ⟨q, l.parent, code⟩ ∈ exits H
  order : ∀ P l, L.proc P = some l → exitsTo P H = reportsTo P H ++ l.unreported
  waiting : ∀ P l, L.proc P = some l → ∀ c ∈ l.unreported,
    ∃ l', L.proc c.1 = some l' ∧ l'.exited = some c.2 ∧ l'.parent = P
  gone : ∀ r ∈ reports H, L.proc r.child = none ∧ r.child < L.next

namespace Recorded

variable {H : List Label} {L L' : Lives} {a : Label}
variable {l : Life} {code : ℤ}

theorem not_mem_of_alive (h : Recorded H L) {q : ℕ} (hq : L.proc q = some l) (hl : l.exited = none) :
    q ∉ (exits H).map Exit.pid := by
  intro hmem
  obtain ⟨x, hx, rfl⟩ := mem_map.mp hmem
  cases ((h.exited x hx l hq).1).symm.trans hl

theorem exitsTo_nodup (h : Recorded H L) (P : ℕ) : ((exitsTo P H).map Prod.fst).Nodup := by
  unfold exitsTo
  rw [List.map_map]
  exact h.once.sublist (List.filter_sublist.map Exit.pid)

theorem init (h : ∀ q, L.proc q = none) (hn : 0 < L.next) (hle : L.next ≤ 2 ^ 32) : Recorded [] L where
  next_pos := hn
  next_le := hle
  numbers := by simp [h]
  exit_numbers := by simp [exits]
  report_numbers := by simp [reports]
  once := by simp [exits]
  exited := by simp [exits]
  recorded := by simp [h]
  order := by simp [h]
  waiting := by simp [h]
  gone := by simp [reports]

section

variable (h : Recorded H L)
include h

theorem silent : Recorded (H ++ [.silent]) L := by
  have he : exits (H ++ [.silent]) = exits H := by simp [exits_append, Label.exit?]
  have hr : reports (H ++ [.silent]) = reports H := by simp [reports_append, Label.report?]
  refine ⟨h.next_pos, h.next_le, h.numbers, ?_, ?_, ?_, ?_, ?_, fun P l hP => ?_, h.waiting, ?_⟩
  · rw [he]; exact h.exit_numbers
  · rw [hr]; exact h.report_numbers
  · rw [he]; exact h.once
  · rw [he]; exact h.exited
  · rw [he]; exact h.recorded
  · rw [exitsTo_append_of_none _ _ rfl, reportsTo_append_of_none _ _ rfl]
    exact h.order P l hP
  · rw [hr]; exact h.gone

theorem born {parent : ℕ} (hp : parent = 0 ∨ ∃ l, L.proc parent = some l) (hn : L.next < 2 ^ 32) :
    Recorded (H ++ [.born (L.next % 2 ^ 32) parent])
      { proc := Function.update L.proc (L.next % 2 ^ 32) (some { parent, exited := none, unreported := [] })
        next := (L.next + 1) % 2 ^ 64 } := by
  have hpid : L.next % 2 ^ 32 = L.next := Nat.mod_eq_of_lt hn
  have hnext : (L.next + 1) % 2 ^ 64 = L.next + 1 := Nat.mod_eq_of_lt (by omega)
  rw [hpid, hnext]
  have he : exits (H ++ [.born L.next parent]) = exits H := by simp [exits_append, Label.exit?]
  have hr : reports (H ++ [.born L.next parent]) = reports H := by simp [reports_append, Label.report?]
  have hparent : parent < L.next := by
    rcases hp with rfl | ⟨l, hl⟩
    · exact h.next_pos
    · exact (h.numbers _ _ hl).2.1
  -- the new process is nobody of the history, and everybody else is what they were
  refine ⟨Nat.succ_pos _, hn, fun q l hl => ?_, ?_, ?_, ?_, ?_, fun q l code hl hc => ?_, fun P l hl => ?_,
    fun P l hl c hc => ?_, ?_⟩
  · rcases Lives.born_cases hl with ⟨rfl, rfl⟩ | ⟨-, hl⟩
    · exact ⟨h.next_pos, Nat.lt_succ_self _, hparent⟩
    · obtain ⟨h1, h2, h3⟩ := h.numbers q l hl
      exact ⟨h1, Nat.lt_succ_of_lt h2, h3⟩
  · rw [he]
    exact fun x hx => ⟨(h.exit_numbers x hx).1, Nat.lt_succ_of_lt (h.exit_numbers x hx).2⟩
  · rw [hr]
    exact fun r hr => Nat.lt_succ_of_lt (h.report_numbers r hr)
  · rw [he]
    exact h.once
  · rw [he]
    intro x hx l hl
    rcases Lives.born_cases hl with ⟨hq, -⟩ | ⟨-, hl⟩
    · exact absurd hq (h.exit_numbers x hx).2.ne
    · exact h.exited x hx l hl
  · rw [he]
    rcases Lives.born_cases hl with ⟨rfl, rfl⟩ | ⟨-, hl⟩
    · cases hc
    · exact h.recorded q l code hl hc
  · rw [exitsTo_append_of_none _ _ rfl, reportsTo_append_of_none _ _ rfl]
    rcases Lives.born_cases hl with ⟨rfl, rfl⟩ | ⟨-, hl⟩
    · have hnone : exitsTo L.next H = [] := by
        rw [List.eq_nil_iff_forall_not_mem]
        intro c hc
        have hlt := h.exit_numbers _ (mem_exitsTo.mp hc)
        dsimp only at hlt
        omega
      have hnone' : reportsTo L.next H = [] := by
        rw [List.eq_nil_iff_forall_not_mem]
        intro c hc
        have hlt := h.report_numbers _ (mem_reportsTo.mp hc)
        dsimp only at hlt
        omega
      rw [hnone, hnone']
      rfl
    · exact h.order P l hl
  · rcases Lives.born_cases hl with ⟨rfl, rfl⟩ | ⟨-, hl⟩
    · cases hc
    · obtain ⟨l', hl', hx, hpar⟩ := h.waiting P l hl c hc
      exact ⟨l', (update_of_ne (h.numbers _ _ hl').2.1.ne ..).trans hl', hx, hpar⟩
  · rw [hr]
    intro r hr
    obtain ⟨hnone, hlt⟩ := h.gone r hr
    exact ⟨(update_of_ne hlt.ne ..).trans hnone, Nat.lt_succ_of_lt hlt⟩

theorem exit {pid : ℕ} (hl : L.proc pid = some l) (halive : l.exited = none) :
    Recorded (H ++ [.exit pid l.parent code])
      { L with
        proc := fun q => (L.proc q).map fun l' =>
          (if q = l.parent then Life.told pid code else id) ((if q = pid then Life.exits code else id) l') } := by
  have he : exits (H ++ [.exit pid l.parent code]) = exits H ++ [⟨pid, l.parent, code⟩] := by simp [exits_append, Label.exit?]
  have hr : reports (H ++ [.exit pid l.parent code]) = reports H := by simp [reports_append, Label.report?]
  obtain ⟨hpos, hlt, hparent⟩ := h.numbers pid l hl
  refine ⟨h.next_pos, h.next_le, fun q m hm => ?_, ?_, ?_, ?_, ?_, fun q m c hm hc => ?_, fun P m hm => ?_,
    fun P m hm c hc => ?_, ?_⟩
  · obtain ⟨m₀, hm₀, ha⟩ := Lives.exit_cases hm
    rw [ha.parent]
    exact h.numbers q m₀ hm₀
  · rw [he]
    intro x hx
    rcases mem_append.mp hx with hx | hx
    · exact h.exit_numbers x hx
    · rw [mem_singleton.mp hx]
      exact ⟨hparent, hlt⟩
  · rw [hr]
    exact h.report_numbers
  · rw [he, map_append, nodup_append]
    refine ⟨h.once, List.nodup_singleton _, ?_⟩
    rintro a ha b hb rfl
    rw [List.map_singleton, mem_singleton] at hb
    rw [hb] at ha
    exact h.not_mem_of_alive hl halive ha
  · rw [he]
    intro x hx m hm
    obtain ⟨m₀, hm₀, ha⟩ := Lives.exit_cases hm
    rw [ha.exited, ha.parent]
    rcases mem_append.mp hx with hx | hx
    · have hne : x.pid ≠ pid := fun heq => h.not_mem_of_alive hl halive (heq ▸ List.mem_map_of_mem hx)
      rw [if_neg hne]
      exact h.exited x hx m₀ hm₀
    · rw [mem_singleton] at hx
      subst hx
      rw [hl] at hm₀
      rw [if_pos rfl, ← Option.some.inj hm₀]
      exact ⟨rfl, rfl⟩
  · rw [he]
    obtain ⟨m₀, hm₀, ha⟩ := Lives.exit_cases hm
    rw [ha.parent]
    rw [ha.exited] at hc
    by_cases hq : q = pid
    · subst hq
      rw [if_pos rfl] at hc
      rw [hl] at hm₀
      rw [← Option.some.inj hm₀, ← Option.some.inj hc]
      exact List.mem_append_right _ (List.mem_singleton_self _)
    · rw [if_neg hq] at hc
      exact mem_append_left _ (h.recorded q m₀ c hm₀ hc)
  · obtain ⟨m₀, hm₀, ha⟩ := Lives.exit_cases hm
    rw [exitsTo_append_exit, reportsTo_append_of_none _ _ rfl, ha.unreported, ← List.append_assoc, h.order P m₀ hm₀]
  · obtain ⟨m₀, hm₀, ha⟩ := Lives.exit_cases hm
    rw [ha.unreported] at hc
    rcases mem_append.mp hc with hc | hc
    · obtain ⟨l', hl', hx, hpar⟩ := h.waiting P m₀ hm₀ c hc
      have hne : c.1 ≠ pid := by
        intro heq
        rw [heq, hl] at hl'
        rw [← Option.some.inj hl', halive] at hx
        cases hx
      obtain ⟨m', hm', ha'⟩ := Lives.exit_stays hl'
      exact ⟨m', hm', by rw [ha'.exited, if_neg hne, hx], by rw [ha'.parent, hpar]⟩
    · split_ifs at hc with hP
      · obtain ⟨m', hm', ha'⟩ := Lives.exit_stays hl
        rw [mem_singleton.mp hc]
        exact ⟨m', hm', by rw [ha'.exited, if_pos rfl], by rw [ha'.parent, hP]⟩
      · cases hc
  · rw [hr]
    intro r hr
    obtain ⟨hnone, hlt⟩ := h.gone r hr
    exact ⟨by dsimp only; rw [hnone]; rfl, hlt⟩

theorem report {caller child : ℕ} {rest : List (ℕ × ℤ)}
    (hl : L.proc caller = some l) (hun : l.unreported = (child, code) :: rest) :
    Recorded (H ++ [.report caller child code])
      { L with
        proc := Function.update (Function.update L.proc caller (some { l with unreported := rest })) child none } := by
  have he : exits (H ++ [.report caller child code]) = exits H := by simp [exits_append, Label.exit?]
  have hr : reports (H ++ [.report caller child code]) = reports H ++ [⟨caller, child, code⟩] := by
    simp [reports_append, Label.report?]
  obtain ⟨lc, hlc, hexc, hparc⟩ := h.waiting caller l hl (child, code) (by rw [hun]; simp)
  have hnodup : (reportsTo caller H ++ (child, code) :: rest).map Prod.fst |>.Nodup := by
    rw [← hun, ← h.order caller l hl]
    exact h.exitsTo_nodup caller
  -- the child is among nobody's children to be told of
  have hother : ∀ {P : ℕ} {m₀ : Life} {c : ℕ × ℤ}, L.proc P = some m₀ → c ∈ m₀.unreported →
      (P = caller → c ∈ rest) → c.1 ≠ child := by
    intro P m₀ c hm₀ hc hrest heq
    obtain ⟨l', hl', -, hpar⟩ := h.waiting P m₀ hm₀ c hc
    rw [heq, hlc] at hl'
    have hP : P = caller := by rw [← hpar, ← Option.some.inj hl', hparc]
    have hmem := hrest hP
    rw [map_append, nodup_append] at hnodup
    have hnot := (List.nodup_cons.mp hnodup.2.1).1
    exact hnot (mem_map.mpr ⟨c, hmem, heq⟩)
  refine ⟨h.next_pos, h.next_le, fun q m hm => ?_, ?_, ?_, ?_, ?_, fun q m c hm hc => ?_, fun P m hm => ?_,
    fun P m hm c hc => ?_, ?_⟩
  · obtain ⟨-, m₀, hm₀, hpar, -⟩ := Lives.report_cases hl hm
    rw [hpar]
    exact h.numbers q m₀ hm₀
  · rw [he]
    exact h.exit_numbers
  · rw [hr]
    intro r hr
    rcases mem_append.mp hr with hr | hr
    · exact h.report_numbers r hr
    · rw [mem_singleton.mp hr]
      exact (h.numbers _ _ hl).2.1
  · rw [he]
    exact h.once
  · rw [he]
    intro x hx m hm
    obtain ⟨-, m₀, hm₀, hpar, hex, -⟩ := Lives.report_cases hl hm
    rw [hpar, hex]
    exact h.exited x hx m₀ hm₀
  · rw [he]
    obtain ⟨-, m₀, hm₀, hpar, hex, -⟩ := Lives.report_cases hl hm
    rw [hpar]
    exact h.recorded q m₀ c hm₀ (hex ▸ hc)
  · obtain ⟨-, m₀, hm₀, -, -, hlist⟩ := Lives.report_cases hl hm
    rw [exitsTo_append_of_none _ _ rfl, reportsTo_append_report, h.order P m₀ hm₀]
    rcases hlist with ⟨rfl, rfl, hrest⟩ | ⟨hne, rfl⟩
    · rw [hrest, hun, if_pos rfl, List.append_assoc]
      rfl
    · rw [if_neg (Ne.symm hne), List.append_nil]
  · obtain ⟨-, m₀, hm₀, -, -, hlist⟩ := Lives.report_cases hl hm
    have hc₀ : c ∈ m₀.unreported := by
      rcases hlist with ⟨-, rfl, hrest⟩ | ⟨-, rfl⟩
      · rw [hun]
        exact List.mem_cons_of_mem _ (hrest ▸ hc)
      · exact hc
    have hne : c.1 ≠ child := by
      refine hother hm₀ hc₀ fun hP => ?_
      rcases hlist with ⟨-, -, hrest⟩ | ⟨hP', -⟩
      · exact hrest ▸ hc
      · exact absurd hP hP'
    obtain ⟨l', hl', hx, hpar⟩ := h.waiting P m₀ hm₀ c hc₀
    obtain ⟨m', hm', hpar', hx', -⟩ := Lives.report_stays hl hl' hne
    exact ⟨m', hm', hx'.trans hx, hpar'.trans hpar⟩
  · rw [hr]
    intro r hr
    rcases mem_append.mp hr with hr | hr
    · obtain ⟨hnone, hlt⟩ := h.gone r hr
      refine ⟨?_, hlt⟩
      dsimp only
      by_cases hrc : r.child = child
      · rw [hrc, update_self]
      · rw [update_of_ne hrc, update_of_ne (fun heq => ?_), hnone]
        rw [heq, hl] at hnone
        cases hnone
    · rw [mem_singleton.mp hr]
      exact ⟨update_self .., (h.numbers _ _ hlc).2.1⟩

theorem step (hfresh : L.FreshNumbers a) (halive : L.ExitsAlive a) (hs : L.Step a L') :
    Recorded (H ++ [a]) L' := by
  cases hs with
  | silent => exact h.silent
  | born hp => exact h.born hp hfresh
  | exit hl => exact h.exit hl (halive _ hl)
  | report hl hun => exact h.report hl hun

end

end Recorded

/-! ### Who leaves -/

namespace Lives

variable {L L' : Lives} {a : Label}
variable {q : ℕ} {l : Life}

/-- Where a life of the state after a step comes from. -/
inductive Comes (L : Lives) (a : Label) (L' : Lives) (q : ℕ) (l' : Life) : Prop
  | new : q = L.next → L'.next = L.next + 1 → l'.exited = none → l'.unreported = [] → Comes L a L' q l'
  | old {l : Life} : L.proc q = some l → L'.next = L.next ∨ L'.next = L.next + 1 →
      (∀ P code, a = .exit q P code → l'.exited = some code) →
      ((∀ P code, a ≠ .exit q P code) → l'.exited = l.exited) →
      (∀ c ∈ l'.unreported, c ∈ l.unreported ∨ ∃ P m, a = .exit c.1 P c.2 ∧ L.proc c.1 = some m) → Comes L a L' q l'

theorem Step.comes (hs : L.Step a L') (hfresh : L.FreshNumbers a) {l' : Life} (hq : L'.proc q = some l') :
    Comes L a L' q l' := by
  cases hs with
  | silent => exact .old hq (.inl rfl) (by simp) (fun _ => rfl) fun c hc => .inl hc
  | @born parent _ =>
    have hn : L.next < 2 ^ 32 := hfresh
    have hnext : (L.next + 1) % 2 ^ 64 = L.next + 1 := Nat.mod_eq_of_lt (by omega)
    rw [Nat.mod_eq_of_lt hn] at hq
    rcases born_cases hq with ⟨hnew, rfl⟩ | ⟨-, hq⟩
    · exact .new hnew hnext rfl rfl
    · exact .old hq (.inr hnext) (by simp) (fun _ => rfl) fun c hc => .inl hc
  | @exit pid l code hl =>
    obtain ⟨m, hm, ha⟩ := exit_cases hq
    refine .old hm (.inl rfl) ?_ (fun hne => ?_) fun c hc => ?_
    · intro P code' hlabel
      obtain ⟨rfl, -, rfl⟩ := Label.exit.inj hlabel
      rw [ha.exited, if_pos rfl]
    · have hq' : q ≠ pid := fun h => hne l.parent code (by rw [h])
      rw [ha.exited, if_neg hq']
    · rw [ha.unreported] at hc
      rcases mem_append.mp hc with hc | hc
      · exact .inl hc
      · split_ifs at hc
        · rw [mem_singleton.mp hc]
          exact .inr ⟨_, l, rfl, hl⟩
        · cases hc
  | @report caller child code l rest hl hrest =>
    obtain ⟨-, m, hm, -, hex, hlist⟩ := report_cases hl hq
    refine .old hm (.inl rfl) (by simp) (fun _ => hex) fun c hc => .inl ?_
    rcases hlist with ⟨-, rfl, hun⟩ | ⟨-, rfl⟩
    · rw [hrest]
      exact List.mem_cons_of_mem _ (hun ▸ hc)
    · exact hc

theorem Step.stays (hs : L.Step a L') (hq : L.proc q = some l) :
    (∃ l', L'.proc q = some l') ∨ ∃ caller m code, L.proc caller = some m ∧ (q, code) ∈ m.unreported := by
  cases hs with
  | silent => exact .inl ⟨l, hq⟩
  | born _ =>
    by_cases hnew : q = L.next % 2 ^ 32
    · rw [hnew]
      exact .inl ⟨_, update_self ..⟩
    · exact .inl ⟨l, (update_of_ne hnew ..).trans hq⟩
  | exit _ => exact .inl ((exit_stays hq).imp fun _ h => h.1)
  | @report caller child code m rest hm hrest =>
    by_cases hchild : q = child
    · rw [hchild]
      exact .inr ⟨caller, m, code, hm, by rw [hrest]; exact List.mem_cons_self⟩
    · exact .inl ((report_stays hm hq hchild).imp fun _ h => h.1)

/-- The children to be reported have exited. -/
structure Settled (L : Lives) : Prop where
  numbers : ∀ q l, L.proc q = some l → q < L.next ∧ ∀ c ∈ l.unreported, c.1 < L.next
  dead : ∀ P l, L.proc P = some l → ∀ c ∈ l.unreported, ∀ l', L.proc c.1 = some l' → l'.exited ≠ none

theorem Settled.step (h : L.Settled) (hfresh : L.FreshNumbers a) (hs : L.Step a L') : L'.Settled := by
  have hle : L.next ≤ L'.next ∨ ∀ q l, L'.proc q ≠ some l := by
    by_cases hsome : ∃ q l, L'.proc q = some l
    · obtain ⟨q, l, hq⟩ := hsome
      cases hs.comes hfresh hq with
      | new _ hn _ _ => exact .inl (by omega)
      | old _ hn _ _ _ => exact .inl (by omega)
    · push Not at hsome
      exact .inr hsome
  -- who is told of was there before
  have hold : ∀ P l', L'.proc P = some l' → ∀ c ∈ l'.unreported, c.1 < L.next ∧
      ((∃ P' code, a = .exit c.1 P' code) ∨ ∀ m, L.proc c.1 = some m → m.exited ≠ none) := by
    intro P l' hP c hc
    cases hs.comes hfresh hP with
    | new _ _ _ hnil => rw [hnil] at hc; cases hc
    | old hl _ _ _ hun =>
      rcases hun c hc with hc | ⟨P', m, ha, hm⟩
      · exact ⟨(h.numbers _ _ hl).2 c hc, .inr (h.dead _ _ hl c hc)⟩
      · exact ⟨(h.numbers _ _ hm).1, .inl ⟨P', c.2, ha⟩⟩
  refine ⟨fun q l' hq => ?_, fun P l' hP c hc m' hm' => ?_⟩
  · have hle := hle.resolve_right fun hno => hno q l' hq
    refine ⟨?_, fun c hc => (hold q l' hq c hc).1.trans_le hle⟩
    cases hs.comes hfresh hq with
    | new hnew hn _ _ => omega
    | old hl _ _ _ _ => exact (h.numbers _ _ hl).1.trans_le hle
  · obtain ⟨hlt, hexit⟩ := hold P l' hP c hc
    cases hs.comes hfresh hm' with
    | new hnew _ _ _ => exact absurd hnew hlt.ne
    | old hm _ hself hother _ =>
      by_cases ha : ∃ P' code, a = .exit c.1 P' code
      · obtain ⟨P', code, ha⟩ := ha
        rw [hself P' code ha]
        simp
      · rw [hother fun P' code hcon => ha ⟨P', code, hcon⟩]
        exact hexit.resolve_left ha _ hm

theorem Settled.alive (h : L.Settled) (hfresh : L.FreshNumbers a) (hs : L.Step a L') (hq : L.proc q = some l)
    (hl : l.exited = none) (hne : ∀ P code, a ≠ .exit q P code) : ∃ l', L'.proc q = some l' ∧ l'.exited = none := by
  rcases hs.stays hq with ⟨l', hl'⟩ | ⟨caller, m, code, hm, hmem⟩
  · refine ⟨l', hl', ?_⟩
    cases hs.comes hfresh hl' with
    | new _ _ hex _ => exact hex
    | old hold _ _ hother _ =>
      obtain rfl := Option.some.inj (hq.symm.trans hold)
      rw [hother hne, hl]
  · exact absurd hl (h.dead caller m hm _ hmem l hq)

end Lives

/-! ### Who can be told of -/

/-- A live parent is still to be told of everybody who has exited. -/
def Lives.AllWaited (L : Lives) : Prop :=
  ∀ q l code, L.proc q = some l → l.exited = some code →
    ∃ m, L.proc l.parent = some m ∧ m.exited = none ∧ (q, code) ∈ m.unreported

/-- Whoever exits leaves no exited child, and has a live parent. -/
def Lives.LeavesNobody (L : Lives) : Label → Prop
  | .exit pid parent _ => (∃ m, L.proc parent = some m ∧ m.exited = none) ∧ ∀ l, L.proc pid = some l → l.unreported = []
  | _ => True

theorem Lives.AllWaited.step (h : L.AllWaited) (hrec : Recorded H L)
    (hfresh : L.FreshNumbers a) (hleave : L.LeavesNobody a) (hs : L.Step a L') : L'.AllWaited := by
  cases hs with
  | silent => exact h
  | @born parent _ =>
    have hn : L.next < 2 ^ 32 := hfresh
    intro q l code hq hex
    rw [Nat.mod_eq_of_lt hn] at hq ⊢
    rcases Lives.born_cases hq with ⟨-, rfl⟩ | ⟨-, hq⟩
    · cases hex
    · obtain ⟨m, hm, halive, hmem⟩ := h q l code hq hex
      exact ⟨m, (update_of_ne (hrec.numbers _ _ hm).2.1.ne ..).trans hm, halive, hmem⟩
  | @exit pid l code hl =>
    obtain ⟨⟨m, hm, hmalive⟩, hnone⟩ := hleave
    have hnone := hnone l hl
    have hpar : l.parent ≠ pid := (hrec.numbers pid l hl).2.2.ne
    intro q l' code' hq hex
    obtain ⟨n, hn, ha⟩ := Lives.exit_cases hq
    rw [ha.exited] at hex
    rw [ha.parent]
    by_cases hqp : q = pid
    · subst hqp
      obtain rfl := Option.some.inj (hl.symm.trans hn)
      rw [if_pos rfl] at hex
      obtain rfl : code = code' := Option.some.inj hex
      obtain ⟨m', hm', ha'⟩ := Lives.exit_stays hm
      refine ⟨m', hm', by rw [ha'.exited, if_neg hpar, hmalive], ?_⟩
      rw [ha'.unreported, if_pos rfl]
      exact List.mem_append_right _ (mem_singleton.mpr rfl)
    · -- a zombie whose parent is not the one that exits
      rw [if_neg hqp] at hex
      obtain ⟨m₁, hm₁, halive, hmem⟩ := h q n code' hn hex
      have hne : n.parent ≠ pid := by
        intro heq
        rw [heq, hl] at hm₁
        rw [← Option.some.inj hm₁, hnone] at hmem
        cases hmem
      obtain ⟨m', hm', ha'⟩ := Lives.exit_stays hm₁
      refine ⟨m', hm', by rw [ha'.exited, if_neg hne, halive], ?_⟩
      rw [ha'.unreported]
      exact mem_append_left _ hmem
  | @report caller child code l rest hl hrest =>
    obtain ⟨lc, hlc, hlcex, -⟩ := hrec.waiting caller l hl (child, code) (by rw [hrest]; exact List.mem_cons_self)
    intro q l' code' hq hex
    obtain ⟨hchild, n, hn, hpar, hnex, -⟩ := Lives.report_cases hl hq
    obtain ⟨m, hm, hmalive, hmem⟩ := h q n code' hn (hnex ▸ hex)
    have hpc : n.parent ≠ child := by
      intro heq
      rw [heq, hlc] at hm
      rw [← Option.some.inj hm, hlcex] at hmalive
      cases hmalive
    obtain ⟨m', hm', -, hex', hlist⟩ := Lives.report_stays hl hm hpc
    rw [hpar]
    refine ⟨m', hm', hex'.trans hmalive, ?_⟩
    rcases hlist with rfl | ⟨-, rfl, hun⟩
    · exact hmem
    · rw [hrest] at hmem
      rw [hun]
      exact (List.mem_cons.mp hmem).resolve_left fun heq => hchild (Prod.mk.inj heq).1

theorem Recorded.waited_once (hrec : Recorded H L) {P : ℕ} {m : Life} {c : ℕ × ℤ}
    (hP : L.proc P = some m) (hmem : c ∈ m.unreported) :
    m.unreported.countP (·.1 = c.1) = 1 ∧ ∀ P' m', L.proc P' = some m' → (∃ c' ∈ m'.unreported, c'.1 = c.1) → P' = P := by
  obtain ⟨l, hl, -, hpar⟩ := hrec.waiting P m hP c hmem
  constructor
  · have hnodup : (m.unreported.map Prod.fst).Nodup := by
      have hexits := hrec.exitsTo_nodup P
      rw [hrec.order P m hP, map_append] at hexits
      exact (nodup_append.mp hexits).2.1
    have hcount := List.count_eq_one_of_mem hnodup (List.mem_map_of_mem hmem)
    rw [List.count, List.countP_map] at hcount
    congr 1
  · rintro P' m' hP' ⟨c', hc', heq⟩
    obtain ⟨l', hl', -, hpar'⟩ := hrec.waiting P' m' hP' c' hc'
    rw [heq, hl] at hl'
    rw [← hpar', ← Option.some.inj hl', hpar]

end RustKernel.Task
