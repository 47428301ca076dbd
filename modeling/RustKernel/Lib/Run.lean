import Mathlib.Algebra.Order.Ring.Nat
import Mathlib.Data.List.Basic

/-!
# Runs of a transition system

A system is a step function `step : σ → ε → Option σ`: the event `e` is possible in `s`
when `step s e` is a state. A run is a sequence of possible events; its trace keeps, for
each event, the state it happened in, so that a property of runs can speak of what
happened before.
-/

namespace RustKernel.Lib

variable {σ ε : Type} {step : σ → ε → Option σ}
variable {Ok : σ → ε → Prop} {es : List ε} {s : σ} {Q : σ → Prop}

inductive Run (step : σ → ε → Option σ) (s : σ) : List (σ × ε) → σ → Prop
  | nil : Run step s [] s
  | snoc {tr : List (σ × ε)} {t u : σ} {e : ε} :
      Run step s tr t → step t e = some u → Run step s (tr ++ [(t, e)]) u

namespace Run

variable {s t : σ} {tr : List (σ × ε)} {u : σ} {I : σ → Prop} {K : σ → ε → Prop} {tr' : List (σ × ε)} {e : ε}

theorem invariant (h : Run step s tr t) (h0 : I s) (hok : ∀ x ∈ tr, K x.1 x.2)
    (hstep : ∀ a e b, I a → K a e → step a e = some b → I b) : I t := by
  induction h with
  | nil => exact h0
  | @snoc tr a b e _ hs ih =>
    have ha : I a := ih fun x hx => hok x (List.mem_append_left _ hx)
    exact hstep a e b ha (hok (a, e) (by simp)) hs

theorem keeps (h : Run step s tr t) (h0 : I s) (hstep : ∀ a e b, I a → step a e = some b → I b) : I t := by
  induction h with
  | nil => exact h0
  | snoc _ hs ih => exact hstep _ _ _ ih hs

theorem history {I : List (σ × ε) → σ → Prop} (h : Run step s tr t) (h0 : I [] s) (hok : ∀ x ∈ tr, K x.1 x.2)
    (hstep : ∀ tr a e b, I tr a → K a e → step a e = some b → I (tr ++ [(a, e)]) b) : I tr t := by
  induction h with
  | nil => exact h0
  | @snoc tr a b e _ hs ih =>
    have ha : I tr a := ih fun x hx => hok x (List.mem_append_left _ hx)
    exact hstep tr a e b ha (hok (a, e) (by simp)) hs

theorem append (h : Run step s tr t) (h' : Run step t tr' u) : Run step s (tr ++ tr') u := by
  induction h' with
  | nil => simpa using h
  | snoc _ hs ih => rw [← List.append_assoc]; exact ih.snoc hs

theorem split (h : Run step s (tr ++ tr') u) : ∃ t, Run step s tr t ∧ Run step t tr' u := by
  generalize hall : tr ++ tr' = all at h
  induction h generalizing tr' with
  | nil =>
    obtain ⟨rfl, rfl⟩ := List.append_eq_nil_iff.mp hall
    exact ⟨s, .nil, .nil⟩
  | @snoc tr₀ t u e h hs ih =>
    rcases List.eq_nil_or_concat' tr' with rfl | ⟨tr₁, x, rfl⟩
    · rw [List.append_nil] at hall
      exact ⟨u, hall ▸ h.snoc hs, .nil⟩
    · rw [← List.append_assoc] at hall
      obtain ⟨htr, hx⟩ := List.append_inj' hall rfl
      obtain ⟨m, hm, hm'⟩ := ih htr
      exact ⟨m, hm, hx ▸ hm'.snoc hs⟩

theorem of_nil (h : Run step s [] t) : t = s := by
  generalize hnil : ([] : List (σ × ε)) = tr at h
  cases h with
  | nil => rfl
  | snoc _ _ => simp at hnil

theorem of_cons {a : σ} (h : Run step s ((a, e) :: tr) u) : a = s ∧ ∃ t, step s e = some t ∧ Run step t tr u := by
  have hcut : Run step s ([(a, e)] ++ tr) u := h
  obtain ⟨t, hfirst, hrest⟩ := hcut.split
  generalize hone : [(a, e)] = one at hfirst
  cases hfirst with
  | nil => cases hone
  | @snoc tr₀ t' _ e' h₀ hs =>
    have hone' : [] ++ [(a, e)] = tr₀ ++ [(t', e')] := hone
    obtain ⟨rfl, hx⟩ := List.append_inj' hone' rfl
    cases hx
    cases h₀.of_nil
    exact ⟨rfl, t, hs, hrest⟩

theorem start {P : σ → Prop} (h : Run step s tr t) (hall : ∀ x ∈ tr, P x.1) (ht : P t) : P s := by
  cases tr with
  | nil => exact h.of_nil ▸ ht
  | cons x tr =>
    obtain ⟨hx, -⟩ := h.of_cons
    exact hx ▸ hall x List.mem_cons_self

theorem single (h : step s e = some t) : Run step s [(s, e)] t :=
  Run.nil.snoc h

end Run

def exec (step : σ → ε → Option σ) (Ok : σ → ε → Prop) [∀ s e, Decidable (Ok s e)] : σ → List ε → Option σ
  | s, [] => some s
  | s, e :: es => if Ok s e then (step s e).bind fun t => exec step Ok t es else none

def trace (step : σ → ε → Option σ) : σ → List ε → List (σ × ε)
  | _, [] => []
  | s, e :: es => (s, e) :: match step s e with
    | some t => trace step t es
    | none => []

theorem run_of_exec [∀ s e, Decidable (Ok s e)] : ∀ {es : List ε} {s t : σ},
    exec step Ok s es = some t → Run step s (trace step s es) t ∧ ∀ x ∈ trace step s es, Ok x.1 x.2
  | [], s, t, h => by
    cases h
    exact ⟨.nil, by simp [trace]⟩
  | e :: es, s, t, h => by
    rw [exec] at h
    split_ifs at h with hok
    obtain ⟨u, hu, h'⟩ := Option.bind_eq_some_iff.mp h
    obtain ⟨hrun, hall⟩ := run_of_exec h'
    rw [trace, hu]
    refine ⟨(Run.single hu).append hrun, fun x hx => ?_⟩
    rcases List.mem_cons.mp hx with rfl | hx
    · exact hok
    · exact hall x hx

theorem run_of_any [∀ s e, Decidable (Ok s e)] [DecidablePred Q] (h : (exec step Ok s es).any fun t => Q t) :
    ∃ t, Run step s (trace step s es) t ∧ (∀ x ∈ trace step s es, Ok x.1 x.2) ∧ Q t := by
  obtain ⟨t, ht, hQ⟩ := (Option.any_eq_true ..).mp h
  obtain ⟨hrun, hok⟩ := run_of_exec ht
  exact ⟨t, hrun, hok, of_decide_eq_true hQ⟩

theorem exists_run_of_any [∀ s e, Decidable (Ok s e)] [DecidablePred Q]
    (h : (exec step Ok s es).any fun t => Q t) : ∃ tr t, Run step s tr t ∧ (∀ x ∈ tr, Ok x.1 x.2) ∧ Q t := by
  obtain ⟨t, hrun⟩ := run_of_any h
  exact ⟨_, t, hrun⟩

end RustKernel.Lib
