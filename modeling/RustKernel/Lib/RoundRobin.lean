import Mathlib.Algebra.Order.Ring.Nat
import Mathlib.Data.List.Nodup

/-!
# Taking turns

A round-robin scheduler keeps its members in a queue. A turn passes over some members at the front, selects the next one
and sends everybody passed over and then the selected member to the back: `pre ++ x :: post` becomes `post ++ pre ++ [x]`.
Between turns members may join anywhere and leave.

Fairness is a fact about two members `a` and `b`, neither of which is passed over: since the last selection of `a`, either
`b` has not been selected and stands before `a`, or it has been selected once and stands behind it. `Turns a b q n` says so;
it holds once `a` has been selected, is kept by turns, joins and leaves, and gives `n = 1` when `a` is selected again.
-/

namespace RustKernel.Lib

variable {α : Type} {a b x : α} {q pre post : List α} {n : ℕ}

def Turns (a b : α) (q : List α) (n : ℕ) : Prop :=
  (n = 0 ∧ [b, a].Sublist q) ∨ (n = 1 ∧ [a, b].Sublist q)

theorem sublist_of_append {u v : α} (h : [u, v].Sublist (pre ++ q)) (hu : u ∉ pre) : [u, v].Sublist q := by
  obtain ⟨l₁, l₂, he, h₁, h₂⟩ := List.sublist_append_iff.mp h
  cases l₁ with
  | nil => exact he ▸ h₂
  | cons w l =>
    rw [List.cons_append, List.cons.injEq] at he
    exact absurd (he.1 ▸ h₁.subset List.mem_cons_self) hu

theorem turns_of_selected (hb : b ∈ q) : Turns a b (q ++ [a]) 0 :=
  .inl ⟨rfl, (List.singleton_sublist.mpr hb).append (List.Sublist.refl [a])⟩

namespace Turns

theorem keep {q' : List α} (h : Turns a b q n) (hab : [a, b].Sublist q → [a, b].Sublist q')
    (hba : [b, a].Sublist q → [b, a].Sublist q') : Turns a b q' n :=
  h.imp (fun h => ⟨h.1, hba h.2⟩) fun h => ⟨h.1, hab h.2⟩

theorem join {q' : List α} (h : Turns a b q n) (hq : q.Sublist q') : Turns a b q' n :=
  h.keep (fun h => h.trans hq) fun h => h.trans hq

theorem leave {β : Type} {f : β → α} {l : List β} {p : β → Bool} (h : Turns a b (l.map f) n)
    (ha : ∀ x ∈ l, f x = a → p x) (hb : ∀ x ∈ l, f x = b → p x) : Turns a b ((l.filter p).map f) n := by
  have hpair : ∀ {u v : α}, (∀ x ∈ l, f x = u → p x) → (∀ x ∈ l, f x = v → p x) → [u, v].Sublist (l.map f) →
      [u, v].Sublist ((l.filter p).map f) := by
    intro u v hu hv h
    obtain ⟨l', hl', he⟩ := List.sublist_map_iff.mp h
    have hall : ∀ x ∈ l', p x := by
      intro x hx
      have hfx : f x ∈ [u, v] := he ▸ List.mem_map_of_mem hx
      rcases List.mem_pair.mp hfx with h | h
      · exact hu x (hl'.subset hx) h
      · exact hv x (hl'.subset hx) h
    have hkept : l'.filter p = l' := List.filter_eq_self.mpr hall
    rw [he, ← hkept]
    exact (hl'.filter p).map f
  exact h.keep (hpair ha hb) (hpair hb ha)

theorem turn [DecidableEq α] (h : Turns a b (pre ++ x :: post) n) (hq : (pre ++ x :: post).Nodup) (ha : a ∉ pre) (hb : b ∉ pre)
    (hx : x ≠ a) : Turns a b (post ++ pre ++ [x]) (n + if x = b then 1 else 0) := by
  have hrest : ∀ {u v : α}, u ∉ pre → x ≠ u → [u, v].Sublist (pre ++ x :: post) → [u, v].Sublist post := by
    intro u v hu hxu h
    have hpair : [u, v].Sublist ([x] ++ post) := sublist_of_append h hu
    exact sublist_of_append hpair (by simpa using hxu.symm)
  have hback : ∀ {l : List α}, l.Sublist post → l.Sublist (post ++ pre ++ [x]) := fun h =>
    h.trans ((List.sublist_append_left post pre).trans (List.sublist_append_left _ [x]))
  by_cases hxb : x = b
  · subst hxb
    rw [if_pos rfl]
    obtain ⟨rfl, h⟩ | ⟨-, h⟩ := h
    · -- `b` is selected for the first time: it goes to the end, behind `a`
      have hpair : [x, a].Sublist (x :: post) := sublist_of_append h hb
      have ha' : a ∈ post := List.singleton_sublist.mp (List.cons_sublist_cons.mp hpair)
      exact .inr ⟨rfl, (List.singleton_sublist.mpr (List.mem_append_left pre ha')).append (List.Sublist.refl [x])⟩
    · -- it cannot be selected again before `a`: they would both be behind it
      have hpost : [a, x].Sublist post := hrest ha hx h
      have hmem : x ∈ post := hpost.subset (by simp)
      have hnodup : (x :: post).Nodup := (List.nodup_append.mp hq).2.1
      exact absurd hmem (List.nodup_cons.mp hnodup).1
  · rw [if_neg hxb]
    exact h.keep (fun h => hback (hrest ha hx h)) fun h => hback (hrest hb hxb h)

theorem eq_one (h : Turns a b (pre ++ a :: post) n) (hq : (pre ++ a :: post).Nodup) (hb : b ∉ pre) (hne : b ≠ a) : n = 1 := by
  obtain ⟨-, h⟩ | ⟨rfl, -⟩ := h
  · have hpair : [b, a].Sublist ([a] ++ post) := sublist_of_append h hb
    have hpost : [b, a].Sublist post := sublist_of_append hpair (by simpa using hne)
    have hmem : a ∈ post := hpost.subset (by simp)
    have hnodup : (a :: post).Nodup := (List.nodup_append.mp hq).2.1
    exact absurd hmem (List.nodup_cons.mp hnodup).1
  · rfl

end Turns

end RustKernel.Lib
