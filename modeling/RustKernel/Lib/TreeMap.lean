import Mathlib.Algebra.BigOperators.Group.List.Basic
import Mathlib.Algebra.Order.Ring.Nat
import Mathlib.Data.Finset.Card

/-!
# Entries of a tree map, as a list

What one key contributes to the list of entries of a `Std.ExtTreeMap`: a map with a binding
of `k`, and a map in which `k` was just bound, list that binding together with the entries
of the map without `k`, up to order. Sums and counts over the entries are computed with it.
-/

namespace RustKernel.Lib.TreeMap

open Std
open ExtTreeMap (distinct_keys_toList getElem?_erase getElem?_insert mem_toList_iff_getElem?_eq_some ext_getElem?)

variable {α β : Type} {cmp : α → α → Ordering} [TransCmp cmp] [LawfulEqCmp cmp] {t : ExtTreeMap α β cmp}
  {k a : α} {v : β}

theorem nodup_toList (t : ExtTreeMap α β cmp) : t.toList.Nodup := by
  refine List.Pairwise.imp (fun {x y} h heq => ?_) distinct_keys_toList
  subst heq
  exact h ReflCmp.compare_self

theorem getElem?_erase_eq_some {w : β} : (t.erase k)[a]? = some w ↔ a ≠ k ∧ t[a]? = some w := by
  rw [getElem?_erase]
  by_cases h : cmp k a = .eq
  · simp [LawfulEqCmp.compare_eq_iff_eq.mp h]
  · have hne : a ≠ k := fun heq => h (heq ▸ ReflCmp.compare_self)
    simp [h, hne]

theorem getElem?_insert_eq_some {w : β} : (t.insert k v)[a]? = some w ↔ a = k ∧ v = w ∨ a ≠ k ∧ t[a]? = some w := by
  rw [getElem?_insert]
  by_cases h : cmp k a = .eq
  · simp [LawfulEqCmp.compare_eq_iff_eq.mp h]
  · have hne : a ≠ k := fun heq => h (heq ▸ ReflCmp.compare_self)
    simp [h, hne]

theorem getElem?_insert_eq_update [DecidableEq α] (t : ExtTreeMap α β cmp) (k : α) (v : β) :
    (fun a => (t.insert k v)[a]?) = Function.update (fun a => t[a]?) k (some v) := by
  funext a
  rw [Function.update_apply]
  split_ifs with h
  · rw [h, ExtTreeMap.getElem?_insert_self]
  · refine Option.ext fun w => ?_
    rw [getElem?_insert_eq_some]
    simp [h]

theorem getElem?_erase_eq_update [DecidableEq α] (t : ExtTreeMap α β cmp) (k : α) :
    (fun a => (t.erase k)[a]?) = Function.update (fun a => t[a]?) k none := by
  funext a
  rw [Function.update_apply]
  split_ifs with h
  · rw [h, ExtTreeMap.getElem?_erase_self]
  · refine Option.ext fun w => ?_
    rw [getElem?_erase_eq_some]
    simp [h]

private theorem nodup_cons_erase (v : β) : ((k, v) :: (t.erase k).toList).Nodup := by
  refine List.nodup_cons.mpr ⟨fun h => ?_, nodup_toList _⟩
  exact (getElem?_erase_eq_some.mp (mem_toList_iff_getElem?_eq_some.mp h)).1 rfl

theorem toList_perm (h : t[k]? = some v) : t.toList.Perm ((k, v) :: (t.erase k).toList) := by
  refine (List.perm_ext_iff_of_nodup (nodup_toList t) (nodup_cons_erase v)).mpr fun ⟨a, w⟩ => ?_
  rw [List.mem_cons, mem_toList_iff_getElem?_eq_some, mem_toList_iff_getElem?_eq_some, getElem?_erase_eq_some, Prod.mk.injEq]
  by_cases hak : a = k
  · subst hak
    simp [h, eq_comm]
  · simp [hak]

theorem toList_insert_perm (t : ExtTreeMap α β cmp) (k : α) (v : β) :
    (t.insert k v).toList.Perm ((k, v) :: (t.erase k).toList) := by
  refine (List.perm_ext_iff_of_nodup (nodup_toList _) (nodup_cons_erase v)).mpr fun ⟨a, w⟩ => ?_
  rw [List.mem_cons, mem_toList_iff_getElem?_eq_some, mem_toList_iff_getElem?_eq_some,
    getElem?_erase_eq_some, getElem?_insert_eq_some, Prod.mk.injEq]
  by_cases hak : a = k
  · simp [eq_comm]
  · simp [hak]

theorem sum_toList (h : t[k]? = some v) (g : α × β → ℕ) : (t.toList.map g).sum = g (k, v) + ((t.erase k).toList.map g).sum := by
  rw [((toList_perm h).map g).sum_eq, List.map_cons, List.sum_cons]

theorem sum_toList_insert (t : ExtTreeMap α β cmp) (k : α) (v : β) (g : α × β → ℕ) :
    ((t.insert k v).toList.map g).sum = g (k, v) + ((t.erase k).toList.map g).sum := by
  rw [((toList_insert_perm t k v).map g).sum_eq, List.map_cons, List.sum_cons]

theorem erase_of_getElem?_eq_none (h : t[k]? = none) : t.erase k = t := by
  refine ext_getElem? fun a => ?_
  rw [getElem?_erase]
  split_ifs with hk
  · rw [← LawfulEqCmp.compare_eq_iff_eq.mp hk, h]
  · rfl

theorem erase_insert_of_getElem?_eq_none (h : t[k]? = none) : (t.insert k v).erase k = t := by
  refine ext_getElem? fun a => ?_
  rw [getElem?_erase, getElem?_insert]
  split_ifs with hk
  · rw [← LawfulEqCmp.compare_eq_iff_eq.mp hk, h]
  · rfl

theorem insert_insert (t : ExtTreeMap α β cmp) (k : α) (v w : β) : (t.insert k v).insert k w = t.insert k w := by
  refine ext_getElem? fun a => ?_
  rw [getElem?_insert, getElem?_insert, getElem?_insert]
  split_ifs <;> rfl

theorem insert_of_getElem?_eq_some (h : t[k]? = some v) : t.insert k v = t := by
  refine ext_getElem? fun a => ?_
  rw [getElem?_insert]
  split_ifs with hk
  · rw [← LawfulEqCmp.compare_eq_iff_eq.mp hk, h]
  · rfl

theorem ofList_toList (t : ExtTreeMap α β cmp) : ExtTreeMap.ofList t.toList cmp = t := by
  refine ext_getElem? fun a => ?_
  cases h : t[a]? with
  | some w =>
    exact ExtTreeMap.getElem?_ofList_of_mem ReflCmp.compare_self distinct_keys_toList (mem_toList_iff_getElem?_eq_some.mpr h)
  | none =>
    classical
    refine ExtTreeMap.getElem?_ofList_of_contains_eq_false ?_
    simp only [List.contains_eq_mem, decide_eq_false_iff_not, List.mem_map, not_exists, not_and]
    rintro ⟨b, w⟩ hm rfl
    cases (mem_toList_iff_getElem?_eq_some.mp hm).symm.trans h

end RustKernel.Lib.TreeMap
