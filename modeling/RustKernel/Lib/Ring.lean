import Mathlib.Algebra.Order.Ring.Nat
import Mathlib.Data.Nat.ModEq

/-!
# Rings of slots

A driver and a device share an array of `n` slots and count positions: position `k` is kept in slot `k % n`. The positions
go on for ever, so that a ring is a window on an infinite sequence; `Shows n slot lo hi f` says that the slots hold the
positions `lo, …, hi - 1` of the sequence `f`. What makes a ring work is that the window is never wider than the ring:
positions less than `n` apart have different slots (`slot_inj`).
-/

namespace RustKernel.Lib

variable {α : Type} {n lo hi k : ℕ} {slot : ℕ → α} {f g : ℕ → α}

theorem slot_inj {a b : ℕ} (h : a ≤ b) (hn : b < a + n) (he : a % n = b % n) : a = b := by
  obtain ⟨d, rfl⟩ := Nat.exists_eq_add_of_le h
  have hd : d % n = 0 := by
    have h0 : (a + 0) % n = (a + d) % n := by rwa [Nat.add_zero]
    have h1 : (0 : ℕ) ≡ d [MOD n] := Nat.ModEq.add_left_cancel' a h0
    rw [← h1, Nat.zero_mod]
  rw [Nat.mod_eq_of_lt (by omega)] at hd
  omega

def Shows (n : ℕ) (slot : ℕ → α) (lo hi : ℕ) (f : ℕ → α) : Prop := ∀ k, lo ≤ k → k < hi → slot (k % n) = f k

namespace Shows

theorem empty (h : hi ≤ lo) : Shows n slot lo hi f := fun k hlo hhi => by omega

theorem mono {lo' hi' : ℕ} (h : Shows n slot lo hi f) (hlo : lo ≤ lo') (hhi : hi' ≤ hi) : Shows n slot lo' hi' f :=
  fun k h₁ h₂ => h k (hlo.trans h₁) (h₂.trans_le hhi)

section

variable (h : Shows n slot lo hi f)
include h

theorem congr (hfg : ∀ k, lo ≤ k → k < hi → f k = g k) : Shows n slot lo hi g :=
  fun k h₁ h₂ => (h k h₁ h₂).trans (hfg k h₁ h₂)

theorem snoc (hlast : slot (hi % n) = f hi) : Shows n slot lo (hi + 1) f := by
  intro k h₁ h₂
  rcases Nat.lt_succ_iff_lt_or_eq.mp h₂ with hk | rfl
  · exact h k h₁ hk
  · exact hlast

theorem write (hlo : lo ≤ k) (hk : k < lo + n) (hhi : hi ≤ lo + n) (v : α) :
    Shows n (Function.update slot (k % n) v) lo hi (Function.update f k v) := by
  intro j h₁ h₂
  by_cases hj : j = k
  · rw [hj, Function.update_self, Function.update_self]
  · have hslot : j % n ≠ k % n := by
      intro he
      rcases Nat.le_total j k with hjk | hkj
      · exact hj (slot_inj hjk (by omega) he)
      · exact hj (slot_inj hkj (by omega) he.symm).symm
    rw [Function.update_of_ne hslot, Function.update_of_ne hj, h j h₁ h₂]

theorem write_behind (hhi : hi ≤ k) (hk : k < lo + n) (v : α) :
    Shows n (Function.update slot (k % n) v) lo hi f := by
  rcases Nat.lt_or_ge hi lo with hlt | hle
  · exact empty hlt.le
  · refine (h.write (hle.trans hhi) hk (by omega) v).congr fun j _ hj => ?_
    rw [Function.update_of_ne (by omega)]

end

end Shows

end RustKernel.Lib
