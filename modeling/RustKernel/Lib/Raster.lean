import Mathlib.Tactic.Ring

/-!
# Pictures in linear memory

A picture of `width` by `height` pixels is kept in a buffer whose rows are `pitch` cells long: the pixel `(x, y)` is the cell
`y * pitch + x`. `Paints` says what a drawing operation does to the pixels: it gives those in a region their new colour, and
leaves the others alone. The columns from `width` to `pitch` and what is below the picture are nobody's business.
-/

namespace RustKernel.Lib.Raster

variable {γ : Type}

structure Frame where
  width : ℕ
  height : ℕ
  pitch : ℕ
  width_le : width ≤ pitch

namespace Frame

variable {F : Frame} {b b' src : ℕ → γ} {x y x' y' : ℕ} {P P' : ℕ → ℕ → Prop} {c : ℕ → ℕ → γ}

def pixel (F : Frame) (b : ℕ → γ) (x y : ℕ) : γ := b (y * F.pitch + x)

theorem index_inj (hx : x < F.width) (hx' : x' < F.width) : y * F.pitch + x = y' * F.pitch + x' ↔ x = x' ∧ y = y' := by
  have hwidth := F.width_le
  constructor
  · intro h
    rcases lt_trichotomy y y' with hy | hy | hy
    · have := Nat.mul_le_mul_right F.pitch (show y + 1 ≤ y' from hy)
      rw [Nat.add_mul] at this
      omega
    · subst hy
      exact ⟨Nat.add_left_cancel h, rfl⟩
    · have := Nat.mul_le_mul_right F.pitch (show y' + 1 ≤ y from hy)
      rw [Nat.add_mul] at this
      omega
  · rintro ⟨rfl, rfl⟩
    rfl

theorem index_lt (hx : x < F.width) (hy : y < F.height) : y * F.pitch + x < F.pitch * F.height := by
  have hrow := Nat.mul_le_mul_right F.pitch (show y + 1 ≤ F.height from hy)
  have hwidth := F.width_le
  rw [Nat.add_mul, Nat.mul_comm F.height] at hrow
  omega

structure Paints (F : Frame) (P : ℕ → ℕ → Prop) (c : ℕ → ℕ → γ) (b b' : ℕ → γ) : Prop where
  inside : ∀ x y, x < F.width → y < F.height → P x y → F.pixel b' x y = c x y
  outside : ∀ x y, x < F.width → y < F.height → ¬ P x y → F.pixel b' x y = F.pixel b x y

def Same (F : Frame) (b b' : ℕ → γ) : Prop := ∀ x y, x < F.width → y < F.height → F.pixel b x y = F.pixel b' x y

namespace Paints

theorem none (h : ∀ x y, x < F.width → y < F.height → ¬ P x y) : F.Paints P c b b :=
  ⟨fun x y hx hy hP => absurd hP (h x y hx hy), fun _ _ _ _ _ => rfl⟩

theorem congr (h : F.Paints P c b b') (hP : ∀ x y, x < F.width → y < F.height → (P' x y ↔ P x y)) : F.Paints P' c b b' :=
  ⟨fun x y hx hy hxy => h.inside x y hx hy ((hP x y hx hy).mp hxy),
    fun x y hx hy hxy => h.outside x y hx hy fun hp => hxy ((hP x y hx hy).mpr hp)⟩

theorem store {v : γ} (h : F.Paints P c b b') (hx : x < F.width) (hv : v = c x y)
    (hP : ∀ x' y', P' x' y' ↔ P x' y' ∨ (x' = x ∧ y' = y)) : F.Paints P' c b (Function.update b' (y * F.pitch + x) v) := by
  have hpixel : ∀ x' y', x' < F.width → ¬ (x' = x ∧ y' = y) →
      F.pixel (Function.update b' (y * F.pitch + x) v) x' y' = F.pixel b' x' y' := by
    intro x' y' hx' hne
    exact Function.update_of_ne (fun he => hne ((index_inj hx' hx).mp he)) _ _
  constructor
  · intro x' y' hx' hy' hxy
    by_cases hhere : x' = x ∧ y' = y
    · obtain ⟨rfl, rfl⟩ := hhere
      rw [pixel, Function.update_self, hv]
    · rw [hpixel x' y' hx' hhere]
      exact h.inside x' y' hx' hy' (((hP x' y').mp hxy).resolve_right hhere)
  · intro x' y' hx' hy' hxy
    rw [hP, not_or] at hxy
    rw [hpixel x' y' hx' hxy.2]
    exact h.outside x' y' hx' hy' hxy.1

end Paints

/-! ### Copies -/

def copyRun (src b : ℕ → γ) (off len : ℕ) : ℕ → γ := fun i => if off ≤ i ∧ i < off + len then src i else b i

theorem Paints.copyRun {x₀ len : ℕ} (h : F.Paints P (F.pixel src) b b') (hlen : x₀ + len ≤ F.width)
    (hP : ∀ x' y', P' x' y' ↔ P x' y' ∨ (x₀ ≤ x' ∧ x' < x₀ + len ∧ y' = y)) :
    F.Paints P' (F.pixel src) b (copyRun src b' (y * F.pitch + x₀) len) := by
  have hrun : ∀ x' y', x' < F.width → ((y * F.pitch + x₀ ≤ y' * F.pitch + x' ∧ y' * F.pitch + x' < y * F.pitch + x₀ + len) ↔
      (x₀ ≤ x' ∧ x' < x₀ + len ∧ y' = y)) := by
    intro x' y' hx'
    constructor
    · rintro ⟨hlo, hhi⟩
      obtain ⟨d, hd⟩ := Nat.exists_eq_add_of_le hlo
      have heq : y' * F.pitch + x' = y * F.pitch + (x₀ + d) := by omega
      obtain ⟨rfl, rfl⟩ := (index_inj hx' (by omega)).mp heq
      omega
    · rintro ⟨hlo, hhi, rfl⟩
      omega
  constructor
  · intro x' y' hx' hy' hxy
    rw [pixel, Frame.copyRun]
    split_ifs with hin
    · rfl
    · rw [hrun x' y' hx'] at hin
      exact h.inside x' y' hx' hy' (((hP x' y').mp hxy).resolve_right hin)
  · intro x' y' hx' hy' hxy
    rw [hP, not_or] at hxy
    rw [pixel, Frame.copyRun, if_neg (fun hin => hxy.2 ((hrun x' y' hx').mp hin))]
    exact h.outside x' y' hx' hy' hxy.1

def copyWithin (b : ℕ → γ) (start len dst : ℕ) : ℕ → γ :=
  fun i => if dst ≤ i ∧ i < dst + len then b (start + (i - dst)) else b i

theorem pixel_copyWithin {k n : ℕ} (hx : x < F.width) :
    F.pixel (copyWithin b (k * F.pitch) (n * F.pitch) 0) x y = F.pixel b x (if y < n then y + k else y) := by
  have hwidth := F.width_le
  have hrow : y * F.pitch + x < n * F.pitch ↔ y < n := by
    constructor
    · intro h
      by_contra hy
      have := Nat.mul_le_mul_right F.pitch (not_lt.mp hy)
      omega
    · intro hy
      have := Nat.mul_le_mul_right F.pitch (show y + 1 ≤ n from hy)
      rw [Nat.add_mul] at this
      omega
  rw [pixel, copyWithin]
  simp only [Nat.zero_le, Nat.zero_add, true_and, Nat.sub_zero, hrow]
  split_ifs with hy
  · congr 1
    ring
  · rfl

end Frame

end RustKernel.Lib.Raster
