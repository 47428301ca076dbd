import RustKernel.Lib.Exec

/-!
# Calls that return, and their loops

Loops over a range of integers are `forRange`; a round of the loop answers whether it goes on, so that `break` is
`pure false`.
-/

namespace RustKernel.Lib

variable {ε σ α β : Type}

namespace Exec

def forCount (f : ℕ → Exec ε σ Bool) : ℕ → ℕ → Exec ε σ Unit
  | _, 0 => pure ()
  | lo, n + 1 => do
    if ← f lo then forCount f (lo + 1) n else pure ()

def forRange (lo hi : ℕ) (f : ℕ → Exec ε σ Bool) : Exec ε σ Unit := forCount f lo (hi - lo)

variable {f : ℕ → Exec ε σ Bool}

/-- A loop whose rounds do nothing. -/
theorem forCount_idle : ∀ {n lo : ℕ}, (∀ i, lo ≤ i → i < lo + n → ∃ go, f i = pure go) →
    forCount f lo n = pure ()
  | 0, _, _ => rfl
  | n + 1, lo, h => by
    obtain ⟨go, hgo⟩ := h lo (Nat.le_refl lo) (by omega)
    have ih : forCount f (lo + 1) n = pure () := forCount_idle fun i hlo hhi => h i (by omega) (by omega)
    funext s
    rw [forCount, hgo, pure_bind, ih]
    cases go <;> rfl

theorem forCount_stop {n lo : ℕ} (h : 0 < n → f lo = pure false) : forCount f lo n = pure () := by
  cases n with
  | zero => rfl
  | succ n =>
    rw [forCount, h (Nat.succ_pos n)]
    rfl

/-- Two loops that do the same in their first `m` rounds, and nothing after them. -/
theorem forCount_congr {f' : ℕ → Exec ε σ Bool} : ∀ {m n n' lo : ℕ}, (∀ i, lo ≤ i → i < lo + m → f i = f' i) →
    forCount f (lo + m) n = pure () → forCount f' (lo + m) n' = pure () → forCount f lo (m + n) = forCount f' lo (m + n')
  | 0, n, n', lo, _, hf, hf' => by
    rw [Nat.zero_add, Nat.zero_add]
    exact hf.trans hf'.symm
  | m + 1, n, n', lo, h, hf, hf' => by
    rw [Nat.add_comm m 1, ← Nat.add_assoc] at hf hf'
    rw [Nat.succ_add, Nat.succ_add, forCount, forCount, h lo (Nat.le_refl lo) (by omega),
      forCount_congr (fun i hlo hhi => h i (by omega) (by omega)) hf hf']

variable {Q : α → σ → Prop} {s : σ} {I : ℕ → σ → Prop}

theorem returns_pure {a : α} (h : Q a s) : ((pure a : Exec ε σ α) s).Returns Q := ⟨a, s, rfl, h⟩

theorem returns_modify {Q : Unit → σ → Prop} {f : σ → σ} (h : Q () (f s)) : ((modify f : Exec ε σ Unit) s).Returns Q :=
  ⟨(), f s, rfl, h⟩

theorem returns_bind {x : Exec ε σ α} {f : α → Exec ε σ β} {R : β → σ → Prop} (hx : (x s).Returns Q)
    (hf : ∀ a s', Q a s' → (f a s').Returns R) : ((x >>= f) s).Returns R := by
  obtain ⟨a, s', ho, hQ⟩ := hx
  rw [bind_of_ok ho]
  exact hf a s' hQ

theorem returns_forM {f : β → Exec ε σ Unit} {I : List β → σ → Prop} : ∀ {xs : List β} {s : σ}, I xs s →
    (∀ x xs s, I (x :: xs) s → (f x s).Returns fun _ => I xs) → (xs.forM f s).Returns fun _ => I []
  | [], _, hs, _ => ⟨(), _, rfl, hs⟩
  | x :: xs, _, hs, h => returns_bind (h x xs _ hs) fun _ _ hs' => returns_forM hs' h

theorem returns_forCount {Q : σ → Prop} : ∀ {lo n : ℕ} {s : σ}, I lo s →
    (∀ i s, lo ≤ i → i < lo + n → I i s → (f i s).Returns fun go s' => if go then I (i + 1) s' else Q s') →
    (∀ s, I (lo + n) s → Q s) → (forCount f lo n s).Returns fun _ => Q
  | lo, 0, s, h0, _, hend => ⟨(), s, rfl, hend s h0⟩
  | lo, n + 1, s, h0, hstep, hend => by
    rw [forCount]
    refine returns_bind (hstep lo s (Nat.le_refl lo) (by omega) h0) fun go s' hgo => ?_
    cases go with
    | true =>
      have hsucc : lo + (n + 1) = lo + 1 + n := by omega
      rw [hsucc] at hstep hend
      exact returns_forCount hgo (fun i t hlo hhi => hstep i t (by omega) hhi) hend
    | false => exact returns_pure hgo

theorem returns_forRange {lo hi : ℕ} {Q : σ → Prop} (hle : lo ≤ hi) (h0 : I lo s)
    (hstep : ∀ i s, lo ≤ i → i < hi → I i s → (f i s).Returns fun go s' => if go then I (i + 1) s' else Q s')
    (hend : ∀ s, I hi s → Q s) : (forRange lo hi f s).Returns fun _ => Q := by
  obtain ⟨n, rfl⟩ := Nat.exists_eq_add_of_le hle
  rw [forRange, Nat.add_sub_cancel_left]
  exact returns_forCount h0 hstep hend

end Exec

end RustKernel.Lib
