import Mathlib.Algebra.Order.Ring.Nat

/-!
# Fallible stateful computations

A call of a driver or of the memory manager reads and writes global state, and ends in
one of four ways: it returns a value, it returns an error (keeping whatever it has
already written), it panics, or it does not return. `Exec` is the monad of such calls;
a call that may run for ever is given fuel, and `diverge` says the fuel ran out.

`Outcome.Post Q E` is the partial-correctness postcondition of a call: a value satisfies `Q`
and an error satisfies `E`, each together with the state it leaves. The rules `post_bind`,
`post_attempt` and `post_forM` are what the callers are proved with. `Outcome.Ends Q` is total:
the call ends, and the state it leaves satisfies `Q`, whether it returns or fails.
-/

namespace RustKernel.Lib

/-- How a call ends, with the state it leaves. -/
inductive Outcome (ε σ α : Type) where
  | ok (a : α) (s : σ)
  | err (e : ε) (s : σ)
  | panic
  | diverge

variable {ε σ α β : Type} {o : Outcome ε σ α} {a : α} {Q : σ → Prop} {s : σ}

def Outcome.answer : Outcome ε σ α → Option (Except ε α)
  | .ok a _ => some (.ok a)
  | .err e _ => some (.error e)
  | .panic | .diverge => none

theorem Outcome.exists_of_answer (h : o.answer = some (.ok a)) : ∃ s, o = .ok a s := by
  cases o with
  | ok b s =>
    cases h
    exact ⟨s, rfl⟩
  | err e s => cases h
  | panic => cases h
  | diverge => cases h

def Outcome.next {τ : Type} (o : Outcome ε σ α) (onOk : α → σ → τ) (onErr : ε → σ → τ) : Option τ :=
  match o with
  | .ok a s => some (onOk a s)
  | .err e s => some (onErr e s)
  | .panic | .diverge => none

/-- A call: from the state it finds to how it ends. -/
def Exec (ε σ α : Type) : Type := σ → Outcome ε σ α

namespace Exec

variable {w a b : ℕ} {s : σ} {x : Exec ε σ α} {f : α → Exec ε σ β} {s' : σ}

def bind (x : Exec ε σ α) (f : α → Exec ε σ β) : Exec ε σ β := fun s =>
  match x s with
  | .ok a s' => f a s'
  | .err e s' => .err e s'
  | .panic => .panic
  | .diverge => .diverge

instance : Monad (Exec ε σ) where
  pure a := fun s => .ok a s
  bind := bind

def throw (e : ε) : Exec ε σ α := fun s => .err e s

def panic : Exec ε σ α := fun _ => .panic

def diverge : Exec ε σ α := fun _ => .diverge

def get : Exec ε σ σ := fun s => .ok s s

def modify (f : σ → σ) : Exec ε σ Unit := fun s => .ok () (f s)

/-- A call whose error the caller looks at; the state is kept as the failed call left it. -/
def attempt {δ : Type} (x : Exec ε σ α) : Exec δ σ (Except ε α) := fun s =>
  match x s with
  | .ok a s' => .ok (.ok a) s'
  | .err e s' => .ok (.error e) s'
  | .panic => .panic
  | .diverge => .diverge

def mapErr {ε' : Type} (f : ε → ε') (x : Exec ε σ α) : Exec ε' σ α := fun s =>
  match x s with
  | .ok a s' => .ok a s'
  | .err e s' => .err (f e) s'
  | .panic => .panic
  | .diverge => .diverge

/-- A call on a part of the state. -/
def zoom {τ : Type} (view : τ → σ) (put : σ → τ → τ) (x : Exec ε σ α) : Exec ε τ α := fun t =>
  match x (view t) with
  | .ok a s => .ok a (put s t)
  | .err e s => .err e (put s t)
  | .panic => .panic
  | .diverge => .diverge

/-- `Option::expect`. -/
def expect : Option α → Exec ε σ α
  | some a => pure a
  | none => panic

/-- A sum of `w` bits, which panics on overflow. -/
@[irreducible]
def add (w a b : ℕ) : Exec ε σ ℕ := if a + b < 2 ^ w then pure (a + b) else panic

def sub (a b : ℕ) : Exec ε σ ℕ := if b ≤ a then pure (a - b) else panic

def mul (w a b : ℕ) : Exec ε σ ℕ := if a * b < 2 ^ w then pure (a * b) else panic

theorem add_of_lt (h : a + b < 2 ^ w) : (add w a b : Exec ε σ ℕ) = pure (a + b) := by
  unfold add
  exact if_pos h

theorem sub_of_le (h : b ≤ a) : (sub a b : Exec ε σ ℕ) = pure (a - b) := if_pos h

theorem mul_of_lt (h : a * b < 2 ^ w) : (mul w a b : Exec ε σ ℕ) = pure (a * b) := if_pos h

@[simp] theorem pure_apply (a : α) (s : σ) : (pure a : Exec ε σ α) s = .ok a s := rfl

@[simp] theorem panic_apply (s : σ) : (panic : Exec ε σ α) s = .panic := rfl

@[simp] theorem expect_some (a : α) : (expect (some a) : Exec ε σ α) = pure a := rfl

theorem add_eq_ok {c : ℕ} (h : (add w a b : Exec ε σ ℕ) s = .ok c s') : c = a + b ∧ s' = s := by
  unfold add at h
  by_cases hlt : a + b < 2 ^ w
  · rw [if_pos hlt] at h
    cases h
    exact ⟨rfl, rfl⟩
  · rw [if_neg hlt] at h
    cases h

theorem bind_apply (x : Exec ε σ α) (f : α → Exec ε σ β) (s : σ) :
    (x >>= f) s = match x s with
      | .ok a s' => f a s'
      | .err e s' => .err e s'
      | .panic => .panic
      | .diverge => .diverge := rfl

@[simp] theorem get_bind (f : σ → Exec ε σ β) (s : σ) : (get >>= f) s = f s s := rfl

@[simp] theorem modify_bind (g : σ → σ) (f : Unit → Exec ε σ β) (s : σ) : (modify g >>= f) s = f () (g s) := rfl

@[simp] theorem pure_bind (a : α) (f : α → Exec ε σ β) (s : σ) : ((pure a : Exec ε σ α) >>= f) s = f a s := rfl

theorem bind_eq_ok {b : β} {s'' : σ} : (x >>= f) s = .ok b s'' ↔ ∃ a s', x s = .ok a s' ∧ f a s' = .ok b s'' := by
  rw [bind_apply]
  cases hx : x s with
  | ok a s' =>
    constructor
    · intro h
      exact ⟨a, s', rfl, h⟩
    · rintro ⟨a', t, hok, h⟩
      cases hok
      exact h
  | err e s' => simp
  | panic => simp
  | diverge => simp

theorem bind_of_ok {a : α} (h : x s = .ok a s') : (x >>= f) s = f a s' := by rw [bind_apply, h]

theorem bind_of_diverge (h : x s = .diverge) : (x >>= f) s = .diverge := by rw [bind_apply, h]

end Exec

/-! ### Postconditions -/

/-- What holds if the call returns, and if it fails; nothing is said about panics and loops. -/
def Outcome.Post (Q : α → σ → Prop) (E : ε → σ → Prop) : Outcome ε σ α → Prop
  | .ok a s => Q a s
  | .err e s => E e s
  | .panic | .diverge => True

theorem Outcome.post_true (o : Outcome ε σ α) : o.Post (fun _ _ => True) (fun _ _ => True) := by cases o <;> trivial

theorem Outcome.post_self (o : Outcome ε σ α) : o.Post (fun a s => o = .ok a s) (fun e s => o = .err e s) := by
  cases o <;> trivial

namespace Outcome.Post

variable {Q Q' : α → σ → Prop} {E E' : ε → σ → Prop} {o : Outcome ε σ α} {s : σ}

theorem ok {a : α} (h : o.Post Q E) (ho : o = .ok a s) : Q a s := by
  rw [ho] at h
  exact h

theorem err {e : ε} (h : o.Post Q E) (ho : o = .err e s) : E e s := by
  rw [ho] at h
  exact h

theorem imp (h : o.Post Q E) (hq : ∀ a s, Q a s → Q' a s) (he : ∀ e s, E e s → E' e s) : o.Post Q' E' := by
  cases o with
  | ok a s => exact hq a s h
  | err e s => exact he e s h
  | panic => trivial
  | diverge => trivial

theorem imp_ok (h : o.Post Q E) (hq : ∀ a s, Q a s → Q' a s) : o.Post Q' E := h.imp hq fun _ _ h => h

theorem imp_err (h : o.Post Q E) (he : ∀ e s, E e s → E' e s) : o.Post Q E' := h.imp (fun _ _ h => h) he

theorem never (h : o.Post Q fun _ _ => False) : o.Post Q E := h.imp_err fun _ _ h => h.elim

theorem and (h : o.Post Q E) (h' : o.Post Q' E') : o.Post (fun a s => Q a s ∧ Q' a s) (fun e s => E e s ∧ E' e s) := by
  cases o with
  | ok a s => exact ⟨h, h'⟩
  | err e s => exact ⟨h, h'⟩
  | panic => trivial
  | diverge => trivial

theorem next {τ : Type} {onOk : α → σ → τ} {onErr : ε → σ → τ} {t : τ} (h : o.Post Q E) (ht : o.next onOk onErr = some t) :
    (∃ a s, o = .ok a s ∧ Q a s ∧ t = onOk a s) ∨ ∃ e s, o = .err e s ∧ E e s ∧ t = onErr e s := by
  cases o with
  | ok a s =>
    cases ht
    exact .inl ⟨a, s, rfl, h, rfl⟩
  | err e s =>
    cases ht
    exact .inr ⟨e, s, rfl, h, rfl⟩
  | panic => cases ht
  | diverge => cases ht

end Outcome.Post

namespace Exec

variable {Q : α → σ → Prop} {E : ε → σ → Prop} {s : σ}
variable {x : Exec ε σ α}

theorem post_bind {f : α → Exec ε σ β} {R : β → σ → Prop} (hx : (x s).Post Q E)
    (hf : ∀ a s', Q a s' → (f a s').Post R E) : ((x >>= f) s).Post R E := by
  rw [bind_apply]
  cases hr : x s with
  | ok a s' => exact hf a s' (hx.ok hr)
  | err e s' => exact hx.err hr
  | panic => trivial
  | diverge => trivial

theorem post_add_lt (w a b : ℕ) : (add w a b s : Outcome ε σ ℕ).Post (fun c s' => a + b < 2 ^ w ∧ c = a + b ∧ s' = s) E := by
  unfold add
  by_cases h : a + b < 2 ^ w
  · rw [if_pos h]
    exact ⟨h, rfl, rfl⟩
  · rw [if_neg h]
    trivial

theorem post_add (w a b : ℕ) : (add w a b s : Outcome ε σ ℕ).Post (fun c s' => c = a + b ∧ s' = s) E :=
  (post_add_lt w a b).imp (fun _ _ h => h.2) fun _ _ h => h

theorem post_mul (w a b : ℕ) : (mul w a b s : Outcome ε σ ℕ).Post (fun c s' => c = a * b ∧ s' = s) E := by
  unfold mul
  by_cases h : a * b < 2 ^ w
  · rw [if_pos h]
    exact ⟨rfl, rfl⟩
  · rw [if_neg h]
    trivial

theorem post_sub_le (a b : ℕ) : (sub a b s : Outcome ε σ ℕ).Post (fun c s' => b ≤ a ∧ c = a - b ∧ s' = s) E := by
  unfold sub
  by_cases hle : b ≤ a
  · rw [if_pos hle]
    exact ⟨hle, rfl, rfl⟩
  · rw [if_neg hle]
    trivial

theorem post_sub (a b : ℕ) : (sub a b s : Outcome ε σ ℕ).Post (fun c s' => c = a - b ∧ s' = s) E :=
  (post_sub_le a b).imp (fun _ _ h => h.2) fun _ _ h => h

theorem post_expect {o : Option α} : (expect o s : Outcome ε σ α).Post (fun a s' => o = some a ∧ s' = s) E := by
  cases o with
  | some a => exact ⟨rfl, rfl⟩
  | none => trivial

theorem post_attempt {δ : Type} {D : δ → σ → Prop} {R : Except ε α → σ → Prop}
    (hx : (x s).Post (fun a => R (.ok a)) (fun e => R (.error e))) : (attempt x s).Post R D := by
  unfold attempt
  cases hr : x s with
  | ok a s' => exact hx.ok hr
  | err e s' => exact hx.err hr
  | panic => trivial
  | diverge => trivial

theorem post_attempt_bind {δ : Type} {D : δ → σ → Prop} {f : Except ε α → Exec δ σ β} {R : β → σ → Prop} (hx : (x s).Post Q E)
    (hok : ∀ a s', Q a s' → (f (.ok a) s').Post R D) (herr : ∀ e s', E e s' → (f (.error e) s').Post R D) :
    ((attempt x >>= f) s).Post R D := by
  rw [bind_apply, attempt]
  cases hr : x s with
  | ok a s' => exact hok a s' (hx.ok hr)
  | err e s' => exact herr e s' (hx.err hr)
  | panic => trivial
  | diverge => trivial

theorem post_mapErr {ε' : Type} {f : ε → ε'} {E' : ε' → σ → Prop}
    (hx : (x s).Post Q (fun e => E' (f e))) : (mapErr f x s).Post Q E' := by
  unfold mapErr
  cases hr : x s with
  | ok a s' => exact hx.ok hr
  | err e s' => exact hx.err hr
  | panic => trivial
  | diverge => trivial

theorem post_zoom {τ : Type} {view : τ → σ} {put : σ → τ → τ} {t : τ} {R : α → τ → Prop} {F : ε → τ → Prop}
    (hx : (x (view t)).Post (fun a s => R a (put s t)) (fun e s => F e (put s t))) : (zoom view put x t).Post R F := by
  unfold zoom
  cases hr : x (view t) with
  | ok a s' => exact hx.ok hr
  | err e s' => exact hx.err hr
  | panic => trivial
  | diverge => trivial

theorem post_forM {f : β → Exec ε σ Unit} {I : List β → σ → Prop} : ∀ {xs : List β} {s : σ}, I xs s →
    (∀ x xs s, I (x :: xs) s → (f x s).Post (fun _ => I xs) E) → (xs.forM f s).Post (fun _ => I []) E
  | [], _, hs, _ => hs
  | x :: xs, _, hs, h => post_bind (h x xs _ hs) fun _ _ hs' => post_forM hs' h

end Exec

/-! ### Calls that end -/

/-- The call returns, and its result satisfies `Q`. -/
def Outcome.Returns (Q : α → σ → Prop) (o : Outcome ε σ α) : Prop := ∃ a s, o = .ok a s ∧ Q a s

instance {Q : α → σ → Prop} [∀ a s, Decidable (Q a s)] : (o : Outcome ε σ α) → Decidable (o.Returns Q)
  | .ok a s => decidable_of_iff (Q a s) ⟨fun h => ⟨a, s, rfl, h⟩, fun ⟨_, _, h, hq⟩ => by cases h; exact hq⟩
  | .err .. | .panic | .diverge => isFalse fun ⟨_, _, h, _⟩ => nomatch h

-- for a state that is a bound variable, as in one `Returns` inside another
instance {Q : α → σ → Prop} [∀ a s, Decidable (Q a s)] (x : Exec ε σ α) (s : σ) : Decidable ((x s).Returns Q) :=
  inferInstanceAs (Decidable (Outcome.Returns Q _))

/-- The call returns an error, which satisfies `E`. -/
def Outcome.Fails (E : ε → σ → Prop) (o : Outcome ε σ α) : Prop := ∃ e s, o = .err e s ∧ E e s

instance {E : ε → σ → Prop} [∀ e s, Decidable (E e s)] : (o : Outcome ε σ α) → Decidable (o.Fails E)
  | .err e s => decidable_of_iff (E e s) ⟨fun h => ⟨e, s, rfl, h⟩, fun ⟨_, _, h, he⟩ => by cases h; exact he⟩
  | .ok .. | .panic | .diverge => isFalse fun ⟨_, _, h, _⟩ => nomatch h

theorem Outcome.Returns.imp {Q Q' : α → σ → Prop} (h : o.Returns Q) (hq : ∀ a s, Q a s → Q' a s) : o.Returns Q' := by
  obtain ⟨a, s, ho, hQ⟩ := h
  exact ⟨a, s, ho, hq a s hQ⟩

def Outcome.final : Outcome ε σ α → Option σ
  | .ok _ s | .err _ s => some s
  | .panic | .diverge => none

/-- The call returns or fails, in a state that satisfies `Q`. -/
def Outcome.Ends (Q : σ → Prop) (o : Outcome ε σ α) : Prop := ∃ s, o.final = some s ∧ Q s

theorem Outcome.ends_ok (h : Q s) : (ok a s : Outcome ε σ α).Ends Q := ⟨s, rfl, h⟩

theorem Outcome.ends_err {e : ε} (h : Q s) : (err e s : Outcome ε σ α).Ends Q := ⟨s, rfl, h⟩

theorem Outcome.Ends.imp {Q' : σ → Prop} (h : o.Ends Q) (hq : ∀ s, Q s → Q' s) : o.Ends Q' := by
  obtain ⟨s, hs, hQ⟩ := h
  exact ⟨s, hs, hq s hQ⟩

theorem Outcome.ends_iff : o.Ends Q ↔ (∃ a s, o = .ok a s ∧ Q s) ∨ ∃ e s, o = .err e s ∧ Q s := by
  constructor
  · rintro ⟨s, hs, hQ⟩
    cases o with
    | ok a s' => exact .inl ⟨a, s, by cases hs; rfl, hQ⟩
    | err e s' => exact .inr ⟨e, s, by cases hs; rfl, hQ⟩
    | panic => cases hs
    | diverge => cases hs
  · rintro (⟨a, s, rfl, hQ⟩ | ⟨e, s, rfl, hQ⟩)
    · exact ends_ok hQ
    · exact ends_err hQ

theorem Outcome.Ends.ok_or_err {P : α → σ → Prop} {E : ε → σ → Prop}
    (h : o.Ends Q) (hpost : o.Post P E) : (∃ a s, o = .ok a s ∧ P a s) ∨ ∃ e s, o = .err e s ∧ E e s := by
  rcases Outcome.ends_iff.mp h with ⟨a, s, ho, -⟩ | ⟨e, s, ho, -⟩
  · exact .inl ⟨a, s, ho, hpost.ok ho⟩
  · exact .inr ⟨e, s, ho, hpost.err ho⟩

theorem Outcome.Ends.post (h : o.Ends Q) : o.Post (fun _ => Q) (fun _ => Q) := by
  rcases Outcome.ends_iff.mp h with ⟨a, s, rfl, hQ⟩ | ⟨e, s, rfl, hQ⟩
  · exact hQ
  · exact hQ

def Outcome.isPanic : Outcome ε σ α → Bool
  | .panic => true
  | _ => false

theorem Outcome.eq_panic (h : o.isPanic = true) : o = .panic := by
  cases o with
  | ok a s => cases h
  | err e s => cases h
  | panic => rfl
  | diverge => cases h

namespace Exec

variable {Q : σ → Prop} {s : σ}
variable {x : Exec ε σ α} {f : α → Exec ε σ β}

theorem ends_bind_of_post {P : α → σ → Prop} (hx : (x s).Ends Q)
    (hpost : (x s).Post P fun _ _ => True) (hf : ∀ a s', P a s' → Q s' → (f a s').Ends Q) : ((x >>= f) s).Ends Q := by
  rw [bind_apply]
  rcases Outcome.ends_iff.mp hx with ⟨a, s', hr, hQ⟩ | ⟨e, s', hr, hQ⟩
  · rw [hr]
    exact hf a s' (hpost.ok hr) hQ
  · rw [hr]
    exact Outcome.ends_err hQ

theorem ends_bind (hx : (x s).Ends Q) (hf : ∀ a s', Q s' → (f a s').Ends Q) : ((x >>= f) s).Ends Q :=
  ends_bind_of_post hx (Outcome.post_true _) fun a s' _ hQ => hf a s' hQ

theorem ends_mapErr {ε' : Type} {g : ε → ε'} (hx : (x s).Ends Q) : (mapErr g x s).Ends Q := by
  unfold mapErr
  rcases Outcome.ends_iff.mp hx with ⟨a, s', hr, hQ⟩ | ⟨e, s', hr, hQ⟩
  · rw [hr]
    exact Outcome.ends_ok hQ
  · rw [hr]
    exact Outcome.ends_err hQ

theorem ends_attempt {δ : Type} (hx : (x s).Ends Q) : (attempt (δ := δ) x s).Ends Q := by
  unfold attempt
  rcases Outcome.ends_iff.mp hx with ⟨a, s', hr, hQ⟩ | ⟨e, s', hr, hQ⟩
  · rw [hr]
    exact Outcome.ends_ok hQ
  · rw [hr]
    exact Outcome.ends_ok hQ

theorem ends_zoom {τ : Type} {view : τ → σ} {put : σ → τ → τ} {t : τ} {R : τ → Prop}
    (hx : (x (view t)).Ends fun s => R (put s t)) : (zoom view put x t).Ends R := by
  unfold zoom
  rcases Outcome.ends_iff.mp hx with ⟨a, s', hr, hR⟩ | ⟨e, s', hr, hR⟩
  · rw [hr]
    exact Outcome.ends_ok hR
  · rw [hr]
    exact Outcome.ends_err hR

theorem ends_forM {f : β → Exec ε σ Unit} : ∀ {xs : List β} {s : σ}, Q s → (∀ x ∈ xs, ∀ s, Q s → (f x s).Ends Q) →
    (xs.forM f s).Ends Q
  | [], _, h, _ => Outcome.ends_ok h
  | x :: _, s, h, hf => ends_bind (hf x List.mem_cons_self s h) fun _ _ h' =>
      ends_forM h' fun y hy => hf y (List.mem_cons_of_mem x hy)

end Exec

end RustKernel.Lib
