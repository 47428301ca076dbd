import Mathlib.Algebra.Order.Ring.Nat
import RustKernel.Lib.Exec
import RustKernel.Lib.Utf8

/-!
# The exit code of the user shell

`exit` of `sh` takes a number. `parse_i32` reads it: an optional minus sign and decimal digits, accumulated as a positive
`i32` with checked operations and negated at the end.
-/

namespace RustKernel.Userland

open Lib Exec

/-- The result of a checked operation of `i32`. -/
def checked (n : ℤ) : Option ℤ := if -2 ^ 31 ≤ n ∧ n < 2 ^ 31 then some n else none

/-- The loop of `parse_i32` over the digits, from the number read so far. -/
def parseDigits : ℤ → List Byte → Option ℤ
  | n, [] => some n
  | n, c :: rest =>
    if ¬(48 ≤ c.toNat ∧ c.toNat ≤ 57) then none
    else (checked (n * 10)).bind fun n => (checked (n + (c.toNat - 48 : ℕ))).bind fun n => parseDigits n rest

/-- `-n`, which panics on the least number. -/
def neg (n : ℤ) : Exec Empty Unit ℤ := if n = -2 ^ 31 then panic else pure (-n)

/-- The sign and the rest of a text that is not empty. -/
def signed (b : List Byte) : Bool × List Byte := if b.head? = some 45#8 then (true, b.tail) else (false, b)

def parseI32 (b : List Byte) : Exec Empty Unit (Option ℤ) :=
  if b = [] then pure none
  else
    let (minus, rest) := signed b
    if rest = [] then pure none
    else match parseDigits 0 rest with
      | none => pure none
      | some n => do
        let n ← if minus then neg n else pure n
        return some n

/-- The number that decimal digits stand for, after the digits of `n`. -/
def valueFrom (n : ℕ) (ds : List Byte) : ℕ := ds.foldl (fun v c => v * 10 + (c.toNat - 48)) n

/-- A decimal literal: an optional minus sign and at least one digit. -/
structure Literal (b : List Byte) (minus : Bool) (ds : List Byte) : Prop where
  text : b = if minus then 45#8 :: ds else ds
  nonempty : ds ≠ []
  digits : ∀ c ∈ ds, 48 ≤ c.toNat ∧ c.toNat ≤ 57

/-- The literal `b` stands for the number `n` of type `i32`. -/
def Denotes (b : List Byte) (n : ℤ) : Prop :=
  -2 ^ 31 ≤ n ∧ n < 2 ^ 31 ∧ ∃ minus ds, Literal b minus ds ∧ n = if minus then -(valueFrom 0 ds : ℤ) else valueFrom 0 ds

theorem le_valueFrom (ds : List Byte) : ∀ n, n ≤ valueFrom n ds := by
  induction ds with
  | nil => exact fun n => Nat.le_refl n
  | cons c ds ih =>
    intro n
    have := ih (n * 10 + (c.toNat - 48))
    rw [valueFrom, List.foldl_cons]
    unfold valueFrom at this
    omega

theorem checked_natCast (n : ℕ) : checked n = if n < 2 ^ 31 then some (n : ℤ) else none := by
  unfold checked
  split_ifs <;> first | rfl | omega

-- the digits are read from the left, so the induction is over every number read so far
theorem parseDigits_eq_some {m : ℤ} (ds : List Byte) : ∀ n : ℕ, n < 2 ^ 31 → (parseDigits n ds = some m ↔
    (∀ c ∈ ds, 48 ≤ c.toNat ∧ c.toNat ≤ 57) ∧ valueFrom n ds < 2 ^ 31 ∧ m = valueFrom n ds) := by
  induction ds with
  | nil =>
    intro n hn
    refine ⟨fun h => ⟨nofun, hn, (Option.some.inj h).symm⟩, fun h => ?_⟩
    rw [h.2.2]
    rfl
  | cons c ds ih =>
    intro n hn
    have hle := le_valueFrom ds (n * 10 + (c.toNat - 48))
    have hcons : valueFrom n (c :: ds) = valueFrom (n * 10 + (c.toNat - 48)) ds := rfl
    rw [hcons, List.forall_mem_cons]
    by_cases hc : 48 ≤ c.toNat ∧ c.toNat ≤ 57
    · have hmul : ((n : ℤ) * 10) = (n * 10 : ℕ) := by push_cast; rfl
      have hadd : ((n * 10 : ℕ) : ℤ) + (c.toNat - 48 : ℕ) = (n * 10 + (c.toNat - 48) : ℕ) := by push_cast; rfl
      rw [parseDigits, if_neg (not_not_intro hc), hmul, checked_natCast]
      by_cases hlt : n * 10 + (c.toNat - 48) < 2 ^ 31
      · rw [if_pos (by omega), Option.bind_some, hadd, checked_natCast, if_pos hlt, Option.bind_some, ih _ hlt]
        exact ⟨fun h => ⟨⟨hc, h.1⟩, h.2⟩, fun h => ⟨h.1.2, h.2⟩⟩
      · refine ⟨fun h => ?_, fun h => absurd h.2.1 (by omega)⟩
        obtain ⟨a, ha, h⟩ := Option.bind_eq_some_iff.mp h
        obtain rfl := Option.some.inj (Option.ite_none_right_eq_some.mp ha).2
        rw [hadd, checked_natCast, if_neg hlt] at h
        cases h
    · rw [parseDigits, if_pos hc]
      exact ⟨nofun, fun h => absurd h.1.1 hc⟩

theorem literal_iff {b ds : List Byte} {minus : Bool} : Literal b minus ds ↔
    signed b = (minus, ds) ∧ ds ≠ [] ∧ ∀ c ∈ ds, 48 ≤ c.toNat ∧ c.toNat ≤ 57 := by
  constructor
  · rintro ⟨rfl, hne, hd⟩
    refine ⟨?_, hne, hd⟩
    cases minus with
    | true => rfl
    | false =>
      refine if_neg fun h => ?_
      exact absurd (hd 45#8 (List.mem_of_mem_head? h)) (by decide)
  · rintro ⟨hs, hne, hd⟩
    refine ⟨?_, hne, hd⟩
    unfold signed at hs
    split_ifs at hs with hc
    · cases hs
      exact List.eq_cons_of_mem_head? hc
    · cases hs
      rfl

/-- The digits make a number that is not negative, so the minus sign does not overflow. -/
theorem parseI32_eq (b : List Byte) : parseI32 b () = .ok (if (signed b).2 = [] then none
    else (parseDigits 0 (signed b).2).map fun n => if (signed b).1 then -n else n) () := by
  unfold parseI32
  by_cases hb : b = []
  · rw [if_pos hb, hb]
    rfl
  rw [if_neg hb]
  obtain ⟨minus, rest⟩ := signed b
  dsimp only
  by_cases hr : rest = []
  · rw [if_pos hr, if_pos hr]
    rfl
  rw [if_neg hr, if_neg hr]
  cases hd : parseDigits 0 rest with
  | none => rfl
  | some n =>
    have hn := ((parseDigits_eq_some rest 0 (by decide)).mp hd).2.2
    cases minus with
    | false => rfl
    | true =>
      have hneg : neg n () = .ok (-n) () := by
        rw [neg, if_neg (by omega)]
        rfl
      exact bind_of_ok hneg

/-- A text is accepted with the value `n` if it is a literal of `n`, for every `n` of type `i32` but the least. -/
theorem parseI32_eq_some {b : List Byte} {n : ℤ} : parseI32 b () = .ok (some n) () ↔ n ≠ -2 ^ 31 ∧ Denotes b n := by
  rw [parseI32_eq, Outcome.ok.injEq, eq_self, and_true, Denotes]
  simp only [literal_iff]
  obtain ⟨minus, ds⟩ := signed b
  constructor
  · intro h
    obtain ⟨hne, h⟩ := Option.ite_none_left_eq_some.mp h
    obtain ⟨m, hm, rfl⟩ := Option.map_eq_some_iff.mp h
    obtain ⟨hd, hlt, rfl⟩ := (parseDigits_eq_some ds 0 (by decide)).mp hm
    dsimp only
    refine ⟨?_, ?_, ?_, minus, ds, ⟨rfl, hne, hd⟩, rfl⟩ <;> split_ifs <;> omega
  · rintro ⟨hn, hlo, hhi, _, _, ⟨⟨⟩, hne, hd⟩, rfl⟩
    have hlt : valueFrom 0 ds < 2 ^ 31 := by
      split_ifs at hn hlo hhi <;> omega
    have hparse : parseDigits 0 ds = some (valueFrom 0 ds : ℤ) := (parseDigits_eq_some ds 0 (by decide)).mpr ⟨hd, hlt, rfl⟩
    rw [if_neg hne, hparse]
    rfl

/-- **`parse_i32` reads the decimal literals** of the text that is given, with their values and no others, exactly if the text
does not stand for the least `i32`; and no text overflows. -/
theorem parseI32_exact (b : List Byte) : (∃ r, parseI32 b () = .ok r ()) ∧
    ((∀ n, parseI32 b () = .ok (some n) () ↔ Denotes b n) ↔ ¬ Denotes b (-2 ^ 31)) := by
  refine ⟨⟨_, parseI32_eq b⟩, fun h hmin => ?_, fun hmin n => ?_⟩
  · exact (parseI32_eq_some.mp ((h _).mpr hmin)).1 rfl
  · rw [parseI32_eq_some]
    exact ⟨And.right, fun h => ⟨fun hn => hmin (hn ▸ h), h⟩⟩

/-- **`-2147483648` is refused**: its digits are read as a positive number. -/
theorem parseI32_min : ∃ b, Denotes b (-2 ^ 31) ∧ parseI32 b () = .ok none () := by
  let digits : List Byte := [50, 49, 52, 55, 52, 56, 51, 54, 52, 56]
  exact ⟨45 :: digits, ⟨by decide, by decide, true, digits, ⟨rfl, by decide, by decide⟩, rfl⟩, rfl⟩

end RustKernel.Userland
