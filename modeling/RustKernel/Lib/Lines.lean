import Mathlib.Algebra.Order.Ring.Nat
import Mathlib.Data.List.DropRight

/-!
# Lines, fields and decimal numbers

The parts of the standard library that a parser of a line-based text file is written with: `lines`, `trim_end_matches` and
the conversion of decimal numbers. Texts are lists of characters; fields are taken with core's `List.splitOn`. The lemmas
say that what is written a line at a time is read back a line at a time, that a number that is printed is read back as itself,
and what a line, a field and a number that were read can be.
-/

namespace RustKernel.Lib.Lines

variable {l : List Char} {c : Char} {s : List Char} {w n : ℕ} {f : List Char} {d : Char}

theorem forall_mem_of_all {p : Char → Prop} [DecidablePred p] (h : l.all (fun c => p c) = true) : ∀ c ∈ l, p c := by
  simpa using h

/-! ### Lines -/

def stripCr (l : List Char) : List Char := if l.getLast? = some '\r' then l.dropLast else l

def lines (s : List Char) : List (List Char) :=
  let pieces := s.splitOn '\n'
  pieces.dropLast.map stripCr ++ pieces.getLast?.toList.filter (· ≠ [])

def trimEnd (c : Char) (s : List Char) : List Char := s.rdropWhile (· == c)

theorem splitOn_unlines : ∀ {ls : List (List Char)}, (∀ l ∈ ls, '\n' ∉ l) →
    (ls.flatMap (· ++ ['\n'])).splitOn '\n' = ls ++ [[]]
  | [], _ => rfl
  | l :: ls, h => by
    have hl : ∀ c ∈ l, (c == '\n') = false := fun c hc => by
      rw [beq_eq_false_iff_ne]
      rintro rfl
      exact h l List.mem_cons_self hc
    have hrest := splitOn_unlines fun l' hl' => h l' (List.mem_cons_of_mem _ hl')
    rw [List.splitOn] at hrest ⊢
    rw [List.flatMap_cons, List.append_assoc, List.singleton_append,
      List.splitOnP_append_cons_of_forall_mem hl _ (beq_self_eq_true '\n'), hrest]
    rfl

theorem lines_unlines {ls : List (List Char)} (h : ∀ l ∈ ls, '\n' ∉ l) : lines (ls.flatMap (· ++ ['\n'])) = ls.map stripCr := by
  rw [lines, splitOn_unlines h]
  simp

theorem stripCr_of_last (h : l.getLast? ≠ some '\r') : stripCr l = l := if_neg h

theorem trimEnd_of_last (h : l.getLast? ≠ some c) : trimEnd c l = l := by
  rw [trimEnd, List.rdropWhile_eq_self_iff]
  intro hne hc
  rw [List.getLast?_eq_some_getLast hne, beq_iff_eq.mp hc] at h
  exact h rfl

theorem not_mem_of_mem_splitOn : ∀ {s f : List Char}, f ∈ s.splitOn c → c ∉ f
  | [], f, h => by
    rw [List.splitOn_nil, List.mem_singleton] at h
    exact h ▸ List.not_mem_nil
  | x :: s, f, h => by
    have ih : ∀ f ∈ s.splitOn c, c ∉ f := fun f => not_mem_of_mem_splitOn
    rw [List.splitOn_cons_eq_if_modifyHead] at h
    by_cases hx : (x == c) = true
    · rw [if_pos hx] at h
      rcases List.mem_cons.mp h with rfl | h
      · exact List.not_mem_nil
      · exact ih f h
    · rw [if_neg hx] at h
      cases hs : s.splitOn c with
      | nil => exact absurd hs (List.splitOn_ne_nil c s)
      | cons g gs =>
        rw [hs] at h ih
        rcases List.mem_cons.mp h with rfl | h
        · rw [List.mem_cons, not_or]
          exact ⟨fun hc => hx (beq_iff_eq.mpr hc.symm), ih g List.mem_cons_self⟩
        · exact ih f (List.mem_cons_of_mem g h)

theorem intercalate_splitOn (c : Char) : ∀ s : List Char, [c].intercalate (s.splitOn c) = s
  | [] => by rfl
  | x :: s => by
    have ih := intercalate_splitOn c s
    rw [List.splitOn_cons_eq_if_modifyHead]
    cases hs : s.splitOn c with
    | nil => exact absurd hs (List.splitOn_ne_nil c s)
    | cons g gs =>
      rw [hs] at ih
      by_cases hx : (x == c) = true
      · rw [if_pos hx, beq_iff_eq.mp hx, List.intercalate_cons_cons, List.nil_append, List.singleton_append, ih]
      · rw [if_neg hx, List.modifyHead_cons]
        cases gs with
        | nil => simpa using ih
        | cons g' gs =>
          rw [List.intercalate_cons_cons] at ih ⊢
          rw [List.cons_append, List.cons_append, ih]

theorem not_mem_of_mem_lines (h : l ∈ lines s) : '\n' ∉ l := by
  have hpieces : ∀ f ∈ s.splitOn '\n', '\n' ∉ f := fun f => not_mem_of_mem_splitOn
  rcases List.mem_append.mp h with h | h
  · obtain ⟨f, hf, rfl⟩ := List.mem_map.mp h
    have hnot := hpieces f (List.dropLast_subset _ hf)
    unfold stripCr
    split_ifs
    · exact fun hin => hnot (List.dropLast_subset _ hin)
    · exact hnot
  · exact hpieces l (List.mem_of_getLast? (Option.mem_toList.mp (List.mem_filter.mp h).1))

theorem getLast?_trimEnd (c : Char) (s : List Char) : (trimEnd c s).getLast? ≠ some c := by
  intro h
  have hne : trimEnd c s ≠ [] := fun hnil => by
    rw [hnil] at h
    cases h
  rw [List.getLast?_eq_some_getLast hne, Option.some.injEq] at h
  exact List.rdropWhile_last_not _ _ hne (beq_iff_eq.mpr h)

theorem head?_append_cons (h : d ≠ c) : (f ++ d :: s).head? = some c ↔ f.head? = some c := by cases f <;> simp [h]

theorem getLast?_append_cons (h : d ≠ c) : (s ++ d :: f).getLast? = some c ↔ f.getLast? = some c := by
  cases hf : f.getLast? <;> simp [List.getLast?_cons, hf, h]

/-! ### Decimal numbers -/

def digit (c : Char) : Option ℕ := if c.isDigit then some (c.toNat - '0'.toNat) else none

def parseDigits (w : ℕ) : ℕ → List Char → Option ℕ
  | acc, [] => some acc
  | acc, c :: s => (digit c).bind fun d => if acc * 10 + d < 2 ^ w then parseDigits w (acc * 10 + d) s else none

def parseNat (w : ℕ) : List Char → Option ℕ
  | [] => none
  | '+' :: s => if s = [] then none else parseDigits w 0 s
  | s => parseDigits w 0 s

theorem le_ofDigitChars : ∀ (s : List Char) (acc : ℕ), acc ≤ Nat.ofDigitChars 10 s acc
  | [], acc => by rw [Nat.ofDigitChars_nil]
  | c :: s, acc => by
    rw [Nat.ofDigitChars_cons]
    have := le_ofDigitChars s (10 * acc + (c.toNat - '0'.toNat))
    omega

theorem parseDigits_eq : ∀ {s : List Char} {acc : ℕ}, (∀ c ∈ s, c.isDigit = true) →
    Nat.ofDigitChars 10 s acc < 2 ^ w → parseDigits w acc s = some (Nat.ofDigitChars 10 s acc)
  | [], _, _, _ => rfl
  | c :: s, acc, h, hlt => by
    rw [Nat.ofDigitChars_cons, Nat.mul_comm 10] at hlt ⊢
    have hle := le_ofDigitChars s (acc * 10 + (c.toNat - '0'.toNat))
    rw [parseDigits, digit, if_pos (h c List.mem_cons_self), Option.bind_some, if_pos (lt_of_le_of_lt hle hlt)]
    exact parseDigits_eq (fun c' hc' => h c' (List.mem_cons_of_mem _ hc')) hlt

theorem parseNat_toDigits (h : n < 2 ^ w) : parseNat w (Nat.toDigits 10 n) = some n := by
  have hdigits : ∀ c ∈ Nat.toDigits 10 n, c.isDigit = true := fun c hc => Nat.isDigit_of_mem_toDigits (by decide) (by decide) hc
  have hvalue : Nat.ofDigitChars 10 (Nat.toDigits 10 n) 0 = n := Nat.ofDigitChars_toDigits (by decide) (by decide)
  have hparse : parseDigits w 0 (Nat.toDigits 10 n) = some n := by rw [parseDigits_eq hdigits (by rwa [hvalue]), hvalue]
  unfold parseNat
  split
  · next hnil => exact absurd hnil Nat.toDigits_ne_nil
  · next s hplus =>
    have := hdigits '+' (by rw [hplus]; exact List.mem_cons_self)
    exact absurd this (by decide)
  · exact hparse

theorem parseDigits_lt : ∀ {s : List Char} {acc n : ℕ}, acc < 2 ^ w → parseDigits w acc s = some n → n < 2 ^ w
  | [], acc, n, hacc, h => by
    cases h
    exact hacc
  | c :: s, acc, n, _, h => by
    obtain ⟨d, -, h⟩ := Option.bind_eq_some_iff.mp h
    obtain ⟨hlt, h⟩ := Option.ite_none_right_eq_some.mp h
    exact parseDigits_lt hlt h

theorem parseNat_lt (h : parseNat w s = some n) : n < 2 ^ w := by
  unfold parseNat at h
  split at h
  · cases h
  · exact parseDigits_lt (Nat.two_pow_pos w) (Option.ite_none_left_eq_some.mp h).2
  · exact parseDigits_lt (Nat.two_pow_pos w) h

theorem not_mem_toDigits (hc : c.isDigit = false) : c ∉ Nat.toDigits 10 n := by
  intro h
  cases (Nat.isDigit_of_mem_toDigits (by decide) (by decide) h).symm.trans hc

end RustKernel.Lib.Lines
