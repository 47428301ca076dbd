import Mathlib.Analysis.SpecialFunctions.Pow.NthRootLemmas
import Mathlib.Data.Nat.Nth
import Mathlib.Data.Nat.Prime.Defs
import Mathlib.Tactic.Ring

/-!
# SHA-256 as it is specified

FIPS 180-4 defines the hash of a bit string of fewer than 2^64 bits: the string is padded to a multiple of 512 bits, and
the blocks are mixed one after the other into eight words of 32 bits.

Messages are bit strings, first bit first, and the words of a block are cut out of the padded string. The constants are
given as the standard explains them: the first 32 bits of the fractional parts of the cube roots of the first 64 primes
(`K`), and of the square roots of the first eight (`H₀`). Nothing here is meant to be executed.

For programs that work with bytes, `bits` is the bit string of a list of bytes, and the lemmas about it say which bytes
are the padding and the words of a block.
-/

namespace RustKernel.Lib.Fips180

/-! ### The functions and the constants -/

def Ch (x y z : BitVec 32) : BitVec 32 := (x &&& y) ^^^ (~~~x &&& z)

def Maj (x y z : BitVec 32) : BitVec 32 := (x &&& y) ^^^ (x &&& z) ^^^ (y &&& z)

def bigSigma (i j k : ℕ) (x : BitVec 32) : BitVec 32 := x.rotateRight i ^^^ x.rotateRight j ^^^ x.rotateRight k

def smallSigma (i j k : ℕ) (x : BitVec 32) : BitVec 32 := x.rotateRight i ^^^ x.rotateRight j ^^^ x >>> k

noncomputable def K (t : ℕ) : BitVec 32 := BitVec.ofNat 32 (Nat.nthRoot 3 (Nat.nth Nat.Prime t * 2 ^ 96))

noncomputable def rootWord (i : ℕ) : BitVec 32 := BitVec.ofNat 32 (Nat.nthRoot 2 (Nat.nth Nat.Prime i * 2 ^ 64))

/-! ### Padding -/

noncomputable def padZeros (l : ℕ) : ℕ := sInf { k | (l + 1 + k) % 512 = 448 }

def binary64 (n : ℕ) : List Bool := (List.range 64).map fun i => n.testBit (63 - i)

noncomputable def pad (m : List Bool) : List Bool :=
  m ++ [true] ++ List.replicate (padZeros m.length) false ++ binary64 m.length

/-! ### The hash -/

def ofBinary (bs : List Bool) : ℕ := bs.foldl (fun n b => 2 * n + b.toNat) 0

def block (p : List Bool) (i t : ℕ) : BitVec 32 := BitVec.ofNat 32 (ofBinary ((p.drop (512 * i + 32 * t)).take 32))

def W (M : ℕ → BitVec 32) (t : ℕ) : BitVec 32 :=
  if t < 16 then M t
  else smallSigma 17 19 10 (W M (t - 2)) + W M (t - 7) + smallSigma 7 18 3 (W M (t - 15)) + W M (t - 16)

structure Vars where
  a : BitVec 32
  b : BitVec 32
  c : BitVec 32
  d : BitVec 32
  e : BitVec 32
  f : BitVec 32
  g : BitVec 32
  h : BitVec 32

noncomputable def rounds (M : ℕ → BitVec 32) (H : Vars) : ℕ → Vars
  | 0 => H
  | t + 1 =>
    let v := rounds M H t
    let T₁ := v.h + bigSigma 6 11 25 v.e + Ch v.e v.f v.g + K t + W M t
    let T₂ := bigSigma 2 13 22 v.a + Maj v.a v.b v.c
    { a := T₁ + T₂, b := v.a, c := v.b, d := v.c, e := v.d + T₁, f := v.e, g := v.f, h := v.g }

noncomputable def next (M : ℕ → BitVec 32) (H : Vars) : Vars :=
  let v := rounds M H 64
  { a := v.a + H.a, b := v.b + H.b, c := v.c + H.c, d := v.d + H.d, e := v.e + H.e, f := v.f + H.f, g := v.g + H.g
    h := v.h + H.h }

noncomputable def H₀ : Vars :=
  { a := rootWord 0, b := rootWord 1, c := rootWord 2, d := rootWord 3, e := rootWord 4, f := rootWord 5, g := rootWord 6
    h := rootWord 7 }

noncomputable def hashBlocks (p : List Bool) : ℕ → Vars
  | 0 => H₀
  | n + 1 => next (block p n) (hashBlocks p n)

def wordBits (x : BitVec 32) : List Bool := (List.range 32).map x.getMsbD

def Vars.digest (v : Vars) : List Bool := [v.a, v.b, v.c, v.d, v.e, v.f, v.g, v.h].flatMap wordBits

noncomputable def sha256 (m : List Bool) : List Bool := (hashBlocks (pad m) ((pad m).length / 512)).digest

/-! ### Roots of primes -/

theorem length_filter_range {P : ℕ → Prop} [DecidablePred P] (N : ℕ) : ((List.range N).filter P).length = Nat.count P N := by
  induction N with
  | zero => rfl
  | succ N ih =>
    rw [List.range_succ, List.filter_append, List.length_append, ih, Nat.count_succ]
    by_cases hN : P N <;> simp [hN]

theorem nth_of_filter {P : ℕ → Prop} [DecidablePred P] {N t n : ℕ} (h : ((List.range N).filter P)[t]? = some n) :
    Nat.nth P t = n := by
  induction N with
  | zero => simp at h
  | succ N ih =>
    rw [List.range_succ, List.filter_append] at h
    by_cases ht : t < ((List.range N).filter P).length
    · rw [List.getElem?_append_left ht] at h
      exact ih h
    · rw [List.getElem?_append_right (not_lt.mp ht)] at h
      obtain ⟨hP, rfl, hcount⟩ : P N ∧ N = n ∧ t = ((List.range N).filter P).length := by
        by_cases hN : P N
        · simp only [List.filter_cons_of_pos (p := fun x => decide (P x)) (decide_eq_true hN), List.filter_nil,
            List.getElem?_singleton] at h
          split_ifs at h with hzero
          cases h
          exact ⟨hN, rfl, by omega⟩
        · simp [hN] at h
      rw [hcount, length_filter_range, Nat.nth_count hP]

theorem K_eq {t p r : ℕ} (hp : Nat.nth Nat.Prime t = p) (hle : r ^ 3 ≤ p * 2 ^ 96) (hlt : p * 2 ^ 96 < (r + 1) ^ 3) :
    K t = BitVec.ofNat 32 r := by
  rw [K, hp, Nat.nthRoot_eq_of_le_of_lt hle hlt]

theorem rootWord_eq {i p r : ℕ} (hp : Nat.nth Nat.Prime i = p) (hle : r ^ 2 ≤ p * 2 ^ 64) (hlt : p * 2 ^ 64 < (r + 1) ^ 2) :
    rootWord i = BitVec.ofNat 32 r := by
  rw [rootWord, hp, Nat.nthRoot_eq_of_le_of_lt hle hlt]

/-! ### Bytes -/

def bits (bs : List (BitVec 8)) : List Bool := bs.flatMap fun b => (List.range 8).map b.getMsbD

theorem bits_cons (b : BitVec 8) (bs : List (BitVec 8)) : bits (b :: bs) = (List.range 8).map b.getMsbD ++ bits bs := rfl

theorem bits_append (bs cs : List (BitVec 8)) : bits (bs ++ cs) = bits bs ++ bits cs := List.flatMap_append

theorem length_bits (bs : List (BitVec 8)) : (bits bs).length = 8 * bs.length := by
  induction bs with
  | nil => rfl
  | cons b bs ih =>
    rw [bits_cons, List.length_append, List.length_map, List.length_range, List.length_cons]
    omega

theorem drop_bits (n : ℕ) (bs : List (BitVec 8)) : (bits bs).drop (8 * n) = bits (bs.drop n) := by
  rcases le_or_gt n bs.length with hn | hn
  · have hcut : bits bs = bits (bs.take n) ++ bits (bs.drop n) := by rw [← bits_append, List.take_append_drop]
    have hlen : (bits (bs.take n)).length = 8 * n := by rw [length_bits, List.length_take, min_eq_left hn]
    rw [hcut, ← hlen, List.drop_left]
  · rw [List.drop_eq_nil_of_le hn.le, List.drop_eq_nil_of_le (by rw [length_bits]; omega)]
    rfl

theorem take_bits (n : ℕ) (bs : List (BitVec 8)) : (bits bs).take (8 * n) = bits (bs.take n) := by
  rcases le_or_gt n bs.length with hn | hn
  · have hcut : bits bs = bits (bs.take n) ++ bits (bs.drop n) := by rw [← bits_append, List.take_append_drop]
    have hlen : (bits (bs.take n)).length = 8 * n := by rw [length_bits, List.length_take, min_eq_left hn]
    rw [hcut, ← hlen, List.take_left]
  · rw [List.take_of_length_le hn.le, List.take_of_length_le (by rw [length_bits]; omega)]

theorem bits_replicate_zero (n : ℕ) : bits (List.replicate n 0) = List.replicate (8 * n) false := by
  induction n with
  | zero => rfl
  | succ n ih =>
    rw [List.replicate_succ, bits_cons, ih, show 8 * (n + 1) = 8 + 8 * n by omega, ← List.replicate_append_replicate]
    rfl

theorem ofBinary_bits (bs : List (BitVec 8)) : ofBinary (bits bs) = bs.foldl (fun n b => 256 * n + b.toNat) 0 := by
  have hshift : ∀ (l : List Bool) (n : ℕ),
      l.foldl (fun n b => 2 * n + b.toNat) n = n * 2 ^ l.length + l.foldl (fun n b => 2 * n + b.toNat) 0 := by
    intro l
    induction l with
    | nil => simp
    | cons b l ih =>
      intro n
      rw [List.foldl_cons, List.foldl_cons, ih, ih (2 * 0 + b.toNat), List.length_cons, Nat.pow_succ]
      ring
  have hbyte : ∀ b : BitVec 8, ((List.range 8).map b.getMsbD).foldl (fun n b => 2 * n + b.toNat) 0 = b.toNat := by
    decide +kernel
  suffices h : ∀ n, (bits bs).foldl (fun n b => 2 * n + b.toNat) n = bs.foldl (fun n b => 256 * n + b.toNat) n from h 0
  induction bs with
  | nil => exact fun _ => rfl
  | cons b bs ih =>
    intro n
    rw [bits_cons, List.foldl_append, ih, List.foldl_cons, hshift, hbyte]
    simp [Nat.mul_comm]

theorem block_bits (p : List (BitVec 8)) (i t : ℕ) :
    block (bits p) i t = BitVec.ofNat 32 (((p.drop (64 * i + 4 * t)).take 4).foldl (fun n b => 256 * n + b.toNat) 0) := by
  rw [block, show 512 * i + 32 * t = 8 * (64 * i + 4 * t) by omega, drop_bits, show 32 = 8 * 4 from rfl, take_bits,
    ofBinary_bits]

theorem padZeros_eq (l : ℕ) : padZeros l = (959 - l % 512) % 512 := by
  have hmem : (959 - l % 512) % 512 ∈ { k | (l + 1 + k) % 512 = 448 } := by
    rw [Set.mem_ofPred_eq]
    omega
  refine le_antisymm (Nat.sInf_le hmem) (le_csInf ⟨_, hmem⟩ fun k hk => ?_)
  rw [Set.mem_ofPred_eq] at hk
  omega

def beBytes (n : ℕ) : List (BitVec 8) := (List.range 8).map fun i => BitVec.ofNat 8 (n / 256 ^ (7 - i))

theorem bits_beBytes (n : ℕ) : bits (beBytes n) = binary64 n := by
  have hbit : ∀ i < 8, ∀ j < 8, (BitVec.ofNat 8 (n / 256 ^ (7 - i))).getMsbD j = n.testBit (63 - (8 * i + j)) := by
    intro i hi j hj
    rw [BitVec.getMsbD, BitVec.getLsbD_ofNat, show 256 = 2 ^ 8 from rfl, ← Nat.pow_mul, Nat.testBit_div_two_pow,
      show 8 - 1 - j + 8 * (7 - i) = 63 - (8 * i + j) by omega]
    simp [hj, show 8 - 1 - j < 8 by omega]
  have hrange : binary64 n = (List.range 8).flatMap fun i => (List.range 8).map fun j => n.testBit (63 - (8 * i + j)) := rfl
  rw [hrange, bits, beBytes, List.flatMap_map]
  refine List.flatMap_congr fun i hi => List.map_congr_left fun j hj => ?_
  exact hbit i (List.mem_range.mp hi) j (List.mem_range.mp hj)

def padBytes (m : List (BitVec 8)) : List (BitVec 8) :=
  m ++ [0x80] ++ List.replicate ((119 - m.length % 64) % 64) 0 ++ beBytes (8 * m.length)

theorem pad_bits (m : List (BitVec 8)) : pad (bits m) = bits (padBytes m) := by
  have hzeros : padZeros (bits m).length = 7 + 8 * ((119 - m.length % 64) % 64) := by
    rw [padZeros_eq, length_bits]
    omega
  have hone : bits [0x80] = [true] ++ List.replicate 7 false := by decide
  rw [pad, padBytes, hzeros, bits_append, bits_append, bits_append, bits_beBytes, bits_replicate_zero, hone, length_bits,
    ← List.replicate_append_replicate]
  simp only [List.append_assoc]

theorem length_padBytes (m : List (BitVec 8)) : 64 ∣ (padBytes m).length := by
  have hlen : (beBytes (8 * m.length)).length = 8 := by rw [beBytes, List.length_map, List.length_range]
  rw [padBytes, List.length_append, List.length_append, List.length_append, List.length_replicate, List.length_singleton]
  omega

end RustKernel.Lib.Fips180
