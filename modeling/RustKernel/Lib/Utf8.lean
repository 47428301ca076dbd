import Mathlib.Algebra.Order.Ring.Nat
import Mathlib.Data.List.Basic

/-!
# Text as bytes

The text of the kernel's file names: a string is a list of characters, its bytes are their
UTF-8 encodings, and `decode` is the checked conversion back, which refuses every malformed
byte sequence. Case folding is the ASCII one, and white space is the Unicode property.
-/

namespace RustKernel.Lib

open List (map_cons map_nil cons_append nil_append map_singleton map_map)
open Option (bind_some bind_eq_some_iff ite_none_left_eq_some)

abbrev Byte : Type := BitVec 8

theorem toNat_ofNat_ascii {n : ℕ} (h : n < 0x80) : (Char.ofNat n).toNat = n := by
  have hvalid : n.isValidChar := Or.inl (Nat.lt_trans h (by decide))
  rw [Char.ofNat, dif_pos hvalid]
  rfl

namespace Utf8

variable {c : Char} {s : List Char}

def encode (s : List Char) : List Byte := s.flatMap fun c => (String.utf8EncodeChar c).map UInt8.toBitVec

def cont (b : Byte) : Option ℕ := if b.toNat / 64 = 2 then some (b.toNat % 64) else none

def charOfCode (n : ℕ) : Option Char := if n.isValidChar then some (Char.ofNat n) else none

def decode : List Byte → Option (List Char)
  | [] => some []
  | b₀ :: bs =>
    let n₀ := b₀.toNat
    if n₀ < 0x80 then (decode bs).map (Char.ofNat n₀ :: ·)
    else match bs with
    | [] => none
    | b₁ :: bs =>
      (cont b₁).bind fun n₁ =>
      if n₀ < 0xC0 then none
      else if n₀ < 0xE0 then
        let n := n₀ % 32 * 64 + n₁
        if n < 0x80 then none else (charOfCode n).bind fun c => (decode bs).map (c :: ·)
      else match bs with
      | [] => none
      | b₂ :: bs =>
        (cont b₂).bind fun n₂ =>
        if n₀ < 0xF0 then
          let n := (n₀ % 16 * 64 + n₁) * 64 + n₂
          if n < 0x800 then none else (charOfCode n).bind fun c => (decode bs).map (c :: ·)
        else match bs with
        | [] => none
        | b₃ :: bs =>
          (cont b₃).bind fun n₃ =>
          if n₀ < 0xF8 then
            let n := ((n₀ % 8 * 64 + n₁) * 64 + n₂) * 64 + n₃
            if n < 0x10000 then none else (charOfCode n).bind fun c => (decode bs).map (c :: ·)
          else none

theorem decode_ascii : ∀ {bs : List Byte}, (∀ b ∈ bs, b.toNat < 0x80) →
    decode bs = some (bs.map fun b => Char.ofNat b.toNat)
  | [], _ => by simp [decode]
  | b :: bs, h => by
    have hb : b.toNat < 0x80 := h b (List.mem_cons_self ..)
    have hbs := decode_ascii fun x hx => h x (List.mem_cons_of_mem _ hx)
    unfold decode
    simp only [hb, hbs]
    rfl

theorem encode_ascii : ∀ {s : List Char}, (∀ c ∈ s, c.toNat < 0x80) →
    encode s = s.map fun c => BitVec.ofNat 8 c.toNat
  | [], _ => rfl
  | c :: s, h => by
    have hc : c.toNat ≤ 127 := Nat.lt_succ_iff.mp (h c (List.mem_cons_self ..))
    have hs := encode_ascii fun x hx => h x (List.mem_cons_of_mem _ hx)
    have hchar : String.utf8EncodeChar c = [UInt8.ofNat c.toNat] := by exact if_pos hc
    rw [encode, List.flatMap_cons, hchar]
    exact congrArg _ hs

theorem encodeChar_large (hc : 0x80 ≤ c.toNat) : ∃ b bs, String.utf8EncodeChar c = b :: bs ∧ 0x80 ≤ b.toNat := by
  have hv : c.val.toNat = c.toNat := rfl
  simp only [String.utf8EncodeChar, hv]
  have h₁ : ¬ c.toNat ≤ 127 := by omega
  split_ifs with h₂ h₃
  · refine ⟨_, _, rfl, ?_⟩
    simp only [UInt8.toNat_ofNat']
    omega
  · refine ⟨_, _, rfl, ?_⟩
    simp only [UInt8.toNat_ofNat']
    omega
  · refine ⟨_, _, rfl, ?_⟩
    simp only [UInt8.toNat_ofNat']
    omega

/-! ### The round trip -/

theorem charOfCode_toNat (c : Char) : charOfCode c.toNat = some c := by
  have hvalid : c.toNat.isValidChar := c.valid
  rw [charOfCode, if_pos hvalid, Char.ofNat_toNat]

theorem cont_ofNat (n : ℕ) : cont (BitVec.ofNat 8 (n % 64 + 128)) = some (n % 64) := by
  have hn : (BitVec.ofNat 8 (n % 64 + 128)).toNat = n % 64 + 128 := by
    rw [BitVec.toNat_ofNat]
    omega
  rw [cont, hn, if_pos (by omega)]
  congr 1
  omega

theorem decode_encodeChar (c : Char) (bs : List Byte) :
    decode ((String.utf8EncodeChar c).map UInt8.toBitVec ++ bs) = (decode bs).map (c :: ·) := by
  have hval : c.toNat < 0x110000 := by
    rcases c.valid with h | h
    · exact Nat.lt_trans h (by decide)
    · exact h.2
  have hv : c.val.toNat = c.toNat := rfl
  have hbyte : ∀ n, (UInt8.ofNat n).toBitVec = BitVec.ofNat 8 n := fun n => rfl
  have hnat : ∀ n, n < 256 → (BitVec.ofNat 8 n).toNat = n := fun n hn => by
    rw [BitVec.toNat_ofNat]
    omega
  have hcode : ∀ n, n = c.toNat → charOfCode n = some c := fun n hn => hn ▸ charOfCode_toNat c
  simp only [String.utf8EncodeChar, hv]
  split_ifs with h₁ h₂ h₃
  · simp only [map_cons, map_nil, hbyte, cons_append, nil_append]
    rw [decode.eq_def]
    dsimp only
    rw [hnat _ (by omega), if_pos (by omega), Char.ofNat_toNat]
  · simp only [map_cons, map_nil, hbyte, cons_append, nil_append]
    rw [decode.eq_def]
    simp only [cont_ofNat, bind_some]
    rw [hnat _ (by omega), if_neg (by omega), if_neg (by omega), if_pos (by omega), if_neg (by omega), hcode _ (by omega),
      bind_some]
  · simp only [map_cons, map_nil, hbyte, cons_append, nil_append]
    rw [decode.eq_def]
    simp only [cont_ofNat, bind_some]
    rw [hnat _ (by omega), if_neg (by omega), if_neg (by omega), if_neg (by omega), if_pos (by omega), if_neg (by omega),
      hcode _ (by omega), bind_some]
  · simp only [map_cons, map_nil, hbyte, cons_append, nil_append]
    rw [decode.eq_def]
    simp only [cont_ofNat, bind_some]
    rw [hnat _ (by omega), if_neg (by omega), if_neg (by omega), if_neg (by omega), if_neg (by omega), if_pos (by omega),
      if_neg (by omega), hcode _ (by omega), bind_some]

theorem decode_encode_append (bs : List Byte) : ∀ s : List Char, decode (encode s ++ bs) = (decode bs).map (s ++ ·)
  | [] => by simp [encode]
  | c :: s => by
    have hcons : encode (c :: s) = (String.utf8EncodeChar c).map UInt8.toBitVec ++ encode s := rfl
    rw [hcons, List.append_assoc, decode_encodeChar, decode_encode_append bs s, Option.map_map]
    rfl

theorem decode_encode (s : List Char) : decode (encode s) = some s := by
  have hnil : decode [] = some [] := by rw [decode.eq_def]
  have h := decode_encode_append [] s
  rwa [List.append_nil, hnil, Option.map_some, List.append_nil] at h

theorem encode_inj {t : List Char} : encode s = encode t ↔ s = t := by
  constructor
  · intro h
    exact Option.some.inj ((decode_encode s).symm.trans (h ▸ decode_encode t))
  · exact congrArg encode

theorem length_encode_le : ∀ s : List Char, (encode s).length ≤ 4 * s.length
  | [] => Nat.le_refl 0
  | c :: s => by
    have hc : ((String.utf8EncodeChar c).map UInt8.toBitVec).length ≤ 4 := by
      rw [List.length_map, String.length_utf8EncodeChar]
      exact c.utf8Size_le_four
    have ih := length_encode_le s
    rw [encode] at ih ⊢
    rw [List.flatMap_cons, List.length_append, List.length_cons]
    omega

theorem toNat_of_charOfCode {n : ℕ} (h : charOfCode n = some c) : c.toNat = n := by
  unfold charOfCode at h
  split_ifs at h with hvalid
  cases h
  rw [Char.ofNat, dif_pos hvalid]
  rfl

theorem toNat_of_cont {b : Byte} {n : ℕ} (h : cont b = some n) : b.toNat = n + 128 ∧ n < 64 := by
  unfold cont at h
  split_ifs at h with hb
  cases h
  omega

theorem encode_of_map {p bs : List Byte} (ih : ∀ {s}, decode bs = some s → encode s = bs)
    (h : (decode bs).map (c :: ·) = some s) (hpre : (String.utf8EncodeChar c).map UInt8.toBitVec = p) : encode s = p ++ bs := by
  obtain ⟨s', hs', rfl⟩ := Option.map_eq_some_iff.mp h
  exact congrArg₂ (· ++ ·) hpre (ih hs')

theorem encode_of_decode {bs : List Byte} (h : decode bs = some s) : encode s = bs := by
  have hbyte : ∀ {b : Byte} {n : ℕ}, n = b.toNat → (UInt8.ofNat n).toBitVec = b := by
    rintro b _ rfl
    exact BitVec.eq_of_toNat_eq (Nat.mod_eq_of_lt b.isLt)
  fun_induction decode bs generalizing s
  case case1 =>
    cases h
    rfl
  case case2 b bs _ hn ih =>
    refine encode_of_map (c := Char.ofNat b.toNat) (p := [b]) ih h ?_
    have hval : (Char.ofNat b.toNat).val.toNat = b.toNat := toNat_ofNat_ascii hn
    simp only [String.utf8EncodeChar, hval]
    rw [if_pos (Nat.lt_succ_iff.mp hn), map_singleton, hbyte rfl]
  case case3 => cases h
  case case4 b₀ _ hn₀ b₁ bs ih ih' =>
    obtain ⟨n₁, h₁, h⟩ := bind_eq_some_iff.mp h
    obtain ⟨hb₁, hlt₁⟩ := toNat_of_cont h₁
    obtain ⟨h192, h⟩ := ite_none_left_eq_some.mp h
    by_cases h224 : b₀.toNat < 0xE0
    · rw [if_pos h224] at h
      obtain ⟨hlow, h⟩ := ite_none_left_eq_some.mp h
      obtain ⟨c, hc, h⟩ := bind_eq_some_iff.mp h
      refine encode_of_map (p := [b₀, b₁]) ih h ?_
      have hval : c.val.toNat = b₀.toNat % 32 * 64 + n₁ := toNat_of_charOfCode hc
      simp only [String.utf8EncodeChar]
      rw [if_neg (by omega), if_pos (by omega), map_cons, map_singleton, hbyte (b := b₀) (by omega), hbyte (b := b₁) (by omega)]
    rw [if_neg h224] at h
    cases bs with
    | nil => cases h
    | cons b₂ bs =>
    obtain ⟨n₂, h₂, h⟩ := bind_eq_some_iff.mp h
    obtain ⟨hb₂, hlt₂⟩ := toNat_of_cont h₂
    by_cases h240 : b₀.toNat < 0xF0
    · rw [if_pos h240] at h
      obtain ⟨hlow, h⟩ := ite_none_left_eq_some.mp h
      obtain ⟨c, hc, h⟩ := bind_eq_some_iff.mp h
      refine encode_of_map (p := [b₀, b₁, b₂]) ih'.1 h ?_
      have hval : c.val.toNat = (b₀.toNat % 16 * 64 + n₁) * 64 + n₂ := toNat_of_charOfCode hc
      simp only [String.utf8EncodeChar]
      rw [if_neg (by omega), if_neg (by omega), if_pos (by omega), map_cons, map_cons, map_singleton,
        hbyte (b := b₀) (by omega), hbyte (b := b₁) (by omega), hbyte (b := b₂) (by omega)]
    rw [if_neg h240] at h
    cases bs with
    | nil => cases h
    | cons b₃ bs =>
    obtain ⟨n₃, h₃, h⟩ := bind_eq_some_iff.mp h
    obtain ⟨hb₃, hlt₃⟩ := toNat_of_cont h₃
    obtain ⟨h248, h⟩ := Option.ite_none_right_eq_some.mp h
    obtain ⟨hlow, h⟩ := ite_none_left_eq_some.mp h
    obtain ⟨c, hc, h⟩ := bind_eq_some_iff.mp h
    refine encode_of_map (p := [b₀, b₁, b₂, b₃]) ih'.2 h ?_
    have hval : c.val.toNat = ((b₀.toNat % 8 * 64 + n₁) * 64 + n₂) * 64 + n₃ := toNat_of_charOfCode hc
    simp only [String.utf8EncodeChar]
    rw [if_neg (by omega), if_neg (by omega), if_neg (by omega), map_cons, map_cons, map_cons,
      map_singleton, hbyte (b := b₀) (by omega), hbyte (b := b₁) (by omega), hbyte (b := b₂) (by omega),
      hbyte (b := b₃) (by omega)]

end Utf8

def toAsciiUppercase (c : Char) : Char :=
  if 0x61 ≤ c.toNat ∧ c.toNat ≤ 0x7A then Char.ofNat (c.toNat - 32) else c

def toAsciiLowercase (c : Char) : Char :=
  if 0x41 ≤ c.toNat ∧ c.toNat ≤ 0x5A then Char.ofNat (c.toNat + 32) else c

def eqIgnoreAsciiCase (s t : List Char) : Bool := s.map toAsciiLowercase == t.map toAsciiLowercase

theorem toAsciiLowercase_toAsciiUppercase (c : Char) : toAsciiLowercase (toAsciiUppercase c) = toAsciiLowercase c := by
  by_cases h : 0x61 ≤ c.toNat ∧ c.toNat ≤ 0x7A
  · have hnat : (Char.ofNat (c.toNat - 32)).toNat = c.toNat - 32 := toNat_ofNat_ascii (by omega)
    have hsum : c.toNat - 32 + 32 = c.toNat := by omega
    rw [toAsciiUppercase, if_pos h, toAsciiLowercase, hnat, if_pos (by omega), hsum, Char.ofNat_toNat,
      toAsciiLowercase, if_neg (by omega)]
  · rw [toAsciiUppercase, if_neg h]

theorem toAsciiUppercase_toAsciiLowercase (c : Char) : toAsciiUppercase (toAsciiLowercase c) = toAsciiUppercase c := by
  by_cases h : 0x41 ≤ c.toNat ∧ c.toNat ≤ 0x5A
  · have hnat : (Char.ofNat (c.toNat + 32)).toNat = c.toNat + 32 := toNat_ofNat_ascii (by omega)
    rw [toAsciiLowercase, if_pos h, toAsciiUppercase, hnat, if_pos (by omega), Nat.add_sub_cancel,
      Char.ofNat_toNat, toAsciiUppercase, if_neg (by omega)]
  · rw [toAsciiLowercase, if_neg h]

theorem toAsciiUppercase_idem (c : Char) : toAsciiUppercase (toAsciiUppercase c) = toAsciiUppercase c := by
  rw [← toAsciiUppercase_toAsciiLowercase, toAsciiLowercase_toAsciiUppercase, toAsciiUppercase_toAsciiLowercase]

theorem eqIgnoreAsciiCase_iff {s t : List Char} :
    eqIgnoreAsciiCase s t = true ↔ s.map toAsciiUppercase = t.map toAsciiUppercase := by
  have hup : ∀ u : List Char, (u.map toAsciiLowercase).map toAsciiUppercase = u.map toAsciiUppercase := fun u => by
    rw [map_map]
    exact List.map_congr_left fun c _ => toAsciiUppercase_toAsciiLowercase c
  have hlow : ∀ u : List Char, (u.map toAsciiUppercase).map toAsciiLowercase = u.map toAsciiLowercase := fun u => by
    rw [map_map]
    exact List.map_congr_left fun c _ => toAsciiLowercase_toAsciiUppercase c
  rw [eqIgnoreAsciiCase, beq_iff_eq]
  constructor
  · intro h
    rw [← hup s, h, hup t]
  · intro h
    rw [← hlow s, h, hlow t]

def isWhitespace (c : Char) : Bool :=
  let n := c.toNat
  (0x09 ≤ n && n ≤ 0x0D) || n == 0x20 || n == 0x85 || n == 0xA0 || n == 0x1680 ||
    (0x2000 ≤ n && n ≤ 0x200A) || n == 0x2028 || n == 0x2029 || n == 0x202F || n == 0x205F || n == 0x3000

def trim (s : List Char) : List Char := ((s.dropWhile isWhitespace).reverse.dropWhile isWhitespace).reverse

end RustKernel.Lib
