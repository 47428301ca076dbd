import RustKernel.Crypto.Sha256
import RustKernel.Lib.Fips180

/-!
# The digest

`Sha256` computes what FIPS 180-4 specifies, however the message is cut into chunks.
-/

namespace RustKernel.Crypto

open Lib
open List (mem_range length_cons length_append length_take append_assoc append_nil)

/-! ### The constants -/

def primes : List ℕ :=
  [2, 3, 5, 7, 11, 13, 17, 19, 23, 29, 31, 37, 41, 43, 47, 53, 59, 61, 67, 71, 73, 79, 83, 89, 97, 101, 103, 107, 109, 113,
    127, 131, 137, 139, 149, 151, 157, 163, 167, 173, 179, 181, 191, 193, 197, 199, 211, 223, 227, 229, 233, 239, 241, 251,
    257, 263, 269, 271, 277, 281, 283, 293, 307, 311]

theorem prime_iff {n : ℕ} (hn : n < 324) : Nat.Prime n ↔ 2 ≤ n ∧ ∀ d < 18, 2 ≤ d → d < n → n % d ≠ 0 := by
  constructor
  · intro hp
    refine ⟨hp.two_le, fun d _ hd hlt hmod => ?_⟩
    rcases (Nat.dvd_prime hp).mp (Nat.dvd_of_mod_eq_zero hmod) with rfl | rfl
    · omega
    · omega
  · rintro ⟨h2, hdiv⟩
    refine Nat.prime_def_le_sqrt.mpr ⟨h2, fun d hd hsqrt hdvd => ?_⟩
    have hlt : d < n := lt_of_le_of_lt hsqrt (Nat.sqrt_lt_self h2)
    have hroot : Nat.sqrt n < 18 := Nat.sqrt_lt'.mpr hn
    exact hdiv d (by omega) hd hlt (Nat.mod_eq_zero_of_dvd hdvd)

theorem nth_prime {t : ℕ} (ht : t < 64) : Nat.nth Nat.Prime t = primes.getD t 0 := by
  have hprimes : (List.range 312).filter (fun n => 2 ≤ n ∧ ∀ d < 18, 2 ≤ d → d < n → n % d ≠ 0) = primes := by decide +kernel
  have hfilter : (List.range 312).filter Nat.Prime = primes := by
    rw [← hprimes]
    refine List.filter_congr fun n hn => decide_eq_decide.mpr (prime_iff ?_)
    have := mem_range.mp hn
    omega
  refine Fips180.nth_of_filter (N := 312) ?_
  rw [hfilter, List.getD_eq_getElem?_getD, List.getElem?_eq_getElem (show t < primes.length from ht)]
  rfl

def cubeRoot (p : ℕ) : ℕ := (List.range 7).countP fun c => (c + 1) ^ 3 ≤ p

def squareRoot (p : ℕ) : ℕ := (List.range 5).countP fun c => (c + 1) ^ 2 ≤ p

theorem K_getD {t : ℕ} (ht : t < 64) : K.getD t 0 = Fips180.K t := by
  have hroot : ∀ t < 64, (cubeRoot (primes.getD t 0) * 2 ^ 32 + (K.getD t 0).toNat) ^ 3 ≤ primes.getD t 0 * 2 ^ 96 ∧
      primes.getD t 0 * 2 ^ 96 < (cubeRoot (primes.getD t 0) * 2 ^ 32 + (K.getD t 0).toNat + 1) ^ 3 := by
    decide +kernel
  obtain ⟨hle, hlt⟩ := hroot t ht
  rw [Fips180.K_eq (nth_prime ht) hle hlt]
  refine BitVec.eq_of_toNat_eq ?_
  rw [BitVec.toNat_ofNat, Nat.mul_add_mod_self_right, Nat.mod_eq_of_lt (BitVec.isLt _)]

theorem H_INIT_getD {i : ℕ} (hi : i < 8) : H_INIT.getD i 0 = Fips180.rootWord i := by
  have hroot : ∀ i < 8, (squareRoot (primes.getD i 0) * 2 ^ 32 + (H_INIT.getD i 0).toNat) ^ 2 ≤ primes.getD i 0 * 2 ^ 64 ∧
      primes.getD i 0 * 2 ^ 64 < (squareRoot (primes.getD i 0) * 2 ^ 32 + (H_INIT.getD i 0).toNat + 1) ^ 2 := by
    decide +kernel
  obtain ⟨hle, hlt⟩ := hroot i hi
  rw [Fips180.rootWord_eq (nth_prime (by omega)) hle hlt]
  refine BitVec.eq_of_toNat_eq ?_
  rw [BitVec.toNat_ofNat, Nat.mul_add_mod_self_right, Nat.mod_eq_of_lt (BitVec.isLt _)]

/-! ### A block -/

def Working.vars (r : Working) : Fips180.Vars :=
  { a := r.a, b := r.b, c := r.c, d := r.d, e := r.e, f := r.f, g := r.g, h := r.h }

theorem blockWords_getD : ∀ (t : ℕ) (bs : List Byte), 4 * t + 4 ≤ bs.length → (blockWords bs).getD t 0 =
    BitVec.ofNat 32 (((bs.drop (4 * t)).take 4).foldl (fun n b => 256 * n + b.toNat) 0)
  | 0, a :: b :: c :: d :: rest, _ => by
    have hor : ∀ (x : ℕ) (y : Byte), x * 2 ^ 8 ||| y.toNat = 256 * x + y.toNat := by
      intro x y
      rw [Nat.mul_comm, ← Nat.two_pow_add_eq_or_of_lt y.isLt]
    refine BitVec.eq_of_toNat_eq ?_
    simp only [blockWords, List.getD_cons_zero, BitVec.toNat_append, Nat.shiftLeft_eq, hor, Nat.mul_zero, List.drop_zero,
      List.take_succ_cons, List.take_zero, List.foldl_cons, List.foldl_nil, BitVec.toNat_ofNat, Nat.zero_add]
    omega
  | t + 1, a :: b :: c :: d :: rest, h => by
    rw [length_cons, length_cons, length_cons, length_cons] at h
    rw [blockWords, List.getD_cons_succ, blockWords_getD t rest (by omega)]
    rfl

theorem length_blockWords : ∀ (n : ℕ) (bs : List Byte), bs.length = 4 * n → (blockWords bs).length = n
  | 0, [], _ => rfl
  | n + 1, a :: b :: c :: d :: rest, h => by
    rw [length_cons, length_cons, length_cons, length_cons] at h
    rw [blockWords, length_cons, length_blockWords n rest (by omega)]

section

variable {w : List (BitVec 32)} {M : ℕ → BitVec 32}

theorem schedule_spec (hlen : w.length = 16) (hw : ∀ t < 16, w.getD t 0 = M t) (n : ℕ) :
    (schedule w n).length = 16 + n ∧ ∀ t < 16 + n, (schedule w n).getD t 0 = Fips180.W M t := by
  induction n with
  | zero =>
    refine ⟨hlen, fun t ht => ?_⟩
    rw [Fips180.W, if_pos ht]
    exact hw t ht
  | succ n ih =>
    obtain ⟨ihlen, ih⟩ := ih
    refine ⟨by rw [schedule, length_append, ihlen]; rfl, fun t ht => ?_⟩
    rw [schedule]
    by_cases hlt : t < 16 + n
    · rw [List.getD_append _ _ _ _ (by omega), ih t hlt]
    · obtain rfl : t = 16 + n := by omega
      rw [List.getD_append_right _ _ _ _ (by omega), ihlen, Nat.sub_self, List.getD_cons_zero, Fips180.W, if_neg (by omega),
        ih _ (by omega), ih _ (by omega), ih _ (by omega), ih _ (by omega)]
      rfl

theorem rounds_spec (hlen : w.length = 64) (hw : ∀ t < 64, w.getD t 0 = Fips180.W M t) (r : Working) {t : ℕ} (ht : t ≤ 64) :
    (((K.zip w).take t).foldl (fun r kw => round r kw.1 kw.2) r).vars = Fips180.rounds M r.vars t := by
  induction t with
  | zero => rfl
  | succ t ih =>
    have hzip : t < (K.zip w).length := by
      rw [List.length_zip, hlen]
      exact ht
    have hpair : (K.zip w)[t] = (Fips180.K t, Fips180.W M t) := by
      rw [List.getElem_zip, ← K_getD ht, ← hw t ht, List.getD_eq_getElem, List.getD_eq_getElem]
    rw [List.take_succ_eq_append_getElem hzip, List.foldl_append, List.foldl_cons, List.foldl_nil, hpair, Fips180.rounds,
      ← ih (by omega)]
    rfl

end

def mix (h : Working) (block : List Byte) : Working := (Sha256.compress { h, buf := [], totalBytes := 0 } block).h

theorem compress_eq (s : Sha256) (block : List Byte) : s.compress block = { s with h := mix s.h block } := rfl

theorem mix_vars {M : ℕ → BitVec 32} {block : List Byte} (h : Working) (hlen : block.length = 64)
    (hM : ∀ t < 16, M t = BitVec.ofNat 32 (((block.drop (4 * t)).take 4).foldl (fun n b => 256 * n + b.toNat) 0)) :
    (mix h block).vars = Fips180.next M h.vars := by
  have hwords : ∀ t < 16, (blockWords block).getD t 0 = M t := by
    intro t ht
    rw [hM t ht, blockWords_getD t block (by omega)]
  obtain ⟨hlen', hW⟩ := schedule_spec (length_blockWords 16 block hlen) hwords 48
  have hrounds := rounds_spec hlen' hW h le_rfl
  have hall : (K.zip (schedule (blockWords block) 48)).take 64 = K.zip (schedule (blockWords block) 48) := by
    refine List.take_of_length_le ?_
    rw [List.length_zip, hlen']
    decide
  rw [hall] at hrounds
  rw [Fips180.next, ← hrounds]
  simp only [Working.vars, Fips180.Vars.mk.injEq]
  exact ⟨BitVec.add_comm .., BitVec.add_comm .., BitVec.add_comm .., BitVec.add_comm .., BitVec.add_comm ..,
    BitVec.add_comm .., BitVec.add_comm .., BitVec.add_comm ..⟩

/-! ### The blocks of a message -/

def absorb (p : List Byte) : ℕ → Working
  | 0 => Sha256.new.h
  | n + 1 => mix (absorb p n) ((p.drop (64 * n)).take 64)

theorem absorb_vars {p : List Byte} {n : ℕ} (h : 64 * n ≤ p.length) :
    (absorb p n).vars = Fips180.hashBlocks (Fips180.bits p) n := by
  induction n with
  | zero =>
    simp only [absorb, Sha256.new, Working.vars, Fips180.hashBlocks, Fips180.H₀, Fips180.Vars.mk.injEq]
    exact ⟨H_INIT_getD (by decide), H_INIT_getD (by decide), H_INIT_getD (by decide), H_INIT_getD (by decide),
      H_INIT_getD (by decide), H_INIT_getD (by decide), H_INIT_getD (by decide), H_INIT_getD (by decide)⟩
  | succ n ih =>
    rw [Fips180.hashBlocks, ← ih (by omega)]
    refine mix_vars _ ?_ fun t ht => ?_
    · rw [length_take, List.length_drop]
      omega
    · rw [Fips180.block_bits, List.drop_take, List.take_take, List.drop_drop, min_eq_left (by omega)]

theorem absorb_append {p q : List Byte} {n : ℕ} (h : 64 * n ≤ p.length) : absorb (p ++ q) n = absorb p n := by
  induction n with
  | zero => rfl
  | succ n ih =>
    rw [absorb, absorb, ih (by omega), List.drop_append_of_le_length (by omega), List.take_append_of_le_length]
    rw [List.length_drop]
    omega

theorem absorb_succ {p block : List Byte} {n : ℕ} (hp : p.length = 64 * n) (hblock : block.length = 64) :
    absorb (p ++ block) (n + 1) = mix (absorb p n) block := by
  rw [absorb, absorb_append hp.ge, ← hp, List.drop_left, List.take_of_length_le hblock.le]

/-! ### Streaming -/

structure Absorbed (p : List Byte) (s : Sha256) : Prop where
  blocks : ∃ head n, p = head ++ s.buf ∧ head.length = 64 * n ∧ s.h = absorb head n
  buf_lt : s.buf.length < 64
  totalBytes : s.totalBytes = p.length % 2 ^ 64

variable {p head data : List Byte} {s : Sha256} {n : ℕ}

theorem blocks_spec (data : List Byte) (hhead : head.length = 64 * n) (hs : s.h = absorb head n) :
    ∃ q m, data = q ++ (s.blocks data).2 ∧ (head ++ q).length = 64 * m ∧ (s.blocks data).2.length < 64 ∧
    (s.blocks data).1 = { s with h := absorb (head ++ q) m } := by
  fun_induction Sha256.blocks s data generalizing head n with
  | case1 s data hlong ih =>
    have hlen : (data.take 64).length = 64 := by rw [length_take, min_eq_left hlong]
    have hs' : (s.compress (data.take 64)).h = absorb (head ++ data.take 64) (n + 1) := by
      rw [absorb_succ hhead hlen, ← hs]
      rfl
    obtain ⟨q, m, hdata, hq, hshort, hblocks⟩ := ih (by rw [length_append]; omega) hs'
    refine ⟨data.take 64 ++ q, m, ?_, ?_, hshort, ?_⟩
    · rw [append_assoc, ← hdata, List.take_append_drop]
    · rw [← append_assoc, hq]
    · rw [hblocks, ← append_assoc, compress_eq]
  | case2 s data hshort =>
    refine ⟨[], n, rfl, ?_, not_le.mp hshort, ?_⟩
    · rw [append_nil, hhead]
    · rw [append_nil, ← hs]

theorem Absorbed.rest (hhead : head.length = 64 * n) (hs : s.h = absorb head n) (hbuf : s.buf = [])
    (htotal : s.totalBytes = (head ++ data).length % 2 ^ 64) : Absorbed (head ++ data)
    (if (s.blocks data).2.isEmpty then (s.blocks data).1 else { (s.blocks data).1 with buf := (s.blocks data).2 }) := by
  obtain ⟨q, m, hdata, hq, hshort, hblocks⟩ := blocks_spec data hhead hs
  have hall : head ++ data = head ++ q ++ (s.blocks data).2 := by rw [append_assoc, ← hdata]
  rw [hblocks]
  by_cases hnil : (s.blocks data).2.isEmpty = true
  · rw [if_pos hnil]
    have hrest : (s.blocks data).2 = s.buf := by rw [hbuf, List.isEmpty_iff.mp hnil]
    exact ⟨⟨head ++ q, m, by rw [hall, hrest], hq, rfl⟩, by rw [← hrest]; exact hshort, htotal⟩
  · rw [if_neg hnil]
    exact ⟨⟨head ++ q, m, hall, hq, rfl⟩, hshort, htotal⟩

theorem Absorbed.update (h : Absorbed p s) (data : List Byte) : Absorbed (p ++ data) (s.update data) := by
  obtain ⟨⟨head, n, rfl, hhead, hs⟩, hlt, htotal⟩ := h
  have htotal' : (s.totalBytes + data.length) % 2 ^ 64 = (head ++ s.buf ++ data).length % 2 ^ 64 := by
    rw [htotal, Nat.mod_add_mod, ← length_append]
  unfold Sha256.update
  dsimp only
  by_cases hsome : s.buf.length > 0
  · rw [if_pos hsome]
    by_cases hfull : 64 ≤ s.buf.length + data.length
    · -- the buffer is filled, and mixed in
      rw [min_eq_left (by omega : 64 - s.buf.length ≤ data.length)]
      have hblock : (s.buf ++ data.take (64 - s.buf.length)).length = 64 := by
        rw [length_append, length_take]
        omega
      have hall : head ++ s.buf ++ data = head ++ (s.buf ++ data.take (64 - s.buf.length)) ++ data.drop (64 - s.buf.length) := by
        simp only [append_assoc, List.take_append_drop]
      rw [if_pos hblock, hall]
      refine Absorbed.rest (n := n + 1) ?_ ?_ rfl ?_
      · rw [length_append]
        omega
      · rw [absorb_succ hhead hblock, ← hs]
        rfl
      · rw [← hall, ← htotal']
        rfl
    · -- the chunk fits into the buffer
      rw [min_eq_right (by omega : data.length ≤ 64 - s.buf.length), List.take_length, List.drop_length]
      have hshort : (s.buf ++ data).length < 64 := by
        rw [length_append]
        omega
      rw [if_neg (ne_of_lt hshort)]
      have hnone : ∀ s : Sha256, s.blocks [] = (s, []) := by
        intro s
        rw [Sha256.blocks, if_neg (by decide)]
      rw [hnone]
      exact ⟨⟨head, n, append_assoc .., hhead, hs⟩, hshort, htotal'⟩
  · rw [if_neg hsome]
    have hnil : s.buf = [] := List.length_eq_zero_iff.mp (by omega)
    rw [hnil, append_nil] at htotal' ⊢
    exact Absorbed.rest hhead hs rfl htotal'

theorem absorbed_new : Absorbed [] Sha256.new := ⟨⟨[], 0, rfl, rfl, rfl⟩, by decide, rfl⟩

theorem Absorbed.chunks (h : Absorbed p s) (chunks : List (List Byte)) :
    Absorbed (p ++ chunks.flatten) (chunks.foldl Sha256.update s) := by
  induction chunks generalizing p s with
  | nil => simpa using h
  | cons chunk chunks ih =>
    rw [List.flatten_cons, ← append_assoc]
    exact ih (h.update chunk)

/-! ### The end -/

def Working.bytes (r : Working) : List Byte := [r.a, r.b, r.c, r.d, r.e, r.f, r.g, r.h].flatMap Sha256.be32Bytes

theorem bits_be32Bytes (x : BitVec 32) : Fips180.bits (Sha256.be32Bytes x) = Fips180.wordBits x := by
  have hbit : ∀ i < 4, ∀ j < 8, ((x >>> (8 * (3 - i))).setWidth 8).getMsbD j = x.getMsbD (8 * i + j) := by
    intro i hi j hj
    simp only [BitVec.getMsbD, BitVec.getLsbD_setWidth, BitVec.getLsbD_ushiftRight]
    rw [show 8 * (3 - i) + (8 - 1 - j) = 32 - 1 - (8 * i + j) by omega]
    simp [hj, show 8 - 1 - j < 8 by omega, show 8 * i + j < 32 by omega]
  have hrange : Fips180.wordBits x = (List.range 4).flatMap fun i => (List.range 8).map fun j => x.getMsbD (8 * i + j) := rfl
  rw [hrange, Fips180.bits, Sha256.be32Bytes, List.flatMap_map]
  refine List.flatMap_congr fun i hi => List.map_congr_left fun j hj => ?_
  exact hbit i (mem_range.mp hi) j (mem_range.mp hj)

theorem bits_bytes (r : Working) : Fips180.bits r.bytes = r.vars.digest := by
  simp only [Working.bytes, List.flatMap_cons, Fips180.bits_append, bits_be32Bytes]
  rfl

theorem finalize_eq (h : Absorbed p s) (hlen : p.length < 2 ^ 61) :
    s.finalize = (absorb (Fips180.padBytes p) ((Fips180.padBytes p).length / 64)).bytes := by
  obtain ⟨⟨head, n, rfl, hhead, hs⟩, hlt, htotal⟩ := h
  have hbits : s.totalBytes * 8 % 2 ^ 64 = 8 * (head ++ s.buf).length := by
    rw [htotal]
    omega
  have hmod : (head ++ s.buf).length % 64 = s.buf.length := by
    rw [length_append]
    omega
  have hbe : (Sha256.be64Bytes (8 * (head ++ s.buf).length)).length = 8 := by
    rw [Sha256.be64Bytes, List.length_map, List.length_range]
  have hpad : Fips180.padBytes (head ++ s.buf) = head ++ (s.buf ++ [0x80] ++
      List.replicate ((119 - s.buf.length) % 64) 0 ++ Sha256.be64Bytes (8 * (head ++ s.buf).length)) := by
    rw [Fips180.padBytes, hmod]
    simp only [append_assoc]
    rfl
  unfold Sha256.finalize
  dsimp only
  rw [hbits, hpad]
  generalize Sha256.be64Bytes (8 * (head ++ s.buf).length) = len at hbe
  have hone : (s.buf ++ [0x80]).length = s.buf.length + 1 := length_append
  by_cases htwo : (s.buf ++ [0x80]).length > 56
  · rw [if_pos htwo, hone]
    -- the first block is filled with zeros, the second has the length
    have hzeros : (119 - s.buf.length) % 64 = 64 - (s.buf.length + 1) + 56 := by omega
    have hfirst : (s.buf ++ [0x80] ++ List.replicate (64 - (s.buf.length + 1)) 0).length = 64 := by
      rw [length_append, List.length_replicate]
      omega
    have hlast : (List.replicate 56 0 ++ len).length = 64 := by rw [length_append, List.length_replicate, hbe]
    have hcut : head ++ (s.buf ++ [0x80] ++ List.replicate ((119 - s.buf.length) % 64) 0 ++ len) =
        head ++ (s.buf ++ [0x80] ++ List.replicate (64 - (s.buf.length + 1)) 0) ++ (List.replicate 56 0 ++ len) := by
      rw [hzeros, ← List.replicate_append_replicate]
      simp only [append_assoc]
    have htwice : (head ++ (s.buf ++ [0x80] ++ List.replicate (64 - (s.buf.length + 1)) 0)).length = 64 * (n + 1) := by
      rw [length_append]
      omega
    have hblocks := absorb_succ htwice hlast
    rw [absorb_succ hhead hfirst, ← hs] at hblocks
    have hcount : (head ++ (s.buf ++ [0x80] ++ List.replicate (64 - (s.buf.length + 1)) 0) ++
        (List.replicate 56 0 ++ len)).length / 64 = n + 1 + 1 := by
      rw [length_append]
      omega
    rw [hcut, hcount, hblocks]
    rfl
  · rw [if_neg htwo]
    have hzeros : (119 - s.buf.length) % 64 = 56 - (s.buf.length + 1) := by omega
    have hlast : (s.buf ++ [0x80] ++ List.replicate (56 - (s.buf.length + 1)) 0 ++ len).length = 64 := by
      rw [length_append, length_append, List.length_replicate]
      omega
    have hblocks := absorb_succ hhead hlast
    have hcount : (head ++ (s.buf ++ [0x80] ++ List.replicate (56 - (s.buf.length + 1)) 0 ++ len)).length / 64 = n + 1 := by
      rw [length_append]
      omega
    rw [hzeros, hcount, hblocks, ← hs]
    simp only [hone]
    rfl

theorem Absorbed.digest (h : Absorbed p s) (hlen : p.length < 2 ^ 61) :
    Fips180.bits s.finalize = Fips180.sha256 (Fips180.bits p) := by
  obtain ⟨k, hk⟩ := Fips180.length_padBytes p
  rw [finalize_eq h hlen, bits_bytes, absorb_vars (Nat.mul_div_le _ _), Fips180.sha256, Fips180.pad_bits, Fips180.length_bits,
    hk, show 8 * (64 * k) / 512 = k by omega, Nat.mul_div_cancel_left k (by decide)]

/-- **SHA-256 is correct** for every message and every way of cutting it into chunks: the digest is the one FIPS 180-4
specifies for the concatenation, and that of `sha256`. -/
theorem chunks_digest (chunks : List (List Byte)) (hlen : chunks.flatten.length < 2 ^ 61) :
    Fips180.bits (chunks.foldl Sha256.update Sha256.new).finalize = Fips180.sha256 (Fips180.bits chunks.flatten) ∧
      (chunks.foldl Sha256.update Sha256.new).finalize = sha256 chunks.flatten := by
  have hchunks := absorbed_new.chunks chunks
  have hwhole := absorbed_new.update chunks.flatten
  refine ⟨hchunks.digest hlen, ?_⟩
  rw [sha256, finalize_eq hchunks hlen, finalize_eq hwhole hlen]

theorem chunks_digest_abc : [[], [0x61#8], [0x62#8, 0x63#8]].flatten.length < 2 ^ 61 ∧
    Fips180.bits ([[], [0x61#8], [0x62#8, 0x63#8]].foldl Sha256.update Sha256.new).finalize =
      Fips180.sha256 (Fips180.bits [0x61#8, 0x62#8, 0x63#8]) :=
  ⟨by decide, (chunks_digest _ (by decide)).1⟩

end RustKernel.Crypto
