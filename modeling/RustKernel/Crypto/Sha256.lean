import RustKernel.Lib.Utf8

/-!
# SHA-256

`Sha256` of `crypto/sha256.rs`, as it hashes a stream of bytes. Of the buffer only the bytes that are in use are kept: the
others are written before they are read. What the other modules need of it is that a hash in hexadecimal consists of
64 hexadecimal digits: `mem_sha256Hex` and `length_sha256Hex`.
-/

namespace RustKernel.Crypto

open Lib

def H_INIT : List (BitVec 32) :=
  [0x6a09e667, 0xbb67ae85, 0x3c6ef372, 0xa54ff53a, 0x510e527f, 0x9b05688c, 0x1f83d9ab, 0x5be0cd19]

def K : List (BitVec 32) :=
  [0x428a2f98, 0x71374491, 0xb5c0fbcf, 0xe9b5dba5, 0x3956c25b, 0x59f111f1, 0x923f82a4, 0xab1c5ed5,
    0xd807aa98, 0x12835b01, 0x243185be, 0x550c7dc3, 0x72be5d74, 0x80deb1fe, 0x9bdc06a7, 0xc19bf174,
    0xe49b69c1, 0xefbe4786, 0x0fc19dc6, 0x240ca1cc, 0x2de92c6f, 0x4a7484aa, 0x5cb0a9dc, 0x76f988da,
    0x983e5152, 0xa831c66d, 0xb00327c8, 0xbf597fc7, 0xc6e00bf3, 0xd5a79147, 0x06ca6351, 0x14292967,
    0x27b70a85, 0x2e1b2138, 0x4d2c6dfc, 0x53380d13, 0x650a7354, 0x766a0abb, 0x81c2c92e, 0x92722c85,
    0xa2bfe8a1, 0xa81a664b, 0xc24b8b70, 0xc76c51a3, 0xd192e819, 0xd6990624, 0xf40e3585, 0x106aa070,
    0x19a4c116, 0x1e376c08, 0x2748774c, 0x34b0bcb5, 0x391c0cb3, 0x4ed8aa4a, 0x5b9cca4f, 0x682e6ff3,
    0x748f82ee, 0x78a5636f, 0x84c87814, 0x8cc70208, 0x90befffa, 0xa4506ceb, 0xbef9a3f7, 0xc67178f2]

def ch (x y z : BitVec 32) : BitVec 32 := (x &&& y) ^^^ (~~~x &&& z)
def maj (x y z : BitVec 32) : BitVec 32 := (x &&& y) ^^^ (x &&& z) ^^^ (y &&& z)
def bigSig0 (x : BitVec 32) : BitVec 32 := x.rotateRight 2 ^^^ x.rotateRight 13 ^^^ x.rotateRight 22
def bigSig1 (x : BitVec 32) : BitVec 32 := x.rotateRight 6 ^^^ x.rotateRight 11 ^^^ x.rotateRight 25
def smallSig0 (x : BitVec 32) : BitVec 32 := x.rotateRight 7 ^^^ x.rotateRight 18 ^^^ (x >>> 3)
def smallSig1 (x : BitVec 32) : BitVec 32 := x.rotateRight 17 ^^^ x.rotateRight 19 ^^^ (x >>> 10)

def blockWords : List Byte → List (BitVec 32)
  | a :: b :: c :: d :: rest => (a ++ b ++ c ++ d : BitVec 32) :: blockWords rest
  | _ => []

def schedule (w : List (BitVec 32)) : ℕ → List (BitVec 32)
  | 0 => w
  | n + 1 =>
    let w := schedule w n
    let i := 16 + n
    w ++ [smallSig1 (w.getD (i - 2) 0) + w.getD (i - 7) 0 + smallSig0 (w.getD (i - 15) 0) + w.getD (i - 16) 0]

structure Working where
  a : BitVec 32
  b : BitVec 32
  c : BitVec 32
  d : BitVec 32
  e : BitVec 32
  f : BitVec 32
  g : BitVec 32
  h : BitVec 32

def round (r : Working) (k w : BitVec 32) : Working :=
  let t1 := r.h + bigSig1 r.e + ch r.e r.f r.g + k + w
  let t2 := bigSig0 r.a + maj r.a r.b r.c
  { a := t1 + t2, b := r.a, c := r.b, d := r.c, e := r.d + t1, f := r.e, g := r.f, h := r.g }

structure Sha256 where
  h : Working
  buf : List Byte
  totalBytes : ℕ

namespace Sha256

def new : Sha256 :=
  let h : Working :=
    { a := H_INIT.getD 0 0, b := H_INIT.getD 1 0, c := H_INIT.getD 2 0, d := H_INIT.getD 3 0, e := H_INIT.getD 4 0,
      f := H_INIT.getD 5 0, g := H_INIT.getD 6 0, h := H_INIT.getD 7 0 }
  { h, buf := [], totalBytes := 0 }

def compress (s : Sha256) (block : List Byte) : Sha256 :=
  let w := schedule (blockWords block) 48
  let r := (K.zip w).foldl (fun r kw => round r kw.1 kw.2) s.h
  { s with h := {
      a := s.h.a + r.a, b := s.h.b + r.b, c := s.h.c + r.c, d := s.h.d + r.d, e := s.h.e + r.e, f := s.h.f + r.f,
      g := s.h.g + r.g, h := s.h.h + r.h } }

def blocks (s : Sha256) (data : List Byte) : Sha256 × List Byte :=
  if data.length ≥ 64 then blocks (s.compress (data.take 64)) (data.drop 64) else (s, data)
termination_by data.length
decreasing_by rw [List.length_drop]; omega

def update (s : Sha256) (data : List Byte) : Sha256 :=
  let s := { s with totalBytes := (s.totalBytes + data.length) % 2 ^ 64 }
  let (s, data) :=
    if s.buf.length > 0 then
      let take := min (64 - s.buf.length) data.length
      let s := { s with buf := s.buf ++ data.take take }
      let data := data.drop take
      if s.buf.length = 64 then ({ s.compress s.buf with buf := [] }, data) else (s, data)
    else (s, data)
  let (s, data) := s.blocks data
  if data.isEmpty then s else { s with buf := data }

def be64Bytes (n : ℕ) : List Byte := (List.range 8).map fun i => BitVec.ofNat 8 (n / 256 ^ (7 - i))

def be32Bytes (x : BitVec 32) : List Byte := (List.range 4).map fun i => (x >>> (8 * (3 - i))).setWidth 8

def finalize (s : Sha256) : List Byte :=
  let bitLen := s.totalBytes * 8 % 2 ^ 64
  let s := { s with buf := s.buf ++ [0x80] }
  let s :=
    if s.buf.length > 56 then { s.compress (s.buf ++ List.replicate (64 - s.buf.length) 0) with buf := [] } else s
  let s := s.compress (s.buf ++ List.replicate (56 - s.buf.length) 0 ++ be64Bytes bitLen)
  [s.h.a, s.h.b, s.h.c, s.h.d, s.h.e, s.h.f, s.h.g, s.h.h].flatMap be32Bytes

end Sha256

def sha256 (data : List Byte) : List Byte := (Sha256.new.update data).finalize

def HEX : List Char := ['0', '1', '2', '3', '4', '5', '6', '7', '8', '9', 'a', 'b', 'c', 'd', 'e', 'f']

def hexDigit (n : ℕ) : Char := HEX.getD n '0'

def sha256Hex (data : List Byte) : List Char :=
  (sha256 data).flatMap fun b => [hexDigit (b.toNat / 16), hexDigit (b.toNat % 16)]

theorem hexDigit_mem (n : ℕ) : hexDigit n ∈ HEX := by
  rw [hexDigit, List.getD_eq_getElem?_getD]
  cases h : HEX[n]? with
  | none => decide
  | some c => exact List.mem_of_getElem? h

theorem mem_sha256Hex {data : List Byte} {c : Char} (h : c ∈ sha256Hex data) : c ∈ HEX := by
  obtain ⟨b, -, hc⟩ := List.mem_flatMap.mp h
  simp only [List.mem_cons, List.not_mem_nil, or_false] at hc
  rcases hc with rfl | rfl
  · exact hexDigit_mem _
  · exact hexDigit_mem _

theorem Sha256.length_be32Bytes (x : BitVec 32) : (be32Bytes x).length = 4 := by
  rw [be32Bytes, List.length_map, List.length_range]

theorem length_sha256 (data : List Byte) : (sha256 data).length = 32 := by
  simp only [sha256, Sha256.finalize, List.flatMap_cons, List.flatMap_nil, List.length_append, Sha256.length_be32Bytes,
    List.length_nil]

theorem length_sha256Hex (data : List Byte) : (sha256Hex data).length = 64 := by
  rw [sha256Hex, List.length_flatMap]
  simp only [List.length_cons, List.length_nil, List.map_const', List.sum_replicate_nat, length_sha256]

end RustKernel.Crypto
