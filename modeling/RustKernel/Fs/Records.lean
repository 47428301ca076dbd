import RustKernel.Drivers.Fat32.Volume

/-!
# Records of named data

`persist.rs` saves files on the disk and `try_load_archive` of `fs/mod.rs` takes files from a boot module, both in one format:
for each file the length of its path as a `u16`, the path, the length of its contents as a `u32`, and the contents. Both read
the records one after the other with the same checks, and stop at the first that is not there in full.
-/

namespace RustKernel.Records

open Lib Exec Drivers
open Drivers.Fat32 (le16_lt le32_lt le16_le16Bytes le32_le32Bytes length_le32Bytes)
open List (append_assoc length_append flatMap_cons)
open BitVec (eq_of_toNat_eq toNat_ofNat)

abbrev Entry : Type := List Char × List Byte

structure Fits (e : Entry) : Prop where
  path : (Utf8.encode e.1).length < 2 ^ 16
  data : e.2.length < 2 ^ 32

def record (e : Entry) : List Byte :=
  le16Bytes (Utf8.encode e.1).length ++ Utf8.encode e.1 ++ le32Bytes e.2.length ++ e.2

variable {σ : Type}

def takeBytes (raw : List Byte) (off n : ℕ) : Exec Unit σ (List Byte) :=
  if off + n > raw.length then throw () else slice raw off n

def readRecord (raw : List Byte) (off : ℕ) : Exec Unit σ (Entry × ℕ) := do
  let plen ← takeBytes raw off 2
  let text ← takeBytes raw (off + 2) (le16 plen 0)
  match Utf8.decode text with
  | none => throw ()
  | some path =>
    let dlen ← takeBytes raw (off + 2 + le16 plen 0) 4
    let data ← takeBytes raw (off + 2 + le16 plen 0 + 4) (le32 dlen 0)
    pure ((path, data), off + 2 + le16 plen 0 + 4 + le32 dlen 0)

def readRecords (raw : List Byte) (put : Entry → σ → σ) : ℕ → ℕ → Exec Unit σ ℕ
  | 0, off => pure off
  | n + 1, off => do
    let r ← readRecord raw off
    modify (put r.1)
    readRecords raw put n r.2

/-! ### Bytes from an offset on -/

def At (raw : List Byte) (off : ℕ) (rest : List Byte) : Prop := ∃ pre, raw = pre ++ rest ∧ pre.length = off

variable {raw rest a : List Byte} {off n : ℕ} {s : σ} {put : Entry → σ → σ}

theorem At.advance (h : At raw off (a ++ rest)) (ha : a.length = n) : At raw (off + n) rest := by
  obtain ⟨pre, rfl, rfl⟩ := h
  exact ⟨pre ++ a, by rw [append_assoc], by rw [length_append, ha]⟩

theorem At.slice {ε : Type} (h : At raw off (a ++ rest)) (ha : a.length = n) :
    (slice raw off n : Exec ε σ (List Byte)) s = .ok a s := by
  obtain ⟨pre, rfl, rfl⟩ := h
  subst ha
  rw [Drivers.slice, if_pos (by simp only [length_append]; omega), List.drop_left, List.take_left]
  rfl

theorem At.takeBytes (h : At raw off (a ++ rest)) (ha : a.length = n) : takeBytes raw off n s = .ok a s := by
  rw [Records.takeBytes, if_neg, h.slice ha]
  obtain ⟨pre, rfl, rfl⟩ := h
  simp only [length_append]
  omega

theorem At.takeBytes_cases (h : At raw off rest) (n : ℕ) (s : σ) : Records.takeBytes raw off n s = .err () s ∨
    ∃ a rest', rest = a ++ rest' ∧ a.length = n ∧ Records.takeBytes raw off n s = .ok a s := by
  by_cases hn : n ≤ rest.length
  · have ha : (rest.take n).length = n := List.length_take_of_le hn
    have hsplit : At raw off (rest.take n ++ rest.drop n) := (List.take_append_drop n rest).symm ▸ h
    exact .inr ⟨_, _, (List.take_append_drop n rest).symm, ha, hsplit.takeBytes ha⟩
  · obtain ⟨pre, rfl, rfl⟩ := h
    have hlong : pre.length + n > (pre ++ rest).length := by
      rw [length_append]
      omega
    exact .inl (by rw [Records.takeBytes, if_pos hlong]; rfl)

theorem length_le16Bytes (n : ℕ) : (le16Bytes n).length = 2 := rfl

theorem le16Bytes_le16 (h : a.length = 2) : le16Bytes (le16 a 0) = a := by
  match a, h with
  | [b₀, b₁], _ =>
    simp only [le16, le16Bytes, List.getD_cons_zero, List.getD_cons_succ, List.cons.injEq, and_true]
    refine ⟨eq_of_toNat_eq ?_, eq_of_toNat_eq ?_⟩
    all_goals
      rw [toNat_ofNat]
      omega

theorem le32Bytes_le32 (h : a.length = 4) : le32Bytes (le32 a 0) = a := by
  match a, h with
  | [b₀, b₁, b₂, b₃], _ =>
    simp only [le32, le16, le32Bytes, le16Bytes, List.cons_append, List.nil_append, List.getD_cons_zero, List.getD_cons_succ,
      Nat.zero_add, List.cons.injEq, and_true]
    refine ⟨eq_of_toNat_eq ?_, eq_of_toNat_eq ?_, eq_of_toNat_eq ?_, eq_of_toNat_eq ?_⟩
    all_goals
      rw [toNat_ofNat]
      omega

/-! ### One record -/

theorem length_record (e : Entry) : (record e).length = 2 + (Utf8.encode e.1).length + 4 + e.2.length := by
  simp only [record, length_append, length_le16Bytes, length_le32Bytes]

theorem At.readRecord {e : Entry} (h : At raw off (record e ++ rest)) (he : Fits e) :
    readRecord raw off s = .ok (e, off + (record e).length) s := by
  simp only [record, append_assoc] at h
  have hplen := le16_le16Bytes he.path
  have hdlen := le32_le32Bytes he.data
  have h₁ := h.advance (length_le16Bytes _)
  have h₂ := h₁.advance rfl
  have h₃ := h₂.advance (length_le32Bytes _)
  rw [Records.readRecord, bind_of_ok (h.takeBytes (length_le16Bytes _)), hplen, bind_of_ok (h₁.takeBytes rfl), Utf8.decode_encode]
  simp only []
  rw [bind_of_ok (h₂.takeBytes (length_le32Bytes _)), hdlen, bind_of_ok (h₃.takeBytes rfl), length_record]
  simp only [pure_apply, Nat.add_assoc]

theorem At.readRecord_cases (h : At raw off rest) (s : σ) : Records.readRecord raw off s = .err () s ∨
    ∃ e rest', Fits e ∧ rest = record e ++ rest' ∧ Records.readRecord raw off s = .ok (e, off + (record e).length) s := by
  rw [Records.readRecord]
  rcases h.takeBytes_cases 2 s with herr | ⟨plen, rest₁, rfl, hplen, hok⟩
  · exact .inl (by rw [bind_apply, herr])
  rw [bind_of_ok hok]
  have h₁ := h.advance hplen
  rcases h₁.takeBytes_cases (le16 plen 0) s with herr | ⟨text, rest₂, rfl, htext, hok⟩
  · exact .inl (by rw [bind_apply, herr])
  rw [bind_of_ok hok]
  cases hpath : Utf8.decode text with
  | none => exact .inl rfl
  | some path =>
    have h₂ := h₁.advance htext
    simp only []
    rcases h₂.takeBytes_cases 4 s with herr | ⟨dlen, rest₃, rfl, hdlen, hok⟩
    · exact .inl (by rw [bind_apply, herr])
    rw [bind_of_ok hok]
    rcases (h₂.advance hdlen).takeBytes_cases (le32 dlen 0) s with herr | ⟨data, rest₄, rfl, hdata, hok⟩
    · exact .inl (by rw [bind_apply, herr])
    rw [bind_of_ok hok]
    have hencode : Utf8.encode path = text := Utf8.encode_of_decode hpath
    have hrecord : record (path, data) = plen ++ (text ++ (dlen ++ data)) := by
      simp only [record, hencode, htext, hdata, le16Bytes_le16 hplen, le32Bytes_le32 hdlen, append_assoc]
    refine .inr ⟨(path, data), rest₄, ⟨?_, ?_⟩, ?_, ?_⟩
    · rw [hencode, htext]
      exact le16_lt plen 0
    · rw [hdata]
      exact le32_lt dlen 0
    · simp only [hrecord, append_assoc]
    · rw [length_record, hencode, htext, hdata]
      simp only [pure_apply, Nat.add_assoc]

/-! ### All records -/

theorem At.readRecords : ∀ {es : List Entry} {off : ℕ} {s : σ}, At raw off (es.flatMap record ++ rest) → (∀ e ∈ es, Fits e) →
    Records.readRecords raw put es.length off s =
      .ok (off + (es.flatMap record).length) (es.foldl (fun s e => put e s) s)
  | [], _, _, _, _ => rfl
  | e :: es, off, s, h, hes => by
    rw [flatMap_cons, append_assoc] at h
    rw [List.length_cons, Records.readRecords, bind_of_ok (h.readRecord (hes e List.mem_cons_self)), modify_bind,
      (h.advance rfl).readRecords fun e' he' => hes e' (List.mem_cons_of_mem e he'), flatMap_cons, length_append,
      Nat.add_assoc]
    rfl

theorem At.readRecords_cases (put : Entry → σ → σ) : ∀ {n off : ℕ} {rest : List Byte} {s : σ}, At raw off rest →
    ∃ (es : List Entry) (rest' : List Byte),
    rest = es.flatMap record ++ rest' ∧ (∀ e ∈ es, Fits e) ∧
      (es.length = n ∧ Records.readRecords raw put n off s =
          .ok (off + (es.flatMap record).length) (es.foldl (fun s e => put e s) s) ∨
        es.length < n ∧ Records.readRecords raw put n off s = .err () (es.foldl (fun s e => put e s) s))
  | 0, _, rest, _, _ => ⟨[], rest, rfl, nofun, .inl ⟨rfl, rfl⟩⟩
  | n + 1, off, rest, s, h => by
    rw [Records.readRecords]
    rcases h.readRecord_cases s with herr | ⟨e, rest₁, he, rfl, hok⟩
    · exact ⟨[], rest, rfl, nofun, .inr ⟨Nat.succ_pos n, by rw [bind_apply, herr]; rfl⟩⟩
    rw [bind_of_ok hok]
    obtain ⟨es, rest', rfl, hes, hcases⟩ := (h.advance rfl).readRecords_cases put (n := n) (s := put e s)
    refine ⟨e :: es, rest', by rw [flatMap_cons, append_assoc], List.forall_mem_cons.mpr ⟨he, hes⟩, ?_⟩
    rw [flatMap_cons, length_append, ← Nat.add_assoc]
    rcases hcases with ⟨hlen, h⟩ | ⟨hlen, h⟩
    · exact .inl ⟨congrArg (· + 1) hlen, h⟩
    · exact .inr ⟨Nat.succ_lt_succ hlen, h⟩

end RustKernel.Records
