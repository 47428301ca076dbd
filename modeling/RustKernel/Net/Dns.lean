import RustKernel.Lib.Utf8

/-!
# DNS messages

`net/dns.rs`: `build_query`, which writes a question for the address of a name, and `parse_a_response`, which finds the
address in a message that anybody may have sent.
-/

namespace RustKernel.Dns

open Lib
open List (getElem?_eq_getElem flatMap_cons append_assoc cons_append length_drop)
open Option (isSome_iff_exists bind_eq_bind bind_some pure_def)

def DNS_TYPE_A : ℕ := 1

structure Ipv4Address where
  octets : Byte × Byte × Byte × Byte
  deriving DecidableEq

/-! ### The parser -/

def u16At (buf : List Byte) (i : ℕ) : Option ℕ := do
  let a ← buf[i]?
  let b ← buf[i + 1]?
  pure (a.toNat * 256 + b.toNat)

def skipName (buf : List Byte) (off : ℕ) : Option (Option ℕ) :=
  if buf.length ≤ off then some none
  else match buf[off]? with
    | none => none
    | some len =>
      if len = 0 then some (some (off + 1))
      else if len &&& 0xC0 = 0xC0 then some (some (off + 2))
      else skipName buf (off + 1 + len.toNat)
termination_by buf.length - off

def skipQuestions (buf : List Byte) : ℕ → ℕ → Option (Option ℕ)
  | 0, off => some (some off)
  | q + 1, off => do
    match ← skipName buf off with
    | none => some none
    | some off => if buf.length < off + 4 then some none else skipQuestions buf q (off + 4)

def addressAt (buf : List Byte) (off : ℕ) : Option Ipv4Address := do
  let a ← buf[off]?
  let b ← buf[off + 1]?
  let c ← buf[off + 2]?
  let d ← buf[off + 3]?
  pure ⟨a, b, c, d⟩

def findAddress (buf : List Byte) : ℕ → ℕ → Option (Option Ipv4Address)
  | 0, _ => some none
  | a + 1, off => do
    match ← skipName buf off with
    | none => some none
    | some off =>
      if buf.length < off + 10 then some none
      else do
        let rType ← u16At buf off
        let _ ← u16At buf (off + 2)
        let _ ← u16At buf (off + 4)
        let _ ← u16At buf (off + 6)
        let rdlen ← u16At buf (off + 8)
        if buf.length < off + 10 + rdlen then some none
        else if rType = DNS_TYPE_A ∧ rdlen = 4 then (addressAt buf (off + 10)).map some
        else findAddress buf a (off + 10 + rdlen)

def parseAResponse (buf : List Byte) (expectedId : ℕ) : Option (Option Ipv4Address) :=
  if buf.length < 12 then some none
  else do
    let id ← u16At buf 0
    if id ≠ expectedId then some none
    else do
      let flags ← u16At buf 2
      if flags &&& 0x8000 = 0 then some none
      else if flags &&& 0x000f ≠ 0 then some none
      else do
        let qd ← u16At buf 4
        let an ← u16At buf 6
        if an = 0 then some none
        else match ← skipQuestions buf qd 12 with
          | none => some none
          | some off => findAddress buf an off

/-! ### No read is out of bounds -/

variable {buf : List Byte} {off : ℕ}

theorem exists_u16At {i : ℕ} (h : i + 1 < buf.length) : ∃ n, u16At buf i = some n := by
  have h0 := getElem?_eq_getElem (l := buf) (by omega : i < buf.length)
  have h1 := getElem?_eq_getElem (l := buf) h
  exact ⟨_, by rw [u16At, h0, h1]; rfl⟩

theorem exists_addressAt (h : off + 3 < buf.length) : ∃ a, addressAt buf off = some a := by
  have h0 := getElem?_eq_getElem (l := buf) (by omega : off < buf.length)
  have h1 := getElem?_eq_getElem (l := buf) (by omega : off + 1 < buf.length)
  have h2 := getElem?_eq_getElem (l := buf) (by omega : off + 2 < buf.length)
  have h3 := getElem?_eq_getElem (l := buf) h
  exact ⟨_, by rw [addressAt, h0, h1, h2, h3]; rfl⟩

theorem skipName_isSome (buf : List Byte) (off : ℕ) : (skipName buf off).isSome := by
  fun_induction skipName buf off with
  | case1 => rfl
  | case2 off h hnone => exact absurd (List.getElem?_eq_none_iff.mp hnone) h
  | case3 => rfl
  | case4 => rfl
  | case5 _ _ _ _ _ _ ih => exact ih

theorem skipQuestions_isSome (q off : ℕ) : (skipQuestions buf q off).isSome := by
  induction q generalizing off with
  | zero => rfl
  | succ q ih =>
    obtain ⟨r, hr⟩ := isSome_iff_exists.mp (skipName_isSome buf off)
    unfold skipQuestions
    rw [hr]
    cases r with
    | none => rfl
    | some off' =>
      simp only [bind_eq_bind, bind_some]
      split_ifs
      · rfl
      · exact ih _

theorem findAddress_isSome (a off : ℕ) : (findAddress buf a off).isSome := by
  induction a generalizing off with
  | zero => rfl
  | succ a ih =>
    obtain ⟨r, hr⟩ := isSome_iff_exists.mp (skipName_isSome buf off)
    unfold findAddress
    rw [hr]
    cases r with
    | none => rfl
    | some off =>
      simp only [bind_eq_bind, bind_some]
      split_ifs with hlen
      · rfl
      · obtain ⟨rType, h0⟩ := @exists_u16At buf off (by omega)
        obtain ⟨_, h2⟩ := @exists_u16At buf (off + 2) (by omega)
        obtain ⟨_, h4⟩ := @exists_u16At buf (off + 4) (by omega)
        obtain ⟨_, h6⟩ := @exists_u16At buf (off + 6) (by omega)
        obtain ⟨rdlen, h8⟩ := @exists_u16At buf (off + 8) (by omega)
        simp only [h0, h2, h4, h6, h8, bind_some]
        split_ifs with hdata ha
        · rfl
        · obtain ⟨addr, haddr⟩ := @exists_addressAt buf (off + 10) (by omega)
          rw [haddr]
          rfl
        · exact ih _

theorem parseAResponse_returns (buf : List Byte) (expectedId : ℕ) : (parseAResponse buf expectedId).isSome := by
  unfold parseAResponse
  split_ifs with hlen
  · rfl
  · obtain ⟨id, h0⟩ := @exists_u16At buf 0 (by omega)
    obtain ⟨flags, h2⟩ := @exists_u16At buf 2 (by omega)
    obtain ⟨qd, h4⟩ := @exists_u16At buf 4 (by omega)
    obtain ⟨an, h6⟩ := @exists_u16At buf 6 (by omega)
    obtain ⟨r, hr⟩ := isSome_iff_exists.mp (@skipQuestions_isSome buf qd 12)
    simp only [h0, h2, h4, h6, hr, bind_eq_bind, bind_some]
    split_ifs
    · rfl
    · rfl
    · rfl
    · rfl
    · cases r with
      | none => rfl
      | some off => exact findAddress_isSome an off

/-! ### Well-formed messages -/

def be16 (x : BitVec 16) : List Byte := [BitVec.ofNat 8 (x.toNat / 256), BitVec.ofNat 8 x.toNat]

def labelBytes (l : List Byte) : List Byte := BitVec.ofNat 8 l.length :: l

structure Name where
  labels : List (List Byte)
  pointer : Option ({ b : Byte // b &&& 0xC0 = 0xC0 } × Byte)
  length_label : ∀ l ∈ labels, 0 < l.length ∧ l.length < 64

def Name.bytes (n : Name) : List Byte :=
  n.labels.flatMap labelBytes ++ match n.pointer with
    | none => [0]
    | some p => [p.1.val, p.2]

structure Question where
  name : Name
  qtype : BitVec 16
  qclass : BitVec 16

def Question.bytes (q : Question) : List Byte := q.name.bytes ++ (be16 q.qtype ++ be16 q.qclass)

structure Answer where
  name : Name
  rtype : BitVec 16
  rclass : BitVec 16
  ttl : BitVec 16 × BitVec 16
  data : List Byte
  length_data : data.length < 2 ^ 16

def Answer.fixed (a : Answer) : List Byte :=
  be16 a.rtype ++ (be16 a.rclass ++ (be16 a.ttl.1 ++ (be16 a.ttl.2 ++ be16 (BitVec.ofNat 16 a.data.length))))

def Answer.bytes (a : Answer) : List Byte := a.name.bytes ++ (a.fixed ++ a.data)

def Answer.address (a : Answer) : Option Ipv4Address :=
  if a.rtype.toNat = DNS_TYPE_A ∧ a.data.length = 4 then addressAt a.data 0 else none

structure Message where
  id : BitVec 16
  flags : BitVec 16
  nscount : BitVec 16
  arcount : BitVec 16
  questions : List Question
  answers : List Answer
  rest : List Byte
  length_questions : questions.length < 2 ^ 16
  length_answers : answers.length < 2 ^ 16

def Message.header (m : Message) : List Byte :=
  be16 m.id ++ (be16 m.flags ++ (be16 (BitVec.ofNat 16 m.questions.length) ++ (be16 (BitVec.ofNat 16 m.answers.length) ++
    (be16 m.nscount ++ be16 m.arcount))))

def Message.bytes (m : Message) : List Byte :=
  m.header ++ (m.questions.flatMap Question.bytes ++ (m.answers.flatMap Answer.bytes ++ m.rest))

def Message.IsResponse (m : Message) : Prop := m.flags.toNat &&& 0x8000 ≠ 0 ∧ m.flags.toNat &&& 0x000f = 0
deriving Decidable

/-! ### What is read where -/

variable {pre l : List Byte} {ls : List (List Byte)}

theorem u16At_append (i : ℕ) : u16At (pre ++ l) (pre.length + i) = u16At l i := by
  unfold u16At
  rw [Nat.add_assoc, List.getElem?_append_right (Nat.le_add_right ..), List.getElem?_append_right (Nat.le_add_right ..),
    Nat.add_sub_cancel_left, Nat.add_sub_cancel_left]

theorem addressAt_append (i : ℕ) : addressAt (pre ++ l) (pre.length + i) = addressAt l i := by
  unfold addressAt
  simp only [Nat.add_assoc, List.getElem?_append_right (Nat.le_add_right ..), Nat.add_sub_cancel_left]

theorem u16At_be16 (x : BitVec 16) : u16At (be16 x ++ l) 0 = some x.toNat := by
  have hx : x.toNat / 256 % 256 * 256 + x.toNat % 256 = x.toNat := by omega
  exact congrArg some hx

theorem u16At_be16_add (x : BitVec 16) (i : ℕ) : u16At (be16 x ++ l) (i + 2) = u16At l i := by
  rw [Nat.add_comm]
  exact @u16At_append (be16 x) l i

theorem skipName_eq {len : Byte} (h : buf[off]? = some len) : skipName buf off =
    if len = 0 then some (some (off + 1)) else if len &&& 0xC0 = 0xC0 then some (some (off + 2))
    else skipName buf (off + 1 + len.toNat) := by
  have hlt : ¬ buf.length ≤ off := by
    intro hle
    cases (List.getElem?_eq_none hle).symm.trans h
  rw [skipName, if_neg hlt, h]

theorem length_byte : ∀ n < 64, 0 < n →
    BitVec.ofNat 8 n ≠ 0 ∧ BitVec.ofNat 8 n &&& 0xC0 ≠ 0xC0 ∧ (BitVec.ofNat 8 n).toNat = n := by
  decide

theorem skipName_labels (h : ∀ l ∈ ls, 0 < l.length ∧ l.length < 64) (pre tail : List Byte) :
    skipName (pre ++ (ls.flatMap labelBytes ++ tail)) pre.length =
      skipName (pre ++ ls.flatMap labelBytes ++ tail) (pre ++ ls.flatMap labelBytes).length := by
  induction ls generalizing pre with
  | nil => simp
  | cons l ls ih =>
    obtain ⟨hpos, hlt⟩ := h l List.mem_cons_self
    obtain ⟨hzero, hptr, hlen⟩ := length_byte l.length hlt hpos
    have hnext := ih (fun l hl => h l (List.mem_cons_of_mem _ hl)) (pre ++ labelBytes l)
    have hfirst : (pre ++ ((l :: ls).flatMap labelBytes ++ tail))[pre.length]? = some (BitVec.ofNat 8 l.length) := by
      rw [List.getElem?_append_right (Nat.le_refl _), Nat.sub_self]
      rfl
    rw [skipName_eq hfirst, if_neg hzero, if_neg hptr]
    simp only [flatMap_cons, append_assoc] at hnext ⊢
    rw [← hnext]
    congr 1
    rw [List.length_append, labelBytes, List.length_cons]
    omega

theorem skipName_name (n : Name) (pre post : List Byte) :
    skipName (pre ++ (n.bytes ++ post)) pre.length = some (some (pre.length + n.bytes.length)) := by
  have hlabels := fun tail => skipName_labels n.length_label pre tail
  unfold Name.bytes
  rw [append_assoc, hlabels]
  have hfirst : ∀ b tail, (pre ++ n.labels.flatMap labelBytes ++ b :: tail)[(pre ++ n.labels.flatMap labelBytes).length]? =
      some b := by
    intro b tail
    rw [List.getElem?_append_right (Nat.le_refl _), Nat.sub_self]
    rfl
  cases n.pointer with
  | none =>
    rw [List.singleton_append, skipName_eq (hfirst ..), List.length_append, List.length_append]
    rfl
  | some p =>
    have hp : p.1.val ≠ 0 := by
      intro h0
      have hand := p.1.property
      rw [h0] at hand
      exact absurd hand (by decide)
    rw [cons_append, skipName_eq (hfirst ..), if_neg hp, if_pos p.1.property, List.length_append, List.length_append,
      Nat.add_assoc]
    rfl

theorem skipQuestions_questions (qs : List Question) (pre post : List Byte) :
    skipQuestions (pre ++ (qs.flatMap Question.bytes ++ post)) qs.length pre.length =
      some (some (pre.length + (qs.flatMap Question.bytes).length)) := by
  induction qs generalizing pre with
  | nil => rfl
  | cons q qs ih =>
    have hq : q.bytes.length = q.name.bytes.length + 4 := List.length_append
    have hbuf : pre ++ ((q :: qs).flatMap Question.bytes ++ post) =
        pre ++ (q.name.bytes ++ (be16 q.qtype ++ be16 q.qclass ++ (qs.flatMap Question.bytes ++ post))) := by
      simp [Question.bytes]
    have hbuf' : pre ++ ((q :: qs).flatMap Question.bytes ++ post) = pre ++ q.bytes ++ (qs.flatMap Question.bytes ++ post) := by
      simp
    have hnext := ih (pre ++ q.bytes)
    rw [← hbuf', List.length_append, hq, ← Nat.add_assoc] at hnext
    have hname := skipName_name q.name pre (be16 q.qtype ++ be16 q.qclass ++ (qs.flatMap Question.bytes ++ post))
    rw [← hbuf] at hname
    have hlen : ¬ (pre ++ ((q :: qs).flatMap Question.bytes ++ post)).length < pre.length + q.name.bytes.length + 4 := by
      rw [hbuf', List.length_append, List.length_append]
      omega
    rw [List.length_cons, skipQuestions, hname]
    simp only [bind_eq_bind, bind_some]
    rw [if_neg hlen, hnext, flatMap_cons, List.length_append, hq]
    simp only [Nat.add_assoc]

theorem findAddress_fixed (a : Answer) (pre post : List Byte) :
    let buf := pre ++ (a.fixed ++ post)
    u16At buf pre.length = some a.rtype.toNat ∧ u16At buf (pre.length + 2) = some a.rclass.toNat ∧
      u16At buf (pre.length + 4) = some a.ttl.1.toNat ∧ u16At buf (pre.length + 6) = some a.ttl.2.toNat ∧
      u16At buf (pre.length + 8) = some a.data.length := by
  have hdata : (BitVec.ofNat 16 a.data.length).toNat = a.data.length := Nat.mod_eq_of_lt a.length_data
  have hat : ∀ i, u16At (pre ++ (a.fixed ++ post)) (pre.length + i) = u16At (a.fixed ++ post) i := fun i => u16At_append i
  have h0 := hat 0
  have h2 := hat 2
  have h4 := hat 4
  have h6 := hat 6
  have h8 := hat 8
  simp only [Answer.fixed, append_assoc, u16At_be16, u16At_be16_add _ 0, u16At_be16_add _ 2, u16At_be16_add _ 4,
    u16At_be16_add _ 6, hdata] at h0 h2 h4 h6 h8 ⊢
  exact ⟨h0, h2, h4, h6, h8⟩

theorem addressAt_data {data : List Byte} (h : data.length = 4) :
    ∃ x, addressAt data 0 = some x ∧ ∀ tail, addressAt (data ++ tail) 0 = some x := by
  obtain ⟨x, hx⟩ := @exists_addressAt data 0 (by omega)
  refine ⟨x, hx, fun tail => ?_⟩
  rw [← hx]
  unfold addressAt
  rw [List.getElem?_append_left (by omega), List.getElem?_append_left (by omega), List.getElem?_append_left (by omega),
    List.getElem?_append_left (by omega)]

theorem findAddress_answers (as : List Answer) (pre post : List Byte) :
    findAddress (pre ++ (as.flatMap Answer.bytes ++ post)) as.length pre.length = some (as.findSome? Answer.address) := by
  induction as generalizing pre with
  | nil => rfl
  | cons a as ih =>
    have hname := skipName_name a.name pre (a.fixed ++ (a.data ++ (as.flatMap Answer.bytes ++ post)))
    have hfixed := findAddress_fixed a (pre ++ a.name.bytes) (a.data ++ (as.flatMap Answer.bytes ++ post))
    have haddr := @addressAt_append (pre ++ a.name.bytes ++ a.fixed) (a.data ++ (as.flatMap Answer.bytes ++ post)) 0
    have hnext := ih (pre ++ a.name.bytes ++ a.fixed ++ a.data)
    have hten : a.fixed.length = 10 := rfl
    have hbuf : pre ++ ((a :: as).flatMap Answer.bytes ++ post) =
        pre ++ (a.name.bytes ++ (a.fixed ++ (a.data ++ (as.flatMap Answer.bytes ++ post)))) := by
      simp [Answer.bytes]
    have hlen : pre.length + a.name.bytes.length + 10 + a.data.length ≤
        (pre ++ (a.name.bytes ++ (a.fixed ++ (a.data ++ (as.flatMap Answer.bytes ++ post))))).length := by
      simp only [List.length_append]
      omega
    simp only [append_assoc, List.length_append, hten, ← Nat.add_assoc] at hfixed haddr hnext
    rw [hbuf, List.length_cons, findAddress, hname, List.findSome?_cons]
    obtain ⟨h0, h2, h4, h6, h8⟩ := hfixed
    simp only [bind_eq_bind, bind_some, h0, h2, h4, h6, h8]
    rw [if_neg (by omega), if_neg (by omega), Answer.address]
    by_cases hA : a.rtype.toNat = DNS_TYPE_A ∧ a.data.length = 4
    · obtain ⟨x, hx, htail⟩ := addressAt_data hA.2
      rw [if_pos hA, if_pos hA, haddr, htail, hx]
      rfl
    · rw [if_neg hA, if_neg hA, hnext]

theorem parseAResponse_bytes (m : Message) (h : m.IsResponse) :
    parseAResponse m.bytes m.id.toNat = some (m.answers.findSome? Answer.address) := by
  have htwelve : m.header.length = 12 := rfl
  have hqd : (BitVec.ofNat 16 m.questions.length).toNat = m.questions.length := Nat.mod_eq_of_lt m.length_questions
  have han : (BitVec.ofNat 16 m.answers.length).toNat = m.answers.length := Nat.mod_eq_of_lt m.length_answers
  have hlen : ¬ m.bytes.length < 12 := by
    rw [Message.bytes, List.length_append]
    omega
  have hquestions := skipQuestions_questions m.questions m.header (m.answers.flatMap Answer.bytes ++ m.rest)
  have hanswers := findAddress_answers m.answers (m.header ++ m.questions.flatMap Question.bytes) m.rest
  rw [List.length_append] at hanswers
  rw [htwelve] at hquestions
  have hfields : u16At m.bytes 0 = some m.id.toNat ∧ u16At m.bytes 2 = some m.flags.toNat ∧
      u16At m.bytes 4 = some m.questions.length ∧ u16At m.bytes 6 = some m.answers.length := by
    simp only [Message.bytes, Message.header, append_assoc, u16At_be16, u16At_be16_add _ 0, u16At_be16_add _ 2,
      u16At_be16_add _ 4, hqd, han, and_self]
  obtain ⟨h0, h2, h4, h6⟩ := hfields
  unfold parseAResponse
  rw [if_neg hlen, h0, h2, h4, h6]
  simp only [bind_eq_bind, bind_some]
  rw [if_neg (fun hne => hne rfl), if_neg h.1, if_neg (fun hne => hne h.2)]
  split_ifs with hnone
  · rw [List.eq_nil_of_length_eq_zero hnone]
    rfl
  · unfold Message.bytes
    rw [hquestions]
    exact hanswers

/-! ### Queries -/

def put : List Byte → ℕ → List Byte → Option (List Byte)
  | out, _, [] => some out
  | out, off, b :: bs => if off < out.length then put (out.set off b) (off + 1) bs else none

def putLabels : List Byte → ℕ → List (List Byte) → Option (Option ℕ × List Byte)
  | out, off, [] => some (some off, out)
  | out, off, l :: ls =>
    if l = [] ∨ 63 < l.length then some (none, out)
    -- the source subtracts 5 from the length of the buffer
    else if out.length < 5 then none
    else if out.length - 5 < off + 1 + l.length then some (none, out)
    else do
      let out ← put out off (labelBytes l)
      putLabels out (off + 1 + l.length) ls

def labelsOf (name : List Char) : List (List Byte) := (name.splitOn '.').map Utf8.encode

def queryHeader (id : BitVec 16) : List Byte := be16 id ++ [1, 0, 0, 1, 0, 0, 0, 0, 0, 0]

def buildQuery (name : List Char) (id : BitVec 16) (out : List Byte) : Option (Option ℕ × List Byte) := do
  let out ← put out 0 (queryHeader id)
  match ← putLabels out 12 (labelsOf name) with
  | (none, out) => pure (none, out)
  | (some off, out) => do
    let out ← put out off [0, 0, 1, 0, 1]
    pure (some (off + 5), out)

def decodeName : ℕ → List Byte → Option (List (List Byte))
  | n + 1, len :: rest =>
    if len = 0 then some []
    else if 63 < len.toNat ∨ rest.length < len.toNat then none
    else (decodeName n (rest.drop len.toNat)).map (rest.take len.toNat :: ·)
  | _, _ => none

theorem put_append (bs pre r : List Byte) (h : bs.length ≤ r.length) :
    put (pre ++ r) pre.length bs = some (pre ++ bs ++ r.drop bs.length) := by
  induction bs generalizing pre r with
  | nil => simp [put]
  | cons b bs ih =>
    cases r with
    | nil => cases h
    | cons c r =>
      have hnext := ih (pre ++ [b]) r (Nat.le_of_succ_le_succ h)
      rw [put, if_pos (by rw [List.length_append, List.length_cons]; omega), List.set_append_right _ _ (Nat.le_refl _),
        Nat.sub_self]
      simpa using hnext

theorem putLabels_append (ls : List (List Byte)) (pre r : List Byte) (h : 5 ≤ r.length) :
    (∃ out, putLabels (pre ++ r) pre.length ls = some (none, out) ∧ out.length = (pre ++ r).length) ∨
    ((∀ l ∈ ls, 0 < l.length ∧ l.length < 64) ∧ ∃ r', 5 ≤ r'.length ∧
      (ls.flatMap labelBytes).length + r'.length = r.length ∧ putLabels (pre ++ r) pre.length ls =
        some (some (pre.length + (ls.flatMap labelBytes).length), pre ++ ls.flatMap labelBytes ++ r')) := by
  induction ls generalizing pre r with
  | nil => exact .inr ⟨by simp, r, h, by simp, by simp [putLabels]⟩
  | cons l ls ih =>
    have hlen : (pre ++ r).length = pre.length + r.length := List.length_append
    by_cases hl : l = [] ∨ 63 < l.length
    · exact .inl ⟨pre ++ r, by rw [putLabels, if_pos hl], rfl⟩
    by_cases hroom : (pre ++ r).length - 5 < pre.length + 1 + l.length
    · refine .inl ⟨pre ++ r, ?_, rfl⟩
      rw [putLabels, if_neg hl, if_neg (by omega), if_pos hroom]
    · have hlabel : (labelBytes l).length = l.length + 1 := rfl
      have hvalid : 0 < l.length ∧ l.length < 64 := by
        rw [not_or, ← ne_eq, List.ne_nil_iff_length_pos] at hl
        omega
      have hput := put_append (labelBytes l) pre r (by omega)
      have hstep : putLabels (pre ++ r) pre.length (l :: ls) =
          putLabels (pre ++ labelBytes l ++ r.drop (labelBytes l).length) (pre ++ labelBytes l).length ls := by
        rw [putLabels, if_neg hl, if_neg (by omega), if_neg hroom, hput, List.length_append, hlabel]
        simp only [bind_eq_bind, bind_some, Nat.add_assoc, Nat.add_comm 1]
      have hdrop : (r.drop (labelBytes l).length).length = r.length - (labelBytes l).length := length_drop
      rw [hstep]
      rcases ih (pre ++ labelBytes l) (r.drop (labelBytes l).length) (by omega) with ⟨out, hout, hsize⟩ | ⟨hall, r', h5, hsum, hout⟩
      · refine .inl ⟨out, hout, ?_⟩
        rw [hsize, List.length_append, List.length_append]
        omega
      · refine .inr ⟨List.forall_mem_cons.mpr ⟨hvalid, hall⟩, r', h5, ?_, ?_⟩
        · rw [flatMap_cons, List.length_append]
          omega
        · rw [hout, flatMap_cons, List.length_append, List.length_append, Nat.add_assoc, append_assoc pre]

theorem decodeName_labels (h : ∀ l ∈ ls, 0 < l.length ∧ l.length < 64) {n : ℕ}
    (hn : ls.length < n) (tail : List Byte) : decodeName n (ls.flatMap labelBytes ++ 0 :: tail) = some ls := by
  induction ls generalizing n with
  | nil =>
    obtain ⟨n, rfl⟩ := Nat.exists_eq_succ_of_ne_zero (by omega : n ≠ 0)
    rfl
  | cons l ls ih =>
    rw [List.length_cons] at hn
    obtain ⟨n, rfl⟩ := Nat.exists_eq_succ_of_ne_zero (by omega : n ≠ 0)
    obtain ⟨hpos, hlt⟩ := h l List.mem_cons_self
    obtain ⟨hzero, -, hlen⟩ := length_byte l.length hlt hpos
    have htail := ih (fun l hl => h l (List.mem_cons_of_mem _ hl)) (by omega : ls.length < n)
    rw [flatMap_cons, append_assoc, labelBytes, cons_append, decodeName, if_neg hzero, hlen, if_neg ?_,
      List.drop_left, List.take_left, htail]
    · rfl
    · rw [List.length_append]
      omega

theorem length_le_labels : ls.length ≤ (ls.flatMap labelBytes).length := by
  induction ls with
  | nil => exact Nat.zero_le _
  | cons l ls ih =>
    rw [flatMap_cons, List.length_append, labelBytes, List.length_cons, List.length_cons]
    omega

theorem buildQuery_cases (name : List Char) (id : BitVec 16) {out : List Byte} (h : 17 ≤ out.length) :
    (∃ out', buildQuery name id out = some (none, out') ∧ out'.length = out.length) ∨ ∃ n :
    Name, n.labels = labelsOf name ∧ n.pointer = none ∧ ∃ r, 12 + n.bytes.length + 4 + r.length = out.length ∧
    buildQuery name id out = some (some (12 + n.bytes.length + 4), queryHeader id ++ (n.bytes ++ ([0, 1, 0, 1] ++ r))) := by
  have htwelve : (queryHeader id).length = 12 := rfl
  have hdrop : (out.drop 12).length = out.length - 12 := length_drop
  have hput : put out 0 (queryHeader id) = some (queryHeader id ++ out.drop 12) := put_append (queryHeader id) [] out (by omega)
  rcases putLabels_append (labelsOf name) (queryHeader id) (out.drop 12) (by omega) with
    ⟨out', hout, hsize⟩ | ⟨hall, r, h5, hsum, hout⟩
  · refine .inl ⟨out', ?_, ?_⟩
    · rw [htwelve] at hout
      simp only [buildQuery, hput, hout, bind_eq_bind, bind_some, pure_def]
    · rw [hsize, List.length_append]
      omega
  · have hend := put_append [0, 0, 1, 0, 1] (queryHeader id ++ (labelsOf name).flatMap labelBytes) r h5
    have hbytes : (Name.mk (labelsOf name) none hall).bytes.length = ((labelsOf name).flatMap labelBytes).length + 1 :=
      List.length_append
    have hr : (r.drop 5).length = r.length - 5 := length_drop
    rw [List.length_append, htwelve] at hend
    rw [htwelve] at hout
    refine .inr ⟨⟨labelsOf name, none, hall⟩, rfl, rfl, r.drop 5, by omega, ?_⟩
    simp only [buildQuery, hput, hout, hend, bind_eq_bind, bind_some, pure_def, hbytes]
    simp only [Name.bytes, append_assoc, cons_append, List.nil_append, List.length_cons, List.length_nil,
      Nat.add_assoc, Nat.reduceAdd]

structure Query (name : List Char) (id : BitVec 16) (size off : ℕ) (out : List Byte) : Prop where
  inside : off ≤ size
  header : out.take 12 = queryHeader id
  labels : decodeName off (out.drop 12) = some (labelsOf name)
  skipped : skipName (out.take off) 12 = some (some (off - 4))

theorem buildQuery_query (name : List Char) (id : BitVec 16) (out : List Byte) (h : 17 ≤ out.length) : ∃ r out', buildQuery name
    id out = some (r, out') ∧ out'.length = out.length ∧ ∀ off, r = some off → Query name id out.length off out' := by
  rcases buildQuery_cases name id h with ⟨out', hout, hsize⟩ | ⟨n, hlabels, hptr, r, hsize, hout⟩
  · exact ⟨none, out', hout, hsize, fun off hoff => by cases hoff⟩
  · have htwelve : (queryHeader id).length = 12 := rfl
    have hbytes : n.bytes = (labelsOf name).flatMap labelBytes ++ [0] := by rw [Name.bytes, hlabels, hptr]
    refine ⟨_, _, hout, ?_, fun off hoff => ?_⟩
    · simp only [List.length_append, htwelve, List.length_cons, List.length_nil]
      omega
    · obtain rfl := Option.some.inj hoff
      have hlen : n.bytes.length = ((labelsOf name).flatMap labelBytes).length + 1 := by
        rw [hbytes, List.length_append]
        rfl
      refine ⟨by omega, List.take_left' htwelve, ?_, ?_⟩
      · have hfew := @length_le_labels (labelsOf name)
        have hdrop : (queryHeader id ++ (n.bytes ++ ([0, 1, 0, 1] ++ r))).drop 12 =
            (labelsOf name).flatMap labelBytes ++ 0 :: ([0, 1, 0, 1] ++ r) := by
          rw [List.drop_left' htwelve, hbytes, append_assoc]
          rfl
        rw [hdrop]
        exact decodeName_labels (hlabels ▸ n.length_label) (by omega) _
      · have htake : (queryHeader id ++ (n.bytes ++ ([0, 1, 0, 1] ++ r))).take (12 + n.bytes.length + 4) =
            queryHeader id ++ (n.bytes ++ [0, 1, 0, 1]) := by
          have happ : queryHeader id ++ (n.bytes ++ ([0, 1, 0, 1] ++ r)) =
              queryHeader id ++ (n.bytes ++ [0, 1, 0, 1]) ++ r := by
            simp only [append_assoc]
          rw [happ]
          refine List.take_left' ?_
          rw [List.length_append, List.length_append, Nat.add_assoc]
          rfl
        rw [htake]
        exact skipName_name n (queryHeader id) [0, 1, 0, 1]

/-- **DNS messages are handled safely and exactly.** Every buffer is parsed without a read outside of it; of a well-formed
response to the query the first address is returned, or none if there is none; and a query is written inside its buffer,
with the labels of the name and four bytes after them. -/
theorem dns_messages :
    (∀ buf expectedId, (parseAResponse buf expectedId).isSome) ∧
    (∀ m : Message, m.IsResponse → parseAResponse m.bytes m.id.toNat = some (m.answers.findSome? Answer.address)) ∧
    ∀ (name : List Char) (id : BitVec 16) (out : List Byte), 17 ≤ out.length →
      ∃ r out', buildQuery name id out = some (r, out') ∧ out'.length = out.length ∧
        ∀ off, r = some off → Query name id out.length off out' :=
  ⟨parseAResponse_returns, parseAResponse_bytes, buildQuery_query⟩

def oneAddress : Message where
  id := 7
  flags := 0x8180
  nscount := 0
  arcount := 0
  questions := [⟨⟨[[0x61], [0x62, 0x63]], none, by decide⟩, 1, 1⟩]
  answers := [⟨⟨[], some (⟨0xC0, by decide⟩, 12), by decide⟩, 5, 1, (0, 60), [0x61, 0], by decide⟩,
    ⟨⟨[], some (⟨0xC0, by decide⟩, 12), by decide⟩, 1, 1, (0, 60), [10, 0, 2, 15], by decide⟩]
  rest := []
  length_questions := by decide
  length_answers := by decide

theorem dns_messages_oneAddress : oneAddress.IsResponse ∧
    parseAResponse oneAddress.bytes 7 = some (some ⟨10, 0, 2, 15⟩) := by
  have h : oneAddress.IsResponse := by decide
  exact ⟨h, dns_messages.2.1 oneAddress h⟩

end RustKernel.Dns
