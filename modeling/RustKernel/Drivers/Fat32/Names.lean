import Mathlib.Data.List.DropRight
import RustKernel.Drivers.Fat32.Model

/-!
# Short names

A directory slot stores a name as 11 bytes, 8 for the base and 3 for the extension, padded
with spaces; `pack_short_name` makes them from a string, and the listing makes a string of
them.
-/

namespace RustKernel.Drivers.Fat32

open Lib
open List (mem_cons_self length_append append_assoc take_take mem_of_mem_drop mem_map map_map map_cons mem_cons
  mem_append)

variable {bs e : List Byte} {name : List Char} {b : List Byte} {bs' : List Byte} {x : Byte}

def chr (b : Byte) : Char := Char.ofNat b.toNat

def isSpace (b : Byte) : Bool := b == 0x20#8

structure Name83 (b : List Byte) : Prop where
  length : b.length = 11
  byte : ∀ x ∈ b, 0x20 ≤ x.toNat ∧ x.toNat < 0x7F ∧ x.toNat ≠ 0x2E ∧ ¬ (0x61 ≤ x.toNat ∧ x.toNat ≤ 0x7A)
  base : ∀ x ∈ (b.take 8).head?, isSpace x = false
  ext : (∀ x ∈ (b.drop 8).head?, isSpace x = false) ∨ ∀ x ∈ b.drop 8, isSpace x = true

def strip (bs : List Byte) : List Byte := bs.rdropWhile isSpace

def joinName (base ext : List Char) : List Char := if ext.isEmpty then base else base ++ '.' :: ext

theorem toNat_chr {b : Byte} (h : b.toNat < 0x7F) : (chr b).toNat = b.toNat :=
  toNat_ofNat_ascii (by omega)

theorem chr_inj {a b : Byte} (ha : a.toNat < 0x7F) (hb : b.toNat < 0x7F) (h : chr a = chr b) : a = b := by
  have := congrArg Char.toNat h
  rw [toNat_chr ha, toNat_chr hb] at this
  exact BitVec.eq_of_toNat_eq this

theorem isWhitespace_chr {b : Byte} (h₁ : 0x20 ≤ b.toNat) (h₂ : b.toNat < 0x7F) : isWhitespace (chr b) = isSpace b := by
  have hsp : isSpace b = decide (b.toNat = 0x20) := by
    rw [isSpace, Bool.eq_iff_iff, beq_iff_eq, decide_eq_true_iff]
    exact ⟨fun h => by rw [h]; rfl, fun h => BitVec.eq_of_toNat_eq h⟩
  rw [isWhitespace, hsp, toNat_chr h₂, Bool.eq_iff_iff]
  simp only [Bool.or_eq_true, Bool.and_eq_true, decide_eq_true_eq, beq_iff_eq]
  omega

theorem dropWhile_congr_mem {α : Type} {p q : α → Bool} : ∀ {l : List α}, (∀ x ∈ l, p x = q x) →
    l.dropWhile p = l.dropWhile q
  | [], _ => rfl
  | x :: l, h => by
    rw [List.dropWhile_cons, List.dropWhile_cons, h x (mem_cons_self ..),
      dropWhile_congr_mem fun y hy => h y (List.mem_cons_of_mem _ hy)]

theorem trim_map_chr (hp : ∀ x ∈ bs, 0x20 ≤ x.toNat ∧ x.toNat < 0x7F)
    (hh : (∀ x ∈ bs.head?, isSpace x = false) ∨ ∀ x ∈ bs, isSpace x = true) : trim (bs.map chr) = (strip bs).map chr := by
  have hws : ∀ x ∈ bs, (isWhitespace ∘ chr) x = isSpace x := fun x hx => isWhitespace_chr (hp x hx).1 (hp x hx).2
  have hfront : bs.dropWhile isSpace = bs ∨ bs.dropWhile isSpace = [] ∧ strip bs = [] := by
    rcases hh with hh | hh
    · left
      cases bs with
      | nil => rfl
      | cons b bs => rw [List.dropWhile_cons, hh b rfl]; rfl
    · right
      exact ⟨List.dropWhile_eq_nil_iff.mpr hh, List.rdropWhile_eq_nil_iff.mpr hh⟩
  rw [trim, List.dropWhile_map, dropWhile_congr_mem hws]
  rcases hfront with hfront | ⟨hfront, hstrip⟩
  · rw [hfront, ← List.map_reverse, List.dropWhile_map,
      dropWhile_congr_mem fun x hx => hws x (List.mem_reverse.mp hx), ← List.map_reverse]
    rfl
  · rw [hfront, hstrip]
    rfl

theorem strip_append (bs : List Byte) : bs = strip bs ++ List.replicate (bs.length - (strip bs).length) 0x20#8 := by
  have hsplit : strip bs ++ bs.rtakeWhile isSpace = bs := List.rdropWhile_append_rtakeWhile
  have hlen : (bs.rtakeWhile isSpace).length = bs.length - (strip bs).length := by
    have := congrArg List.length hsplit
    rw [length_append] at this
    omega
  have hrep : bs.rtakeWhile isSpace = List.replicate (bs.length - (strip bs).length) 0x20#8 := by
    refine List.eq_replicate_iff.mpr ⟨hlen, fun x hx => ?_⟩
    have := List.mem_rtakeWhile_imp hx
    exact beq_iff_eq.mp this
  rw [← hrep, hsplit]

theorem strip_pad (h : ∀ x ∈ bs, isSpace x = false) :
    ∀ k, strip (bs ++ List.replicate k 0x20#8) = bs
  | 0 => by
    rw [List.replicate_zero, List.append_nil]
    refine List.rdropWhile_eq_self_iff.mpr fun hne => ?_
    rw [h _ (List.getLast_mem hne)]
    exact Bool.false_ne_true
  | k + 1 => by
    rw [List.replicate_succ', ← append_assoc, strip, List.rdropWhile_concat_pos _ _ _ rfl]
    exact strip_pad h k

theorem eq_of_strip_eq (hlen : bs.length = bs'.length) (h : strip bs = strip bs') : bs = bs' := by
  rw [strip_append bs, strip_append bs', h, hlen]

theorem mem_of_mem_strip (h : x ∈ strip bs) : x ∈ bs :=
  (List.rdropWhile_prefix ..).subset h

/-! ### Listing a name -/

theorem mem_name_of_mem_base (hx : x ∈ e.take 8) : x ∈ e.take 11 := by
  have htake : e.take 8 = (e.take 11).take 8 := by rw [take_take]; rfl
  exact List.mem_of_mem_take (htake ▸ hx)

theorem ext_eq_drop (e : List Byte) : (e.drop 8).take 3 = (e.take 11).drop 8 := by rw [List.drop_take]

section Name83

variable {e : List Byte} (h : Name83 (e.take 11))

include h

theorem Name83.shortName_eq : shortName e = joinName ((strip (e.take 8)).map chr) ((strip ((e.drop 8).take 3)).map chr) := by
  have hbase : ∀ x ∈ e.take 8, 0x20 ≤ x.toNat ∧ x.toNat < 0x7F := fun x hx =>
    ⟨(h.byte x (mem_name_of_mem_base hx)).1, (h.byte x (mem_name_of_mem_base hx)).2.1⟩
  have hext : ∀ x ∈ (e.drop 8).take 3, 0x20 ≤ x.toNat ∧ x.toNat < 0x7F := fun x hx => by
    rw [ext_eq_drop] at hx
    exact ⟨(h.byte x (mem_of_mem_drop hx)).1, (h.byte x (mem_of_mem_drop hx)).2.1⟩
  have hb : Utf8.decode (e.take 8) = some ((e.take 8).map chr) := Utf8.decode_ascii fun x hx => by have := hbase x hx; omega
  have he : Utf8.decode ((e.drop 8).take 3) = some (((e.drop 8).take 3).map chr) :=
    Utf8.decode_ascii fun x hx => by have := hext x hx; omega
  have hhead : ∀ x ∈ (e.take 8).head?, isSpace x = false := by
    have := h.base
    rwa [take_take] at this
  have htail := h.ext
  rw [← ext_eq_drop] at htail
  rw [shortName, hb, he, Option.getD_some, Option.getD_some, trim_map_chr hbase (.inl hhead), trim_map_chr hext htail, joinName]

theorem Name83.dot_notMem : '.' ∉ (strip (e.take 8)).map chr := by
  intro hdot
  obtain ⟨x, hx, hx'⟩ := mem_map.mp hdot
  have hbyte := h.byte x (mem_name_of_mem_base (mem_of_mem_strip hx))
  have := congrArg Char.toNat hx'
  rw [toNat_chr hbyte.2.1] at this
  exact hbyte.2.2.1 this

theorem Name83.map_toAsciiUppercase : (shortName e).map toAsciiUppercase = shortName e := by
  have hup : ∀ x ∈ e.take 11, toAsciiUppercase (chr x) = chr x := fun x hx => by
    rw [toAsciiUppercase, toNat_chr (h.byte x hx).2.1, if_neg (h.byte x hx).2.2.2]
  have hbase : ((strip (e.take 8)).map chr).map toAsciiUppercase = (strip (e.take 8)).map chr := by
    rw [map_map]
    exact List.map_congr_left fun x hx => hup x (mem_name_of_mem_base (mem_of_mem_strip hx))
  have hext : ((strip ((e.drop 8).take 3)).map chr).map toAsciiUppercase = (strip ((e.drop 8).take 3)).map chr := by
    rw [map_map]
    refine List.map_congr_left fun x hx => hup x ?_
    have := mem_of_mem_strip hx
    rw [ext_eq_drop] at this
    exact mem_of_mem_drop this
  rw [h.shortName_eq, joinName]
  split_ifs with hnil
  · exact hbase
  · rw [List.map_append, map_cons, hbase, hext]
    rfl

end Name83

theorem takeWhile_joinName {base ext : List Char} (h : '.' ∉ base) : (joinName base ext).takeWhile (· != '.') = base := by
  have hbase : ∀ c ∈ base, (c != '.') = true := fun c hc => by
    rw [bne_iff_ne]
    rintro rfl
    exact h hc
  rw [joinName]
  split_ifs
  · exact List.takeWhile_eq_self_iff.mpr hbase
  · rw [List.takeWhile_append_of_pos hbase, List.takeWhile_cons_of_neg (by decide), List.append_nil]

theorem dropWhile_joinName {base ext : List Char} (h : '.' ∉ base) :
    ((joinName base ext).dropWhile (· != '.')).drop 1 = ext := by
  have hbase : ∀ c ∈ base, (c != '.') = true := fun c hc => by
    rw [bne_iff_ne]
    rintro rfl
    exact h hc
  rw [joinName]
  split_ifs with hnil
  · rw [List.dropWhile_eq_nil_iff.mpr hbase, List.isEmpty_iff.mp hnil]
    rfl
  · rw [List.dropWhile_append_of_pos hbase]
    rfl

theorem map_chr_inj (h : ∀ x ∈ bs, x.toNat < 0x7F) (h' : ∀ x ∈ bs', x.toNat < 0x7F)
    (heq : bs.map chr = bs'.map chr) : bs = bs' := by
  induction bs generalizing bs' with
  | nil => rw [List.map_nil, eq_comm, List.map_eq_nil_iff] at heq; exact heq.symm
  | cons b bs ih =>
    cases bs' with
    | nil => cases heq
    | cons b' bs' =>
      rw [map_cons, map_cons, List.cons.injEq] at heq
      rw [chr_inj (h b (mem_cons_self ..)) (h' b' (mem_cons_self ..)) heq.1,
        ih (fun x hx => h x (List.mem_cons_of_mem _ hx)) (fun x hx => h' x (List.mem_cons_of_mem _ hx)) heq.2]

theorem shortName_inj {e' : List Byte} (h : Name83 (e.take 11)) (h' : Name83 (e'.take 11))
    (heq : shortName e = shortName e') : e.take 11 = e'.take 11 := by
  rw [h.shortName_eq, h'.shortName_eq] at heq
  have hbase := congrArg (List.takeWhile (· != '.')) heq
  have hext := congrArg (fun l => (l.dropWhile (· != '.')).drop 1) heq
  simp only [takeWhile_joinName h.dot_notMem, takeWhile_joinName h'.dot_notMem, dropWhile_joinName h.dot_notMem,
    dropWhile_joinName h'.dot_notMem] at hbase hext
  have hlen : ∀ {e : List Byte}, Name83 (e.take 11) → (e.take 8).length = 8 ∧ ((e.drop 8).take 3).length = 3 := by
    intro e h
    have := h.length
    rw [List.length_take] at this
    simp only [List.length_take, List.length_drop]
    omega
  have hbyte : ∀ {e : List Byte}, Name83 (e.take 11) → (∀ x ∈ strip (e.take 8), x.toNat < 0x7F) ∧
      ∀ x ∈ strip ((e.drop 8).take 3), x.toNat < 0x7F := by
    intro e h
    refine ⟨fun x hx => (h.byte x (mem_name_of_mem_base (mem_of_mem_strip hx))).2.1, fun x hx => ?_⟩
    have := mem_of_mem_strip hx
    rw [ext_eq_drop] at this
    exact (h.byte x (mem_of_mem_drop this)).2.1
  have h₁ : e.take 8 = e'.take 8 := eq_of_strip_eq ((hlen h).1.trans (hlen h').1.symm)
    (map_chr_inj (hbyte h).1 (hbyte h').1 hbase)
  have h₂ : (e.drop 8).take 3 = (e'.drop 8).take 3 := eq_of_strip_eq ((hlen h).2.trans (hlen h').2.symm)
    (map_chr_inj (hbyte h).2 (hbyte h').2 hext)
  have hsplit : ∀ l : List Byte, l.take 11 = l.take 8 ++ (l.drop 8).take 3 := fun l => show l.take (8 + 3) = _ from List.take_add
  rw [hsplit e, hsplit e', h₁, h₂]

/-! ### Packing a name -/

theorem isValidShortByte_iff_bounds {b : Byte} (h : isValidShortByte b = true) :
    0x21 ≤ b.toNat ∧ b.toNat < 0x7F ∧ b.toNat ≠ 0x2E ∧ b.toNat ≠ 0x2F ∧ ¬ (0x61 ≤ b.toNat ∧ b.toNat ≤ 0x7A) := by
  simp only [isValidShortByte, Bool.or_eq_true, Bool.and_eq_true, decide_eq_true_eq, List.contains_iff_mem,
    mem_cons, List.not_mem_nil, or_false] at h
  omega

theorem isSpace_of_isValidShortByte {b : Byte} (h : isValidShortByte b = true) : isSpace b = false := by
  have := isValidShortByte_iff_bounds h
  rw [isSpace, beq_eq_false_iff_ne]
  rintro rfl
  exact absurd this.1 (by decide)

theorem map_chr_encode : ∀ {s : List Char}, (∀ b ∈ Utf8.encode s, isValidShortByte b = true) →
    (Utf8.encode s).map chr = s
  | [], _ => rfl
  | c :: s, h => by
    rw [Utf8.encode, List.flatMap_cons] at h ⊢
    have hc : c.toNat < 0x80 := by
      by_contra hge
      obtain ⟨b, bs, hb, hbig⟩ := Utf8.encodeChar_large (Nat.le_of_not_lt hge)
      have hvalid := h b.toBitVec (List.mem_append_left _ (by rw [hb]; exact mem_cons_self ..))
      have := isValidShortByte_iff_bounds hvalid
      have hnat : b.toBitVec.toNat = b.toNat := rfl
      omega
    have hone := Utf8.encode_ascii (s := [c]) fun x hx => by rwa [List.mem_singleton.mp hx]
    rw [Utf8.encode, List.flatMap_singleton] at hone
    have htail : (Utf8.encode s).map chr = s := map_chr_encode fun b hb => h b (List.mem_append_right _ hb)
    have hchr : chr (BitVec.ofNat 8 c.toNat) = c := by
      rw [chr, BitVec.toNat_ofNat, Nat.mod_eq_of_lt (by omega), Char.ofNat_toNat]
    rw [hone, List.map_append, List.map_singleton, List.map_singleton, hchr]
    exact congrArg (c :: ·) htail

theorem toAsciiUppercase_eq_dot {c : Char} : toAsciiUppercase c = '.' ↔ c = '.' := by
  rw [toAsciiUppercase]
  split_ifs with h
  · have hne : c ≠ '.' := by rintro rfl; exact absurd h (by decide)
    refine ⟨fun heq => ?_, fun heq => absurd heq hne⟩
    have := congrArg Char.toNat heq
    rw [toNat_ofNat_ascii (by omega)] at this
    have hdot : '.'.toNat = 46 := rfl
    omega
  · rfl

theorem packShortName_ok (h : packShortName name = .ok b) :
    ∃ base ext, b = base ++ List.replicate (8 - base.length) 0x20#8 ++ ext ++ List.replicate (3 - ext.length) 0x20#8 ∧
      0 < base.length ∧ base.length ≤ 8 ∧ ext.length ≤ 3 ∧ (∀ x ∈ base, isValidShortByte x = true) ∧
      (∀ x ∈ ext, isValidShortByte x = true) ∧
      (name.map toAsciiUppercase = joinName (base.map chr) (ext.map chr) ∨
        name.getLast? = some '.' ∧ name.map toAsciiUppercase = base.map chr ++ ['.'] ∧ ext = []) := by
  generalize hup : name.map toAsciiUppercase = upper at *
  simp only [packShortName, hup] at h
  split_ifs at h with hlen hbase hext
  cases h
  simp only [Bool.or_eq_true, not_or, List.isEmpty_iff, decide_eq_true_eq, Bool.not_eq_true',
    Bool.not_eq_false, List.all_eq_true] at hlen hbase hext
  refine ⟨_, _, rfl, List.length_pos_of_ne_nil hlen.1.1, by omega, by omega, hbase, hext, ?_⟩
  rw [map_chr_encode hbase, map_chr_encode hext, joinName]
  have hsplit : upper.takeWhile (· != '.') ++ upper.dropWhile (· != '.') = upper := List.takeWhile_append_dropWhile
  cases hrest : upper.dropWhile (· != '.') with
  | nil =>
    rw [hrest] at hsplit
    left
    simpa using hsplit.symm
  | cons c rest =>
    -- the first character left is the dot
    have hc : c = '.' := by
      have hne : upper.dropWhile (· != '.') ≠ [] := by rw [hrest]; exact List.cons_ne_nil _ _
      have := List.head_dropWhile_not (· != '.') hne
      simpa [hrest] using this
    subst hc
    rw [hrest] at hsplit
    cases rest with
    | nil =>
      -- nothing follows the dot: the name ends in it
      have hlast : upper.getLast? = some '.' := by rw [← hsplit, List.getLast?_append]; rfl
      rw [← hup, List.getLast?_map] at hlast
      obtain ⟨c, hc, hcd⟩ := Option.map_eq_some_iff.mp hlast
      exact .inr ⟨toAsciiUppercase_eq_dot.mp hcd ▸ hc, hsplit.symm, rfl⟩
    | cons x rest => exact .inl hsplit.symm

section Pack

variable {base ext : List Byte}

theorem length_padded (hb : base.length ≤ 8) : (base ++ List.replicate (8 - base.length) 0x20#8).length = 8 := by
  rw [length_append, List.length_replicate]
  omega

theorem padded_fields (hb : base.length ≤ 8)
    (h : e.take 11 = base ++ List.replicate (8 - base.length) 0x20#8 ++ ext ++ List.replicate (3 - ext.length) 0x20#8) :
    e.take 8 = base ++ List.replicate (8 - base.length) 0x20#8 ∧
      (e.drop 8).take 3 = ext ++ List.replicate (3 - ext.length) 0x20#8 := by
  have htake : e.take 8 = (e.take 11).take 8 := by rw [take_take]; rfl
  rw [htake, ext_eq_drop, h, append_assoc]
  exact ⟨List.take_left' (length_padded hb), List.drop_left' (length_padded hb)⟩

theorem name83_padded (hpos : 0 < base.length) (hb : base.length ≤ 8) (he : ext.length ≤ 3)
    (hbv : ∀ x ∈ base, isValidShortByte x = true) (hev : ∀ x ∈ ext, isValidShortByte x = true) :
    Name83 (base ++ List.replicate (8 - base.length) 0x20#8 ++ ext ++ List.replicate (3 - ext.length) 0x20#8) := by
  have hvalid : ∀ x, isValidShortByte x = true → 0x20 ≤ x.toNat ∧ x.toNat < 0x7F ∧ x.toNat ≠ 0x2E ∧
      ¬ (0x61 ≤ x.toNat ∧ x.toNat ≤ 0x7A) := fun x hx => by
    have := isValidShortByte_iff_bounds hx
    omega
  have hspace : ∀ n, ∀ x ∈ List.replicate n 0x20#8, 0x20 ≤ x.toNat ∧ x.toNat < 0x7F ∧ x.toNat ≠ 0x2E ∧
      ¬ (0x61 ≤ x.toNat ∧ x.toNat ≤ 0x7A) := fun n x hx => by
    rw [(List.mem_replicate.mp hx).2]
    decide
  refine ⟨?_, fun x hx => ?_, fun x hx => ?_, ?_⟩
  · simp only [length_append, List.length_replicate]
    omega
  · simp only [mem_append] at hx
    rcases hx with ((hx | hx) | hx) | hx
    · exact hvalid x (hbv x hx)
    · exact hspace _ x hx
    · exact hvalid x (hev x hx)
    · exact hspace _ x hx
  · rw [append_assoc] at hx
    cases base with
    | nil => cases hpos
    | cons b base =>
      have hxb : b = x := by simpa using hx
      exact isSpace_of_isValidShortByte (hbv x (hxb ▸ mem_cons_self ..))
  · rw [append_assoc, List.drop_left' (length_padded hb)]
    cases ext with
    | nil =>
      right
      intro x hx
      rw [(List.mem_replicate.mp hx).2]
      rfl
    | cons b ext =>
      left
      intro x hx
      have hxb : b = x := by simpa using hx
      exact isSpace_of_isValidShortByte (hev x (hxb ▸ mem_cons_self ..))

end Pack

theorem name83_of_pack (h : packShortName name = .ok b) : Name83 b := by
  obtain ⟨base, ext, rfl, hpos, hb, he, hbv, hev, -⟩ := packShortName_ok h
  exact name83_padded hpos hb he hbv hev

/-- The name, without its final dot if it has one. -/
def undotted (name : List Char) : List Char := if name.getLast? = some '.' then name.dropLast else name

theorem undotted_append (hdot : name.getLast? = some '.') : undotted name ++ ['.'] = name := by
  rw [undotted, if_pos hdot]
  exact List.dropLast_append_getLast? _ hdot

/-- A listed name does not end in a dot. -/
theorem Name83.getLast?_shortName (he : Name83 (e.take 11)) : (shortName e).getLast? ≠ some '.' := by
  rw [he.shortName_eq, joinName]
  have hnot : ∀ l : List Byte, (∀ x ∈ l, x ∈ e.take 11) → (l.map chr).getLast? ≠ some '.' := by
    intro l hl heq
    obtain ⟨x, hx, hx'⟩ := mem_map.mp (List.mem_of_getLast? heq)
    have hbyte := he.byte x (hl x hx)
    have := congrArg Char.toNat hx'
    rw [toNat_chr hbyte.2.1] at this
    exact hbyte.2.2.1 this
  split_ifs with hext
  · exact hnot _ fun x hx => mem_name_of_mem_base (mem_of_mem_strip hx)
  · intro heq
    rw [List.getLast?_append_of_ne_nil _ (List.cons_ne_nil _ _), List.getLast?_cons_of_ne_nil (by simpa using hext)] at heq
    refine hnot _ (fun x hx => ?_) heq
    have := mem_of_mem_strip hx
    rw [ext_eq_drop] at this
    exact mem_of_mem_drop this

theorem getLast?_upper (hdot : name.getLast? = some '.') : (name.map toAsciiUppercase).getLast? = some '.' := by
  rw [List.getLast?_map, hdot]
  rfl

section

variable (h : packShortName name = .ok b)
include h

theorem shortName_of_pack_undotted (he : e.take 11 = b) :
    shortName e = (undotted name).map toAsciiUppercase := by
  have h83 : Name83 (e.take 11) := he ▸ name83_of_pack h
  have hlast := h83.getLast?_shortName
  obtain ⟨base, ext, rfl, hpos, hb, hel, hbv, hev, hname⟩ := packShortName_ok h
  obtain ⟨hbase, hext⟩ := padded_fields hb he
  rw [h83.shortName_eq, hbase, hext, strip_pad fun x hx => isSpace_of_isValidShortByte (hbv x hx),
    strip_pad fun x hx => isSpace_of_isValidShortByte (hev x hx)] at hlast ⊢
  rcases hname with hname | ⟨hdot, hname, rfl⟩
  · rw [← hname] at hlast ⊢
    rw [undotted, if_neg fun hdot => hlast (getLast?_upper hdot)]
  · rw [undotted, if_pos hdot, List.map_dropLast, hname, List.dropLast_concat]
    rfl

theorem shortName_of_pack
    (hdot : name.getLast? ≠ some '.') (he : e.take 11 = b) : shortName e = name.map toAsciiUppercase := by
  rw [shortName_of_pack_undotted h he, undotted, if_neg hdot]

theorem eqIgnoreAsciiCase_shortName_iff (hdot : name.getLast? ≠ some '.')
    (he : Name83 (e.take 11)) : eqIgnoreAsciiCase (shortName e) name = true ↔ e.take 11 = b := by
  have hlen : b.length = 11 := (name83_of_pack h).length
  have hb : b.take 11 = b := List.take_of_length_le hlen.le
  rw [eqIgnoreAsciiCase_iff, he.map_toAsciiUppercase]
  constructor
  · intro heq
    rw [← shortName_of_pack h hdot hb] at heq
    rw [shortName_inj he (hb.symm ▸ name83_of_pack h) heq, hb]
  · exact shortName_of_pack h hdot

theorem take_eq_of_found
    (he : Name83 (e.take 11)) (hfound : eqIgnoreAsciiCase (shortName e) name = true) : e.take 11 = b := by
  by_cases hdot : name.getLast? = some '.'
  · rw [eqIgnoreAsciiCase_iff, he.map_toAsciiUppercase] at hfound
    exact absurd (hfound ▸ getLast?_upper hdot) he.getLast?_shortName
  · exact (eqIgnoreAsciiCase_shortName_iff h hdot he).mp hfound

theorem slash_notMem_of_pack : '/' ∉ name := by
  intro hmem
  obtain ⟨base, ext, -, -, -, -, hbv, hev, hname⟩ := packShortName_ok h
  have hslash : '/' ∈ name.map toAsciiUppercase := mem_map.mpr ⟨'/', hmem, rfl⟩
  have hnot : ∀ l : List Byte, (∀ x ∈ l, isValidShortByte x = true) → '/' ∉ l.map chr := by
    intro l hl hin
    obtain ⟨x, hx, hx'⟩ := mem_map.mp hin
    have hbounds := isValidShortByte_iff_bounds (hl x hx)
    have := congrArg Char.toNat hx'
    rw [toNat_chr hbounds.2.1] at this
    exact hbounds.2.2.2.1 this
  rcases hname with hname | ⟨-, hname, -⟩
  · rw [hname, joinName] at hslash
    split_ifs at hslash
    · exact hnot base hbv hslash
    · rcases mem_append.mp hslash with hin | hin
      · exact hnot base hbv hin
      · rcases mem_cons.mp hin with heq | hin
        · exact absurd heq (by decide)
        · exact hnot ext hev hin
  · rw [hname] at hslash
    rcases mem_append.mp hslash with hin | hin
    · exact hnot base hbv hin
    · exact absurd hin (by decide)

theorem ne_nil_of_pack : name ≠ [] := by
  rintro rfl
  cases h

end

end RustKernel.Drivers.Fat32
