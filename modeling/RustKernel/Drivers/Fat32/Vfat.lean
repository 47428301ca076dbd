import RustKernel.Drivers.Fat32.Directory

/-!
# Long names on disk

A long name of UCS-2 units is cut into parts of thirteen, each in a slot of its own with its number, in front of the
8.3 slot of the entry. The units of a slot stand at three places, and the last slot ends in a zero and padding, which
may fall into any of them. `parse_dir_entries` collects the parts, whatever their order, sorts them by number, and
starts afresh at every 8.3 slot and label.
-/

namespace RustKernel.Drivers.Fat32

open Lib Exec Ata
open List (nil_append mem_map map_map mem_cons_self take_add append_assoc singleton_append mem_singleton)

variable {w : ℕ} {bytes : List Byte} {text : List Char} {L : List (List Byte)} {o : Option DirEntry}

/-! ### Directories on disk -/

structure PaddedField (w : ℕ) (text : List Char) (bytes : List Byte) : Prop where
  ascii : ∀ c ∈ text, 0 < c.toNat ∧ c.toNat < 0x80
  head : ∀ c ∈ text.head?, isWhitespace c = false
  last : ∀ c ∈ text.getLast?, isWhitespace c = false
  padded : bytes = (text.map fun c => BitVec.ofNat 8 c.toNat) ++ List.replicate (w - text.length) 0x20#8

structure ShortSlot (base ext : List Char) (isDir : Bool) (size cluster : ℕ) (e : List Byte) : Prop where
  length : e.length = 32
  baseField : PaddedField 8 base (e.take 8)
  nonempty : base ≠ []
  extField : PaddedField 3 ext ((e.drop 8).take 3)
  notLong : attrs e ≠ 0x0F
  notLabel : ¬ IsLabel e
  dir : (attrs e).testBit 4 = isDir
  sizeField : le32 e 28 = size
  clusterField : 65536 * le16 e 20 + le16 e 26 = cluster

def lfnOffsets : List ℕ := [1, 3, 5, 7, 9, 14, 16, 18, 20, 22, 24, 28, 30]

def unitAt (long : List Char) (n : ℕ) : ℕ :=
  if h : n < long.length then long[n].toNat else if n = long.length then 0 else 0xFFFF

def slotCount (long : List Char) : ℕ := (long.length + 12) / 13

structure LongSlot (long : List Char) (i : ℕ) (e : List Byte) : Prop where
  length : e.length = 32
  number : first e = if i + 1 = slotCount long then 0x40 + (i + 1) else i + 1
  attr : attrs e = 0x0F
  units : ∀ j < 13, le16 e (lfnOffsets.getD j 0) = unitAt long (13 * i + j)

structure LongName (long : List Char) : Prop where
  pos : 0 < long.length
  le : long.length ≤ 255
  unit : ∀ c ∈ long, 0 < c.toNat ∧ c.toNat < 0xFFFF

def LongSlots (long : List Char) (L : List (List Byte)) : Prop :=
  ∃ slot : ℕ → List Byte, (∀ i < slotCount long, LongSlot long i (slot i)) ∧
    L.Perm ((List.range (slotCount long)).map slot)

def listed (name : List Char) (isDir : Bool) (size cluster : ℕ) : Option DirEntry :=
  if name = ['.'] ∨ name = ['.', '.'] then none else some { name, isDir, size, cluster }

inductive SlotGroup : List (List Byte) → Option DirEntry → Prop
  | short {base ext : List Char} {isDir : Bool} {size cluster : ℕ} {e : List Byte} :
      ShortSlot base ext isDir size cluster e → SlotGroup [e] (listed (joinName base ext) isDir size cluster)
  | long {long base ext : List Char} {isDir : Bool} {size cluster : ℕ} {L : List (List Byte)} {e : List Byte} :
      LongName long → LongSlots long L → ShortSlot base ext isDir size cluster e →
      SlotGroup (L ++ [e]) (listed long isDir size cluster)
  | deleted {L : List (List Byte)} : (∀ e ∈ L, e.length = 32 ∧ first e = 0xE5) → SlotGroup L none
  | label {e : List Byte} :
      e.length = 32 → first e ≠ 0 → first e ≠ 0xE5 → attrs e ≠ 0x0F → IsLabel e → SlotGroup [e] none

inductive DirImage : List Byte → List DirEntry → Prop
  | done {rest : List Byte} : rest.length < 32 ∨ first rest = 0 → DirImage rest []
  | group {L : List (List Byte)} {o : Option DirEntry} {raw : List Byte} {entries : List DirEntry} :
      SlotGroup L o → DirImage raw entries → DirImage (L.flatten ++ raw) (o.toList ++ entries)

/-! ### 8.3 names -/

theorem dropWhile_eq_self_of_head {α : Type} {p : α → Bool} {l : List α} (h : ∀ x ∈ l.head?, p x = false) :
    l.dropWhile p = l := by
  cases l with
  | nil => rfl
  | cons x l => rw [List.dropWhile_cons_of_neg (by rw [h x rfl]; exact Bool.false_ne_true)]

theorem trim_pad (hhead : ∀ c ∈ text.head?, isWhitespace c = false)
    (hlast : ∀ c ∈ text.getLast?, isWhitespace c = false) (n : ℕ) : trim (text ++ List.replicate n ' ') = text := by
  have hspaces : ∀ c ∈ List.replicate n ' ', isWhitespace c = true := fun c hc => by
    rw [List.eq_of_mem_replicate hc]
    rfl
  unfold trim
  cases text with
  | nil =>
    rw [nil_append, List.dropWhile_eq_nil_iff.mpr hspaces]
    rfl
  | cons x text =>
    have hfront : ((x :: text) ++ List.replicate n ' ').dropWhile isWhitespace = (x :: text) ++ List.replicate n ' ' :=
      dropWhile_eq_self_of_head hhead
    have hback : (x :: text).reverse.dropWhile isWhitespace = (x :: text).reverse :=
      dropWhile_eq_self_of_head fun c hc => hlast c (by rwa [List.head?_reverse] at hc)
    rw [hfront, List.reverse_append, List.reverse_replicate, List.dropWhile_append_of_pos hspaces, hback, List.reverse_reverse]

theorem PaddedField.trim_decode (h : PaddedField w text bytes)
    (d : List Char) : trim ((Utf8.decode bytes).getD d) = text := by
  have hascii : ∀ b ∈ bytes, b.toNat < 0x80 := by
    rw [h.padded]
    intro b hb
    rcases List.mem_append.1 hb with hb | hb
    · obtain ⟨c, hc, rfl⟩ := mem_map.1 hb
      have := h.ascii c hc
      rw [BitVec.toNat_ofNat]
      omega
    · rw [List.eq_of_mem_replicate hb]
      decide
  have hchar : (text.map fun c => BitVec.ofNat 8 c.toNat).map (fun b => Char.ofNat b.toNat) = text := by
    rw [map_map]
    refine (List.map_congr_left fun c hc => ?_).trans (List.map_id text)
    have := h.ascii c hc
    rw [Function.comp_apply, BitVec.toNat_ofNat, Nat.mod_eq_of_lt (by omega), Char.ofNat_toNat, id]
  have hpad : (List.replicate (w - text.length) 0x20#8).map (fun b => Char.ofNat b.toNat) =
      List.replicate (w - text.length) ' ' := List.map_replicate
  rw [Utf8.decode_ascii hascii, h.padded, List.map_append, hchar, hpad]
  exact trim_pad h.head h.last _

section Slots

variable {base ext long : List Char} {isDir : Bool} {size cluster : ℕ} {e : List Byte}
variable {i : ℕ} {α : Type} {L B : List (List Byte)}

theorem ShortSlot.shortName_eq (h : ShortSlot base ext isDir size cluster e) : shortName e = joinName base ext := by
  simp only [shortName, h.baseField.trim_decode, h.extField.trim_decode, joinName]

theorem ShortSlot.first_pos (h : ShortSlot base ext isDir size cluster e) : 0 < first e ∧ first e < 0x80 := by
  obtain ⟨c, text, rfl⟩ := List.exists_cons_of_ne_nil h.nonempty
  have hc := h.baseField.ascii c mem_cons_self
  have hhead : (e.take 8)[0]? = some (BitVec.ofNat 8 c.toNat) := by
    rw [h.baseField.padded]
    rfl
  rw [List.getElem?_take_of_lt (by decide)] at hhead
  rw [first, List.getD_eq_getElem?_getD, hhead, Option.getD_some, BitVec.toNat_ofNat]
  omega

theorem firstCluster_eq (e : List Byte) : firstCluster e = 65536 * le16 e 20 + le16 e 26 := by
  rw [firstCluster, ← Nat.shiftLeft_add_eq_or_of_lt (le16_lt e 26), Nat.shiftLeft_eq, Nat.mul_comm]

theorem testBit_four (n : ℕ) : n.testBit 4 = decide (n &&& 0x10 ≠ 0) := by
  have hand : n &&& 0x10 = (n.testBit 4).toNat * 2 ^ 4 := Nat.and_two_pow n 4
  rw [hand]
  cases n.testBit 4 <;> rfl

theorem ShortSlot.parseSlots_cons (h : ShortSlot base ext isDir size cluster e) (parts : List (ℕ × List Char))
    (B : List (List Byte)) :
    parseSlots parts (e :: B) = (listed (entryName parts e) isDir size cluster).toList ++ parseSlots [] B := by
  have hpos := h.first_pos
  rw [parseSlots, if_neg (by omega), if_neg (by omega), if_neg h.notLong, if_neg h.notLabel]
  unfold listed
  dsimp only
  split_ifs with hdot
  · rfl
  · rw [firstCluster_eq, h.clusterField, h.sizeField, ← testBit_four, h.dir]
    rfl

/-! ### Long names -/

theorem lfnChars_of_units (hunit : ∀ c ∈ long, 0 < c.toNat ∧ c.toNat < 0xFFFF) : ∀ {js : List ℕ} {n : ℕ},
    (∀ j < js.length, le16 e (js.getD j 0) = unitAt long (n + j)) → lfnChars e js = (long.drop n).take js.length
  | [], n, _ => by rfl
  | o :: js, n, h => by
    have hhead : le16 e o = unitAt long n := h 0 (by simp)
    have htail : ∀ j < js.length, le16 e (js.getD j 0) = unitAt long (n + 1 + j) := fun j hj => by
      rw [Nat.add_assoc, Nat.add_comm 1 j]
      exact h (j + 1) (by rw [List.length_cons]; omega)
    rw [lfnChars, hhead]
    by_cases hn : n < long.length
    · have hc := hunit long[n] (List.getElem_mem hn)
      have hunit' : unitAt long n = long[n].toNat := dif_pos hn
      rw [hunit', if_neg (by omega), Utf8.charOfCode_toNat, lfnChars_of_units hunit htail, List.drop_eq_getElem_cons hn,
        List.length_cons, List.take_succ_cons]
      rfl
    · have hend : unitAt long n = 0 ∨ unitAt long n = 0xFFFF := by
        rw [unitAt]
        split_ifs
        · exact .inl rfl
        · exact .inr rfl
      rw [if_pos hend, List.drop_eq_nil_of_le (by omega), List.take_nil]

theorem LongSlot.lfnPart_eq (h : LongSlot long i e) (hlong : LongName long) : lfnPart e = (long.drop (13 * i)).take 13 := by
  have hpart : ∀ js k, k + js.length ≤ 13 → (∀ j < js.length, js.getD j 0 = lfnOffsets.getD (k + j) 0) →
      lfnChars e js = ((long.drop (13 * i)).drop k).take js.length := fun js k hk hjs => by
    rw [List.drop_drop]
    refine lfnChars_of_units hlong.unit fun j hj => ?_
    rw [hjs j hj, h.units (k + j) (by omega), Nat.add_assoc]
  rw [lfnPart, hpart [1, 3, 5, 7, 9] 0 (by decide) (by decide), hpart [14, 16, 18, 20, 22, 24] 5 (by decide) (by decide),
    hpart [28, 30] 11 (by decide) (by decide)]
  generalize long.drop (13 * i) = l
  have h₁ : l.take 11 = l.take 5 ++ (l.drop 5).take 6 := show l.take (5 + 6) = _ from take_add
  have h₂ : l.take 13 = l.take 11 ++ (l.drop 11).take 2 := show l.take (11 + 2) = _ from take_add
  rw [h₂, h₁]
  rfl

theorem LongSlot.first_eq (h : LongSlot long i e) (hlong : LongName long) (hi : i < slotCount long) :
    first e &&& 0x3F = i + 1 ∧ first e ≠ 0 ∧ first e ≠ 0xE5 := by
  have hle := hlong.le
  unfold slotCount at hi
  have hmask : first e &&& 0x3F = first e % 64 := Nat.and_two_pow_sub_one_eq_mod (first e) 6
  rw [hmask, h.number]
  split_ifs <;> omega

theorem LongSlot.lfnOf_eq (h : LongSlot long i e) (hlong : LongName long) (hi : i < slotCount long) :
    lfnOf e = (i + 1, (long.drop (13 * i)).take 13) := by
  rw [lfnOf, (h.first_eq hlong hi).1, h.lfnPart_eq hlong]

theorem flatten_parts (n : ℕ) (l : List α) : ∀ k, (((List.range k).map fun i => (l.drop (n * i)).take n).flatten) =
    l.take (n * k)
  | 0 => by simp
  | k + 1 => by
    rw [List.range_succ, List.map_append, List.flatten_append, flatten_parts n l k, Nat.mul_succ, take_add]
    simp

theorem mergeSort_numbered {f : ℕ → α} {k : ℕ} {l : List (ℕ × α)} (h : l.Perm ((List.range k).map fun i => (i + 1, f i))) :
    (l.mergeSort fun a b => a.1 ≤ b.1) = (List.range k).map fun i => (i + 1, f i) := by
  have hsorted : (l.mergeSort fun a b => a.1 ≤ b.1).Pairwise fun a b => decide (a.1 ≤ b.1) = true := by
    refine List.pairwise_mergeSort (fun a b c hab hbc => ?_) (fun a b => ?_) l
    · simp only [decide_eq_true_eq] at hab hbc ⊢
      omega
    · simp only [Bool.or_eq_true, decide_eq_true_eq]
      omega
  have hrange : ((List.range k).map fun i => (i + 1, f i)).Pairwise fun a b => decide (a.1 ≤ b.1) = true := by
    rw [List.pairwise_map]
    refine List.pairwise_lt_range.imp fun hlt => ?_
    simp only [decide_eq_true_eq]
    omega
  have hperm := (List.mergeSort_perm l fun a b => a.1 ≤ b.1).trans h
  refine hperm.eq_of_pairwise (fun a b ha hb hab hba => ?_) hsorted hrange
  -- parts with one number are the same
  obtain ⟨i, -, rfl⟩ := mem_map.1 (hperm.mem_iff.1 ha)
  obtain ⟨j, -, rfl⟩ := mem_map.1 hb
  simp only [decide_eq_true_eq] at hab hba
  rw [show i = j by omega]

theorem entryName_of_longSlots (hlong : LongName long) (h : LongSlots long L) (e : List Byte) :
    entryName (L.map lfnOf) e = long := by
  obtain ⟨slot, hslot, hperm⟩ := h
  have hparts : (L.map lfnOf).Perm ((List.range (slotCount long)).map fun i => (i + 1, (long.drop (13 * i)).take 13)) := by
    have hmap := hperm.map lfnOf
    rw [map_map] at hmap
    refine hmap.trans (List.Perm.of_eq (List.map_congr_left fun i hi => ?_))
    have hi := List.mem_range.1 hi
    exact (hslot i hi).lfnOf_eq hlong hi
  have hpos := hlong.pos
  have hne : (L.map lfnOf).isEmpty = false := by
    rw [List.isEmpty_eq_false_iff, ← List.length_pos_iff, hparts.length_eq, List.length_map, List.length_range]
    unfold slotCount
    omega
  rw [entryName, hne, mergeSort_numbered hparts, map_map]
  exact (flatten_parts 13 long _).trans (List.take_of_length_le (by unfold slotCount; omega))

/-! ### Groups -/

theorem parseSlots_of_long : ∀ {L : List (List Byte)} {parts : List (ℕ × List Char)},
    (∀ x ∈ L, first x ≠ 0 ∧ first x ≠ 0xE5 ∧ attrs x = 0x0F) →
    parseSlots parts (L ++ B) = parseSlots (parts ++ L.map lfnOf) B
  | [], parts, _ => by rw [List.map_nil, List.append_nil, nil_append]
  | x :: L, parts, h => by
    obtain ⟨hzero, hdel, hlong⟩ := h x mem_cons_self
    rw [List.cons_append, parseSlots, if_neg hzero, if_neg hdel, if_pos hlong,
      parseSlots_of_long fun y hy => h y (List.mem_cons_of_mem _ hy), append_assoc]
    rfl

theorem parseSlots_of_deleted {parts : List (ℕ × List Char)} : ∀ {L : List (List Byte)},
    (∀ x ∈ L, first x = 0xE5) → parseSlots parts (L ++ B) = parseSlots parts B
  | [], _ => rfl
  | x :: L, h => by
    have hdel := h x mem_cons_self
    rw [List.cons_append, parseSlots, if_neg (by omega), if_pos hdel,
      parseSlots_of_deleted fun y hy => h y (List.mem_cons_of_mem _ hy)]

theorem LongSlots.slot (hlong : LongName long) (h : LongSlots long L) :
    ∀ x ∈ L, x.length = 32 ∧ first x ≠ 0 ∧ first x ≠ 0xE5 ∧ attrs x = 0x0F := by
  obtain ⟨slot, hslot, hperm⟩ := h
  intro x hx
  obtain ⟨i, hi, rfl⟩ := mem_map.1 (hperm.mem_iff.1 hx)
  have hi := List.mem_range.1 hi
  exact ⟨(hslot i hi).length, ((hslot i hi).first_eq hlong hi).2.1, ((hslot i hi).first_eq hlong hi).2.2, (hslot i hi).attr⟩

end Slots

theorem SlotGroup.parseSlots_eq (h : SlotGroup L o) (B : List (List Byte)) :
    parseSlots [] (L ++ B) = o.toList ++ parseSlots [] B := by
  cases h with
  | short h =>
    rw [singleton_append, h.parseSlots_cons, ← h.shortName_eq]
    rfl
  | long hlong hslots h =>
    rw [append_assoc, parseSlots_of_long fun x hx => (hslots.slot hlong x hx).2, nil_append,
      singleton_append, h.parseSlots_cons, entryName_of_longSlots hlong hslots]
  | deleted h => exact parseSlots_of_deleted fun x hx => (h x hx).2
  | label _ hzero hdel hlong hlabel =>
    rw [singleton_append, parseSlots, if_neg hzero, if_neg hdel, if_neg hlong, if_pos hlabel]
    rfl

theorem SlotGroup.length (h : SlotGroup L o) : ∀ x ∈ L, x.length = 32 := by
  cases h with
  | short h =>
    intro x hx
    rw [mem_singleton.1 hx]
    exact h.length
  | long hlong hslots h =>
    intro x hx
    rcases List.mem_append.1 hx with hx | hx
    · exact (hslots.slot hlong x hx).1
    · rw [mem_singleton.1 hx]
      exact h.length
  | deleted h => exact fun x hx => (h x hx).1
  | label hlen _ _ _ _ =>
    intro x hx
    rw [mem_singleton.1 hx]
    exact hlen

theorem slots_flatten_append {raw : List Byte} : ∀ {L : List (List Byte)}, (∀ x ∈ L, x.length = 32) →
    slots (L.flatten ++ raw) = L ++ slots raw
  | [], _ => rfl
  | x :: L, h => by
    have hx := h x mem_cons_self
    rw [List.flatten_cons, append_assoc, slots_append (m := 1) (by rw [hx]), slots_self hx,
      slots_flatten_append fun y hy => h y (List.mem_cons_of_mem _ hy)]
    rfl

theorem parseSlots_done {rest : List Byte} (h : rest.length < 32 ∨ first rest = 0) : parseSlots [] (slots rest) = [] := by
  by_cases hlen : rest.length < 32
  · have hnone : slots rest = [] := List.eq_nil_of_length_eq_zero (by rw [length_slots]; omega)
    rw [hnone]
    rfl
  · have hzero := h.resolve_left hlen
    have htake : (rest.take 32).length = 32 := by
      rw [List.length_take]
      omega
    have hfirst : first (rest.take 32) = first rest := by
      rw [first, first, List.getD_eq_getElem?_getD, List.getElem?_take_of_lt (by decide), List.getD_eq_getElem?_getD]
    rw [← List.take_append_drop 32 rest, slots_append (m := 1) (by rw [htake]), slots_self htake, singleton_append,
      parseSlots, if_pos (hfirst.trans hzero)]

/-- **`parse_dir_entries` returns the entries of the directory**, in order: each with its long name if it has one and
else with its 8.3 name, and with the flag, the size and the first cluster of its 8.3 slot. -/
theorem parseDirEntries_of_dirImage {raw : List Byte} {entries : List DirEntry} (h : DirImage raw entries) :
    parseDirEntries raw = entries := by
  unfold parseDirEntries
  induction h with
  | done h => exact parseSlots_done h
  | group hg _ ih => rw [slots_flatten_append hg.length, hg.parseSlots_eq, ih]

/-! ### A small directory -/

def slotBytes (long : List Char) (i : ℕ) : List Byte :=
  (List.range 32).map fun k =>
    if k = 0 then BitVec.ofNat 8 (if i + 1 = slotCount long then 0x40 + (i + 1) else i + 1)
    else if k = 11 then 0x0F#8
    else if k ∈ lfnOffsets then BitVec.ofNat 8 (unitAt long (13 * i + lfnOffsets.idxOf k))
    else if k - 1 ∈ lfnOffsets then BitVec.ofNat 8 (unitAt long (13 * i + lfnOffsets.idxOf (k - 1)) / 256)
    else 0#8

def shortSlot (c : Char) (attr : Byte) (cluster size : ℕ) : List Byte :=
  BitVec.ofNat 8 c.toNat :: List.replicate 10 0x20#8 ++ attr :: zeros 8 ++ le16Bytes (cluster / 65536) ++ zeros 4 ++
    le16Bytes cluster ++ le32Bytes size

def helloName : List Char := ['H', 'e', 'l', 'l', 'o', ' ', 'W', 'o', 'r', 'l', 'd', '.', 'm', 'd']

def helloImage : List Byte :=
  ([shortSlot 'V' 0x08 0 0].flatten ++ ([0xE5#8 :: (slotBytes helloName 0).drop 1].flatten ++
    (([slotBytes helloName 1, slotBytes helloName 0] ++ [shortSlot 'H' 0x20 5 700]).flatten ++
      ([shortSlot '.' 0x10 2 0].flatten ++ ([shortSlot 'D' 0x10 65540 0].flatten ++ zeros 64)))))

theorem slotBytes_helloName {i : ℕ} (hi : i < slotCount helloName) : LongSlot helloName i (slotBytes helloName i) := by
  have hall : ∀ i < slotCount helloName, (slotBytes helloName i).length = 32 ∧
      first (slotBytes helloName i) = (if i + 1 = slotCount helloName then 0x40 + (i + 1) else i + 1) ∧
      attrs (slotBytes helloName i) = 0x0F ∧
      ∀ j < 13, le16 (slotBytes helloName i) (lfnOffsets.getD j 0) = unitAt helloName (13 * i + j) := by decide +kernel
  obtain ⟨hlen, hnumber, hattr, hunits⟩ := hall i hi
  exact ⟨hlen, hnumber, hattr, hunits⟩

theorem shortSlot_field {c : Char} (hpos : 0 < c.toNat) (hc : c.toNat < 0x80) (hws : isWhitespace c = false)
    (hbytes : bytes = BitVec.ofNat 8 c.toNat :: List.replicate (w - 1) 0x20#8) : PaddedField w [c] bytes where
  ascii := fun x hx => by
    rw [mem_singleton.1 hx]
    exact ⟨hpos, hc⟩
  head := fun x hx => by
    obtain rfl : c = x := Option.some.inj hx
    exact hws
  last := fun x hx => by
    obtain rfl : c = x := Option.some.inj hx
    exact hws
  padded := hbytes

theorem emptyField (hbytes : bytes = List.replicate w 0x20#8) : PaddedField w [] bytes where
  ascii := fun _ hx => absurd hx List.not_mem_nil
  head := fun _ hx => nomatch hx
  last := fun _ hx => nomatch hx
  padded := hbytes

theorem parseDirEntries_helloImage : DirImage helloImage
      [{ name := helloName, isDir := false, size := 700, cluster := 5 },
        { name := ['D'], isDir := true, size := 0, cluster := 65540 }] ∧
    parseDirEntries helloImage = [{ name := helloName, isDir := false, size := 700, cluster := 5 },
      { name := ['D'], isDir := true, size := 0, cluster := 65540 }] := by
  have himage : DirImage helloImage [{ name := helloName, isDir := false, size := 700, cluster := 5 },
      { name := ['D'], isDir := true, size := 0, cluster := 65540 }] := by
    have hlong : LongName helloName := ⟨by decide, by decide, by simp [helloName]⟩
    have hslots : LongSlots helloName [slotBytes helloName 1, slotBytes helloName 0] :=
      ⟨slotBytes helloName, fun i hi => slotBytes_helloName hi, List.Perm.swap ..⟩
    have hH : ShortSlot ['H'] [] false 700 5 (shortSlot 'H' 0x20 5 700) :=
      ⟨by decide, shortSlot_field (by decide) (by decide) (by decide) (by decide), by decide, emptyField (by decide),
        by decide, by decide, by decide, by decide, by decide⟩
    have hdot : ShortSlot ['.'] [] true 0 2 (shortSlot '.' 0x10 2 0) :=
      ⟨by decide, shortSlot_field (by decide) (by decide) (by decide) (by decide), by decide, emptyField (by decide),
        by decide, by decide, by decide, by decide, by decide⟩
    have hD : ShortSlot ['D'] [] true 0 65540 (shortSlot 'D' 0x10 65540 0) :=
      ⟨by decide, shortSlot_field (by decide) (by decide) (by decide) (by decide), by decide, emptyField (by decide),
        by decide, by decide, by decide, by decide, by decide⟩
    exact .group (.label (by decide) (by decide) (by decide) (by decide) (by decide))
      (.group (.deleted (by decide +kernel)) (.group (.long hlong hslots hH) (.group (.short hdot)
        (.group (.short hD) (.done (.inr (by decide)))))))
  exact ⟨himage, parseDirEntries_of_dirImage himage⟩

end RustKernel.Drivers.Fat32
