import RustKernel.Drivers.Fat32.Chain
import RustKernel.Drivers.Fat32.Names

/-!
# The root directory

The root directory is the slots of the clusters of its chain, up to the first slot that
begins with `0x00`. `upsert_root_dir_entry` writes the new entry over one slot: a slot that
stores the name, or else a deleted or an unused one, in a new cluster if the chain has none.
-/

namespace RustKernel.Drivers.Fat32

open Lib Exec Ata
open List (append_assoc mem_cons_self mem_cons_of_mem cons_append mem_cons mem_append_right mem_append_left mem_append
  flatMap_singleton not_mem_nil)

variable {m : ℕ} {name : List Byte}

/-! ### Slots -/

theorem slots_append {a b : List Byte} (h : a.length = m * 32) : slots (a ++ b) = slots a ++ slots b := by
  have hlen : (a ++ b).length / (31 + 1) = m + b.length / (31 + 1) := by
    rw [List.length_append]
    omega
  have ha : a.length / (31 + 1) = m := by omega
  rw [slots, slots, chunks, chunks, hlen, ha, List.range_add, List.map_append, List.map_map]
  congr 1
  · refine List.map_congr_left fun i hi => ?_
    have hi := List.mem_range.mp hi
    rw [List.drop_append_of_le_length (by omega), List.take_append_of_le_length]
    rw [List.length_drop]
    omega
  · refine List.map_congr_left fun i _ => ?_
    have hoff : (m + i) * (31 + 1) = a.length + i * (31 + 1) := by omega
    rw [Function.comp_apply, hoff, ← List.drop_drop, List.drop_left]

theorem slots_self {x : List Byte} (h : x.length = 32) : slots x = [x] := by
  have hone : x.length / (31 + 1) = 1 := by omega
  rw [slots, chunks, hone]
  simp [List.take_of_length_le h.le]

theorem length_slots (buf : List Byte) : (slots buf).length = buf.length / 32 := by simp [slots, chunks]

theorem slots_splice {buf new : List Byte} {idx : ℕ} (hbuf : buf.length = m * 32) (hidx : idx < m) (hnew : new.length = 32) :
    ∃ A B, A.length = idx ∧ slots buf = A ++ (buf.drop (32 * idx)).take 32 :: B ∧
    slots (splice buf (32 * idx) new) = A ++ new :: B := by
  have hP : (buf.take (32 * idx)).length = idx * 32 := by
    rw [List.length_take]
    omega
  have hX : ((buf.drop (32 * idx)).take 32).length = 32 := by
    rw [List.length_take, List.length_drop]
    omega
  have hcut : buf = buf.take (32 * idx) ++ ((buf.drop (32 * idx)).take 32 ++ buf.drop (32 * idx + 32)) := by
    rw [← List.drop_drop, List.take_append_drop, List.take_append_drop]
  refine ⟨slots (buf.take (32 * idx)), slots (buf.drop (32 * idx + 32)), ?_, ?_, ?_⟩
  · rw [length_slots, hP, Nat.mul_div_cancel _ (by decide)]
  · conv_lhs => rw [hcut]
    rw [slots_append hP, slots_append (m := 1) (by rw [hX]), slots_self hX]
    rfl
  · rw [splice, hnew, append_assoc, slots_append hP, slots_append (m := 1) (by rw [hnew]), slots_self hnew]
    rfl

theorem slots_flatMap {f : ℕ → List Byte} : ∀ {cs : List ℕ}, (∀ c ∈ cs, (f c).length = m * 32) →
    slots (cs.flatMap f) = cs.flatMap fun c => slots (f c)
  | [], _ => by
    rw [List.flatMap_nil]
    rfl
  | c :: cs, h => by
    rw [List.flatMap_cons, List.flatMap_cons, slots_append (h c (mem_cons_self ..)),
      slots_flatMap fun x hx => h x (mem_cons_of_mem _ hx)]

theorem first_of_mem_slots_zeros {n : ℕ} {e : List Byte} (h : e ∈ slots (zeros n)) : first e = 0 := by
  obtain ⟨i, -, rfl⟩ := List.mem_map.mp h
  rw [zeros, List.drop_replicate, List.take_replicate, first, List.getD_eq_getElem?_getD, List.getElem?_replicate]
  split_ifs <;> rfl

/-! ### Listing -/

def live (L : List (List Byte)) : List (List Byte) := L.takeWhile fun e => decide (first e ≠ 0)

def slotEntry (e : List Byte) : Option DirEntry :=
  if first e = 0xE5 ∨ attrs e = 0x0F ∨ IsLabel e ∨ shortName e = ['.'] ∨ shortName e = ['.', '.'] then none
  else some { name := shortName e, isDir := decide (attrs e &&& 0x10 ≠ 0), size := le32 e 28,
              cluster := firstCluster e }

theorem parseSlots_eq : ∀ {L : List (List Byte)}, (∀ e ∈ live L, first e ≠ 0xE5 → attrs e ≠ 0x0F) →
    parseSlots [] L = (live L).filterMap slotEntry
  | [], _ => rfl
  | e :: L, h => by
    by_cases hzero : first e = 0
    · rw [parseSlots, if_pos hzero, live, List.takeWhile_cons_of_neg (by simp [hzero])]
      rfl
    · have hlive : live (e :: L) = e :: live L := by
        rw [live, List.takeWhile_cons_of_pos (by simp [hzero])]
        rfl
      rw [hlive] at h ⊢
      have ih := parseSlots_eq fun x hx => h x (mem_cons_of_mem _ hx)
      have hlfn := h e (mem_cons_self ..)
      rw [parseSlots, if_neg hzero, List.filterMap_cons]
      by_cases hdel : first e = 0xE5
      · rw [if_pos hdel, ih, slotEntry, if_pos (.inl hdel)]
      · rw [if_neg hdel, if_neg (hlfn hdel)]
        by_cases hlabel : IsLabel e
        · rw [if_pos hlabel, ih, slotEntry, if_pos (.inr (.inr (.inl hlabel)))]
        · have hname : entryName [] e = shortName e := rfl
          rw [if_neg hlabel, hname]
          by_cases hdots : shortName e = ['.'] ∨ shortName e = ['.', '.']
          · have hentry : slotEntry e = none := if_pos (.inr (.inr (.inr hdots)))
            simp only [hentry, if_pos hdots, ih]
          · have hentry : slotEntry e = some _ := if_neg (by have := hlfn hdel; tauto)
            simp only [hentry, if_neg hdots, ih]

def lfnOf (e : List Byte) : ℕ × List Char := (first e &&& 0x3F, lfnPart e)

def lfnAfter (lfn : List (ℕ × List Char)) (e : List Byte) : List (ℕ × List Char) :=
  if first e = 0xE5 then lfn else if attrs e = 0x0F then lfn ++ [lfnOf e] else []

theorem parseSlots_append {B : List (List Byte)} : ∀ {A : List (List Byte)} {lfn : List (ℕ × List Char)},
    (∀ e ∈ A, first e ≠ 0) → parseSlots lfn (A ++ B) = parseSlots lfn A ++ parseSlots (A.foldl lfnAfter lfn) B
  | [], _, _ => rfl
  | e :: A, lfn, h => by
    have ih : ∀ lfn, parseSlots lfn (A ++ B) = parseSlots lfn A ++ parseSlots (A.foldl lfnAfter lfn) B := fun _ =>
      parseSlots_append fun x hx => h x (mem_cons_of_mem _ hx)
    have hzero := h e (mem_cons_self ..)
    rw [cons_append, parseSlots, parseSlots, if_neg hzero, if_neg hzero, List.foldl_cons, lfnAfter]
    by_cases hdel : first e = 0xE5
    · rw [if_pos hdel, if_pos hdel, if_pos hdel, ih]
    rw [if_neg hdel, if_neg hdel, if_neg hdel]
    by_cases hlfn : attrs e = 0x0F
    · rw [if_pos hlfn, if_pos hlfn, if_pos hlfn, ih]
      rfl
    rw [if_neg hlfn, if_neg hlfn, if_neg hlfn]
    by_cases hlabel : IsLabel e
    · rw [if_pos hlabel, if_pos hlabel, ih]
    rw [if_neg hlabel, if_neg hlabel]
    by_cases hdots : entryName lfn e = ['.'] ∨ entryName lfn e = ['.', '.']
    · simp only [if_pos hdots, ih]
    · simp only [if_neg hdots, ih, cons_append]

/-! ### Choosing a slot -/

def Stores (name e : List Byte) : Prop := first e ≠ 0 ∧ attrs e ≠ 0x0F ∧ first e ≠ 0xE5 ∧ e.take 11 = name

def Passed (name e : List Byte) : Prop := first e ≠ 0 ∧ ¬ Stores name e

def Vacant (e : List Byte) : Prop := first e = 0 ∨ first e = 0xE5

theorem scanSlots_eq_some : ∀ {L : List (List Byte)} {idx i : ℕ} {chosen : Option ℕ} {r : Bool},
    scanSlots name L idx chosen = some (i, r) → (chosen = some i ∧ r = false) ∨
      ∃ A x B, L = A ++ x :: B ∧ i = idx + A.length ∧ (∀ e ∈ A, Passed name e) ∧
        (r = true ∧ Stores name x ∨ r = false ∧ Vacant x)
  | [], idx, i, chosen, r, h => by
    obtain ⟨j, hj, heq⟩ := Option.map_eq_some_iff.mp h
    cases heq
    exact .inl ⟨hj, rfl⟩
  | e :: L, idx, i, chosen, r, h => by
    -- what is found further on is found from here
    have hlater : Passed name e → (∃ A x B, L = A ++ x :: B ∧ i = idx + 1 + A.length ∧
        (∀ e ∈ A, Passed name e) ∧ (r = true ∧ Stores name x ∨ r = false ∧ Vacant x)) →
        ∃ A x B, e :: L = A ++ x :: B ∧ i = idx + A.length ∧ (∀ e ∈ A, Passed name e) ∧
          (r = true ∧ Stores name x ∨ r = false ∧ Vacant x) := by
      rintro he ⟨A, x, B, hL, hi, hA, hx⟩
      refine ⟨e :: A, x, B, by rw [hL]; rfl, by rw [List.length_cons]; omega, fun y hy => ?_, hx⟩
      rcases mem_cons.mp hy with rfl | hy
      · exact he
      · exact hA y hy
    rw [scanSlots] at h
    split_ifs at h with hzero hlfn hdel hname
    · cases h
      exact .inr ⟨[], e, L, rfl, rfl, fun y hy => (by cases hy), .inr ⟨rfl, .inl hzero⟩⟩
    · have he : Passed name e := ⟨hzero, fun hs => hs.2.1 hlfn⟩
      exact (scanSlots_eq_some h).imp id (hlater he)
    · have he : Passed name e := ⟨hzero, fun hs => hs.2.2.1 hdel⟩
      rcases scanSlots_eq_some h with ⟨hc, hr⟩ | hex
      · cases chosen with
        | some j => exact .inl ⟨hc, hr⟩
        | none =>
          cases hc
          exact .inr ⟨[], e, L, rfl, rfl, fun y hy => (by cases hy), .inr ⟨hr, .inr hdel⟩⟩
      · exact .inr (hlater he hex)
    · cases h
      exact .inr ⟨[], e, L, rfl, rfl, fun y hy => (by cases hy), .inl ⟨rfl, hzero, hlfn, hdel, hname⟩⟩
    · have he : Passed name e := ⟨hzero, fun hs => hname hs.2.2.2⟩
      exact (scanSlots_eq_some h).imp id (hlater he)

theorem scanSlots_some {L : List (List Byte)} {i : ℕ} {r : Bool} (h : scanSlots name L 0 none = some (i, r)) :
    ∃ A x B, L = A ++ x :: B ∧ A.length = i ∧ (∀ e ∈ A, Passed name e) ∧ (r = true ∧ Stores name x ∨ r = false ∧ Vacant x) := by
  rcases scanSlots_eq_some h with ⟨hc, -⟩ | ⟨A, x, B, hL, hi, hA, hx⟩
  · cases hc
  · exact ⟨A, x, B, hL, by omega, hA, hx⟩

theorem scanSlots_none : ∀ {L : List (List Byte)} {idx : ℕ} {chosen : Option ℕ},
    scanSlots name L idx chosen = none → chosen = none ∧ ∀ e ∈ L, Passed name e
  | [], idx, chosen, h => ⟨Option.map_eq_none_iff.mp h, fun e he => (by cases he)⟩
  | e :: L, idx, chosen, h => by
    rw [scanSlots] at h
    split_ifs at h with hzero hlfn hdel hname
    · obtain ⟨hc, hall⟩ := scanSlots_none h
      refine ⟨hc, fun y hy => ?_⟩
      rcases mem_cons.mp hy with rfl | hy
      · exact ⟨hzero, fun hs => hs.2.1 hlfn⟩
      · exact hall y hy
    · obtain ⟨hc, -⟩ := scanSlots_none h
      cases chosen <;> cases hc
    · obtain ⟨hc, hall⟩ := scanSlots_none h
      refine ⟨hc, fun y hy => ?_⟩
      rcases mem_cons.mp hy with rfl | hy
      · exact ⟨hzero, fun hs => hname hs.2.2.2⟩
      · exact hall y hy

theorem scanSlots_vacant : ∀ {L : List (List Byte)} {idx i : ℕ} {chosen : Option ℕ},
    scanSlots name L idx chosen = some (i, false) → (chosen = none → ∃ x ∈ L, first x = 0 ∨ first x = 0xE5 ∧ attrs x ≠ 0x0F) ∧
      ∀ A e B, L = A ++ e :: B → Stores name e → ∃ x ∈ A, first x = 0
  | [], idx, i, chosen, h => by
    refine ⟨fun hc => ?_, fun A e B hL => ?_⟩
    · rw [hc] at h
      cases h
    · exact absurd hL (by simp)
  | x :: L, idx, i, chosen, h => by
    -- what holds further on holds from here
    have hlater : ∀ {chosen}, scanSlots name L (idx + 1) chosen = some (i, false) → ¬ Stores name x →
        ∀ A e B, x :: L = A ++ e :: B → Stores name e → ∃ y ∈ A, first y = 0 := by
      intro chosen h hx A e B hL he
      cases A with
      | nil =>
        obtain ⟨rfl, -⟩ := List.cons.inj hL
        exact absurd he hx
      | cons a A =>
        obtain ⟨-, hL⟩ := List.cons.inj hL
        obtain ⟨y, hy, hzero⟩ := (scanSlots_vacant h).2 A e B hL he
        exact ⟨y, mem_cons_of_mem _ hy, hzero⟩
    have hthere : ∀ {chosen}, scanSlots name L (idx + 1) chosen = some (i, false) → chosen = none →
        ∃ y ∈ x :: L, first y = 0 ∨ first y = 0xE5 ∧ attrs y ≠ 0x0F := by
      intro chosen h hc
      obtain ⟨y, hy, htake⟩ := (scanSlots_vacant h).1 hc
      exact ⟨y, mem_cons_of_mem _ hy, htake⟩
    rw [scanSlots] at h
    split_ifs at h with hzero hlfn hdel hname
    · refine ⟨fun _ => ⟨x, mem_cons_self .., .inl hzero⟩, fun A e B hL he => ?_⟩
      cases A with
      | nil =>
        obtain ⟨rfl, -⟩ := List.cons.inj hL
        exact absurd hzero he.1
      | cons a A =>
        obtain ⟨rfl, -⟩ := List.cons.inj hL
        exact ⟨x, mem_cons_self .., hzero⟩
    · exact ⟨hthere h, hlater h fun hs => hs.2.1 hlfn⟩
    · exact ⟨fun _ => ⟨x, mem_cons_self .., .inr ⟨hdel, hlfn⟩⟩, hlater h fun hs => hs.2.2.1 hdel⟩
    · cases h
    · exact ⟨hthere h, hlater h fun hs => hname hs.2.2.2⟩

/-! ### Writing the entry -/

section Upsert

variable {fs : Fat32} {fault : ℕ → ℕ → Option String}
variable {s s' : ℕ → Sector} {cur : ℕ} {R : List ℕ} {x : List Byte} {A B : List (List Byte)} {name new : List Byte}
  {fr R' : List ℕ}

def chainSlots (fs : Fat32) (s : ℕ → Sector) (cs : List ℕ) : List (List Byte) :=
  cs.flatMap fun c => slots (fs.cluster s c)

theorem chainSlots_congr {cs : List ℕ} (h : ∀ c ∈ cs, fs.cluster s' c = fs.cluster s c) :
    chainSlots fs s' cs = chainSlots fs s cs := by
  have hmap : ∀ c ∈ cs, slots (fs.cluster s' c) = slots (fs.cluster s c) := fun c hc => by rw [h c hc]
  rw [chainSlots, chainSlots, List.flatMap_def, List.flatMap_def, List.map_congr_left hmap]

theorem length_cluster_eq (s : ℕ → Sector) (c : ℕ) : (fs.cluster s c).length = fs.bpb.sectorsPerCluster * 16 * 32 := by
  rw [length_cluster, clusterBytes, SECTOR_SIZE, Nat.mul_assoc]

theorem mem_chainSlots (hch : ChainOf fs s cur R) (hx : x ∈ slots (fs.cluster s cur)) : x ∈ chainSlots fs s R :=
  List.mem_flatMap.mpr ⟨cur, hch.head_mem, hx⟩

theorem slot_lt (h : slots (fs.cluster s cur) = A ++ x :: B) : A.length < fs.bpb.sectorsPerCluster * 16 := by
  have hcount := congrArg List.length h
  rw [length_slots, length_cluster_eq, Nat.mul_div_cancel _ (by decide), List.length_append, List.length_cons] at hcount
  omega

theorem slot_eq (h : slots (fs.cluster s cur) = A ++ x :: B) : ((fs.cluster s cur).drop (32 * A.length)).take 32 = x := by
  have hzeros : (zeros 32).length = 32 := List.length_replicate
  obtain ⟨A', B', hA, hslots, -⟩ := slots_splice (length_cluster_eq s cur) (slot_lt h) hzeros
  obtain ⟨-, hcons⟩ := List.append_inj (h.symm.trans hslots) hA.symm
  exact (List.cons.inj hcons).1.symm

structure Upserted (fs : Fat32) (name new : List Byte) (s s' : ℕ → Sector) (cur : ℕ) (R R' : List ℕ)
    (A : List (List Byte)) (x : List Byte) (B : List (List Byte)) (fr : List ℕ) : Prop where
  chain : ChainOf fs s' cur R'
  before : R' = R ∧ chainSlots fs s R = A ++ x :: B ∨
    ∃ n, R' = R ++ [n] ∧ 2 ≤ n ∧ n < fs.numClusters ∧ fs.fat s n = 0 ∧
      chainSlots fs s R = A ∧ first x = 0 ∧ ∀ e ∈ B, first e = 0
  after : chainSlots fs s' R' = A ++ new :: B
  passed : ∀ e ∈ A, Passed name e
  chosen : Vacant x ∧ fr = [] ∨
    Stores name x ∧ (firstCluster x < 2 ∧ fr = [] ∨ ChainOf fs s (firstCluster x) fr)
  fat : ∀ y < fs.numClusters, y ∉ R' → fs.fat s' y = if y ∈ fr then 0 else fs.fat s y
  cluster : ∀ y, 2 ≤ y → y ∉ R' → fs.cluster s' y = fs.cluster s y
  mirror : Mirrored fs s → Mirrored fs s'

def OwnChains (fs : Fat32) (name : List Byte) (s : ℕ → Sector) (R U : List ℕ) : Prop :=
  ∀ e ∈ chainSlots fs s R, Stores name e →
    ∃ fr, (firstCluster e < 2 ∧ fr = [] ∨ ChainOf fs s (firstCluster e) fr) ∧ ∀ y ∈ fr, y ∉ U

structure Reached (fs : Fat32) (name : List Byte) (s : ℕ → Sector) (R : List ℕ) : Prop where
  unused : ∀ A e B, chainSlots fs s R = A ++ e :: B → Stores name e → ∀ x ∈ A, first x ≠ 0
  deleted : ∀ R₁ R₂, R = R₁ ++ R₂ → (∃ e ∈ chainSlots fs s R₂, Stores name e) →
    ∀ x ∈ chainSlots fs s R₁, first x = 0xE5 → attrs x = 0x0F

theorem chainSlots_cons (fs : Fat32) (s : ℕ → Sector) (c : ℕ) (R : List ℕ) :
    chainSlots fs s (c :: R) = slots (fs.cluster s c) ++ chainSlots fs s R := rfl

theorem Reached.tail {c : ℕ} (h : Reached fs name s (c :: R)) : Reached fs name s R := by
  refine ⟨fun A e B hS he x hx => ?_, fun R₁ R₂ hR he x hx => ?_⟩
  · refine h.unused (slots (fs.cluster s c) ++ A) e B ?_ he x (mem_append_right _ hx)
    rw [chainSlots_cons, hS, append_assoc]
  · refine h.deleted (c :: R₁) R₂ (by rw [hR]; rfl) he x ?_
    exact mem_append_right _ hx

theorem Reached.congr (h : Reached fs name s R) (heq : ∀ c ∈ R, fs.cluster s' c = fs.cluster s c) : Reached fs name s' R := by
  refine ⟨fun A e B hS => h.unused A e B (chainSlots_congr heq ▸ hS), fun R₁ R₂ hR => ?_⟩
  have h₁ : chainSlots fs s' R₁ = chainSlots fs s R₁ := chainSlots_congr fun c hc => heq c (hR ▸ mem_append_left _ hc)
  have h₂ : chainSlots fs s' R₂ = chainSlots fs s R₂ := chainSlots_congr fun c hc => heq c (hR ▸ mem_append_right _ hc)
  rw [h₁, h₂]
  exact h.deleted R₁ R₂ hR

theorem Reached.not_stores {c i : ℕ} (h : Reached fs name s (c :: R))
    (hscan : scanSlots name (slots (fs.cluster s c)) 0 none = some (i, false)) :
    ∀ e ∈ chainSlots fs s (c :: R), ¬ Stores name e := by
  obtain ⟨hfree, hhere⟩ := scanSlots_vacant hscan
  intro e he hs
  rw [chainSlots_cons] at he
  rcases mem_append.mp he with he | he
  · obtain ⟨A, B, hL⟩ := List.append_of_mem he
    obtain ⟨x, hx, hzero⟩ := hhere A e B hL hs
    refine h.unused A e (B ++ chainSlots fs s R) ?_ hs x hx hzero
    rw [chainSlots_cons, hL, append_assoc, cons_append]
  · obtain ⟨x, hx, htake⟩ := hfree rfl
    rcases htake with hzero | ⟨hdel, hlfn⟩
    · obtain ⟨A, B, hL⟩ := List.append_of_mem he
      refine h.unused (slots (fs.cluster s c) ++ A) e B ?_ hs x (mem_append_left _ hx) hzero
      rw [chainSlots_cons, hL, append_assoc]
    · refine hlfn (h.deleted [c] R rfl ⟨e, he, hs⟩ x ?_ hdel)
      exact mem_append_left _ hx

structure SlotWritten (fs : Fat32) (new : List Byte) (s s' : ℕ → Sector) (cur : ℕ) (R : List ℕ)
    (A : List (List Byte)) (x : List Byte) (B : List (List Byte)) (fr : List ℕ) : Prop where
  chain : ChainOf fs s' cur R
  before : chainSlots fs s R = A ++ x :: B
  after : chainSlots fs s' R = A ++ new :: B
  fat : ∀ y < fs.numClusters, fs.fat s' y = if y ∈ fr then 0 else fs.fat s y
  cluster : ∀ y, 2 ≤ y → y ∉ R → fs.cluster s' y = fs.cluster s y
  mirror : Mirrored fs s → Mirrored fs s'

theorem runs_writeSlot (g : fs.Geometry fault) {s₁ : ℕ → Sector} {A₀ B₀ : List (List Byte)} (hch : ChainOf fs s cur R)
    (hslots : slots (fs.cluster s cur) = A₀ ++ x :: B₀) (hnew : new.length = 32) (hapart : ∀ y ∈ fr, y ∉ R)
    (hfree : Cleared fs s s₁ fr) : ∃ s' B,
    Runs fault (Ata.write (fs.lbaOf cur) fs.bpb.sectorsPerCluster (splice (fs.cluster s cur) (32 * A₀.length) new)) s₁ () s' ∧
    SlotWritten fs new s s' cur R A₀ x B fr := by
  have hN := g.numClusters_lt
  obtain ⟨hfat₁, hcl₁, hmir₁⟩ := hfree.volume g
  obtain ⟨h2, hc⟩ := hch.head_range
  have hidx := slot_lt hslots
  obtain ⟨A, B, hA, hbefore, hafter⟩ := slots_splice (length_cluster_eq s cur) hidx hnew
  -- the slot written is the slot `x`
  obtain ⟨rfl, hcons⟩ := List.append_inj (hslots.symm.trans hbefore) hA.symm
  obtain ⟨hslot, rfl⟩ := List.cons.inj hcons
  rw [← hslot] at hbefore
  -- the rest of the directory
  obtain ⟨R₂, hR⟩ := hch.eq_cons
  have hcur : cur ∉ R₂ := by
    have hnd := hch.nodup (by omega)
    rw [hR] at hnd
    exact (List.nodup_cons.mp hnd).1
  have hlenw : (splice (fs.cluster s cur) (32 * A₀.length) new).length = fs.clusterBytes := by
    rw [length_splice, length_cluster]
    rw [length_cluster_eq]
    omega
  obtain ⟨s', hrun, hset⟩ := runs_writeAll g h2 hc hlenw s₁
  have hfat : ∀ y < fs.numClusters, fs.fat s' y = if y ∈ fr then 0 else fs.fat s y := fun y hy => by
    rw [hset.fat y hy, hfat₁ y hy]
  have hcl : ∀ y, 2 ≤ y → y ≠ cur → fs.cluster s' y = fs.cluster s y := fun y hy hne => by
    rw [hset.cluster y hy, if_neg hne, hcl₁]
  have hrest : chainSlots fs s' R₂ = chainSlots fs s R₂ := chainSlots_congr fun c hcR => by
    have hin : c ∈ R := hR ▸ mem_cons_of_mem _ hcR
    exact hcl c (hch.range c hin).1 fun heq => hcur (heq ▸ hcR)
  refine ⟨s', B₀ ++ chainSlots fs s R₂, hrun, ?_, ?_, ?_, hfat, ?_, fun hm => hset.mirror (hmir₁ hm)⟩
  · refine hch.congr fun y hy => ?_
    rw [hfat y (hch.range y hy).2, if_neg fun hin => hapart y hin hy]
  · rw [hR, chainSlots_cons, hbefore, append_assoc]
    rfl
  · rw [hR, chainSlots_cons, hrest, hset.cluster cur h2, if_pos rfl, hafter, append_assoc]
    rfl
  · exact fun y hy hnot => hcl y hy fun heq => hnot (heq ▸ hch.head_mem)

theorem post_upsertHere (g : fs.Geometry fault) {idx fuel k : ℕ}
    {U : List ℕ} {r : Bool} (hch : ChainOf fs s cur R) (hRU : ∀ y ∈ R, y ∈ U) (hown : OwnChains fs name s R U)
    (hnew : new.length = 32) (hscan : scanSlots name (slots (fs.cluster s cur)) 0 none = some (idx, r)) :
    Outcome.Post (fun _ d => ∃ s' k' A x B fr, d = ⟨s', k', fault⟩ ∧ (∀ y ∈ fr, y ∉ U) ∧
        Upserted fs name new s s' cur R R A x B fr ∧ (r = true → Stores name x)) (fun _ _ => False)
      ((do
        fs.freeReplaced fuel r (((fs.cluster s cur).drop (32 * idx)).take 32)
        Ata.write (fs.lbaOf cur) fs.bpb.sectorsPerCluster (splice (fs.cluster s cur) (32 * idx) new) :
          Exec String Disk Unit) ⟨s, k, fault⟩) := by
  obtain ⟨A, x, B₀, hslots, rfl, hpassed, hx⟩ := scanSlots_some hscan
  rw [slot_eq hslots]
  have hmem : x ∈ chainSlots fs s R := mem_chainSlots hch (by rw [hslots]; simp)
  -- the chain of the entry replaced
  obtain ⟨fr, hfr, hdisj⟩ : ∃ fr, (r = false ∧ Vacant x ∧ fr = [] ∨ r = true ∧ Stores name x ∧
      (firstCluster x < 2 ∧ fr = [] ∨ ChainOf fs s (firstCluster x) fr)) ∧ ∀ y ∈ fr, y ∉ U := by
    rcases hx with ⟨hr, hs⟩ | ⟨hr, hv⟩
    · obtain ⟨fr, hfr, hdisj⟩ := hown x hmem hs
      exact ⟨fr, .inr ⟨hr, hs, hfr⟩, hdisj⟩
    · exact ⟨[], .inl ⟨hr, hv, rfl⟩, fun y hy => (by cases hy)⟩
  have hfree : (fs.freeReplaced fuel r x ⟨s, k, fault⟩).Post
      (fun _ d => ∃ s₁ k₁, d = ⟨s₁, k₁, fault⟩ ∧ Cleared fs s s₁ fr) (fun _ _ => False) := by
    rcases hfr with ⟨rfl, -, rfl⟩ | ⟨rfl, -, hfr⟩
    · exact ⟨s, k, rfl, .nil⟩
    · exact post_freeChain g hfr
  refine post_bind hfree ?_
  rintro _ _ ⟨s₁, k₁, rfl, hcleared⟩
  obtain ⟨s', B, hrun, hw⟩ := runs_writeSlot g hch hslots hnew (fun y hy hin => hdisj y hy (hRU y hin)) hcleared
  refine hrun.post fun k' => ⟨s', k', A, x, B, fr, rfl, hdisj, ⟨hw.chain, .inl ⟨rfl, hw.before⟩, hw.after, hpassed, ?_,
    fun y hy _ => hw.fat y hy, hw.cluster, hw.mirror⟩, fun hr => ?_⟩
  · rcases hfr with ⟨-, hv, rfl⟩ | ⟨-, hs, hfr⟩
    · exact .inl ⟨hv, rfl⟩
    · exact .inr ⟨hs, hfr⟩
  · rcases hx with ⟨-, hs⟩ | ⟨hr', -⟩
    · exact hs
    · cases hr'.symm.trans hr

theorem Upserted.notMem {y : ℕ} (h : Upserted fs name new s s' cur R R' A x B fr) (hy : y ∉ R)
    (hused : fs.fat s y ≠ 0) : y ∉ R' := by
  rcases h.before with ⟨rfl, -⟩ | ⟨n, rfl, -, -, hzero, -⟩
  · exact hy
  · intro hin
    rcases mem_append.mp hin with hin | hin
    · exact hy hin
    · exact hused (List.mem_singleton.mp hin ▸ hzero)

theorem Upserted.cons (h : Upserted fs name new s s' (fs.fat s cur) R R' A x B fr) (hch : ChainOf fs s cur (cur :: R))
    (hnd : cur ∉ R) (hfr : cur ∉ fr) (hpassed : ∀ e ∈ slots (fs.cluster s cur), Passed name e) :
    Upserted fs name new s s' cur (cur :: R) (cur :: R') (slots (fs.cluster s cur) ++ A) x B fr := by
  obtain ⟨h2, hc⟩ := hch.head_range
  have hcur : cur ∉ R' := h.notMem hnd (hch.fat_ne_zero cur (mem_cons_self ..))
  have hfat : fs.fat s' cur = fs.fat s cur := by rw [h.fat cur hc hcur, if_neg hfr]
  have hcl : fs.cluster s' cur = fs.cluster s cur := h.cluster cur h2 hcur
  refine ⟨.next h2 hc (hfat.symm ▸ h.chain), ?_, ?_, fun e he => ?_, h.chosen, fun y hy hnot => ?_,
    fun y hy hnot => ?_, h.mirror⟩
  · rcases h.before with ⟨rfl, hA⟩ | ⟨n, rfl, hn2, hnN, hzero, hA, hx⟩
    · exact .inl ⟨rfl, by rw [chainSlots_cons, hA, append_assoc]⟩
    · exact .inr ⟨n, rfl, hn2, hnN, hzero, by rw [chainSlots_cons, hA], hx⟩
  · rw [chainSlots_cons, hcl, h.after, append_assoc]
  · rcases mem_append.mp he with he | he
    · exact hpassed e he
    · exact h.passed e he
  · exact h.fat y hy fun hin => hnot (mem_cons_of_mem _ hin)
  · exact h.cluster y hy fun hin => hnot (mem_cons_of_mem _ hin)

theorem length_slots_zeros_pos (g : fs.Geometry fault) : 0 < (slots (zeros fs.clusterBytes)).length := by
  have := g.spc_pos
  rw [length_slots, zeros, List.length_replicate, clusterBytes, SECTOR_SIZE]
  omega

theorem Upserted.grow {s₁ s₂ s₃ : ℕ → Sector} {n : ℕ} (g : fs.Geometry fault) (hch : ChainOf fs s cur [cur]) (hn2 : 2 ≤ n)
    (hnN : n < fs.numClusters) (hzero : fs.fat s n = 0) (h₁ : EntrySet fs s s₁ n 0x0FFFFFFF) (h₂ : EntrySet fs s₁ s₂ cur n)
    (h₃ : ClusterSet fs s₂ s₃ n (zeros fs.clusterBytes)) (h : Upserted fs name new s₃ s' n [n] R' A x B fr)
    (hpassed : ∀ e ∈ slots (fs.cluster s cur), Passed name e) :
    fr = [] ∧ Upserted fs name new s s' cur [cur] [cur, n] (slots (fs.cluster s cur)) x B fr := by
  have hN := g.numClusters_lt
  obtain ⟨h2, hc⟩ := hch.head_range
  have hne : cur ≠ n := fun heq => hch.fat_ne_zero cur (List.mem_singleton_self _) (heq ▸ hzero)
  have hempty : chainSlots fs s₃ [n] = slots (zeros fs.clusterBytes) := by
    rw [chainSlots, flatMap_singleton, h₃.cluster n hn2, if_pos rfl]
  have hunused : ∀ e ∈ chainSlots fs s₃ [n], first e = 0 := fun e he => first_of_mem_slots_zeros (hempty ▸ he)
  -- every slot of the new cluster is unused, so the first one is chosen
  have hA : A = [] := by
    refine List.eq_nil_iff_forall_not_mem.mpr fun e he => (h.passed e he).1 (hunused e ?_)
    rcases h.before with ⟨-, hA⟩ | ⟨m, -, -, -, -, hA, -⟩
    · rw [hA]
      exact mem_append_left _ he
    · rwa [hA]
  subst hA
  obtain ⟨rfl, hslots⟩ : R' = [n] ∧ chainSlots fs s₃ [n] = x :: B := by
    rcases h.before with ⟨hR, hA⟩ | ⟨m, -, -, -, -, hA, -⟩
    · exact ⟨hR, hA⟩
    · have hpos := length_slots_zeros_pos g
      rw [← hempty, hA] at hpos
      cases hpos
  have hx : first x = 0 := hunused x (hslots ▸ mem_cons_self ..)
  have hfr : fr = [] := by
    rcases h.chosen with ⟨-, hfr⟩ | ⟨hs, -⟩
    · exact hfr
    · exact absurd hx hs.1
  have hfat : ∀ y < fs.numClusters, y ≠ n → fs.fat s' y = if y = cur then n % 2 ^ 28 else fs.fat s y := by
    intro y hy hyn
    rw [h.fat y hy (by simpa using hyn), hfr, if_neg (not_mem_nil), h₃.fat y hy, h₂.fat y hy, h₁.fat y hy, if_neg hyn]
  have hcl : ∀ y, 2 ≤ y → y ≠ n → fs.cluster s' y = fs.cluster s y := by
    intro y hy hyn
    rw [h.cluster y hy (by simpa using hyn), h₃.cluster y hy, if_neg hyn, h₂.cluster, h₁.cluster]
  have hlink : fs.fat s' cur = n := by
    rw [hfat cur hc hne, if_pos rfl]
    exact Nat.mod_eq_of_lt (by omega)
  refine ⟨hfr, .next h2 hc (hlink.symm ▸ h.chain), .inr ⟨n, rfl, hn2, hnN, hzero, ?_, hx, fun e he => ?_⟩, ?_,
    hpassed, .inl ⟨.inl hx, hfr⟩, fun y hy hnot => ?_, fun y hy hnot => ?_,
    fun hm => h.mirror (h₃.mirror (h₂.mirror (h₁.mirror hm)))⟩
  · rw [chainSlots, flatMap_singleton]
  · exact hunused e (hslots ▸ mem_cons_of_mem _ he)
  · rw [chainSlots_cons, hcl cur h2 hne, h.after]
    rfl
  · simp only [mem_cons, not_mem_nil, or_false, not_or] at hnot
    rw [hfat y hy hnot.2, if_neg hnot.1, hfr, if_neg not_mem_nil]
  · simp only [mem_cons, not_mem_nil, or_false, not_or] at hnot
    exact hcl y hy hnot.2

theorem post_upsertLoop (g : fs.Geometry fault) {first size : ℕ}
    (hnew : (newEntry name first size).length = 32) :
    ∀ {fuel cur k : ℕ} {s : ℕ → Sector} {R U : List ℕ}, ChainOf fs s cur R → (∀ y ∈ R, y ∈ U) → OwnChains fs name s R U →
      (fs.upsertLoop name first size fuel cur ⟨s, k, fault⟩).Post
        (fun _ d => ∃ s' k' R' A x B fr, d = ⟨s', k', fault⟩ ∧ (∀ y ∈ fr, y ∉ U) ∧
          Upserted fs name (newEntry name first size) s s' cur R R' A x B fr ∧
          (Reached fs name s R → (∃ e ∈ chainSlots fs s R, Stores name e) → Stores name x))
        (fun _ d => (∃ k', d = ⟨s, k', fault⟩) ∧ ∀ x ∈ chainSlots fs s R, Passed name x) := by
  have hN := g.numClusters_lt
  intro fuel
  induction fuel with
  | zero => intro cur k s R U _ _ _; trivial
  | succ fuel ih =>
    intro cur k s R U hch hRU hown
    obtain ⟨h2, hc⟩ := hch.head_range
    unfold upsertLoop
    rw [g.clusterToLba_eq h2 hc]
    refine Runs.pure.post_bind fun k₁ => (runs_readAll g h2 hc).post_bind fun k₂ => ?_
    cases hscan : scanSlots name (slots (fs.cluster s cur)) 0 none with
    | some p =>
      obtain ⟨idx, r⟩ := p
      refine (post_upsertHere g hch hRU hown hnew hscan).imp (fun _ d h => ?_) fun _ _ h => h.elim
      obtain ⟨s', k', A, x, B, fr, hd, hapart, hup, hstores⟩ := h
      refine ⟨s', k', R, A, x, B, fr, hd, hapart, hup, fun hreach ⟨e, he, hs⟩ => ?_⟩
      cases r with
      | true => exact hstores rfl
      | false =>
        obtain ⟨R₂, rfl⟩ := hch.eq_cons
        exact absurd hs (hreach.not_stores hscan e he)
    | none =>
      obtain ⟨-, hpassed⟩ := scanSlots_none hscan
      refine (runs_nextCluster g hc).post_bind fun k₃ => ?_
      have hnd := hch.nodup (by omega)
      cases hch with
      | next _ _ htail =>
        have hrange := htail.head_range
        rw [link_eq_some hrange.1 (by omega)]
        refine (ih htail (fun y hy => hRU y (mem_cons_of_mem _ hy))
          (fun e he => hown e (mem_append_right _ he))).imp (fun _ d h => ?_) fun _ d h => ⟨h.1, fun x hx => ?_⟩
        · obtain ⟨s', k', R', A, x, B, fr, hd, hapart, hup, hstores⟩ := h
          have hcons := hup.cons (.next h2 hc htail) (List.nodup_cons.mp hnd).1
            (fun hin => hapart cur hin (hRU cur (mem_cons_self ..))) hpassed
          refine ⟨s', k', _, _, x, B, fr, hd, hapart, hcons, fun hreach ⟨e, he, hs⟩ => hstores hreach.tail ?_⟩
          rcases mem_append.mp he with he | he
          · exact absurd hs (hpassed e he).2
          · exact ⟨e, he, hs⟩
        · rcases mem_append.mp hx with hx | hx
          · exact hpassed x hx
          · exact h.2 x hx
      | last _ _ heoc =>
        have hall : ∀ x ∈ chainSlots fs s [cur], Passed name x := fun x hx => by
          rw [chainSlots, flatMap_singleton] at hx
          exact hpassed x hx
        rw [link_eq_none heoc]
        refine post_bind ((runs_allocCluster g k₃).imp_err fun _ _ h => ⟨h, hall⟩) ?_
        rintro n _ ⟨⟨hn2, hnN, hzero⟩, s₁, k₄, rfl, h₁⟩
        obtain ⟨s₂, hrun₂, h₂⟩ := runs_setFatEntry g hc n s₁
        have hnil : ([] : List Byte).length ≤ fs.clusterBytes := Nat.zero_le _
        obtain ⟨s₃, hrun₃, h₃⟩ := runs_writeCluster g hn2 hnN hnil s₂
        rw [List.nil_append, List.length_nil, Nat.sub_zero] at h₃
        have hne : n ≠ cur := fun heq => by
          rw [heq] at hzero
          omega
        -- the new cluster is a chain of its own, of unused slots
        have hchain : ChainOf fs s₃ n [n] := by
          refine .last hn2 hnN ?_
          rw [h₃.fat n hnN, h₂.fat n hnN, if_neg hne, h₁.fat n hnN, if_pos rfl]
          decide
        have hslots : chainSlots fs s₃ [n] = slots (zeros fs.clusterBytes) := by
          rw [chainSlots, flatMap_singleton, h₃.cluster n hn2, if_pos rfl]
        have hunused : ∀ e ∈ chainSlots fs s₃ [n], Fat32.first e = 0 := fun e he => first_of_mem_slots_zeros (hslots ▸ he)
        have hown₃ : OwnChains fs name s₃ [n] [n] := fun e he hs => absurd (hunused e he) hs.1
        refine hrun₂.post_bind fun k₅ => hrun₃.post_bind fun k₆ => ?_
        refine (ih hchain (fun y hy => hy) hown₃).imp (fun _ d h => ?_) fun _ d h => ?_
        · obtain ⟨s', k', R', A, x, B, fr, hd, -, hup, -⟩ := h
          obtain ⟨hfr, hgrow⟩ := hup.grow g (.last h2 hc heoc) hn2 hnN hzero h₁ h₂ h₃ hpassed
          refine ⟨s', k', _, _, x, B, fr, hd, fun y hy => ?_, hgrow, fun _ ⟨e, he, hs⟩ => ?_⟩
          · rw [hfr] at hy
            cases hy
          · exact absurd hs (hall e he).2
        · -- the walk does not pass the slots of the new cluster
          obtain ⟨x, hx⟩ := List.exists_mem_of_length_pos (length_slots_zeros_pos g)
          rw [← hslots] at hx
          exact absurd (hunused x hx) (h.2 x hx).1

end Upsert

end RustKernel.Drivers.Fat32
