import Mathlib.Data.List.Flatten
import Mathlib.Tactic.Linarith
import RustKernel.Drivers.Fat32.Model

/-!
# A FAT32 volume

What the driver's functions do to a volume all of whose sectors can be read and written,
in the volume's own terms: the table of 28-bit entries of the first FAT (`Fat32.fat`) and
the bytes of each cluster (`Fat32.cluster`).
-/

namespace RustKernel.Drivers.Fat32

open Lib Exec Ata
open Nat (add_zero mul_le_mul_right succ_mul zero_mul)

variable (fs : Fat32)
variable {buf new : List Byte} {off : ℕ} {n : ℕ}

def numClusters : ℕ := fs.bpb.sectorsPerFat * (SECTOR_SIZE / 4)

theorem sectorsPerFat_pos {fs : Fat32} {c : ℕ} (h : c < fs.numClusters) : 0 < fs.bpb.sectorsPerFat :=
  Nat.pos_of_mul_pos_right (Nat.zero_lt_of_lt h)

def lbaOf (c : ℕ) : ℕ := fs.dataStartLba + (c - 2) * fs.bpb.sectorsPerCluster

structure Geometry (fault : ℕ → ℕ → Option String) : Prop where
  spc_pos : 0 < fs.bpb.sectorsPerCluster
  fats_pos : 0 < fs.bpb.numFats
  data_eq : fs.dataStartLba = fs.fatStartLba + fs.bpb.numFats * fs.bpb.sectorsPerFat
  fat_lt : fs.dataStartLba ≤ 2 ^ 28
  data_lt : ∀ c, 2 ≤ c → c < fs.numClusters → fs.lbaOf c + fs.bpb.sectorsPerCluster ≤ 2 ^ 28
  fat_ok : ∀ t lba, fs.fatStartLba ≤ lba → lba < fs.dataStartLba → fault t lba = none
  data_ok : ∀ c, 2 ≤ c → c < fs.numClusters → ∀ t i, i < fs.bpb.sectorsPerCluster →
    fault t (fs.lbaOf c + i) = none

def fatLba (c : ℕ) : ℕ := fs.fatStartLba + c * 4 / SECTOR_SIZE

def copyLba (c i : ℕ) : ℕ := fs.fatLba c + i * fs.bpb.sectorsPerFat

structure Accessible (fault : ℕ → ℕ → Option String) (c : ℕ) : Prop where
  lt : c < 2 ^ 28
  fats : 0 < fs.bpb.numFats
  low : ∀ i < fs.bpb.numFats, fs.copyLba c i < 2 ^ 28
  ok : ∀ i < fs.bpb.numFats, ∀ t, fault t (fs.copyLba c i) = none

structure Readable (fault : ℕ → ℕ → Option String) (c : ℕ) : Prop where
  two_le : 2 ≤ c
  lt : c < 0x0FFFFFF8
  fat_lt : fs.fatLba c < 2 ^ 28
  fat_ok : ∀ t, fault t (fs.fatLba c) = none
  data_lt : fs.lbaOf c + fs.bpb.sectorsPerCluster ≤ 2 ^ 28
  data_ok : ∀ t i, i < fs.bpb.sectorsPerCluster → fault t (fs.lbaOf c + i) = none

def fat (s : ℕ → Sector) (c : ℕ) : ℕ :=
  le32 (Sector.toBytes (s (fs.fatLba c))) (c * 4 % SECTOR_SIZE) &&& 0x0FFFFFFF

def cluster (s : ℕ → Sector) (c : ℕ) : List Byte := bytesAt s (fs.lbaOf c) fs.bpb.sectorsPerCluster

theorem length_cluster (s : ℕ → Sector) (c : ℕ) : (fs.cluster s c).length = fs.clusterBytes :=
  length_bytesAt _ _

/-! ### Little-endian words -/

theorem le16_lt (buf : List Byte) (off : ℕ) : le16 buf off < 2 ^ 16 := by
  unfold le16
  omega

theorem le32_lt (buf : List Byte) (off : ℕ) : le32 buf off < 2 ^ 32 := by
  have h₁ := le16_lt buf off
  have h₂ := le16_lt buf (off + 2)
  unfold le32
  omega

theorem le16_le16Bytes (h : n < 2 ^ 16) : le16 (le16Bytes n) 0 = n := by
  simp only [le16, le16Bytes, List.getD_cons_zero, List.getD_cons_succ, BitVec.toNat_ofNat]
  omega

theorem le32_le32Bytes (h : n < 2 ^ 32) : le32 (le32Bytes n) 0 = n := by
  simp only [le32, le16, le32Bytes, le16Bytes, List.cons_append, List.nil_append, List.getD_cons_zero,
    List.getD_cons_succ, BitVec.toNat_ofNat]
  omega

@[simp] theorem length_le32Bytes (n : ℕ) : (le32Bytes n).length = 4 := rfl

@[simp] theorem length_splice (h : off + new.length ≤ buf.length) : (splice buf off new).length = buf.length := by
  simp only [splice, List.length_append, List.length_take, List.length_drop]
  omega

theorem getD_splice {i : ℕ} (h : off + new.length ≤ buf.length) :
    (splice buf off new).getD i 0 = if off ≤ i ∧ i < off + new.length then new.getD (i - off) 0 else buf.getD i 0 := by
  have htake : (buf.take off).length = off := by
    rw [List.length_take]
    omega
  unfold splice
  rw [List.append_assoc]
  by_cases h₁ : i < off
  · rw [List.getD_append _ _ _ _ (by omega), if_neg (by omega)]
    simp only [List.getD_eq_getElem?_getD, List.getElem?_take_of_lt h₁]
  · rw [List.getD_append_right _ _ _ _ (by omega), htake]
    by_cases h₂ : i < off + new.length
    · rw [List.getD_append _ _ _ _ (by omega), if_pos (by omega)]
    · rw [List.getD_append_right _ _ _ _ (by omega), if_neg (by omega)]
      simp only [List.getD_eq_getElem?_getD, List.getElem?_drop]
      congr 2
      omega

theorem le32_splice_self {v : ℕ} (h : off + 4 ≤ buf.length) (hv : v < 2 ^ 32) :
    le32 (splice buf off (le32Bytes v)) off = v := by
  have hlen : off + (le32Bytes v).length ≤ buf.length := h
  conv_rhs => rw [← le32_le32Bytes hv]
  have hget : ∀ j, j < 4 → (splice buf off (le32Bytes v)).getD (off + j) 0 = (le32Bytes v).getD j 0 := by
    intro j hj
    rw [getD_splice hlen, if_pos (by rw [length_le32Bytes]; omega), Nat.add_sub_cancel_left]
  simp only [le32, le16]
  rw [hget 1 (by omega), hget 2 (by omega), hget 3 (by omega)]
  have h0 := hget 0 (by omega)
  rw [add_zero] at h0
  rw [h0]

theorem le32_splice_of_disjoint {off' : ℕ} (h : off + new.length ≤ buf.length)
    (hd : off' + 4 ≤ off ∨ off + new.length ≤ off') : le32 (splice buf off new) off' = le32 buf off' := by
  have hget : ∀ j, j < 4 → (splice buf off new).getD (off' + j) 0 = buf.getD (off' + j) 0 := by
    intro j hj
    rw [getD_splice h, if_neg (by omega)]
  simp only [le32, le16]
  rw [hget 1 (by omega), hget 2 (by omega), hget 3 (by omega)]
  have h0 := hget 0 (by omega)
  rw [add_zero] at h0
  rw [h0]

theorem and_newVal (prev value : ℕ) : ((prev &&& 0xF0000000) ||| (value &&& 0x0FFFFFFF)) &&& 0x0FFFFFFF = value % 2 ^ 28 := by
  rw [Nat.and_or_distrib_right, Nat.and_assoc, Nat.and_assoc]
  have h₁ : (0xF0000000 &&& 0x0FFFFFFF : ℕ) = 0 := by decide
  have h₂ : (0x0FFFFFFF &&& 0x0FFFFFFF : ℕ) = 2 ^ 28 - 1 := by decide
  rw [h₁, h₂, Nat.and_zero, Nat.zero_or, Nat.and_two_pow_sub_one_eq_mod]

theorem newVal_lt (prev value : ℕ) : ((prev &&& 0xF0000000) ||| (value &&& 0x0FFFFFFF)) < 2 ^ 32 :=
  Nat.or_lt_two_pow (Nat.and_lt_two_pow _ (by decide)) (Nat.and_lt_two_pow _ (by decide))

/-! ### Addresses -/

section Geometry

variable {fs} {fault : ℕ → ℕ → Option String} {s s' : ℕ → Sector}
variable {c lba : ℕ} {buf : List Byte} {c' i v : ℕ} {n i' : ℕ}

namespace Geometry

variable {c : ℕ}

section

variable (g : fs.Geometry fault)
include g

theorem fat_le : fs.fatStartLba + fs.bpb.sectorsPerFat ≤ fs.dataStartLba := by
  have := Nat.le_mul_of_pos_left fs.bpb.sectorsPerFat g.fats_pos
  rw [g.data_eq]
  omega

theorem numClusters_lt : fs.numClusters < 0x0FFFFFF0 := by
  have hN : fs.numClusters = fs.bpb.sectorsPerFat * 128 := rfl
  by_cases h : 3 ≤ fs.numClusters
  · have hlast := g.data_lt (fs.numClusters - 1) (by omega) (by omega)
    have hmul := Nat.le_mul_of_pos_right (fs.numClusters - 1 - 2) g.spc_pos
    have hfat := g.fat_le
    unfold lbaOf at hlast
    omega
  · omega

theorem fatLba_lt (hc : c < fs.numClusters) :
    fs.fatStartLba ≤ fs.fatLba c ∧ fs.fatLba c < fs.fatStartLba + fs.bpb.sectorsPerFat ∧ fs.fatLba c < fs.dataStartLba := by
  have hN : fs.numClusters = fs.bpb.sectorsPerFat * 128 := rfl
  have hfat := g.fat_le
  have : c * 4 / SECTOR_SIZE < fs.bpb.sectorsPerFat := by
    unfold SECTOR_SIZE
    omega
  unfold fatLba
  generalize c * 4 / SECTOR_SIZE = q at *
  omega

theorem readable (h2 : 2 ≤ c) (hc : c < fs.numClusters) : fs.Readable fault c := by
  have hN := g.numClusters_lt
  obtain ⟨hge, -, hlt⟩ := g.fatLba_lt hc
  exact ⟨h2, by omega, lt_of_lt_of_le hlt g.fat_lt, fun t => g.fat_ok t _ hge hlt, g.data_lt c h2 hc, g.data_ok c h2 hc⟩

theorem copyLba_lt (hc : c < fs.numClusters) (hi : i < fs.bpb.numFats) :
    fs.copyLba c i < fs.dataStartLba := by
  obtain ⟨hge, hlt, -⟩ := g.fatLba_lt hc
  have hdata := g.data_eq
  have hcopy : (i + 1) * fs.bpb.sectorsPerFat ≤ fs.bpb.numFats * fs.bpb.sectorsPerFat := mul_le_mul_right _ hi
  rw [succ_mul] at hcopy
  unfold copyLba
  omega

theorem accessible (hc : c < fs.numClusters) : fs.Accessible fault c := by
  have hN := g.numClusters_lt
  have hge := (g.fatLba_lt hc).1
  refine ⟨by omega, g.fats_pos, fun i hi => lt_of_lt_of_le (g.copyLba_lt hc hi) g.fat_lt, fun i hi t => ?_⟩
  exact g.fat_ok t _ (by unfold copyLba; omega) (g.copyLba_lt hc hi)

end

end Geometry

theorem Readable.clusterToLba_eq (h : fs.Readable fault c) : fs.clusterToLba c = pure (fs.lbaOf c) := by
  have hlt := h.data_lt
  unfold lbaOf at hlt
  unfold clusterToLba
  rw [sub_of_le h.two_le]
  show (mul 32 (c - 2) fs.bpb.sectorsPerCluster >>= fun off => add 32 fs.dataStartLba off) = _
  rw [mul_of_lt (by omega)]
  exact add_of_lt (by omega)

theorem Geometry.clusterToLba_eq (g : fs.Geometry fault) (h2 : 2 ≤ c) (hc : c < fs.numClusters) :
    fs.clusterToLba c = pure (fs.lbaOf c) := (g.readable h2 hc).clusterToLba_eq

/-! ### Reading and writing the FAT -/

@[simp] theorem copyLba_zero (fs : Fat32) (c : ℕ) : fs.copyLba c 0 = fs.fatLba c := by rw [copyLba, zero_mul, add_zero]

theorem mul_four_eq (hc : c < 2 ^ 28) : (mul 32 c 4 : Exec String Disk ℕ) = pure (c * 4) :=
  mul_of_lt (by omega)

theorem runs_readOne (hlba : lba < 2 ^ 28) (h : ∀ t, fault t lba = none) :
    Runs fault (Ata.read lba 1 (zeros SECTOR_SIZE)) s (Sector.toBytes (s lba)) s := by
  have hbuf : (zeros SECTOR_SIZE).length = 1 * SECTOR_SIZE := by rw [zeros, List.length_replicate, Nat.one_mul]
  have hone : bytesAt s lba 1 = Sector.toBytes (s lba) := by
    rw [bytesAt_succ, bytesAt, List.range_zero, List.flatMap_nil, List.append_nil]
  rw [← hone]
  refine runs_read Nat.one_pos hbuf hlba fun t i hi => ?_
  have hi0 : i = 0 := by omega
  subst hi0
  exact h t

theorem post_clusterToLba (fs : Fat32) (c : ℕ) (d : Disk) :
    (fs.clusterToLba c d).Post (fun lba d' => lba = fs.lbaOf c ∧ d' = d) (fun _ _ => False) := by
  refine post_bind (post_sub c 2) fun _ _ h₁ => ?_
  rw [h₁.1, h₁.2]
  refine post_bind (post_mul 32 (c - 2) fs.bpb.sectorsPerCluster) fun _ _ h₂ => ?_
  rw [h₂.1, h₂.2]
  exact post_add 32 fs.dataStartLba _

theorem post_readZeros (lba : ℕ) (d : Disk) : (Ata.read lba 1 (zeros SECTOR_SIZE) d).Post
    (fun bytes d' => Later d d' ∧ bytes = Sector.toBytes (d.sectors lba)) (fun _ d' => Later d d') :=
  post_readOne (by rw [zeros, List.length_replicate]) d

theorem runs_nextCluster_of (hc : c < 2 ^ 28) (hlow : fs.fatLba c < 2 ^ 28) (hok : ∀ t, fault t (fs.fatLba c) = none) :
    Runs fault (fs.nextCluster c) s (link (fs.fat s c)) s := by
  have hadd : (add 32 fs.fatStartLba (c * 4 / SECTOR_SIZE) : Exec String Disk ℕ) = pure (fs.fatLba c) :=
    add_of_lt (show fs.fatLba c < 2 ^ 32 by omega)
  unfold nextCluster
  rw [mul_four_eq hc]
  refine Runs.pure.bind ?_
  rw [hadd]
  exact Runs.pure.bind ((runs_readOne hlow hok).attempt.bind Runs.pure)

theorem Readable.runs_nextCluster (h : fs.Readable fault c) : Runs fault (fs.nextCluster c) s (link (fs.fat s c)) s :=
  runs_nextCluster_of (h.lt.trans (by decide)) h.fat_lt h.fat_ok

theorem Accessible.runs_nextCluster (h : fs.Accessible fault c) : Runs fault (fs.nextCluster c) s (link (fs.fat s c)) s :=
  runs_nextCluster_of h.lt (copyLba_zero fs c ▸ h.low 0 h.fats) (copyLba_zero fs c ▸ h.ok 0 h.fats)

theorem runs_nextCluster (g : fs.Geometry fault) (hc : c < fs.numClusters) :
    Runs fault (fs.nextCluster c) s (link (fs.fat s c)) s := (g.accessible hc).runs_nextCluster

structure FatSet (fs : Fat32) (s s' : ℕ → Sector) (c v : ℕ) : Prop where
  fat : ∀ c' < fs.numClusters, fs.fat s' c' = if c' = c then v % 2 ^ 28 else fs.fat s c'
  cluster : ∀ c', fs.cluster s' c' = fs.cluster s c'

def Mirrored (fs : Fat32) (s : ℕ → Sector) : Prop :=
  ∀ i < fs.bpb.numFats, ∀ j < fs.bpb.sectorsPerFat,
    s (fs.fatStartLba + i * fs.bpb.sectorsPerFat + j) = s (fs.fatStartLba + j)

structure EntrySet (fs : Fat32) (s s' : ℕ → Sector) (c v : ℕ) : Prop extends FatSet fs s s' c v where
  mirror : Mirrored fs s → Mirrored fs s'

theorem fat_stored_of_ge (g : fs.Geometry fault) (h : fs.fatStartLba + fs.bpb.sectorsPerFat ≤ lba)
    (hc : c < fs.numClusters) : fs.fat (stored s lba n buf) c = fs.fat s c := by
  have hlt := (g.fatLba_lt hc).2.1
  have hout : ¬ (lba ≤ fs.fatLba c ∧ fs.fatLba c < lba + n) := by omega
  simp only [Fat32.fat, stored, if_neg hout]

def patched (buf : List Byte) (c v : ℕ) : List Byte :=
  splice buf (c * 4 % SECTOR_SIZE)
    (le32Bytes ((le32 buf (c * 4 % SECTOR_SIZE) &&& 0xF0000000) ||| (v &&& 0x0FFFFFFF)))

theorem entry_le (c : ℕ) : c * 4 % SECTOR_SIZE + 4 ≤ SECTOR_SIZE := by
  unfold SECTOR_SIZE
  omega

@[simp] theorem length_patched (sec : Sector) (c v : ℕ) : (patched (Sector.toBytes sec) c v).length = SECTOR_SIZE := by
  rw [patched, length_splice (by rw [length_toBytes]; exact entry_le c), length_toBytes]

theorem le32_patched (sec : Sector) (c c' v : ℕ) : le32 (patched (Sector.toBytes sec) c v) (c' * 4 % SECTOR_SIZE) =
    if c' * 4 % SECTOR_SIZE = c * 4 % SECTOR_SIZE then (le32 (Sector.toBytes sec) (c * 4 % SECTOR_SIZE) &&& 0xF0000000) |||
    (v &&& 0x0FFFFFFF) else le32 (Sector.toBytes sec) (c' * 4 % SECTOR_SIZE) := by
  unfold patched
  by_cases heq : c' * 4 % SECTOR_SIZE = c * 4 % SECTOR_SIZE
  · rw [if_pos heq, heq, le32_splice_self (by rw [length_toBytes]; exact entry_le c) (newVal_lt _ _)]
  · have hdisj : c' * 4 % SECTOR_SIZE + 4 ≤ c * 4 % SECTOR_SIZE ∨ c * 4 % SECTOR_SIZE + 4 ≤ c' * 4 % SECTOR_SIZE := by
      unfold SECTOR_SIZE at *
      omega
    rw [if_neg heq, le32_splice_of_disjoint (by rw [length_toBytes]; exact entry_le c) (by rw [length_le32Bytes]; exact hdisj)]

theorem toBytes_ofBytes_patched (sec : Sector) (c v : ℕ) :
    Sector.toBytes (Sector.ofBytes (patched (Sector.toBytes sec) c v)) = patched (Sector.toBytes sec) c v := by
  rw [toBytes_ofBytes (length_patched _ c v).ge, List.take_of_length_le (length_patched _ c v).le]

theorem stored_patched (s : ℕ → Sector) (lba c v l : ℕ) : stored s lba 1 (patched (Sector.toBytes (s lba)) c v) l =
    if l = lba then Sector.ofBytes (patched (Sector.toBytes (s lba)) c v) else s l := by
  by_cases hl : l = lba
  · subst hl
    rw [stored, if_pos (by omega), if_pos rfl, Nat.sub_self, zero_mul, List.drop_zero]
  · rw [stored, if_neg (by omega), if_neg hl]

theorem fat_stored_patched (s : ℕ → Sector) (lba c c' v : ℕ) : fs.fat (stored s lba 1 (patched (Sector.toBytes (s lba)) c v))
    c' = if fs.fatLba c' = lba ∧ c' * 4 % SECTOR_SIZE = c * 4 % SECTOR_SIZE then v % 2 ^ 28 else fs.fat s c' := by
  unfold Fat32.fat
  rw [stored_patched]
  by_cases hl : fs.fatLba c' = lba
  · subst hl
    rw [if_pos rfl, toBytes_ofBytes_patched, le32_patched]
    by_cases hoff : c' * 4 % SECTOR_SIZE = c * 4 % SECTOR_SIZE
    · rw [if_pos hoff, if_pos ⟨rfl, hoff⟩, and_newVal]
    · rw [if_neg hoff, if_neg fun h => hoff h.2]
  · rw [if_neg hl, if_neg fun h => hl h.1]

theorem eq_of_place (h : fs.fatLba c' = fs.fatLba c) (hoff : c' * 4 % SECTOR_SIZE = c * 4 % SECTOR_SIZE) : c' = c := by
  unfold fatLba SECTOR_SIZE at h
  unfold SECTOR_SIZE at hoff
  omega

theorem Accessible.runs_setFat_turn {idx : ℕ} (h : fs.Accessible fault c) (hidx : idx < fs.bpb.numFats) (v : ℕ)
    (hrest : Runs fault (fs.setFatLoop (c * 4 % SECTOR_SIZE) (c * 4 / SECTOR_SIZE) v (idx + 1) n)
      (stored s (fs.copyLba c idx) 1 (patched (Sector.toBytes (s (fs.copyLba c idx))) c v)) () s') :
    Runs fault (fs.setFatLoop (c * 4 % SECTOR_SIZE) (c * 4 / SECTOR_SIZE) v idx (n + 1)) s () s' := by
  have hlow := h.low idx hidx
  have hok := h.ok idx hidx
  have hcopy : fs.copyLba c idx = fs.fatStartLba + idx * fs.bpb.sectorsPerFat + c * 4 / SECTOR_SIZE := by
    rw [copyLba, fatLba, Nat.add_right_comm]
  rw [hcopy] at hlow hok hrest
  generalize c * 4 / SECTOR_SIZE = rel at *
  generalize hk : idx * fs.bpb.sectorsPerFat = k at *
  have h₁ : (mul 32 idx fs.bpb.sectorsPerFat : Exec String Disk ℕ) = pure k := by rw [mul_of_lt (by omega), hk]
  have h₂ : (add 32 fs.fatStartLba k : Exec String Disk ℕ) = pure (fs.fatStartLba + k) := add_of_lt (by omega)
  have h₃ : (add 32 (fs.fatStartLba + k) rel : Exec String Disk ℕ) = pure (fs.fatStartLba + k + rel) := add_of_lt (by omega)
  have hwrite : Runs fault
      (Ata.write (fs.fatStartLba + k + rel) 1 (patched (Sector.toBytes (s (fs.fatStartLba + k + rel))) c v)) s ()
      (stored s (fs.fatStartLba + k + rel) 1 (patched (Sector.toBytes (s (fs.fatStartLba + k + rel))) c v)) := by
    refine runs_write Nat.one_pos (by rw [length_patched, Nat.one_mul]) hlow fun t i hi => ?_
    have hi0 : i = 0 := by omega
    subst hi0
    exact hok t
  unfold setFatLoop
  rw [h₁]
  refine Runs.pure.bind ?_
  rw [h₂]
  refine Runs.pure.bind ?_
  rw [h₃]
  exact Runs.pure.bind ((runs_readOne hlow hok).bind (hwrite.bind hrest))

structure CopiesSet (fs : Fat32) (s s' : ℕ → Sector) (c v idx n : ℕ) : Prop where
  set : ∀ i, idx ≤ i → i < idx + n →
    s' (fs.copyLba c i) = Sector.ofBytes (patched (Sector.toBytes (s (fs.copyLba c i))) c v)
  other : ∀ l, (∀ i, idx ≤ i → i < idx + n → l ≠ fs.copyLba c i) → s' l = s l

theorem rel_lt (hc : c < fs.numClusters) : c * 4 / SECTOR_SIZE < fs.bpb.sectorsPerFat := by
  have hN : fs.numClusters = fs.bpb.sectorsPerFat * 128 := rfl
  unfold SECTOR_SIZE
  omega

theorem copy_inj (fs : Fat32) {j j' : ℕ} (hj : j < fs.bpb.sectorsPerFat) (hj' : j' < fs.bpb.sectorsPerFat)
    (h : i * fs.bpb.sectorsPerFat + j = i' * fs.bpb.sectorsPerFat + j') : i = i' ∧ j = j' := by
  have hdiv : ∀ a b, b < fs.bpb.sectorsPerFat → (a * fs.bpb.sectorsPerFat + b) / fs.bpb.sectorsPerFat = a := fun a b hb => by
    rw [Nat.mul_comm, Nat.mul_add_div (by omega), Nat.div_eq_of_lt hb, add_zero]
  have hi : i = i' := by rw [← hdiv i j hj, h, hdiv i' j' hj']
  subst hi
  exact ⟨rfl, by omega⟩

theorem copyLba_ne (fs : Fat32) (hpos : 0 < fs.bpb.sectorsPerFat) (h : i ≠ i') : fs.copyLba c i ≠ fs.copyLba c i' := by
  intro heq
  have hmul : i * fs.bpb.sectorsPerFat + 0 = i' * fs.bpb.sectorsPerFat + 0 := by
    unfold copyLba at heq
    omega
  exact h (copy_inj fs hpos hpos hmul).1

theorem Accessible.runs_setFatLoop (h : fs.Accessible fault c) (hpos : 0 < fs.bpb.sectorsPerFat) (v : ℕ) :
    ∀ (n idx : ℕ) (s : ℕ → Sector), idx + n ≤ fs.bpb.numFats → ∃ s',
    Runs fault (fs.setFatLoop (c * 4 % SECTOR_SIZE) (c * 4 / SECTOR_SIZE) v idx n) s () s' ∧ CopiesSet fs s s' c v idx n := by
  intro n
  induction n with
  | zero => exact fun idx s _ => ⟨s, Runs.pure, fun i h₁ h₂ => by omega, fun l _ => rfl⟩
  | succ n ih =>
    intro idx s hle
    obtain ⟨s', hrun, hset⟩ := ih (idx + 1)
      (stored s (fs.copyLba c idx) 1 (patched (Sector.toBytes (s (fs.copyLba c idx))) c v)) (by omega)
    refine ⟨s', h.runs_setFat_turn (by omega) v hrun, fun i h₁ h₂ => ?_, fun l hl => ?_⟩
    · by_cases hi : i = idx
      · subst hi
        rw [hset.other _ fun i' h₁' _ => copyLba_ne fs hpos (by omega), stored_patched, if_pos rfl]
      · rw [hset.set i (by omega) (by omega), stored_patched, if_neg (copyLba_ne fs hpos hi)]
    · rw [hset.other l fun i h₁ h₂ => hl i (by omega) (by omega), stored_patched, if_neg (hl idx le_rfl (by omega))]

theorem Accessible.runs_setFatEntry (h : fs.Accessible fault c) (hpos : 0 < fs.bpb.sectorsPerFat) (v : ℕ)
    (s : ℕ → Sector) : ∃ s', Runs fault (fs.setFatEntry c v) s () s' ∧ CopiesSet fs s s' c v 0 fs.bpb.numFats := by
  obtain ⟨s', hrun, hset⟩ := h.runs_setFatLoop hpos v fs.bpb.numFats 0 s (by omega)
  refine ⟨s', ?_, hset⟩
  unfold setFatEntry
  rw [mul_four_eq h.lt]
  exact Runs.pure.bind hrun

def entryAt (fs : Fat32) (s : ℕ → Sector) (i c : ℕ) : ℕ :=
  le32 (Sector.toBytes (s (fs.copyLba c i))) (c * 4 % SECTOR_SIZE)

theorem fat_eq_entryAt (fs : Fat32) (s : ℕ → Sector) (c : ℕ) : fs.fat s c = fs.entryAt s 0 c &&& 0x0FFFFFFF := by
  rw [entryAt, copyLba_zero, Fat32.fat]

section

variable (h : CopiesSet fs s s' c v 0 fs.bpb.numFats)
include h

theorem CopiesSet.entryAt_eq (hc : c < fs.numClusters)
    (hi : i < fs.bpb.numFats) (hc' : c' < fs.numClusters) : fs.entryAt s' i c' =
      if c' = c then (fs.entryAt s i c &&& 0xF0000000) ||| (v &&& 0x0FFFFFFF) else fs.entryAt s i c' := by
  unfold entryAt
  by_cases hplace : fs.fatLba c' = fs.fatLba c
  · -- the same sector of the copy: the word written, or another one
    have hlba : fs.copyLba c' i = fs.copyLba c i := by rw [copyLba, hplace, copyLba]
    rw [hlba, h.set i (Nat.zero_le i) (by omega), toBytes_ofBytes_patched, le32_patched]
    by_cases hoff : c' * 4 % SECTOR_SIZE = c * 4 % SECTOR_SIZE
    · rw [if_pos hoff, if_pos (eq_of_place hplace hoff)]
    · have hne : c' ≠ c := fun heq => hoff (by rw [heq])
      rw [if_neg hoff, if_neg hne]
  · have hne : c' ≠ c := fun heq => hplace (by rw [heq])
    rw [if_neg hne, h.other]
    intro j _ _ heq
    have hcut : i * fs.bpb.sectorsPerFat + c' * 4 / SECTOR_SIZE = j * fs.bpb.sectorsPerFat + c * 4 / SECTOR_SIZE := by
      unfold copyLba fatLba at heq
      omega
    refine hplace ?_
    unfold fatLba
    rw [(copy_inj fs (rel_lt hc') (rel_lt hc) hcut).2]

theorem CopiesSet.fat_eq (hfats : 0 < fs.bpb.numFats) (hc : c < fs.numClusters)
    (hc' : c' < fs.numClusters) : fs.fat s' c' = if c' = c then v % 2 ^ 28 else fs.fat s c' := by
  rw [fat_eq_entryAt, h.entryAt_eq hc hfats hc', fat_eq_entryAt]
  split_ifs
  · exact and_newVal _ _
  · rfl

theorem CopiesSet.mirror (hc : c < fs.numClusters)
    (hmirror : Mirrored fs s) : Mirrored fs s' := by
  intro i hi j hj
  by_cases hj' : j = c * 4 / SECTOR_SIZE
  · -- the sector patched, of each copy
    have hcopy : ∀ i', fs.fatStartLba + i' * fs.bpb.sectorsPerFat + j = fs.copyLba c i' := fun i' => by
      unfold copyLba fatLba
      omega
    have hzero : fs.fatStartLba + j = fs.copyLba c 0 := by rw [← hcopy 0, zero_mul, add_zero]
    rw [hcopy i, hzero, h.set i (by omega) (by omega), h.set 0 le_rfl (by omega), ← hcopy i, hmirror i hi j hj, hzero]
  · have hne : ∀ i', ∀ i'' < fs.bpb.numFats, fs.fatStartLba + i' * fs.bpb.sectorsPerFat + j ≠ fs.copyLba c i'' := by
      intro i' i'' _ heq
      have hcut : i' * fs.bpb.sectorsPerFat + j = i'' * fs.bpb.sectorsPerFat + c * 4 / SECTOR_SIZE := by
        unfold copyLba fatLba at heq
        omega
      exact hj' (copy_inj fs hj (rel_lt hc) hcut).2
    have hnot := hne 0
    rw [zero_mul, add_zero] at hnot
    rw [h.other _ fun i' _ hi' => hne i i' (by omega), h.other _ fun i' _ hi' => hnot i' (by omega), hmirror i hi j hj]

theorem CopiesSet.outside (hc : c < fs.numClusters)
    (hlba : lba < fs.fatStartLba ∨ fs.fatStartLba + fs.bpb.numFats * fs.bpb.sectorsPerFat ≤ lba) : s' lba = s lba := by
  refine h.other lba fun i _ hi heq => ?_
  have hrel := rel_lt hc
  have hcopy : (i + 1) * fs.bpb.sectorsPerFat ≤ fs.bpb.numFats * fs.bpb.sectorsPerFat := mul_le_mul_right _ (by omega)
  rw [succ_mul] at hcopy
  unfold copyLba fatLba at heq
  generalize c * 4 / SECTOR_SIZE = rel at *
  omega

end

theorem CopiesSet.entrySet (g : fs.Geometry fault) (hc : c < fs.numClusters)
    (h : CopiesSet fs s s' c v 0 fs.bpb.numFats) : EntrySet fs s s' c v := by
  have hcluster : ∀ c', fs.cluster s' c' = fs.cluster s c' := fun c' => bytesAt_congr fun j _ =>
    h.outside hc (.inr (by rw [← g.data_eq, lbaOf, Nat.add_assoc]; exact Nat.le_add_right _ _))
  exact ⟨⟨fun c' hc' => h.fat_eq g.fats_pos hc hc', hcluster⟩, h.mirror hc⟩

theorem runs_setFatEntry (g : fs.Geometry fault) (hc : c < fs.numClusters) (v : ℕ) (s : ℕ → Sector) :
    ∃ s', Runs fault (fs.setFatEntry c v) s () s' ∧ EntrySet fs s s' c v := by
  obtain ⟨s', hrun, hset⟩ := (g.accessible hc).runs_setFatEntry (sectorsPerFat_pos hc) v s
  exact ⟨s', hrun, hset.entrySet g hc⟩

theorem reserved_newVal (prev value : ℕ) :
    ((prev &&& 0xF0000000) ||| (value &&& 0x0FFFFFFF)) &&& 0xF0000000 = prev &&& 0xF0000000 := by
  have h₁ : (0x0FFFFFFF &&& 0xF0000000 : ℕ) = 0 := by decide
  have h₂ : (0xF0000000 &&& 0xF0000000 : ℕ) = 0xF0000000 := by decide
  rw [Nat.and_or_distrib_right, Nat.and_assoc, Nat.and_assoc, h₁, h₂, Nat.and_zero, Nat.or_zero]

/-- **The entries obey the laws of `get` and `put`.** What `next_cluster` reads after `set_fat_entry` is what was set, in its
low 28 bits; it reads every other entry as before; the reserved bits of every entry in every copy are kept, equal copies
stay equal and no sector outside the FATs changes. -/
theorem setFatEntry_get_put (hmirror : Mirrored fs s) (hc : c < fs.numClusters) (h : fs.Accessible fault c) (v : ℕ) :
    ∃ s', Runs fault (fs.setFatEntry c v) s () s' ∧
      Runs fault (fs.nextCluster c) s' (link (v % 2 ^ 28)) s' ∧
      (∀ d < fs.numClusters, d ≠ c → fs.Accessible fault d →
        ∃ next, Runs fault (fs.nextCluster d) s next s ∧ Runs fault (fs.nextCluster d) s' next s') ∧
      (∀ i < fs.bpb.numFats, ∀ d < fs.numClusters,
        fs.entryAt s' i d &&& 0xF0000000 = fs.entryAt s i d &&& 0xF0000000) ∧
      Mirrored fs s' ∧
      ∀ lba, lba < fs.fatStartLba ∨ fs.fatStartLba + fs.bpb.numFats * fs.bpb.sectorsPerFat ≤ lba → s' lba = s lba := by
  obtain ⟨s', hrun, hset⟩ := h.runs_setFatEntry (sectorsPerFat_pos hc) v s
  refine ⟨s', hrun, ?_, fun d hd hne hacc => ⟨_, hacc.runs_nextCluster, ?_⟩, fun i hi d hd => ?_, hset.mirror hc hmirror,
    fun lba hlba => hset.outside hc hlba⟩
  · have hget := h.runs_nextCluster (s := s')
    rwa [hset.fat_eq h.fats hc hc, if_pos rfl] at hget
  · have hget := hacc.runs_nextCluster (s := s')
    rwa [hset.fat_eq h.fats hc hd, if_neg hne] at hget
  · rw [hset.entryAt_eq hc hi hd]
    split_ifs with heq
    · rw [heq, reserved_newVal]
    · rfl

def twoFats : Fat32 where
  bpb := { sectorsPerCluster := 1, numFats := 2, sectorsPerFat := 1, rootCluster := 2 }
  fatStartLba := 32
  dataStartLba := 34

def looped : ℕ → Sector := fun lba =>
  if lba = 32 ∨ lba = 33 then
    Sector.ofBytes ([2, 3, 3, 2, 0xF0000005, 0xFFFFFFFF].flatMap le32Bytes ++ zeros 488)
  else Sector.ofBytes (zeros 512)

theorem accessible_twoFats (hc : c < 2 ^ 28) : twoFats.Accessible (fun _ _ => none) c := by
  refine ⟨hc, by decide, fun i hi => ?_, fun _ _ _ => rfl⟩
  have hi : i < 2 := hi
  simp only [copyLba, fatLba, twoFats, SECTOR_SIZE]
  omega

/-- The entry `4`, whose reserved bits are set, is made the end of its chain. -/
theorem setFatEntry_get_put_looped : ∃ s', Runs (fun _ _ => none) (twoFats.setFatEntry 4 0x0FFFFFFF) looped () s' ∧
    Runs (fun _ _ => none) (twoFats.nextCluster 4) s' none s' ∧ twoFats.entryAt s' 1 4 &&& 0xF0000000 = 0xF0000000 := by
  have hmirror : Mirrored twoFats looped := by
    intro i hi j hj
    have hi : i < 2 := hi
    have hj : j < 1 := hj
    have hlba : 32 + i * 1 + j = 32 ∨ 32 + i * 1 + j = 33 := by omega
    have hj0 : 32 + j = 32 := by omega
    show looped (32 + i * 1 + j) = looped (32 + j)
    rw [looped, looped, if_pos hlba, if_pos (.inl hj0)]
  obtain ⟨s', hrun, hget, -, hreserved, -⟩ :=
    setFatEntry_get_put hmirror (show 4 < twoFats.numClusters by decide) (accessible_twoFats (by decide)) 0x0FFFFFFF
  refine ⟨s', hrun, hget, ?_⟩
  rw [hreserved 1 (by decide) 4 (by decide)]
  decide +kernel

/-! ### Allocating a cluster -/

def Free (fs : Fat32) (s : ℕ → Sector) (c : ℕ) : Prop := 2 ≤ c ∧ c < fs.numClusters ∧ fs.fat s c = 0
deriving Decidable

/-- The scan of a sector of the FAT finds the first free entry. -/
theorem post_freeInSector {total sec e : ℕ} : ∀ {n i : ℕ} {d : Disk}, i + n = e →
    (freeInSector buf total sec i n d).Post (fun o d' => d' = d ∧ (∀ c, o = some c →
      ∃ j, j < e ∧ c = sec * (SECTOR_SIZE / 4) + j ∧ 2 ≤ c ∧ c < total ∧ le32 buf (j * 4) &&& 0x0FFFFFFF = 0) ∧
      ∀ j, i ≤ j → j < e → 2 ≤ sec * (SECTOR_SIZE / 4) + j → (∀ c, o = some c → sec * (SECTOR_SIZE / 4) + j < c) →
        le32 buf (j * 4) &&& 0x0FFFFFFF ≠ 0)
      (fun _ d' => d' = d)
  | 0, _, d, _ => ⟨rfl, fun c hc => (nomatch hc), fun j _ _ => by omega⟩
  | n + 1, i, d, he => by
    refine post_bind (post_mul 32 sec (SECTOR_SIZE / 4)) fun base d₁ h₁ => ?_
    rw [h₁.1, h₁.2]
    refine post_bind (post_add 32 (sec * (SECTOR_SIZE / 4)) i) fun cl d₂ h₂ => ?_
    rw [h₂.1, h₂.2]
    split_ifs with hlow hhigh hzero
    · refine (post_freeInSector (by omega)).imp (fun o d' h => ⟨h.1, h.2.1, fun j hij hj h2 hc => ?_⟩) fun _ _ h => h
      exact h.2.2 j (Nat.lt_of_le_of_ne hij (by rintro rfl; omega)) hj h2 hc
    · exact rfl
    · refine ⟨rfl, fun c hc => ?_, fun j hij _ _ hc => ?_⟩
      · cases hc
        exact ⟨i, by omega, rfl, by omega, by omega, hzero⟩
      · have := hc _ rfl
        omega
    · refine (post_freeInSector (by omega)).imp (fun o d' h => ⟨h.1, h.2.1, fun j hij hj h2 hc => ?_⟩) fun _ _ h => h
      rcases hij.eq_or_lt with rfl | hij
      · exact hzero
      · exact h.2.2 j hij hj h2 hc

theorem post_allocLoop {d₀ : Disk} : ∀ {n sec : ℕ} {d : Disk}, Later d₀ d →
    (∀ x, 2 ≤ x → x < sec * (SECTOR_SIZE / 4) → fs.fat d₀.sectors x ≠ 0) →
    (fs.allocLoop fs.numClusters sec n d).Post
      (fun c d' => (fs.Free d₀.sectors c ∧ ∀ x, 2 ≤ x → x < c → fs.fat d₀.sectors x ≠ 0) ∧
        ∃ d₁, Later d₀ d₁ ∧ fs.setFatEntry c 0x0FFFFFFF d₁ = .ok () d')
      (fun e d' => Later d₀ d' ∨ ∃ c d₁, fs.Free d₀.sectors c ∧ Later d₀ d₁ ∧ fs.setFatEntry c 0x0FFFFFFF d₁ = .err e d')
  | 0, _, _, hd, _ => .inl hd
  | n + 1, sec, d, hd, hbefore => by
    refine post_bind (post_add 32 fs.fatStartLba sec) fun lba d₁ h₁ => ?_
    rw [h₁.1, h₁.2]
    refine post_bind ((post_readZeros _ d).imp_err fun _ _ h => .inl (hd.trans h)) fun bytes d₂ h₂ => ?_
    have hd₂ := hd.trans h₂.1
    refine post_bind ((post_freeInSector (Nat.zero_add _)).imp_err fun _ _ h => .inl (h ▸ hd₂)) fun o d₃ h₃ => ?_
    rw [h₃.1]
    -- the entries of this sector, by their place in it
    have hentry : ∀ j < SECTOR_SIZE / 4, fs.fat d₀.sectors (sec * (SECTOR_SIZE / 4) + j) = le32 bytes (j * 4) &&& 0x0FFFFFFF := by
      intro j hj
      have hpos : (sec * (SECTOR_SIZE / 4) + j) * 4 / SECTOR_SIZE = sec ∧
          (sec * (SECTOR_SIZE / 4) + j) * 4 % SECTOR_SIZE = j * 4 := by
        unfold SECTOR_SIZE at *
        omega
      rw [fat, fatLba, hpos.1, hpos.2, ← hd.sectors_eq, ← h₂.2]
    have hscan : ∀ x, 2 ≤ x → x < (sec + 1) * (SECTOR_SIZE / 4) → (∀ c, o = some c → x < c) → fs.fat d₀.sectors x ≠ 0 := by
      intro x h2 hx hc
      by_cases hlt : x < sec * (SECTOR_SIZE / 4)
      · exact hbefore x h2 hlt
      · obtain ⟨j, rfl⟩ := Nat.exists_eq_add_of_le (Nat.not_lt.mp hlt)
        have hj : j < SECTOR_SIZE / 4 := by
          rw [Nat.succ_mul] at hx
          omega
        rw [hentry j hj]
        exact h₃.2.2 j (Nat.zero_le j) hj h2 hc
    cases o with
    | none => exact post_allocLoop hd₂ fun x h2 hx => hscan x h2 hx nofun
    | some c =>
      obtain ⟨j, hj, rfl, h2, hlt, hzero⟩ := h₃.2.1 c rfl
      have hfree : fs.Free d₀.sectors (sec * (SECTOR_SIZE / 4) + j) := ⟨h2, hlt, (hentry j hj).trans hzero⟩
      have hset := (fs.setFatEntry (sec * (SECTOR_SIZE / 4) + j) 0x0FFFFFFF d₂).post_self
      refine post_bind (hset.imp_err fun e d' h => .inr ⟨_, d₂, hfree, hd₂, h⟩) fun _ d' h =>
        ⟨⟨hfree, fun x h2 hx => hscan x h2 ?_ ?_⟩, d₂, hd₂, h⟩
      · rw [Nat.succ_mul]
        omega
      · rintro _ ⟨⟩
        exact hx

/-- `alloc_cluster` takes the first free cluster. -/
theorem post_allocCluster (d : Disk) : (fs.allocCluster d).Post
    (fun c d' => (fs.Free d.sectors c ∧ ∀ x, 2 ≤ x → x < c → fs.fat d.sectors x ≠ 0) ∧
      ∃ d₁, Later d d₁ ∧ fs.setFatEntry c 0x0FFFFFFF d₁ = .ok () d')
    (fun e d' => Later d d' ∨ ∃ c d₁, fs.Free d.sectors c ∧ Later d d₁ ∧ fs.setFatEntry c 0x0FFFFFFF d₁ = .err e d') := by
  refine post_bind (post_mul 32 fs.bpb.sectorsPerFat (SECTOR_SIZE / 4)) fun n d' h => ?_
  rw [h.1, h.2]
  exact post_allocLoop (.refl d) fun x _ hx => by omega

theorem runs_allocCluster (g : fs.Geometry fault) (k : ℕ) : (fs.allocCluster ⟨s, k, fault⟩).Post
    (fun c d => fs.Free s c ∧ ∃ s' k', d = ⟨s', k', fault⟩ ∧ EntrySet fs s s' c 0x0FFFFFFF)
    (fun _ d => ∃ k', d = ⟨s, k', fault⟩) := by
  refine (post_allocCluster ⟨s, k, fault⟩).imp (fun c d h => ?_) fun e d h => ?_
  · obtain ⟨⟨hfree, -⟩, d₁, ⟨k₁, rfl⟩, hset⟩ := h
    obtain ⟨s', hrun, hentry⟩ := runs_setFatEntry g hfree.2.1 0x0FFFFFFF s
    obtain ⟨k', hk'⟩ := hrun k₁
    cases hk'.symm.trans hset
    exact ⟨hfree, s', k', rfl, hentry⟩
  · rcases h with hlater | ⟨c, d₁, hfree, ⟨k₁, rfl⟩, hset⟩
    · exact hlater
    · obtain ⟨s', hrun, -⟩ := runs_setFatEntry g hfree.2.1 0x0FFFFFFF s
      obtain ⟨k', hk'⟩ := hrun k₁
      cases hk'.symm.trans hset

/-! ### Reading and writing clusters -/

structure ClusterSet (fs : Fat32) (s s' : ℕ → Sector) (c : ℕ) (buf : List Byte) : Prop where
  fat : ∀ c' < fs.numClusters, fs.fat s' c' = fs.fat s c'
  cluster : ∀ c', 2 ≤ c' → fs.cluster s' c' = if c' = c then buf else fs.cluster s c'
  mirror : Mirrored fs s → Mirrored fs s'

section

variable (g : fs.Geometry fault)
include g

theorem clusterSet_stored (h2 : 2 ≤ c) (hbuf : buf.length = fs.clusterBytes) :
    ClusterSet fs s (stored s (fs.lbaOf c) fs.bpb.sectorsPerCluster buf) c buf := by
  refine ⟨fun c' hc' => ?_, fun c' h2' => ?_, fun hmirror i hi j hj => ?_⟩
  · have hfle := g.fat_le
    exact fat_stored_of_ge g (by unfold lbaOf; omega) hc'
  · by_cases heq : c' = c
    · subst heq
      rw [if_pos rfl]
      exact bytesAt_stored hbuf
    · rw [if_neg heq]
      refine bytesAt_stored_of_disjoint ?_
      -- distinct clusters are disjoint ranges of sectors
      unfold lbaOf
      rcases Nat.lt_or_gt_of_ne heq with hlt | hlt
      · left
        have : (c' - 2 + 1) * fs.bpb.sectorsPerCluster ≤ (c - 2) * fs.bpb.sectorsPerCluster := mul_le_mul_right _ (by omega)
        rw [succ_mul] at this
        omega
      · right
        have : (c - 2 + 1) * fs.bpb.sectorsPerCluster ≤ (c' - 2) * fs.bpb.sectorsPerCluster := mul_le_mul_right _ (by omega)
        rw [succ_mul] at this
        omega
  · -- the copies come before the data
    have hdata := g.data_eq
    have hcopy : (i + 1) * fs.bpb.sectorsPerFat ≤ fs.bpb.numFats * fs.bpb.sectorsPerFat := mul_le_mul_right _ hi
    have hone := Nat.le_mul_of_pos_left fs.bpb.sectorsPerFat g.fats_pos
    rw [succ_mul] at hcopy
    have hout : ∀ l, l < fs.dataStartLba → stored s (fs.lbaOf c) fs.bpb.sectorsPerCluster buf l = s l := fun l hl => by
      rw [stored, if_neg]
      unfold lbaOf
      omega
    rw [hout _ (by omega), hout _ (by omega), hmirror i hi j hj]

theorem runs_writeAll (h2 : 2 ≤ c) (hc : c < fs.numClusters) (hbuf : buf.length = fs.clusterBytes) (s : ℕ → Sector) :
    ∃ s', Runs fault (Ata.write (fs.lbaOf c) fs.bpb.sectorsPerCluster buf) s () s' ∧ ClusterSet fs s s' c buf := by
  have hlt := g.data_lt c h2 hc
  have hpos := g.spc_pos
  exact ⟨_, runs_write hpos hbuf (by omega) (g.data_ok c h2 hc), clusterSet_stored g h2 hbuf⟩

theorem runs_readAll (h2 : 2 ≤ c) (hc : c < fs.numClusters) :
    Runs fault (Ata.read (fs.lbaOf c) fs.bpb.sectorsPerCluster (zeros fs.clusterBytes)) s (fs.cluster s c) s := by
  have hlt := g.data_lt c h2 hc
  have hpos := g.spc_pos
  exact runs_read hpos List.length_replicate (by omega) (g.data_ok c h2 hc)

theorem runs_writeCluster (h2 : 2 ≤ c) (hc : c < fs.numClusters) {data : List Byte}
    (hdata : data.length ≤ fs.clusterBytes) (s : ℕ → Sector) : ∃ s', Runs fault (fs.writeCluster c data) s () s' ∧
    ClusterSet fs s s' c (data ++ zeros (fs.clusterBytes - data.length)) := by
  have hlen : (data ++ zeros (fs.clusterBytes - data.length)).length = fs.clusterBytes := by
    rw [List.length_append, zeros, List.length_replicate]
    omega
  obtain ⟨s', hrun, hset⟩ := runs_writeAll g h2 hc hlen s
  refine ⟨s', ?_, hset⟩
  unfold writeCluster
  rw [if_neg (by omega), g.clusterToLba_eq h2 hc]
  exact Runs.pure.bind hrun

end

end Geometry

end RustKernel.Drivers.Fat32
