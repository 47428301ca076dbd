import Mathlib.Data.Nat.Bitwise
import RustKernel.Lib.Exec
import RustKernel.Lib.Utf8

/-!
# The ATA disk

`drivers/ata.rs` moves whole sectors of 512 bytes over the PIO port, waiting for the
drive before each one. The drive answers late or with an error whenever it likes, so the
disk carries, besides its contents, which accesses fail: `fault t lba` is the error of an
access to the sector `lba` at time `t`, and every wait takes one unit of time.
-/

namespace RustKernel.Drivers

open Lib Exec
open Outcome (ends_ok ends_err)

def SECTOR_SIZE : ℕ := 512

abbrev Sector : Type := Fin SECTOR_SIZE → Byte

structure Disk where
  sectors : ℕ → Sector
  clock : ℕ
  fault : ℕ → ℕ → Option String

namespace Ata

variable {lba n : ℕ} {d₀ : Disk} {d : Disk}

def Sector.toBytes (s : Sector) : List Byte := List.ofFn s

def Sector.ofBytes (buf : List Byte) : Sector := fun i => buf.getD i 0

def wait (lba : ℕ) : Exec String Disk Unit := fun d =>
  let d' := { d with clock := d.clock + 1 }
  match d.fault d.clock lba with
  | none => .ok () d'
  | some e => .err e d'

def readSector (lba : ℕ) : Exec String Disk (List Byte) := fun d => .ok (Sector.toBytes (d.sectors lba)) d

def writeSector (lba : ℕ) (buf : List Byte) : Exec String Disk Unit :=
  Exec.modify fun d => { d with sectors := Function.update d.sectors lba (Sector.ofBytes buf) }

def readLoop : ℕ → ℕ → Exec String Disk (List Byte)
  | _, 0 => pure []
  | lba, n + 1 => do
    wait lba
    let sector ← readSector lba
    let rest ← readLoop (lba + 1) n
    pure (sector ++ rest)

@[irreducible]
def read (lba count : ℕ) (buf : List Byte) : Exec String Disk (List Byte) :=
  if count = 0 then pure buf
  else if buf.length < count * SECTOR_SIZE then Exec.throw "buf trop petit"
  else if lba &&& 0xF0000000 ≠ 0 then Exec.throw "LBA28 overflow"
  else do
    let bytes ← readLoop lba count
    pure (bytes ++ buf.drop (count * SECTOR_SIZE))

def writeLoop : ℕ → ℕ → List Byte → Exec String Disk Unit
  | _, 0, _ => pure ()
  | lba, n + 1, buf => do
    wait lba
    writeSector lba buf
    writeLoop (lba + 1) n (buf.drop SECTOR_SIZE)

def write (lba count : ℕ) (buf : List Byte) : Exec String Disk Unit :=
  if count = 0 then pure ()
  else if buf.length < count * SECTOR_SIZE then Exec.throw "buf trop petit"
  else if lba &&& 0xF0000000 ≠ 0 then Exec.throw "LBA28 overflow"
  else do
    writeLoop lba count buf
    wait lba

/-! ### What a write leaves alone -/

structure KeepsOutside (lba n : ℕ) (d d' : Disk) : Prop where
  sectors : ∀ l, ¬ (lba ≤ l ∧ l < lba + n) → d'.sectors l = d.sectors l
  fault : d'.fault = d.fault

theorem ends_wait (l : ℕ) (h : KeepsOutside lba n d₀ d) : (wait l d).Ends (KeepsOutside lba n d₀) := by
  unfold wait
  cases d.fault d.clock l with
  | none => exact ends_ok ⟨h.sectors, h.fault⟩
  | some e => exact ends_err ⟨h.sectors, h.fault⟩

theorem ends_writeSector {l : ℕ} {buf : List Byte} (hl : lba ≤ l ∧ l < lba + n)
    (h : KeepsOutside lba n d₀ d) : (writeSector l buf d).Ends (KeepsOutside lba n d₀) := by
  refine ends_ok ⟨fun l' hl' => ?_, h.fault⟩
  have hne : l' ≠ l := fun heq => hl' (heq ▸ hl)
  exact (Function.update_of_ne hne ..).trans (h.sectors l' hl')

theorem ends_writeLoop : ∀ {m l : ℕ} {buf : List Byte} {d : Disk}, lba ≤ l →
    l + m ≤ lba + n → KeepsOutside lba n d₀ d → (writeLoop l m buf d).Ends (KeepsOutside lba n d₀)
  | 0, _, _, _, _, _, h => ends_ok h
  | m + 1, l, buf, d, hge, hle, h => by
    refine ends_bind (ends_wait l h) fun _ d₁ h₁ => ?_
    refine ends_bind (ends_writeSector ⟨hge, by omega⟩ h₁) fun _ d₂ h₂ => ?_
    exact ends_writeLoop (by omega) (by omega) h₂

theorem ends_write (lba count : ℕ) (buf : List Byte) (d : Disk) : (write lba count buf d).Ends (KeepsOutside lba count d) := by
  have hself : KeepsOutside lba count d d := ⟨fun _ _ => rfl, rfl⟩
  unfold write
  split_ifs
  · exact ends_ok hself
  · exact ends_err hself
  · exact ends_err hself
  · exact ends_bind (ends_writeLoop le_rfl le_rfl hself) fun _ d' h => ends_wait lba h

/-! ### When a write succeeds -/

/-- No access of a write of `n` sectors fails: one for each sector, and the flush after them. -/
def Ready (lba n : ℕ) (d : Disk) : Prop :=
  (∀ i < n, d.fault (d.clock + i) (lba + i) = none) ∧ d.fault (d.clock + n) lba = none

theorem wait_ready (lba : ℕ) (d : Disk) : (wait lba d).Post
    (fun _ d' => d.fault d.clock lba = none ∧ d' = { d with clock := d.clock + 1 }) (fun _ _ => d.fault d.clock lba ≠ none) := by
  unfold wait
  cases d.fault d.clock lba with
  | none => exact ⟨rfl, rfl⟩
  | some e => exact Option.some_ne_none e

theorem writeLoop_ready : ∀ (n lba : ℕ) (buf : List Byte) (d : Disk), (writeLoop lba n buf d).Post
    (fun _ d' => (∀ i < n, d.fault (d.clock + i) (lba + i) = none) ∧ d'.fault = d.fault ∧ d'.clock = d.clock + n)
    (fun _ _ => ∃ i < n, d.fault (d.clock + i) (lba + i) ≠ none)
  | 0, _, _, _ => ⟨nofun, rfl, rfl⟩
  | n + 1, lba, buf, d => by
    refine post_bind ((wait_ready lba d).imp_err fun _ _ h => ⟨0, n.succ_pos, h⟩) ?_
    rintro _ _ ⟨h0, rfl⟩
    have hsucc : ∀ i, d.clock + 1 + i = d.clock + (i + 1) ∧ lba + 1 + i = lba + (i + 1) := by omega
    refine (writeLoop_ready n (lba + 1) _ _).imp ?_ ?_
    · rintro _ d' ⟨hall, hf, hc⟩
      refine ⟨fun i hi => ?_, hf, hc.trans (hsucc n).1⟩
      cases i with
      | zero => exact h0
      | succ i => exact (hsucc i).1 ▸ (hsucc i).2 ▸ hall i (by omega)
    · rintro _ _ ⟨i, hi, hne⟩
      exact ⟨i + 1, by omega, (hsucc i).1 ▸ (hsucc i).2 ▸ hne⟩

theorem write_ready {buf : List Byte} (hn : n ≠ 0) (hlen : n * SECTOR_SIZE ≤ buf.length) (hlba : lba &&& 0xF0000000 = 0) :
    (write lba n buf d).Post (fun _ _ => Ready lba n d) (fun _ _ => ¬ Ready lba n d) := by
  rw [write, if_neg hn, if_neg (Nat.not_lt.mpr hlen), if_neg (not_not_intro hlba)]
  refine post_bind ((writeLoop_ready n lba buf d).imp_err fun _ _ ⟨i, hi, hne⟩ h => hne (h.1 i hi)) ?_
  rintro _ d' ⟨hall, hf, hc⟩
  refine (wait_ready lba d').imp (fun _ _ h => ⟨hall, ?_⟩) fun _ _ hne h => hne ?_
  · rw [← hf, ← hc, h.1]
  · rw [hf, hc, h.2]

/-! ### Accesses that do not fail -/

def Runs {α : Type} (fault : ℕ → ℕ → Option String) (x : Exec String Disk α) (s : ℕ → Sector) (a : α)
    (s' : ℕ → Sector) : Prop :=
  ∀ k, ∃ k', x ⟨s, k, fault⟩ = .ok a ⟨s', k', fault⟩

section Runs

variable {α β : Type} {fault : ℕ → ℕ → Option String} {s s' s'' : ℕ → Sector} {a : α} {b : β}
  {x : Exec String Disk α}
variable {buf : List Byte} {lba count n : ℕ} {f : α → Exec String Disk β} {E : String → Disk → Prop} {k : ℕ}

theorem Runs.pure : Runs fault (pure a) s a s := fun k => ⟨k, rfl⟩

theorem Runs.bind (hx : Runs fault x s a s') (hf : Runs fault (f a) s' b s'') : Runs fault (x >>= f) s b s'' := by
  intro k
  obtain ⟨k', hk⟩ := hx k
  obtain ⟨k'', hk'⟩ := hf k'
  exact ⟨k'', (bind_of_ok hk).trans hk'⟩

theorem Runs.post_bind {Q : β → Disk → Prop}
    (hx : Runs fault x s a s') (hf : ∀ k', (f a ⟨s', k', fault⟩).Post Q E) : ((x >>= f) ⟨s, k, fault⟩).Post Q E := by
  obtain ⟨k', hk⟩ := hx k
  rw [bind_of_ok hk]
  exact hf k'

theorem Runs.post {Q : α → Disk → Prop} (hx : Runs fault x s a s')
    (hq : ∀ k', Q a ⟨s', k', fault⟩) : (x ⟨s, k, fault⟩).Post Q E := by
  obtain ⟨k', hk⟩ := hx k
  rw [hk]
  exact hq k'

theorem Runs.attempt (hx : Runs fault x s a s') : Runs fault (Exec.attempt x) s (.ok a) s' := by
  intro k
  obtain ⟨k', hk⟩ := hx k
  exact ⟨k', by simp [Exec.attempt, hk]⟩

theorem Runs.of_eq {a' : α} {s₁ : ℕ → Sector} (hx : Runs fault x s a s') (hs : s' = s₁) (ha : a = a') :
    Runs fault x s a' s₁ := hs ▸ ha ▸ hx

theorem runs_readSector (lba : ℕ) : Runs fault (readSector lba) s (Sector.toBytes (s lba)) s :=
  fun k => ⟨k, rfl⟩

theorem runs_writeSector (lba : ℕ) : Runs fault (writeSector lba buf) s () (Function.update s lba (Sector.ofBytes buf)) :=
  fun k => ⟨k, rfl⟩

theorem runs_wait (h : ∀ t, fault t lba = none) : Runs fault (wait lba) s () s :=
  fun k => ⟨k + 1, by simp [wait, h]⟩

theorem and_high_eq_zero (h : lba < 2 ^ 28) : lba &&& 0xF0000000 = 0 := by
  have hhigh : 0xF0000000 = 15 <<< 28 := by decide
  rw [hhigh]
  refine Nat.eq_of_testBit_eq fun i => ?_
  rw [Nat.testBit_and, Nat.testBit_shiftLeft]
  by_cases hi : 28 ≤ i
  · have hpow : lba < 2 ^ i := lt_of_lt_of_le h (Nat.pow_le_pow_right (by decide) hi)
    simp [Nat.testBit_lt_two_pow hpow]
  · simp [hi]

def bytesAt (s : ℕ → Sector) (lba n : ℕ) : List Byte :=
  (List.range n).flatMap fun i => Sector.toBytes (s (lba + i))

def stored (s : ℕ → Sector) (lba n : ℕ) (buf : List Byte) : ℕ → Sector := fun l =>
  if lba ≤ l ∧ l < lba + n then Sector.ofBytes (buf.drop ((l - lba) * SECTOR_SIZE)) else s l

@[simp] theorem length_toBytes (s : Sector) : (Sector.toBytes s).length = SECTOR_SIZE := by simp [Sector.toBytes]

theorem getD_toBytes (s : Sector) {i : ℕ} (h : i < SECTOR_SIZE) : (Sector.toBytes s).getD i 0 = s ⟨i, h⟩ := by
  simp [Sector.toBytes, h]

theorem toBytes_ofBytes (h : SECTOR_SIZE ≤ buf.length) : Sector.toBytes (Sector.ofBytes buf) = buf.take SECTOR_SIZE := by
  apply List.ext_getElem
  · rw [length_toBytes, List.length_take, Nat.min_eq_left h]
  · intro i h₁ h₂
    have hi : i < buf.length := lt_of_lt_of_le (by simpa using h₁) h
    simp [Sector.toBytes, Sector.ofBytes, hi]

theorem bytesAt_succ (lba n : ℕ) : bytesAt s lba (n + 1) = Sector.toBytes (s lba) ++ bytesAt s (lba + 1) n := by
  simp only [bytesAt, List.range_succ_eq_map, List.flatMap_cons, Nat.add_zero, List.flatMap_map]
  simp only [Nat.add_assoc, Nat.add_comm 1]

@[simp] theorem length_bytesAt (lba n : ℕ) : (bytesAt s lba n).length = n * SECTOR_SIZE := by
  simp only [bytesAt, List.length_flatMap, length_toBytes, List.map_const', List.length_range, List.sum_replicate_nat]

/-! ### Accesses that may fail -/

def Later (d d' : Disk) : Prop := ∃ k, d' = { d with clock := k }

theorem Later.refl (d : Disk) : Later d d := ⟨d.clock, rfl⟩

theorem Later.trans {d d' d'' : Disk} (h : Later d d') (h' : Later d' d'') : Later d d'' := by
  obtain ⟨k, rfl⟩ := h
  obtain ⟨k', rfl⟩ := h'
  exact ⟨k', rfl⟩

theorem Later.sectors_eq {d d' : Disk} (h : Later d d') : d'.sectors = d.sectors := by
  obtain ⟨k, rfl⟩ := h
  rfl

theorem post_wait (l : ℕ) (d : Disk) : (wait l d).Post (fun _ d' => Later d d') (fun _ d' => Later d d') := by
  unfold wait
  cases d.fault d.clock l with
  | none => exact ⟨_, rfl⟩
  | some e => exact ⟨_, rfl⟩

theorem readLoop_ends : ∀ {n l : ℕ} {d : Disk}, Later d₀ d → (readLoop l n d).Ends (Later d₀)
  | 0, _, _, h => ends_ok h
  | n + 1, l, d, h => by
    have hwait : (wait l d).Ends (Later d₀) := by
      unfold wait
      cases d.fault d.clock l with
      | none => exact ends_ok (h.trans ⟨_, rfl⟩)
      | some e => exact ends_err (h.trans ⟨_, rfl⟩)
    refine ends_bind hwait fun _ d₁ h₁ => ?_
    refine ends_bind (ends_ok (a := Sector.toBytes (d₁.sectors l)) h₁) fun _ d₂ h₂ => ?_
    exact ends_bind (readLoop_ends h₂) fun _ _ h₃ => ends_ok h₃

theorem read_ends (lba count : ℕ) (buf : List Byte) (d : Disk) : (read lba count buf d).Ends (Later d) := by
  unfold read
  split_ifs
  · exact ends_ok (.refl d)
  · exact ends_err (.refl d)
  · exact ends_err (.refl d)
  · exact ends_bind (readLoop_ends (.refl d)) fun _ _ h => ends_ok h

theorem post_readLoop : ∀ {n l : ℕ} {d d₀ : Disk}, Later d₀ d →
    (readLoop l n d).Post (fun bytes d' => Later d₀ d' ∧ bytes = bytesAt d₀.sectors l n) (fun _ d' => Later d₀ d')
  | 0, _, _, _, h => ⟨h, rfl⟩
  | n + 1, l, d, d₀, h => by
    have hwait : (wait l d).Post (fun _ d' => Later d₀ d') (fun _ d' => Later d₀ d') :=
      (post_wait l d).imp (fun _ _ => h.trans) fun _ _ => h.trans
    refine post_bind hwait fun _ d₁ h₁ => ?_
    have hsec : (readSector l d₁).Post (fun b d' => b = Sector.toBytes (d₀.sectors l) ∧ Later d₀ d')
        (fun _ d' => Later d₀ d') := ⟨by rw [h₁.sectors_eq], h₁⟩
    refine post_bind hsec fun b d₂ h₂ => ?_
    refine post_bind (post_readLoop h₂.2) fun rest d₃ h₃ => ⟨h₃.1, ?_⟩
    rw [h₂.1, h₃.2, bytesAt_succ]

theorem post_read (hpos : 0 < count) (hbuf : buf.length = count * SECTOR_SIZE) (d : Disk) : (read lba count buf d).Post
    (fun bytes d' => Later d d' ∧ bytes = bytesAt d.sectors lba count) (fun _ d' => Later d d') := by
  rw [read, if_neg hpos.ne', if_neg (hbuf ▸ lt_irrefl _)]
  by_cases hlba : lba &&& 0xF0000000 ≠ 0
  · rw [if_pos hlba]
    exact .refl d
  · rw [if_neg hlba]
    refine post_bind (post_readLoop (.refl d)) fun bytes d' h => ⟨h.1, ?_⟩
    rw [h.2, List.drop_eq_nil_of_le hbuf.le, List.append_nil]

theorem post_readOne (hbuf : buf.length = SECTOR_SIZE) (d : Disk) :
    (read lba 1 buf d).Post (fun bytes d' => Later d d' ∧ bytes = Sector.toBytes (d.sectors lba)) (fun _ d' => Later d d') := by
  refine (post_read Nat.one_pos (hbuf.trans (Nat.one_mul _).symm) d).imp_ok (fun bytes d' h => ⟨h.1, ?_⟩)
  rw [h.2]
  simp [bytesAt]

theorem bytesAt_congr (h : ∀ i, i < n → s (lba + i) = s' (lba + i)) : bytesAt s lba n = bytesAt s' lba n := by
  have hmap : ∀ i ∈ List.range n, Sector.toBytes (s (lba + i)) = Sector.toBytes (s' (lba + i)) :=
    fun i hi => by rw [h i (List.mem_range.mp hi)]
  rw [bytesAt, bytesAt, List.flatMap_def, List.flatMap_def, List.map_congr_left hmap]

theorem bytesAt_stored_of_disjoint {lba' n' : ℕ}
    (h : lba + n ≤ lba' ∨ lba' + n' ≤ lba) : bytesAt (stored s lba' n' buf) lba n = bytesAt s lba n := by
  refine bytesAt_congr fun i hi => ?_
  have hout : ¬ (lba' ≤ lba + i ∧ lba + i < lba' + n') := by omega
  simp [stored, hout]

theorem bytesAt_stored : ∀ {buf : List Byte}, buf.length = n * SECTOR_SIZE → bytesAt (stored s lba n buf) lba n = buf := by
  intro buf h
  have hcut : ∀ m ≤ n, bytesAt (stored s lba n buf) lba m = buf.take (m * SECTOR_SIZE) := by
    intro m
    induction m with
    | zero => intro _; simp [bytesAt]
    | succ m ih =>
      intro hm
      have hsec : SECTOR_SIZE ≤ (buf.drop (m * SECTOR_SIZE)).length := by
        rw [List.length_drop, h, ← Nat.sub_mul]
        exact Nat.le_mul_of_pos_left _ (by omega)
      have hin : lba ≤ lba + m ∧ lba + m < lba + n := by omega
      have hlast : Sector.toBytes (stored s lba n buf (lba + m)) = (buf.drop (m * SECTOR_SIZE)).take SECTOR_SIZE := by
        rw [stored, if_pos hin, Nat.add_sub_cancel_left, toBytes_ofBytes hsec]
      rw [bytesAt, List.range_succ, List.flatMap_append, List.flatMap_singleton, hlast, Nat.succ_mul, List.take_add]
      exact congrArg (· ++ _) (ih (by omega))
  rw [hcut n le_rfl, ← h, List.take_length]

theorem runs_readLoop : ∀ {n lba : ℕ}, (∀ t i, i < n → fault t (lba + i) = none) →
    Runs fault (readLoop lba n) s (bytesAt s lba n) s
  | 0, _, _ => Runs.pure
  | n + 1, lba, h => by
    have hhead : ∀ t, fault t lba = none := fun t => by simpa using h t 0 (by omega)
    have htail : ∀ t i, i < n → fault t (lba + 1 + i) = none := fun t i hi => by
      simpa [Nat.add_assoc, Nat.add_comm 1] using h t (i + 1) (by omega)
    rw [bytesAt_succ]
    exact (runs_wait hhead).bind ((runs_readSector lba).bind ((runs_readLoop htail).bind Runs.pure))

theorem runs_read (hpos : 0 < count) (hbuf : buf.length = count * SECTOR_SIZE) (hlba : lba < 2 ^ 28)
    (h : ∀ t i, i < count → fault t (lba + i) = none) : Runs fault (read lba count buf) s (bytesAt s lba count) s := by
  have hdrop : buf.drop (count * SECTOR_SIZE) = [] := List.drop_eq_nil_of_le hbuf.le
  rw [read, if_neg hpos.ne', if_neg (hbuf ▸ lt_irrefl _), if_neg (not_not.mpr (and_high_eq_zero hlba))]
  exact (runs_readLoop h).bind (Runs.pure.of_eq rfl (by simp [hdrop]))

theorem stored_succ :
    stored (Function.update s lba (Sector.ofBytes buf)) (lba + 1) n (buf.drop SECTOR_SIZE) = stored s lba (n + 1) buf := by
  funext l
  rcases Nat.lt_trichotomy l lba with hl | rfl | hl
  · have h₁ : ¬ (lba + 1 ≤ l ∧ l < lba + 1 + n) := by omega
    have h₂ : ¬ (lba ≤ l ∧ l < lba + (n + 1)) := by omega
    simp only [stored, if_neg h₁, if_neg h₂, Function.update_of_ne hl.ne]
  · have h₁ : ¬ (l + 1 ≤ l ∧ l < l + 1 + n) := by omega
    have h₂ : l ≤ l ∧ l < l + (n + 1) := by omega
    simp only [stored, if_neg h₁, if_pos h₂, Function.update_self, Nat.sub_self, Nat.zero_mul, List.drop_zero]
  · have hiff : (lba + 1 ≤ l ∧ l < lba + 1 + n) ↔ (lba ≤ l ∧ l < lba + (n + 1)) := by omega
    have hoff : SECTOR_SIZE + (l - (lba + 1)) * SECTOR_SIZE = (l - lba) * SECTOR_SIZE := by
      rw [Nat.add_comm, ← Nat.succ_mul]
      congr 1
      omega
    simp only [stored, hiff, List.drop_drop, hoff, Function.update_of_ne hl.ne']

theorem stored_zero (s : ℕ → Sector) (lba : ℕ) (buf : List Byte) : stored s lba 0 buf = s := by
  funext l
  have : ¬ (lba ≤ l ∧ l < lba + 0) := by omega
  simp only [stored, if_neg this]

theorem post_writeLoop : ∀ {n lba : ℕ} {buf : List Byte} {d : Disk}, (writeLoop lba n buf d).Post
    (fun _ d' => d'.sectors = stored d.sectors lba n buf) (fun _ _ => True)
  | 0, lba, buf, d => (stored_zero d.sectors lba buf).symm
  | n + 1, lba, buf, d => by
    refine post_bind ((post_wait lba d).imp_err fun _ _ _ => trivial) fun _ d₁ h₁ => ?_
    rw [writeSector, modify_bind]
    refine post_writeLoop.imp (fun _ d' h => ?_) fun _ _ _ => trivial
    rw [h, h₁.sectors_eq, stored_succ]

theorem post_write (hpos : 0 < count) (buf : List Byte) (d : Disk) : (write lba count buf d).Post
    (fun _ d' => d'.sectors = stored d.sectors lba count buf) (fun _ _ => True) := by
  unfold write
  split_ifs with h₁
  · exact absurd h₁ hpos.ne'
  · trivial
  · trivial
  · refine post_bind post_writeLoop fun _ d₁ h₁ => ?_
    exact (post_wait lba d₁).imp (fun _ _ h => h.sectors_eq.trans h₁) fun _ _ _ => trivial

theorem runs_writeLoop : ∀ {n lba : ℕ} {s : ℕ → Sector} {buf : List Byte},
    (∀ t i, i < n → fault t (lba + i) = none) →
    Runs fault (writeLoop lba n buf) s () (stored s lba n buf)
  | 0, lba, s, buf, _ => by
    rw [stored_zero]
    exact Runs.pure
  | n + 1, lba, s, buf, h => by
    have hhead : ∀ t, fault t lba = none := fun t => by simpa using h t 0 (by omega)
    have htail : ∀ t i, i < n → fault t (lba + 1 + i) = none := fun t i hi => by
      simpa [Nat.add_assoc, Nat.add_comm 1] using h t (i + 1) (by omega)
    rw [← stored_succ]
    exact (runs_wait hhead).bind ((runs_writeSector lba).bind (runs_writeLoop htail))

theorem runs_write (hpos : 0 < count) (hbuf : buf.length = count * SECTOR_SIZE) (hlba : lba < 2 ^ 28)
    (h : ∀ t i, i < count → fault t (lba + i) = none) : Runs fault (write lba count buf) s () (stored s lba count buf) := by
  rw [write, if_neg hpos.ne', if_neg (hbuf ▸ lt_irrefl _), if_neg (not_not.mpr (and_high_eq_zero hlba))]
  exact (runs_writeLoop h).bind (runs_wait fun t => h t 0 hpos)

end Runs

end Ata

end RustKernel.Drivers
