import RustKernel.Drivers.Fat32.Model

/-!
# Partitions

`drivers/part.rs` reads the first sector of a disk and records the partitions of its table.
-/

namespace RustKernel.Drivers

open Lib Exec

inductive PartitionType where
  | empty
  | fat12
  | fat16
  | fat32
  | fat32Lba
  | fat16Lba
  | ntfs
  | linux
  | linuxSwap
  | gptProtective
  | unknown (t : ℕ)
  deriving DecidableEq, Repr

def PartitionType.fromMbrType : ℕ → PartitionType
  | 0x00 => .empty
  | 0x01 => .fat12
  | 0x04 | 0x06 => .fat16
  | 0x0B => .fat32
  | 0x0C => .fat32Lba
  | 0x0E => .fat16Lba
  | 0x07 => .ntfs
  | 0x83 => .linux
  | 0x82 => .linuxSwap
  | 0xEE => .gptProtective
  | other => .unknown other

def PartitionType.isFat32 : PartitionType → Bool
  | .fat32 | .fat32Lba => true
  | _ => false

structure Partition where
  diskIdx : ℕ
  index : ℕ
  partType : PartitionType
  startLba : ℕ
  sectors : ℕ
  bootable : Bool
  deriving DecidableEq, Repr

def Partition.Has (p : Partition) (idx lba : ℕ) : Prop :=
  p.diskIdx = idx ∧ p.startLba ≤ lba ∧ lba < p.startLba + p.sectors

structure Drives where
  disks : Option (List Disk)
  partitions : Option (List Partition)

namespace Drives

variable {α : Type} {idx : ℕ} {x : Exec String Disk α}

def sector (s : Drives) (idx lba : ℕ) : Option Sector :=
  (s.disks.bind fun list => list[idx]?).map fun d => d.sectors lba

def onDisk {α : Type} (idx : ℕ) (x : Exec String Disk α) : Exec String Drives α := fun s =>
  match s.disks with
  | none => .err "ata non initialisé" s
  | some list =>
    match list[idx]? with
    | none => .err "disque introuvable" s
    | some d => zoom (fun _ => d) (fun d' s => { s with disks := some (list.set idx d') }) x s

def record (parts : List Partition) : Exec String Drives Unit :=
  modify fun s => { s with partitions := s.partitions.or (some parts) }

theorem onDisk_of_ok {s : Drives} {list : List Disk} {d d' : Disk} {a : α} (hlist : s.disks = some list)
    (hd : list[idx]? = some d) (hx : x d = .ok a d') : onDisk idx x s = .ok a { s with disks := some (list.set idx d') } := by
  simp only [onDisk, hlist, hd, zoom, hx]

theorem onDisk_eq_ok {s s' : Drives} {a : α} (h : onDisk idx x s = .ok a s') : ∃ list d d', s.disks = some list ∧
    list[idx]? = some d ∧ x d = .ok a d' ∧ s' = { s with disks := some (list.set idx d') } := by
  unfold onDisk at h
  cases hdisks : s.disks with
  | none => simp [hdisks] at h
  | some list =>
    cases hd : list[idx]? with
    | none => simp [hdisks, hd] at h
    | some d =>
      simp only [hdisks, hd, zoom] at h
      cases hx : x d with
      | ok b d' =>
        simp only [hx, Outcome.ok.injEq] at h
        exact ⟨list, d, d', rfl, hd, h.1 ▸ hx, h.2.symm⟩
      | err e d' => simp [hx] at h
      | panic => simp [hx] at h
      | diverge => simp [hx] at h

theorem ends_onDisk {lba n : ℕ} (hx : ∀ d, (x d).Ends (Ata.KeepsOutside lba n d)) (s : Drives) : (onDisk idx x s).Ends fun s' =>
    s'.partitions = s.partitions ∧ ∀ i l, ¬ (i = idx ∧ lba ≤ l ∧ l < lba + n) → s'.sector i l = s.sector i l := by
  unfold onDisk
  cases hdisks : s.disks with
  | none => exact Outcome.ends_err ⟨rfl, fun _ _ _ => rfl⟩
  | some list =>
    cases hd : list[idx]? with
    | none =>
      simp only [hd]
      exact Outcome.ends_err ⟨rfl, fun _ _ _ => rfl⟩
    | some d =>
      simp only [hd]
      refine ends_zoom ((hx d).imp fun d' hkeep => ⟨rfl, fun i l hout => ?_⟩)
      simp only [sector, hdisks, Option.bind_some, List.getElem?_set]
      by_cases hi : idx = i
      · subst hi
        have hlen : idx < list.length := (List.getElem?_eq_some_iff.mp hd).1
        rw [if_pos rfl, if_pos hlen, hd, Option.map_some, Option.map_some, hkeep.sectors l fun hin => hout ⟨rfl, hin⟩]
      · rw [if_neg hi]

end Drives

namespace Part

def entry (diskIdx : ℕ) (buf : List Byte) (i : ℕ) : Option Partition :=
  let base := 0x1BE + i * 16
  let pt := PartitionType.fromMbrType (buf.getD (base + 4) 0).toNat
  if pt = .empty then none
  else some { diskIdx, index := i, partType := pt, startLba := le32 buf (base + 8), sectors := le32 buf (base + 12),
              bootable := decide (buf.getD base 0 = 0x80#8) }

def parse (diskIdx : ℕ) (buf : List Byte) : List Partition :=
  if buf.getD 510 0 ≠ 0x55#8 ∨ buf.getD 511 0 ≠ 0xAA#8 then []
  else (List.range 4).filterMap (entry diskIdx buf)

def init (diskIdx : ℕ) : Exec String Drives Unit := do
  match ← attempt (Drives.onDisk diskIdx (Ata.read 0 1 (Fat32.zeros SECTOR_SIZE))) with
  | .error _ => Drives.record []
  | .ok buf => Drives.record (parse diskIdx buf)

theorem init_eq {idx : ℕ} {s : Drives} {list : List Disk} {d : Disk} (hlist : s.disks = some list) (hd : list[idx]? = some d)
    (hfirst : s.partitions = none) (hok : ∀ t, d.fault t 0 = none) :
    ∃ k, init idx s = .ok () ⟨some (list.set idx { d with clock := k }), some (parse idx (Ata.bytesAt d.sectors 0 1))⟩ := by
  have hbuf : (Fat32.zeros SECTOR_SIZE).length = 1 * SECTOR_SIZE := by rw [Fat32.zeros, List.length_replicate, Nat.one_mul]
  have hread : Ata.Runs d.fault (Ata.read 0 1 (Fat32.zeros SECTOR_SIZE)) d.sectors (Ata.bytesAt d.sectors 0 1) d.sectors :=
    Ata.runs_read Nat.one_pos hbuf (by decide) fun t i hi => by
      rw [show 0 + i = 0 by omega]
      exact hok t
  obtain ⟨k, hk⟩ := hread d.clock
  refine ⟨k, ?_⟩
  simp only [init, bind_apply, attempt, Drives.onDisk_of_ok hlist hd hk]
  rw [hfirst]
  rfl

def findFirstFat32 (s : Drives) : Option (ℕ × ℕ × ℕ) := do
  let parts ← s.partitions
  let p ← parts.find? fun p => p.partType.isFat32
  pure (p.diskIdx, p.startLba, p.sectors)

end Part

end RustKernel.Drivers
