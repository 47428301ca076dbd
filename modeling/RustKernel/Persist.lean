import RustKernel.Drivers.Part

/-!
# The saved state

`persist.rs` saves some files of the ramfs in 64 sectors of the first disk, from the LBA 2048 on; `users::save`
writes the accounts to one of these files and saves them. The window is fixed, and the table of partitions is
not consulted.
-/

namespace RustKernel

open Lib Exec Drivers

abbrev Ramfs : Type := List Char → Option (List Byte)

structure Storage where
  drives : Drives
  files : Ramfs

namespace Persist

def MAGIC : List Byte := [0x44#8, 0x4F#8, 0x53#8, 0x53#8, 0x54#8, 0x41#8, 0x54#8, 0x45#8]

def VERSION : ℕ := 1

def PERSIST_LBA : ℕ := 2048

def PERSIST_SECTORS : ℕ := 64

def PERSIST_BYTES : ℕ := PERSIST_SECTORS * 512

def DISK_IDX : ℕ := 0

def PASSWD_PATH : List Char := ['/', 'e', 't', 'c', '/', 'p', 'a', 's', 's', 'w', 'd']

def PERSISTED_PATHS : List (List Char) :=
  [PASSWD_PATH, ['/', 'e', 't', 'c', '/', 's', 'e', 't', 't', 'i', 'n', 'g', 's']]

def entryBytes (path : List Char) (data : List Byte) : List Byte :=
  le16Bytes (Utf8.encode path).length ++ Utf8.encode path ++ le32Bytes data.length ++ data

def serialize (entries : List (List Char × List Byte)) : List Byte :=
  let buf := MAGIC ++ le32Bytes VERSION ++ le32Bytes entries.length ++ entries.flatMap fun e => entryBytes e.1 e.2
  buf ++ List.replicate (PERSIST_BYTES - buf.length) 0

def collect (files : Ramfs) : List (List Char × List Byte) :=
  PERSISTED_PATHS.filterMap fun path => (files path).map fun data => (path, data)

def writeBlob (buf : List Byte) : Exec String Storage Unit :=
  zoom Storage.drives (fun drives s => { s with drives })
    (Drives.onDisk DISK_IDX (Ata.write PERSIST_LBA PERSIST_SECTORS buf))

def saveFromRamfs : Exec String Storage Unit := fun s =>
  let buf := serialize (collect s.files)
  if buf.length > PERSIST_BYTES then .err "persist: blob trop gros (>32 KiB)" s
  else writeBlob buf s

/-! ### What is written -/

def InWindow (idx lba : ℕ) : Prop := idx = DISK_IDX ∧ PERSIST_LBA ≤ lba ∧ lba < PERSIST_LBA + PERSIST_SECTORS

theorem le_length_serialize (entries : List (List Char × List Byte)) : PERSIST_BYTES ≤ (serialize entries).length := by
  rw [serialize, List.length_append, List.length_replicate]
  omega

theorem length_entryBytes (path : List Char) (data : List Byte) :
    (entryBytes path data).length = 6 + (Utf8.encode path).length + data.length := by
  simp only [entryBytes, le32Bytes, le16Bytes, List.length_append, List.length_cons, List.length_nil]
  omega

theorem length_serialize_single {path : List Char} {data : List Byte}
    (h : 22 + (Utf8.encode path).length + data.length ≤ PERSIST_BYTES) : (serialize [(path, data)]).length ≤ PERSIST_BYTES := by
  have hbuf : (MAGIC ++ le32Bytes VERSION ++ le32Bytes [(path, data)].length ++
      [(path, data)].flatMap fun e => entryBytes e.1 e.2).length = 22 + (Utf8.encode path).length + data.length := by
    simp only [MAGIC, le32Bytes, le16Bytes, List.flatMap_cons, List.flatMap_nil, List.length_append, List.length_cons,
      List.length_nil, length_entryBytes]
    omega
  rw [serialize, List.length_append, List.length_replicate]
  omega

theorem ends_saveFromRamfs (s : Storage) : (saveFromRamfs s).Ends fun s' => s'.files = s.files ∧ s'.drives.partitions =
    s.drives.partitions ∧ ∀ idx lba, ¬ InWindow idx lba → s'.drives.sector idx lba = s.drives.sector idx lba := by
  unfold saveFromRamfs
  dsimp only
  split_ifs
  · exact Outcome.ends_err ⟨rfl, rfl, fun _ _ _ => rfl⟩
  · refine ends_zoom ((Drives.ends_onDisk (fun d => Ata.ends_write PERSIST_LBA PERSIST_SECTORS _ d) s.drives).imp ?_)
    exact fun drives' h => ⟨rfl, h.1, h.2⟩

theorem saveFromRamfs_stores {s : Storage} {list : List Disk} {d : Disk} (hlist : s.drives.disks = some list)
    (hd : list[DISK_IDX]? = some d) (hfit : (serialize (collect s.files)).length ≤ PERSIST_BYTES)
    (hok : ∀ t l, InWindow DISK_IDX l → d.fault t l = none) : ∃ s', saveFromRamfs s = .ok () s' ∧
    ∀ lba, InWindow DISK_IDX lba → s'.drives.sector DISK_IDX lba =
      some (Ata.Sector.ofBytes ((serialize (collect s.files)).drop ((lba - PERSIST_LBA) * SECTOR_SIZE))) := by
  have hlen : (serialize (collect s.files)).length = PERSIST_SECTORS * SECTOR_SIZE := le_antisymm hfit (le_length_serialize _)
  have hfault : ∀ t i, i < PERSIST_SECTORS → d.fault t (PERSIST_LBA + i) = none := fun t i hi =>
    hok t _ ⟨rfl, by omega, by omega⟩
  have hwrites := Ata.runs_write (s := d.sectors) (show 0 < PERSIST_SECTORS by decide) hlen (by decide) hfault
  obtain ⟨k, hk⟩ := hwrites d.clock
  have hidx : DISK_IDX < list.length := (List.getElem?_eq_some_iff.mp hd).1
  have hwrite := Drives.onDisk_of_ok hlist hd hk
  have hsave : saveFromRamfs s = writeBlob (serialize (collect s.files)) s := if_neg (Nat.not_lt.mpr hfit)
  rw [hsave, writeBlob, zoom, hwrite]
  refine ⟨_, rfl, fun lba hin => ?_⟩
  simp only [Drives.sector, Option.bind_some, List.getElem?_set_self hidx, Option.map_some, Ata.stored]
  rw [if_pos hin.2]

/-- The blob fits, and the disk takes it. -/
def Takes (drives : Drives) (buf : List Byte) : Prop :=
  buf.length ≤ PERSIST_BYTES ∧ ∃ list d, drives.disks = some list ∧ list[DISK_IDX]? = some d ∧
    Ata.Ready PERSIST_LBA PERSIST_SECTORS d

theorem saveFromRamfs_takes (s : Storage) : (saveFromRamfs s).Post (fun _ _ => Takes s.drives (serialize (collect s.files)))
    (fun _ _ => ¬ Takes s.drives (serialize (collect s.files))) := by
  unfold saveFromRamfs
  dsimp only
  split_ifs with hlen
  · exact fun h => absurd h.1 (Nat.not_le.mpr hlen)
  have hready : ∀ d, (Ata.write PERSIST_LBA PERSIST_SECTORS (serialize (collect s.files)) d).Post
      (fun _ _ => Ata.Ready PERSIST_LBA PERSIST_SECTORS d) (fun _ _ => ¬ Ata.Ready PERSIST_LBA PERSIST_SECTORS d) := fun d =>
    Ata.write_ready (by decide) (le_length_serialize _) (by decide)
  unfold writeBlob Drives.onDisk
  refine post_zoom ?_
  cases hdisks : s.drives.disks with
  | none => exact fun ⟨_, list, _, h, _⟩ => by cases hdisks.symm.trans h
  | some list =>
    cases hd : list[DISK_IDX]? with
    | none =>
      simp only [hd]
      rintro ⟨_, list', _, hl, hd', _⟩
      cases hdisks.symm.trans hl
      cases hd.symm.trans hd'
    | some d =>
      simp only [hd]
      refine post_zoom ((hready d).imp (fun _ _ h => ⟨Nat.not_lt.mp hlen, list, d, hdisks, hd, h⟩) ?_)
      rintro _ _ hno ⟨_, list', d', hl, hd', h⟩
      cases hdisks.symm.trans hl
      cases hd.symm.trans hd'
      exact hno h

end Persist

/-! ### Accounts -/

structure User where
  name : List Char
  passwordHash : List Char
  uid : ℕ
  gid : ℕ
  gecos : List Char
  home : List Char
  shell : List Char

namespace Users

def line (u : User) : List Char :=
  u.name ++ ':' :: u.passwordHash ++ ':' :: Nat.toDigits 10 u.uid ++ ':' :: Nat.toDigits 10 u.gid ++ ':' :: u.gecos ++
    ':' :: u.home ++ ':' :: u.shell ++ ['\n']

def serialize (users : List User) : List Char := users.flatMap line

def written (users : List User) (files : Ramfs) : Ramfs :=
  Function.update files Persist.PASSWD_PATH (some (Utf8.encode (serialize users)))

theorem written_self (users : List User) (files : Ramfs) :
    written users files Persist.PASSWD_PATH = some (Utf8.encode (serialize users)) := Function.update_self ..

def save (users : List User) : Exec String Storage Unit := do
  modify fun s => { s with files := written users s.files }
  Persist.saveFromRamfs

end Users

namespace Persist

def Spares (s s' : Storage) : Prop :=
  ∀ parts, s.drives.partitions = some parts → ∀ p ∈ parts, ∀ idx lba, p.Has idx lba →
    s'.drives.sector idx lba = s.drives.sector idx lba

/-- No recorded partition has a sector of the window. -/
def Apart (parts : Option (List Partition)) : Prop :=
  ∀ ps, parts = some ps → ∀ p ∈ ps, ∀ idx lba, InWindow idx lba → ¬ p.Has idx lba

/-- A drive on which every byte of the window differs from the one to be written. -/
def otherDisk (blob : List Byte) : Disk where
  sectors := fun lba i => ~~~ Ata.Sector.ofBytes (blob.drop ((lba - PERSIST_LBA) * SECTOR_SIZE)) i
  clock := 0
  fault := fun _ _ => none

theorem spares_iff (parts : Option (List Partition)) (files : Ramfs) :
    (∀ disks, (saveFromRamfs ⟨⟨disks, parts⟩, files⟩).Ends (Spares ⟨⟨disks, parts⟩, files⟩)) ↔
      PERSIST_BYTES < (serialize (collect files)).length ∨ Apart parts := by
  constructor
  · intro h
    refine or_iff_not_imp_left.mpr fun hfit ps hps p hp idx lba hin hhas => ?_
    obtain rfl : idx = DISK_IDX := hin.1
    let d := otherDisk (serialize (collect files))
    obtain ⟨s', hsave, hstored⟩ := saveFromRamfs_stores (s := ⟨⟨some [d], parts⟩, files⟩) rfl rfl (Nat.not_lt.mp hfit)
      fun _ _ _ => rfl
    have hspares : Spares _ s' := hsave ▸ (h (some [d])).post
    have hsame := (hstored lba hin).symm.trans (hspares ps hps p hp DISK_IDX lba hhas)
    -- no byte is its own complement
    have hnot : ∀ x : Byte, x ≠ ~~~ x := by decide
    exact hnot _ (congrFun (Option.some.inj hsame) ⟨0, by decide⟩)
  · rintro (hbig | hapart) disks
    · rw [saveFromRamfs, if_pos hbig]
      exact Outcome.ends_err fun _ _ _ _ _ _ _ => rfl
    · refine (ends_saveFromRamfs _).imp ?_
      rintro s' ⟨-, -, hkeep⟩ ps hps p hp idx lba hhas
      exact hkeep idx lba fun hin => hapart ps hps p hp idx lba hin hhas

/-- **Partitions are spared**: whatever the drives hold and whichever access fails, saving the ramfs and changing the accounts
end and change no sector of a recorded partition, exactly if none of them has a sector of the window, or the files are too
long to be saved. -/
theorem save_spares_partitions (parts : Option (List Partition)) (files : Ramfs) (users : List User) :
    ((∀ disks, (saveFromRamfs ⟨⟨disks, parts⟩, files⟩).Ends (Spares ⟨⟨disks, parts⟩, files⟩)) ↔
      PERSIST_BYTES < (serialize (collect files)).length ∨ Apart parts) ∧
    ((∀ disks, (Users.save users ⟨⟨disks, parts⟩, files⟩).Ends (Spares ⟨⟨disks, parts⟩, files⟩)) ↔
      PERSIST_BYTES < (serialize (collect (Users.written users files))).length ∨ Apart parts) :=
  ⟨spares_iff parts files, spares_iff parts (Users.written users files)⟩

def diskWith (startLba : ℕ) : Disk where
  sectors := fun lba i =>
    if lba = 0 then
      (splice (splice (Fat32.zeros 512) 0x1BE ([0x80#8, 0, 0, 0, 0x0C#8, 0, 0, 0] ++ le32Bytes startLba ++ le32Bytes 61440))
        510 [0x55#8, 0xAA#8]).getD i 0
    else 0
  clock := 0
  fault := fun _ _ => none

def partitionAt (startLba : ℕ) : Partition :=
  { diskIdx := 0, index := 0, partType := .fat32Lba, startLba, sectors := 61440, bootable := true }

def bootWith (startLba : ℕ) : Drives := { disks := some [diskWith startLba], partitions := none }

def noAccounts : Ramfs := fun path => if path = PASSWD_PATH then some [] else none

def recordedWith (startLba k : ℕ) : Drives :=
  { disks := some [{ diskWith startLba with clock := k }], partitions := some [partitionAt startLba] }

theorem init_bootWith (startLba : ℕ)
    (hparse : Part.parse 0 (Ata.bytesAt (diskWith startLba).sectors 0 1) = [partitionAt startLba]) :
    ∃ k, Part.init 0 (bootWith startLba) = .ok () (recordedWith startLba k) := by
  have hboot : (bootWith startLba).disks = some [diskWith startLba] := rfl
  have hfirst : [diskWith startLba][0]? = some (diskWith startLba) := rfl
  obtain ⟨k, hinit⟩ := Part.init_eq hboot hfirst rfl fun _ => rfl
  rw [hparse] at hinit
  exact ⟨k, hinit⟩

/-- **The volume that is overwritten**: with the partition at the LBA 2048, the one `find_first_fat32` finds,
saving replaces its first sector. -/
theorem save_overwrites_volume : ∃ k s', Part.init 0 (bootWith 2048) = .ok () (recordedWith 2048 k) ∧
    Part.findFirstFat32 (recordedWith 2048 k) = some (0, 2048, 61440) ∧
    saveFromRamfs ⟨recordedWith 2048 k, noAccounts⟩ = .ok () s' ∧
    s'.drives.sector 0 2048 ≠ (recordedWith 2048 k).sector 0 2048 := by
  obtain ⟨k, hinit⟩ := init_bootWith 2048 (by decide +kernel)
  have hfit : (serialize (collect noAccounts)).length ≤ PERSIST_BYTES := by
    rw [serialize, List.length_append, List.length_replicate]
    decide
  have hdisks : (recordedWith 2048 k).disks = some [{ diskWith 2048 with clock := k }] := rfl
  obtain ⟨s', hsave, hsector⟩ := saveFromRamfs_stores (s := ⟨recordedWith 2048 k, noAccounts⟩) hdisks rfl hfit
    fun _ _ _ => rfl
  refine ⟨k, s', hinit, rfl, hsave, fun heq => ?_⟩
  -- the first byte of the blob is the first letter of `DOSSTATE`, and was zero
  have hsector := hsector 2048 ⟨rfl, by decide, by decide⟩
  have hbyte := congrFun (Option.some.inj (hsector.symm.trans heq)) ⟨0, by decide⟩
  cases hbyte

end Persist

end RustKernel
