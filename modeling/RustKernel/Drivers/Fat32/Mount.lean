import RustKernel.Drivers.Fat32.Volume
import RustKernel.Drivers.Part

/-!
# Mounting a FAT32 volume

`mount` reads the boot sector of a partition and checks two bytes of it, the signature. Where the FATs and the data start is
computed from the other fields as they are, and `info_string` divides by one of them. Nothing compares the number of clusters
the FAT has entries for with the number the volume has.
-/

namespace RustKernel.Drivers.Fat32

open Lib Exec Ata

variable {σ : Type} {idx start : ℕ}

structure BootSector extends Bpb where
  bytesPerSector : ℕ
  reservedSectors : ℕ
  totalSectors : ℕ
  fsInfoSector : ℕ
  volumeLabel : List Char

def parseBoot (buf : List Byte) : BootSector where
  bytesPerSector := le16 buf 11
  sectorsPerCluster := (buf.getD 13 0).toNat
  reservedSectors := le16 buf 14
  numFats := (buf.getD 16 0).toNat
  -- the 16-bit field, or the 32-bit one if it is zero
  totalSectors := if le16 buf 19 ≠ 0 then le16 buf 19 else le32 buf 32
  sectorsPerFat := le32 buf 36
  rootCluster := le32 buf 44
  fsInfoSector := le16 buf 48
  volumeLabel := trim ((Utf8.decode ((buf.drop 71).take 11)).getD ['?', '?', '?'])

def Signed (buf : List Byte) : Prop := buf.getD 510 0 = 0x55#8 ∧ buf.getD 511 0 = 0xAA#8
deriving Decidable

structure Mounted where
  diskIdx : ℕ
  partStartLba : ℕ
  bpb : BootSector
  dataStartLba : ℕ
  fatStartLba : ℕ

def Mounted.fat32 (m : Mounted) : Fat32 where
  bpb := m.bpb.toBpb
  dataStartLba := m.dataStartLba
  fatStartLba := m.fatStartLba

def mountBoot {σ : Type} (diskIdx startLba : ℕ) (bpb : BootSector) : Exec String σ Mounted := do
  let fatStartLba ← add 32 startLba bpb.reservedSectors
  let fats ← mul 32 bpb.numFats bpb.sectorsPerFat
  let dataStartLba ← add 32 fatStartLba fats
  pure { diskIdx, partStartLba := startLba, bpb, dataStartLba, fatStartLba }

def mount (diskIdx startLba : ℕ) : Exec String Disk Mounted := do
  let buf ← Ata.read startLba 1 (zeros SECTOR_SIZE)
  if Signed buf then mountBoot diskIdx startLba (parseBoot buf)
  else throw "FAT32: signature 0x55AA absente"

def decimal (n : ℕ) : List Char := Nat.toDigits 10 n

def Mounted.infoString {σ : Type} (m : Mounted) : Exec String σ (List Char) := do
  let clusterBytes ← mul 32 m.bpb.sectorsPerCluster m.bpb.bytesPerSector
  let rest ← sub m.bpb.totalSectors m.bpb.reservedSectors
  let fats ← mul 32 m.bpb.numFats m.bpb.sectorsPerFat
  let data ← sub rest fats
  let dataClusters ← expect (if m.bpb.sectorsPerCluster = 0 then none else some (data / m.bpb.sectorsPerCluster))
  let bytes ← mul 64 dataClusters clusterBytes
  let totalMib := bytes / (1024 * 1024)
  pure ("FAT32 '".toList ++ m.bpb.volumeLabel ++ "' : ".toList ++ decimal totalMib ++ " MiB, cluster=".toList ++
    decimal clusterBytes ++ " B, ".toList ++ decimal m.bpb.sectorsPerCluster ++ " spc, ".toList ++ decimal m.bpb.numFats ++
    " FATs".toList)

structure Mounts where
  drives : Drives
  mounted : Option Mounted
  printed : List (List Char)

def mountFirst : Exec String Mounts Unit := do
  let s ← get
  match Part.findFirstFat32 s.drives with
  | none => throw "FAT32: aucune partition FAT32 trouvée"
  | some (diskIdx, startLba, _) => do
    let fs ← zoom Mounts.drives (fun d s => { s with drives := d }) (Drives.onDisk diskIdx (mount diskIdx startLba))
    let info ← fs.infoString
    modify fun s => { s with printed := s.printed ++ ["[fat32] ".toList ++ info] }
    -- `call_once`: the first call decides
    modify fun s => { s with mounted := s.mounted.or (some fs) }

/-! ### Where the data start -/

def BootSector.mounted (b : BootSector) (idx start : ℕ) : Mounted where
  diskIdx := idx
  partStartLba := start
  bpb := b
  dataStartLba := start + b.reservedSectors + b.numFats * b.sectorsPerFat
  fatStartLba := start + b.reservedSectors

theorem post_mountBoot (idx start : ℕ) (b : BootSector) (s : σ) : (mountBoot idx start b s).Post
    (fun m s' => start + b.reservedSectors + b.numFats * b.sectorsPerFat < 2 ^ 32 ∧ m = b.mounted idx start ∧ s' = s)
    (fun _ _ => False) := by
  refine post_bind (post_add 32 start b.reservedSectors) fun _ _ h₁ => ?_
  rw [h₁.1, h₁.2]
  refine post_bind (post_mul 32 b.numFats b.sectorsPerFat) fun _ _ h₂ => ?_
  rw [h₂.1, h₂.2]
  refine post_bind (post_add_lt 32 (start + b.reservedSectors) (b.numFats * b.sectorsPerFat)) fun _ _ h₃ => ?_
  rw [h₃.2.1, h₃.2.2]
  exact ⟨h₃.1, rfl, rfl⟩

theorem post_mount (idx start : ℕ) (d : Disk) : (mount idx start d).Post
    (fun m d' => Later d d' ∧ Signed (Sector.toBytes (d.sectors start)) ∧
      m = (parseBoot (Sector.toBytes (d.sectors start))).mounted idx start) (fun _ d' => Later d d') := by
  refine post_bind (post_readZeros start d) fun bytes d₁ h₁ => ?_
  rw [← h₁.2]
  by_cases hsig : Signed bytes
  · rw [if_pos hsig]
    exact (post_mountBoot idx start _ d₁).imp (fun m d' h => ⟨h.2.2 ▸ h₁.1, hsig, h.2.1⟩) fun _ _ h => h.elim
  · rw [if_neg hsig]
    exact h₁.1

/-! ### Mounting -/

/-- A geometry that the rest of the driver can use. -/
structure Usable (m : Mounted) : Prop where
  spc_pos : 1 ≤ m.bpb.sectorsPerCluster
  root : 2 ≤ m.bpb.rootCluster
  data_lt : m.dataStartLba < m.partStartLba + m.bpb.totalSectors

/-- What `mount` and `info_string` take for granted of a boot sector. -/
structure BootFits (start : ℕ) (b : BootSector) : Prop where
  spc_pos : 1 ≤ b.sectorsPerCluster
  room : b.reservedSectors + b.numFats * b.sectorsPerFat ≤ b.totalSectors
  lt : start + b.reservedSectors + b.numFats * b.sectorsPerFat < 2 ^ 32

theorem parseBoot_lt (buf : List Byte) : (parseBoot buf).sectorsPerCluster < 2 ^ 8 ∧ (parseBoot buf).bytesPerSector < 2 ^ 16 ∧
    (parseBoot buf).totalSectors < 2 ^ 32 := by
  refine ⟨BitVec.isLt _, le16_lt buf 11, ?_⟩
  rw [parseBoot]
  split_ifs
  · exact (le16_lt buf 19).trans (by decide)
  · exact le32_lt buf 32

theorem mountBoot_of_fits {b : BootSector} (h : BootFits start b) (s : σ) :
    mountBoot idx start b s = .ok (b.mounted idx start) s := by
  have hlt := h.lt
  unfold mountBoot
  rw [add_of_lt (by omega), mul_of_lt (by omega), bind_of_ok (pure_apply _ _), bind_of_ok (pure_apply _ _),
    add_of_lt (by omega)]
  rfl

theorem Mounted.infoString_eq_ok {m : Mounted} (hspc : m.bpb.sectorsPerCluster < 2 ^ 8)
    (hbytes : m.bpb.bytesPerSector < 2 ^ 16) (htotal : m.bpb.totalSectors < 2 ^ 32) (hpos : 1 ≤ m.bpb.sectorsPerCluster)
    (hroom : m.bpb.reservedSectors + m.bpb.numFats * m.bpb.sectorsPerFat ≤ m.bpb.totalSectors) (s : σ) :
    ∃ text, m.infoString s = .ok text s := by
  have hclusters : (m.bpb.totalSectors - m.bpb.reservedSectors - m.bpb.numFats * m.bpb.sectorsPerFat) /
      m.bpb.sectorsPerCluster < 2 ^ 32 := lt_of_le_of_lt (Nat.div_le_self _ _) (by omega)
  have hcluster : m.bpb.sectorsPerCluster * m.bpb.bytesPerSector < 2 ^ 8 * 2 ^ 16 := Nat.mul_lt_mul'' hspc hbytes
  have hall := Nat.mul_lt_mul'' hclusters hcluster
  have hne : m.bpb.sectorsPerCluster ≠ 0 := by omega
  unfold Mounted.infoString
  rw [mul_of_lt (hcluster.trans (by decide)), sub_of_le (by omega), mul_of_lt (by omega)]
  simp only [Exec.pure_bind, if_neg hne, expect_some]
  rw [sub_of_le (by omega)]
  simp only [Exec.pure_bind]
  rw [mul_of_lt (hall.trans (by decide))]
  exact ⟨_, rfl⟩

theorem Mounted.post_infoString (m : Mounted) (s : σ) : (m.infoString s).Post (fun _ s' => (1 ≤ m.bpb.sectorsPerCluster ∧
    m.bpb.reservedSectors + m.bpb.numFats * m.bpb.sectorsPerFat ≤ m.bpb.totalSectors) ∧ s' = s) (fun _ _ => False) := by
  unfold Mounted.infoString
  refine post_bind (post_mul 32 _ _) fun _ _ h₁ => ?_
  rw [h₁.2]
  refine post_bind (post_sub_le _ _) fun _ _ h₂ => ?_
  rw [h₂.2.1, h₂.2.2]
  refine post_bind (post_mul 32 _ _) fun _ _ h₃ => ?_
  rw [h₃.1, h₃.2]
  refine post_bind (post_sub_le _ _) fun _ _ h₄ => ?_
  rw [h₄.2.2]
  refine post_bind post_expect fun _ _ h₅ => ?_
  rw [h₅.2]
  obtain ⟨hpos, -⟩ := Option.ite_none_left_eq_some.mp h₅.1
  refine post_bind (post_mul 64 _ _) fun _ _ h₆ => ⟨⟨by omega, ?_⟩, h₆.2⟩
  have := h₂.1
  have := h₄.1
  omega

/-- The bytes `mount` reads at the beginning of the partition. -/
def BootAt (s : Drives) (idx start : ℕ) (buf : List Byte) : Prop :=
  ∃ list d d', s.disks = some list ∧ list[idx]? = some d ∧ Ata.read start 1 (zeros SECTOR_SIZE) d = .ok buf d'

theorem onDisk_mount_cases (s : Drives) (idx start : ℕ) :
    (∃ e s', Drives.onDisk idx (mount idx start) s = .err e s' ∧ ∀ buf, BootAt s idx start buf → ¬ Signed buf) ∨
    ∃ buf s', (∀ b, BootAt s idx start b → b = buf) ∧ BootAt s idx start buf ∧ Signed buf ∧
      (BootFits start (parseBoot buf) → Drives.onDisk idx (mount idx start) s = .ok ((parseBoot buf).mounted idx start) s') ∧
      (Drives.onDisk idx (mount idx start) s).Post (fun m t => start + (parseBoot buf).reservedSectors +
        (parseBoot buf).numFats * (parseBoot buf).sectorsPerFat < 2 ^ 32 ∧ m = (parseBoot buf).mounted idx start ∧ t = s')
        (fun _ _ => False) := by
  cases hdisks : s.disks with
  | none =>
    refine .inl ⟨_, s, by rw [Drives.onDisk, hdisks], ?_⟩
    rintro buf ⟨_, _, _, h, _⟩
    cases hdisks.symm.trans h
  | some list =>
    cases hd : list[idx]? with
    | none =>
      refine .inl ⟨"disque introuvable", s, by simp only [Drives.onDisk, hdisks, hd], ?_⟩
      rintro buf ⟨_, _, _, h, h', _⟩
      cases hdisks.symm.trans h
      cases hd.symm.trans h'
    | some d =>
      have hone : ∀ {b}, BootAt s idx start b → ∃ d', Ata.read start 1 (zeros SECTOR_SIZE) d = .ok b d' := by
        rintro b ⟨list', d₁, d', h, h', hread⟩
        cases hdisks.symm.trans h
        cases hd.symm.trans h'
        exact ⟨d', hread⟩
      have hends := read_ends start 1 (zeros SECTOR_SIZE) d
      rcases hends.ok_or_err hends.post with ⟨buf, d', hread, -⟩ | ⟨e, d', hread, -⟩
      · have hbuf : ∀ b, BootAt s idx start b → b = buf := fun b hb => by
          obtain ⟨d₁, h₁⟩ := hone hb
          cases hread.symm.trans h₁
          rfl
        have hmount : Drives.onDisk idx (mount idx start) s = zoom (fun _ => d')
            (fun d' s => { s with disks := some (list.set idx d') }) (if Signed buf then mountBoot idx start (parseBoot buf)
              else throw "FAT32: signature 0x55AA absente") s := by
          simp only [Drives.onDisk, hdisks, hd, zoom, mount, bind_apply, hread]
        by_cases hsig : Signed buf
        · rw [if_pos hsig] at hmount
          refine .inr ⟨buf, { s with disks := some (list.set idx d') }, hbuf, ⟨list, d, d', hdisks, hd, hread⟩, hsig,
            fun hfits => by rw [hmount, zoom, mountBoot_of_fits hfits], ?_⟩
          rw [hmount]
          refine post_zoom ((post_mountBoot idx start (parseBoot buf) d').imp (fun m t h => ?_) fun _ _ h => h)
          rw [h.2.2]
          exact ⟨h.1, h.2.1, rfl⟩
        · rw [if_neg hsig] at hmount
          exact .inl ⟨_, _, hmount, fun b hb => hbuf b hb ▸ hsig⟩
      · refine .inl ⟨e, { s with disks := some (list.set idx d') },
          by simp only [Drives.onDisk, hdisks, hd, zoom, mount, bind_apply, hread], fun b hb => ?_⟩
        obtain ⟨d₁, h₁⟩ := hone hb
        cases hread.symm.trans h₁

theorem post_mountFirst {s : Mounts} {s' : Drives} {n : ℕ} {b : BootSector}
    (hfind : Part.findFirstFat32 s.drives = some (idx, start, n))
    (hpost : (Drives.onDisk idx (mount idx start) s.drives).Post (fun m t =>
      start + b.reservedSectors + b.numFats * b.sectorsPerFat < 2 ^ 32 ∧ m = b.mounted idx start ∧ t = s') (fun _ _ => False)) :
    (mountFirst s).Post (fun _ t => BootFits start b ∧ t.mounted = some (s.mounted.getD (b.mounted idx start)))
      (fun _ _ => False) := by
  unfold mountFirst
  rw [get_bind, hfind]
  dsimp only
  refine post_bind (Q := fun m t => start + b.reservedSectors + b.numFats * b.sectorsPerFat < 2 ^ 32 ∧
    m = b.mounted idx start ∧ t.mounted = s.mounted) (post_zoom (hpost.imp (fun m t h => ⟨h.1, h.2.1, rfl⟩) fun _ _ h => h))
    fun m t hm => post_bind (m.post_infoString t) fun info t' ht => ?_
  obtain ⟨hlt, rfl, hold⟩ := hm
  obtain ⟨⟨hpos, hroom⟩, rfl⟩ := ht
  refine ⟨⟨hpos, hroom, hlt⟩, ?_⟩
  show t'.mounted.or _ = _
  rw [hold]
  cases s.mounted <;> rfl

/-- **Mounting survives a boot sector**, whatever access fails, exactly if the bytes read at the beginning of the first FAT32
partition have no signature or fields that fit, and the volume that is mounted then, the first one ever mounted, is usable. -/
theorem mountFirst_survives (s : Mounts) :
    ((∃ e s', mountFirst s = .err e s') ∨ ∃ s' m, mountFirst s = .ok () s' ∧ s'.mounted = some m ∧ Usable m) ↔
    ∀ idx start n buf, Part.findFirstFat32 s.drives = some (idx, start, n) → BootAt s.drives idx start buf → Signed buf →
      BootFits start (parseBoot buf) ∧ (∀ m, s.mounted = some m → Usable m) ∧
      (s.mounted = none → 2 ≤ (parseBoot buf).rootCluster ∧ (parseBoot buf).reservedSectors +
        (parseBoot buf).numFats * (parseBoot buf).sectorsPerFat < (parseBoot buf).totalSectors) := by
  cases hfind : Part.findFirstFat32 s.drives with
  | none =>
    have hnone : mountFirst s = .err "FAT32: aucune partition FAT32 trouvée" s := by
      unfold mountFirst
      rw [get_bind, hfind]
      rfl
    exact iff_of_true (.inl ⟨_, _, hnone⟩) fun _ _ _ _ h => by cases h
  | some p =>
    obtain ⟨idx, start, n⟩ := p
    rcases onDisk_mount_cases s.drives idx start with ⟨e, s', herr, hnone⟩ | ⟨buf, s', hone, hat, hsig, hok, hpost⟩
    · refine iff_of_true (.inl ⟨e, { s with drives := s' }, ?_⟩) fun _ _ _ b h hb hs => ?_
      · unfold mountFirst
        rw [get_bind, hfind]
        dsimp only
        rw [bind_apply, zoom, herr]
      · cases h
        exact absurd hs (hnone b hb)
    -- what is mounted is usable if and only if the fields of the new one or the old one are
    have husable : Usable (s.mounted.getD ((parseBoot buf).mounted idx start)) ↔ (∀ m, s.mounted = some m → Usable m) ∧
        (s.mounted = none → 1 ≤ (parseBoot buf).sectorsPerCluster ∧ 2 ≤ (parseBoot buf).rootCluster ∧
          (parseBoot buf).reservedSectors + (parseBoot buf).numFats * (parseBoot buf).sectorsPerFat <
            (parseBoot buf).totalSectors) := by
      cases s.mounted with
      | none =>
        refine ⟨fun h => ⟨by simp, fun _ => ⟨h.spc_pos, h.root, ?_⟩⟩, fun h => ⟨(h.2 rfl).1, (h.2 rfl).2.1, ?_⟩⟩
        · have h₃ := h.data_lt
          simp only [Option.getD_none, BootSector.mounted] at h₃
          omega
        · have := (h.2 rfl).2.2
          simp only [Option.getD_none, BootSector.mounted]
          omega
      | some m => exact ⟨fun h => ⟨fun _ h' => Option.some.inj h' ▸ h, by simp⟩, fun h => h.1 m rfl⟩
    constructor
    · intro h
      have hwhole := post_mountFirst hfind hpost
      rcases h with ⟨e, t, herr⟩ | ⟨t, m, hret, hm, hus⟩
      · exact (hwhole.err herr).elim
      obtain ⟨hfits, hmounted⟩ := hwhole.ok hret
      cases hmounted.symm.trans hm
      obtain ⟨hold, hnew⟩ := husable.mp hus
      intro _ _ _ b h hb _
      cases h
      rw [hone b hb]
      exact ⟨hfits, hold, fun hs => (hnew hs).2⟩
    · intro h
      obtain ⟨hfits, hold, hnew⟩ := h idx start n buf rfl hat hsig
      obtain ⟨hspc, hbytes, htotal⟩ := parseBoot_lt buf
      have hmount : zoom Mounts.drives (fun d s => { s with drives := d }) (Drives.onDisk idx (mount idx start)) s =
          .ok ((parseBoot buf).mounted idx start) { s with drives := s' } := by rw [zoom, hok hfits]
      obtain ⟨text, htext⟩ := Mounted.infoString_eq_ok (m := (parseBoot buf).mounted idx start) hspc hbytes htotal
        hfits.spc_pos hfits.room ({ s with drives := s' } : Mounts)
      unfold mountFirst
      rw [get_bind, hfind]
      dsimp only
      rw [bind_of_ok hmount, bind_of_ok htext]
      refine .inr ⟨_, s.mounted.getD ((parseBoot buf).mounted idx start), rfl, ?_,
        husable.mpr ⟨hold, fun hs => ⟨hfits.spc_pos, hnew hs⟩⟩⟩
      cases hm : s.mounted with
      | none => rfl
      | some m => rfl

def bootDisk (boot : List Byte) : Mounts where
  drives :=
    { disks := some [{ sectors := fun lba => if lba = 1 then Sector.ofBytes boot else Sector.ofBytes []
                       clock := 0
                       fault := fun _ _ => none }]
      partitions := some [{ diskIdx := 0, index := 0, partType := .fat32Lba, startLba := 1, sectors := 64, bootable := false }] }
  mounted := none
  printed := []

def bootSector (spc reserved fats total16 perFat root : ℕ) : List Byte :=
  zeros 11 ++ le16Bytes 512 ++ [BitVec.ofNat 8 spc] ++ le16Bytes reserved ++ [BitVec.ofNat 8 fats] ++ zeros 2 ++
    le16Bytes total16 ++ zeros 15 ++ le32Bytes perFat ++ zeros 4 ++ le32Bytes root ++ zeros 462 ++ [0x55#8, 0xAA#8]

/-- A volume of 64 sectors is mounted. -/
theorem mountFirst_small : (∃ e s', mountFirst (bootDisk (bootSector 1 1 1 64 1 2)) = .err e s') ∨
    ∃ s' m, mountFirst (bootDisk (bootSector 1 1 1 64 1 2)) = .ok () s' ∧ s'.mounted = some m ∧ Usable m := by
  refine (mountFirst_survives _).mpr ?_
  rintro idx start n buf hfind ⟨list, d, d', hlist, hd, hread⟩ _
  cases hfind
  cases hlist
  cases hd
  obtain ⟨-, hbuf⟩ := (post_readZeros 1 _).ok hread
  have hfields : (fun b : BootSector => (b.sectorsPerCluster, b.rootCluster, b.reservedSectors, b.numFats, b.sectorsPerFat,
      b.totalSectors)) (parseBoot (Sector.toBytes (Sector.ofBytes (bootSector 1 1 1 64 1 2)))) = (1, 2, 1, 1, 1, 64) := by
    decide +kernel
  simp only [Prod.mk.injEq] at hfields
  obtain ⟨hspc, hroot, hres, hfats, hper, htotal⟩ := hfields
  rw [hbuf]
  refine ⟨⟨?_, ?_, ?_⟩, nofun, fun _ => ⟨?_, ?_⟩⟩ <;> simp [*]

/-- **A boot sector of zeros**, but for the signature, panics the kernel: `info_string` divides by zero. And a volume whose
root starts at the cluster `0` is mounted. -/
theorem mountFirst_zeros : mountFirst (bootDisk (bootSector 0 0 0 0 0 0)) = .panic ∧
    ∃ s' m, mountFirst (bootDisk (bootSector 1 1 1 64 1 0)) = .ok () s' ∧ s'.mounted = some m ∧ m.bpb.rootCluster = 0 := by
  have hroot : (mountFirst (bootDisk (bootSector 1 1 1 64 1 0))).Returns fun _ s =>
      ∃ m ∈ s.mounted, m.bpb.rootCluster = 0 := by decide +kernel
  obtain ⟨_, s', hmount, m, hm, hzero⟩ := hroot
  exact ⟨Outcome.eq_panic (by decide +kernel), s', m, hmount, hm, hzero⟩

/-! ### Allocating inside the volume -/

theorem post_writeCluster_below {fs : Fat32} {c stop : ℕ} (h : fs.lbaOf c + fs.bpb.sectorsPerCluster ≤ stop)
    (data : List Byte) (d : Disk) : (fs.writeCluster c data d).Post (fun _ d' => ∀ l, stop ≤ l → d'.sectors l = d.sectors l)
      (fun _ d' => ∀ l, stop ≤ l → d'.sectors l = d.sectors l) := by
  unfold writeCluster
  split_ifs
  · exact fun _ _ => rfl
  · refine post_bind ((post_clusterToLba fs c d).never) fun lba d₁ h₁ => ?_
    rw [h₁.1, h₁.2]
    have hkeep : ∀ d', KeepsOutside (fs.lbaOf c) fs.bpb.sectorsPerCluster d d' → ∀ l, stop ≤ l → d'.sectors l = d.sectors l :=
      fun d' hk l hl => hk.sectors l (by omega)
    exact (ends_write _ _ _ d).post.imp (fun _ => hkeep) fun _ => hkeep

/-- The cluster ends within the volume. -/
def Mounted.Inside (m : Mounted) (x : ℕ) : Prop :=
  m.bpb.reservedSectors + m.bpb.numFats * m.bpb.sectorsPerFat + (x - 1) * m.bpb.sectorsPerCluster ≤ m.bpb.totalSectors
deriving Decidable

/-- **Allocation stays inside the volume** exactly if a cluster inside is free whenever an entry of the FAT beyond the last
cluster is. For every boot sector that is mounted, whatever the FAT holds and whichever access fails. -/
theorem allocCluster_inside {c : ℕ} {d d' e e' : Disk} {m : Mounted} (hm : mount idx start d = .ok m d')
    (halloc : m.fat32.allocCluster e = .ok c e') :
    (∀ d₁ lba d₂, m.fat32.clusterToLba c d₁ = .ok lba d₂ → lba = m.fat32.lbaOf c) ∧
    ((m.fat32.lbaOf c + m.bpb.sectorsPerCluster ≤ m.partStartLba + m.bpb.totalSectors ∧
      ∀ data, (m.fat32.writeCluster c data e').Post
        (fun _ d₂ => ∀ l, m.partStartLba + m.bpb.totalSectors ≤ l → d₂.sectors l = e'.sectors l)
        (fun _ d₂ => ∀ l, m.partStartLba + m.bpb.totalSectors ≤ l → d₂.sectors l = e'.sectors l)) ↔
      ∀ x, m.fat32.Free e.sectors x → ¬ m.Inside x → ∃ y, m.fat32.Free e.sectors y ∧ m.Inside y) := by
  obtain ⟨⟨hfree, hfirst⟩, -⟩ := (post_allocCluster e).ok halloc
  have hend : m.fat32.lbaOf c + m.bpb.sectorsPerCluster ≤ m.partStartLba + m.bpb.totalSectors ↔ m.Inside c := by
    obtain ⟨-, -, rfl⟩ := (post_mount idx start d).ok hm
    generalize parseBoot (Sector.toBytes (d.sectors start)) = b at *
    -- the cluster ends `c - 1` clusters after the start of the data
    have hsucc : (c - 1) * b.sectorsPerCluster = (c - 2) * b.sectorsPerCluster + b.sectorsPerCluster := by
      rw [← Nat.succ_mul]
      congr 1
      have := hfree.1
      omega
    simp only [Mounted.Inside, Mounted.fat32, BootSector.mounted, lbaOf]
    omega
  refine ⟨fun d₁ lba d₂ hlba => ((post_clusterToLba _ c d₁).ok hlba).1, fun h x _ _ => ⟨c, hfree, hend.mp h.1⟩, fun h => ?_⟩
  have hin : m.Inside c := by
    by_contra hout
    obtain ⟨y, hy, hyin⟩ := h c hfree hout
    -- a cluster inside comes before one outside
    have hlt : y < c := by
      by_contra hle
      have := Nat.mul_le_mul_right m.bpb.sectorsPerCluster (show c - 1 ≤ y - 1 by omega)
      unfold Mounted.Inside at hout hyin
      omega
    exact hfirst y hy.1 hlt hy.2.2
  exact ⟨hend.mpr hin, fun data => post_writeCluster_below (hend.mpr hin) data e'⟩

def tenSectors (entries : List ℕ) : Disk where
  sectors := fun lba =>
    if lba = 0 then Sector.ofBytes (bootSector 1 1 1 10 1 2)
    else if lba = 1 then Sector.ofBytes (entries.flatMap le32Bytes)
    else Sector.ofBytes []
  clock := 0
  fault := fun _ _ => none

/-- The entries from 8 on are free: the cluster 8 is allocated, and nothing after the partition is written. -/
theorem allocCluster_inside_ten : ∃ m d c e, mount 0 0 (tenSectors (List.replicate 8 0x0FFFFFFF)) = .ok m d ∧
    m.fat32.allocCluster d = .ok c e ∧ ∀ data, (m.fat32.writeCluster c data e).Post
      (fun _ d₂ => ∀ l, m.partStartLba + m.bpb.totalSectors ≤ l → d₂.sectors l = e.sectors l)
      (fun _ d₂ => ∀ l, m.partStartLba + m.bpb.totalSectors ≤ l → d₂.sectors l = e.sectors l) := by
  have hrun : (mount 0 0 (tenSectors (List.replicate 8 0x0FFFFFFF))).Returns fun m d =>
      (m.fat32.allocCluster d).Returns fun _ _ => m.fat32.Free d.sectors 8 ∧ m.Inside 8 := by decide +kernel
  obtain ⟨m, d, hm, c, e, hc, hfree⟩ := hrun
  exact ⟨m, d, c, e, hm, hc, ((allocCluster_inside hm hc).2.mpr fun _ _ _ => ⟨8, hfree⟩).2⟩

/-- **The sector after the partition is written**: the boot sector is mounted and covers the reserved sector, the FAT and
eight clusters, but the first free entry is that of the cluster 10. -/
theorem allocCluster_outside : ∃ m d c e lba e' e'', mount 0 0 (tenSectors (List.replicate 10 0x0FFFFFFF)) = .ok m d ∧
    m.bpb.reservedSectors + m.bpb.numFats * m.bpb.sectorsPerFat + m.bpb.sectorsPerCluster ≤ m.bpb.totalSectors ∧
    m.fat32.allocCluster d = .ok c e ∧ m.fat32.clusterToLba c e = .ok lba e' ∧
    m.partStartLba + m.bpb.totalSectors < lba + m.bpb.sectorsPerCluster ∧
    m.fat32.writeCluster c [7#8] e' = .ok () e'' ∧
    e''.sectors (m.partStartLba + m.bpb.totalSectors) ≠ e'.sectors (m.partStartLba + m.bpb.totalSectors) := by
  have hrun : (mount 0 0 (tenSectors (List.replicate 10 0x0FFFFFFF))).Returns fun m d =>
      m.bpb.reservedSectors + m.bpb.numFats * m.bpb.sectorsPerFat + m.bpb.sectorsPerCluster ≤ m.bpb.totalSectors ∧
      (m.fat32.allocCluster d).Returns fun c e => (m.fat32.clusterToLba c e).Returns fun lba e' =>
        m.partStartLba + m.bpb.totalSectors < lba + m.bpb.sectorsPerCluster ∧
        (m.fat32.writeCluster c [7#8] e').Returns fun _ e'' =>
          e''.sectors (m.partStartLba + m.bpb.totalSectors) ⟨0, by decide⟩ ≠
            e'.sectors (m.partStartLba + m.bpb.totalSectors) ⟨0, by decide⟩ := by decide +kernel
  obtain ⟨m, d, hm, hcover, c, e, hc, lba, e', hlba, hout, _, e'', hwrite, hne⟩ := hrun
  exact ⟨m, d, c, e, lba, e', e'', hm, hcover, hc, hlba, hout, hwrite, fun heq => hne (congrFun heq _)⟩

end RustKernel.Drivers.Fat32
