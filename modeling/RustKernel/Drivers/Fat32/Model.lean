import RustKernel.Drivers.Ata

/-!
# The FAT32 driver

The functions of `drivers/fat32.rs` that read files and write them in the root directory,
on the state of the disk.
-/

namespace RustKernel.Drivers

open Lib Exec

/-- What the driver keeps of the boot sector. -/
structure Bpb where
  sectorsPerCluster : ℕ
  numFats : ℕ
  sectorsPerFat : ℕ
  rootCluster : ℕ

structure DirEntry where
  name : List Char
  isDir : Bool
  size : ℕ
  cluster : ℕ
  deriving DecidableEq

/-- A mounted volume: its geometry, and the sectors where the data and the FAT begin. -/
structure Fat32 where
  bpb : Bpb
  dataStartLba : ℕ
  fatStartLba : ℕ

/-! ### Bytes -/

def le16 (buf : List Byte) (off : ℕ) : ℕ := (buf.getD off 0).toNat + 256 * (buf.getD (off + 1) 0).toNat

def le32 (buf : List Byte) (off : ℕ) : ℕ := le16 buf off + 65536 * le16 buf (off + 2)

def le16Bytes (n : ℕ) : List Byte := [BitVec.ofNat 8 n, BitVec.ofNat 8 (n / 256)]

def le32Bytes (n : ℕ) : List Byte := le16Bytes n ++ le16Bytes (n / 65536)

/-- `copy_from_slice` into `buf[off..]`. -/
def splice (buf : List Byte) (off : ℕ) (new : List Byte) : List Byte :=
  buf.take off ++ new ++ buf.drop (off + new.length)

/-- `&buf[off..off + n]`, which panics beyond the end. -/
def slice {ε σ : Type} (buf : List Byte) (off n : ℕ) : Exec ε σ (List Byte) :=
  if off + n ≤ buf.length then pure ((buf.drop off).take n) else Exec.panic

def chunks (n : ℕ) (buf : List Byte) : List (List Byte) :=
  (List.range (buf.length / (n + 1))).map fun i => (buf.drop (i * (n + 1))).take (n + 1)

/-- The directory entries in a cluster, of 32 bytes each. -/
def slots (buf : List Byte) : List (List Byte) := chunks 31 buf

namespace Fat32

variable (fs : Fat32)

def clusterBytes : ℕ := fs.bpb.sectorsPerCluster * SECTOR_SIZE

def zeros (n : ℕ) : List Byte := List.replicate n 0

/-! ### Reading -/

/-- The first sector of a cluster, in the checked arithmetic of `u32`. -/
def clusterToLba (cluster : ℕ) : Exec String Disk ℕ := do
  let rel ← sub cluster 2
  let off ← mul 32 rel fs.bpb.sectorsPerCluster
  add 32 fs.dataStartLba off

/-- The cluster that a FAT entry points to; a free or final entry points to none. -/
def link (val : ℕ) : Option ℕ :=
  if val ≥ 0x0FFFFFF8 then none else if val = 0 ∨ val = 1 then none else some val

def nextCluster (cluster : ℕ) : Exec String Disk (Option ℕ) := do
  let fatOffset ← mul 32 cluster 4
  let fatSector ← add 32 fs.fatStartLba (fatOffset / SECTOR_SIZE)
  let entryOffset := fatOffset % SECTOR_SIZE
  match ← attempt (Ata.read fatSector 1 (zeros SECTOR_SIZE)) with
  | .error _ => pure none
  | .ok buf => pure (link (le32 buf entryOffset &&& 0x0FFFFFFF))

def readClusterLoop (lba : ℕ) : ℕ → ℕ → Exec String Disk (List Byte)
  | _, 0 => pure []
  | s, n + 1 => do
    let at_ ← add 32 lba s
    let sector ← Ata.read at_ 1 (zeros SECTOR_SIZE)
    let rest ← readClusterLoop lba (s + 1) n
    pure (sector ++ rest)

/-- The loop of `read_chain`; after `left` more clusters it gives up. -/
def readChainLoop : ℕ → ℕ → Exec String Disk (List Byte)
  | left, cluster => do
    let lba ← fs.clusterToLba cluster
    let clusterBuf ← readClusterLoop lba 0 fs.bpb.sectorsPerCluster
    match ← fs.nextCluster cluster with
    | none => pure clusterBuf
    | some next =>
      match left with
      | 0 => throw "FAT32: chaîne de clusters trop longue"
      | left + 1 => do
        let rest ← readChainLoop left next
        pure (clusterBuf ++ rest)

def readChain (startCluster : ℕ) : Exec String Disk (List Byte) := fs.readChainLoop 1000000 startCluster

/-! ### Directories -/

def lfnChars (entry : List Byte) : List ℕ → List Char
  | [] => []
  | j :: js =>
    let c := le16 entry j
    if c = 0 ∨ c = 0xFFFF then []
    else (Utf8.charOfCode c).toList ++ lfnChars entry js

def lfnPart (entry : List Byte) : List Char :=
  lfnChars entry [1, 3, 5, 7, 9] ++ lfnChars entry [14, 16, 18, 20, 22, 24] ++ lfnChars entry [28, 30]

def first (entry : List Byte) : ℕ := (entry.getD 0 0).toNat

def attrs (entry : List Byte) : ℕ := (entry.getD 11 0).toNat

def IsLabel (entry : List Byte) : Prop := attrs entry &&& 0x08 ≠ 0 ∧ attrs entry &&& 0x10 = 0
deriving Decidable

def firstCluster (entry : List Byte) : ℕ := (le16 entry 20 <<< 16) ||| le16 entry 26

def shortName (entry : List Byte) : List Char :=
  let base := trim ((Utf8.decode (entry.take 8)).getD ['?'])
  let ext := trim ((Utf8.decode ((entry.drop 8).take 3)).getD [])
  if ext.isEmpty then base else base ++ '.' :: ext

def entryName (lfnParts : List (ℕ × List Char)) (entry : List Byte) : List Char :=
  if !lfnParts.isEmpty then ((lfnParts.mergeSort fun a b => a.1 ≤ b.1).map (·.2)).flatten
  else shortName entry

/-- The loop of `parse_dir_entries`, with the parts of a long name that have been seen. -/
def parseSlots : List (ℕ × List Char) → List (List Byte) → List DirEntry
  | _, [] => []
  | lfnParts, entry :: rest =>
    if first entry = 0x00 then []
    else if first entry = 0xE5 then parseSlots lfnParts rest
    else if attrs entry = 0x0F then
      parseSlots (lfnParts ++ [(first entry &&& 0x3F, lfnPart entry)]) rest
    else if IsLabel entry then parseSlots [] rest
    else
      let name := entryName lfnParts entry
      if name = ['.'] ∨ name = ['.', '.'] then parseSlots [] rest
      else { name, isDir := decide (attrs entry &&& 0x10 ≠ 0), size := le32 entry 28,
             cluster := firstCluster entry } :: parseSlots [] rest

def parseDirEntries (raw : List Byte) : List DirEntry := parseSlots [] (slots raw)

def lsCluster (cluster : ℕ) : Exec String Disk (List DirEntry) := do
  let raw ← fs.readChain cluster
  pure (parseDirEntries raw)

def resolveParts : ℕ → List (List Char) → Exec String Disk DirEntry
  | _, [] => throw "FAT32: chemin invalide"
  | currentCluster, component :: rest => do
    let entries ← fs.lsCluster currentCluster
    match entries.find? fun e => eqIgnoreAsciiCase e.name component with
    | none => throw "FAT32: fichier/répertoire introuvable"
    | some entry =>
      if rest.isEmpty then pure entry
      else if !entry.isDir then throw "FAT32: composant de chemin n'est pas un répertoire"
      else resolveParts entry.cluster rest

def resolve (path : List Char) : Exec String Disk DirEntry :=
  let path := path.dropWhile (· == '/')
  if path.isEmpty then pure { name := ['/'], isDir := true, size := 0, cluster := fs.bpb.rootCluster }
  else fs.resolveParts fs.bpb.rootCluster ((path.splitOn '/').filter fun s => !s.isEmpty)

def readFile (path : List Char) : Exec String Disk (List Byte) := do
  let entry ← fs.resolve path
  if entry.isDir then throw "FAT32: c'est un répertoire"
  else do
    let data ← fs.readChain entry.cluster
    pure (data.take entry.size)

/-! ### Writing -/

/-- The loop of `set_fat_entry` over the copies of the FAT. -/
def setFatLoop (entryOffset fatSectorRel value : ℕ) : ℕ → ℕ → Exec String Disk Unit
  | _, 0 => pure ()
  | idx, n + 1 => do
    let copy ← mul 32 idx fs.bpb.sectorsPerFat
    let copyLba ← add 32 fs.fatStartLba copy
    let lba ← add 32 copyLba fatSectorRel
    let buf ← Ata.read lba 1 (zeros SECTOR_SIZE)
    let prev := le32 buf entryOffset
    -- the four top bits are reserved, and kept
    let newVal := (prev &&& 0xF0000000) ||| (value &&& 0x0FFFFFFF)
    Ata.write lba 1 (splice buf entryOffset (le32Bytes newVal))
    setFatLoop entryOffset fatSectorRel value (idx + 1) n

def setFatEntry (cluster value : ℕ) : Exec String Disk Unit := do
  let fatOffset ← mul 32 cluster 4
  fs.setFatLoop (fatOffset % SECTOR_SIZE) (fatOffset / SECTOR_SIZE) value 0 fs.bpb.numFats

def freeInSector (buf : List Byte) (totalClusters sec : ℕ) : ℕ → ℕ → Exec String Disk (Option ℕ)
  | _, 0 => pure none
  | i, n + 1 => do
    let base ← mul 32 sec (SECTOR_SIZE / 4)
    let cluster ← add 32 base i
    if cluster < 2 then freeInSector buf totalClusters sec (i + 1) n
    else if cluster ≥ totalClusters then throw "FAT32: plus de clusters libres"
    else if le32 buf (i * 4) &&& 0x0FFFFFFF = 0 then pure (some cluster)
    else freeInSector buf totalClusters sec (i + 1) n

/-- The scan of `alloc_cluster` over the sectors of the FAT. -/
def allocLoop (totalClusters : ℕ) : ℕ → ℕ → Exec String Disk ℕ
  | _, 0 => throw "FAT32: scan FAT épuisé"
  | sec, n + 1 => do
    let lba ← add 32 fs.fatStartLba sec
    let buf ← Ata.read lba 1 (zeros SECTOR_SIZE)
    match ← freeInSector buf totalClusters sec 0 (SECTOR_SIZE / 4) with
    | some cluster => do
      fs.setFatEntry cluster 0x0FFFFFFF
      pure cluster
    | none => allocLoop totalClusters (sec + 1) n

def allocCluster : Exec String Disk ℕ := do
  let totalClusters ← mul 32 fs.bpb.sectorsPerFat (SECTOR_SIZE / 4)
  fs.allocLoop totalClusters 0 fs.bpb.sectorsPerFat

def writeCluster (cluster : ℕ) (data : List Byte) : Exec String Disk Unit :=
  if data.length > fs.clusterBytes then throw "FAT32: data > cluster_size"
  else do
    let lba ← fs.clusterToLba cluster
    Ata.write lba fs.bpb.sectorsPerCluster (data ++ zeros (fs.clusterBytes - data.length))

/-- The loop of `free_chain`, which does not end on a chain with a cycle. -/
def freeChainLoop : ℕ → ℕ → Exec String Disk Unit
  | 0, _ => diverge
  | fuel + 1, cur => do
    let next ← fs.nextCluster cur
    fs.setFatEntry cur 0
    match next with
    | some n => freeChainLoop fuel n
    | none => pure ()

def freeChain (fuel first : ℕ) : Exec String Disk Unit :=
  if first < 2 then pure () else fs.freeChainLoop fuel first

/-- The slot to write: the entry of this name, or else the first free one. -/
def scanSlots (name : List Byte) : List (List Byte) → ℕ → Option ℕ → Option (ℕ × Bool)
  | [], _, chosen => chosen.map fun i => (i, false)
  | entry :: rest, idx, chosen =>
    if first entry = 0x00 then some (idx, false)
    else if attrs entry = 0x0F then scanSlots name rest (idx + 1) chosen
    else if first entry = 0xE5 then scanSlots name rest (idx + 1) (chosen.or (some idx))
    else if entry.take 11 = name then some (idx, true)
    else scanSlots name rest (idx + 1) chosen

def newEntry (name : List Byte) (cluster size : ℕ) : List Byte :=
  name ++ [0x20#8] ++ zeros 8 ++ le16Bytes ((cluster >>> 16) &&& 0xFFFF) ++ zeros 4 ++
    le16Bytes (cluster &&& 0xFFFF) ++ le32Bytes size

def freeReplaced (fuel : ℕ) (isReplace : Bool) (entry : List Byte) : Exec String Disk Unit :=
  if isReplace then fs.freeChain fuel (firstCluster entry) else pure ()

/-- The loop of `upsert_root_dir_entry` over the clusters of the root, which adds one where none has room. -/
def upsertLoop (name : List Byte) (cluster size : ℕ) : ℕ → ℕ → Exec String Disk Unit
  | 0, _ => diverge
  | fuel + 1, cur => do
    let lbaStart ← fs.clusterToLba cur
    let clusterBuf ← Ata.read lbaStart fs.bpb.sectorsPerCluster (zeros fs.clusterBytes)
    match scanSlots name (slots clusterBuf) 0 none with
    | some (idx, isReplace) => do
      fs.freeReplaced fuel isReplace ((clusterBuf.drop (32 * idx)).take 32)
      Ata.write lbaStart fs.bpb.sectorsPerCluster
        (splice clusterBuf (32 * idx) (newEntry name cluster size))
    | none => do
      match ← fs.nextCluster cur with
      | some n => upsertLoop name cluster size fuel n
      | none => do
        let newC ← fs.allocCluster
        fs.setFatEntry cur newC
        fs.writeCluster newC []
        upsertLoop name cluster size fuel newC

def upsertRootDirEntry (fuel : ℕ) (name : List Byte) (cluster size : ℕ) : Exec String Disk Unit :=
  fs.upsertLoop name cluster size fuel fs.bpb.rootCluster

def isValidShortByte (b : Byte) : Bool :=
  let n := b.toNat
  (0x41 ≤ n && n ≤ 0x5A) || (0x30 ≤ n && n ≤ 0x39) ||
    [0x5F, 0x2D, 0x24, 0x25, 0x26, 0x21, 0x40, 0x7E, 0x28, 0x29, 0x7B, 0x7D, 0x23, 0x5E].contains n

def packShortName (name : List Char) : Except String (List Byte) :=
  let upper := name.map toAsciiUppercase
  let base := Utf8.encode (upper.takeWhile (· != '.'))
  let ext := Utf8.encode ((upper.dropWhile (· != '.')).drop 1)
  if base.isEmpty || base.length > 8 || ext.length > 3 then .error "FAT32: nom invalide (8.3 only)"
  else if !base.all isValidShortByte then .error "FAT32: caractère invalide"
  else if !ext.all isValidShortByte then .error "FAT32: caractère invalide"
  else .ok (base ++ List.replicate (8 - base.length) 0x20#8 ++ ext ++ List.replicate (3 - ext.length) 0x20#8)

/-- The clusters of a new file are taken one by one, before any is linked. -/
def allocChain : ℕ → Exec String Disk (List ℕ)
  | 0 => pure []
  | n + 1 => do
    let c ← fs.allocCluster
    let rest ← allocChain n
    pure (c :: rest)

def linkChain : List ℕ → Exec String Disk Unit
  | c :: c' :: rest => do
    fs.setFatEntry c c'
    linkChain (c' :: rest)
  | _ => pure ()

def writeChain : List ℕ → List Byte → Exec String Disk Unit
  | [], _ => pure ()
  | c :: rest, data => do
    fs.writeCluster c (data.take fs.clusterBytes)
    writeChain rest (data.drop fs.clusterBytes)

def createRootFile (fuel : ℕ) (name : List Char) (data : List Byte) : Exec String Disk Unit := do
  match packShortName name with
  | .error e => throw e
  | .ok nameBytes => do
    let nClusters ← expect (
      if data.isEmpty then some 0
      else if fs.clusterBytes = 0 then none
      else some ((data.length + fs.clusterBytes - 1) / fs.clusterBytes))
    let chain ← fs.allocChain nClusters
    fs.linkChain chain
    fs.writeChain chain data
    fs.upsertRootDirEntry fuel nameBytes (chain.headD 0) (data.length % 2 ^ 32)

def unlinkScan (name : List Byte) : List (List Byte) → ℕ → Except String (Option ℕ)
  | [], _ => .ok none
  | entry :: rest, idx =>
    if first entry = 0x00 then .error "FAT32: fichier non trouvé"
    else if attrs entry = 0x0F then unlinkScan name rest (idx + 1)
    else if entry.take 11 = name then .ok (some idx)
    else unlinkScan name rest (idx + 1)

def unlinkLoop (name : List Byte) : ℕ → ℕ → Exec String Disk Unit
  | 0, _ => diverge
  | fuel + 1, cur => do
    let lba ← fs.clusterToLba cur
    let clusterBuf ← Ata.read lba fs.bpb.sectorsPerCluster (zeros fs.clusterBytes)
    match unlinkScan name (slots clusterBuf) 0 with
    | .error e => throw e
    | .ok (some idx) => do
      fs.freeChain fuel (firstCluster ((clusterBuf.drop (32 * idx)).take 32))
      Ata.write lba fs.bpb.sectorsPerCluster (splice clusterBuf (32 * idx) [0xE5#8])
    | .ok none => do
      match ← fs.nextCluster cur with
      | some n => unlinkLoop name fuel n
      | none => throw "FAT32: fichier non trouvé"

def unlinkRoot (fuel : ℕ) (name : List Char) : Exec String Disk Unit :=
  match packShortName name with
  | .error e => throw e
  | .ok nameBytes => fs.unlinkLoop nameBytes fuel fs.bpb.rootCluster

end Fat32

end RustKernel.Drivers
