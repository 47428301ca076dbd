import RustKernel.Drivers.Fat32.Consistency

/-!
# Reading files by their paths

`read_file` follows a path through directories, each of them a chain of clusters, and reads the chain of the file it leads
to. A file without data has no chain: its entry records the cluster `0`, and `cluster_to_lba` subtracts `2` from it.
-/

namespace RustKernel.Drivers.Fat32

open Lib Exec Ata

def components (path : List Char) : List (List Char) :=
  ((path.dropWhile (· == '/')).splitOn '/').filter fun s => !s.isEmpty

section Volume

variable (fs : Fat32) (s : ℕ → Sector) (N : ℕ)

def FileChain (c : ℕ) (cs : List ℕ) : Prop := Chain N (fs.fat s) c cs ∧ cs.length ≤ 1000001

def entriesOf (R : List ℕ) : List DirEntry := parseDirEntries (R.flatMap (fs.cluster s))

inductive Directory : ℕ → Prop
  | root : Directory fs.bpb.rootCluster
  | sub {dir : ℕ} {R : List ℕ} {entry : DirEntry} : Directory dir → FileChain fs s N dir R →
      entry ∈ entriesOf fs s R → entry.isDir = true → Directory entry.cluster

def EntryOk (entry : DirEntry) : Prop :=
  if entry.isDir then ∃ R, FileChain fs s N entry.cluster R
  else if entry.size = 0 then entry.cluster = 0
  else ∃ cs, FileChain fs s N entry.cluster cs ∧ entry.size ≤ cs.length * fs.clusterBytes

structure Consistent (fault : ℕ → ℕ → Option String) : Prop where
  readable : ∀ c, 2 ≤ c → c < N → fs.Readable fault c
  root : ∃ R, FileChain fs s N fs.bpb.rootCluster R
  entry : ∀ dir R, Directory fs s N dir → FileChain fs s N dir R → ∀ e ∈ entriesOf fs s R, EntryOk fs s N e

inductive Leads : ℕ → List (List Char) → DirEntry → Prop
  | last {dir : ℕ} {R : List ℕ} {name : List Char} {entry : DirEntry} : FileChain fs s N dir R →
      (entriesOf fs s R).find? (fun e => eqIgnoreAsciiCase e.name name) = some entry → Leads dir [name] entry
  | next {dir : ℕ} {R : List ℕ} {name : List Char} {names : List (List Char)} {sub entry : DirEntry} :
      FileChain fs s N dir R → (entriesOf fs s R).find? (fun e => eqIgnoreAsciiCase e.name name) = some sub →
      sub.isDir = true → Leads sub.cluster names entry → Leads dir (name :: names) entry

end Volume

section Consistent

variable {fs : Fat32} {s : ℕ → Sector} {N : ℕ} {fault : ℕ → ℕ → Option String}
variable {dir : ℕ} {names : List (List Char)} {entry : DirEntry} {path : List Char}

theorem FileChain.runs_readChain {c : ℕ} {cs : List ℕ} (h : FileChain fs s N c cs)
    (hread : ∀ x, 2 ≤ x → x < N → fs.Readable fault x) : Runs fault (fs.readChain c) s (cs.flatMap (fs.cluster s)) s :=
  h.1.runs_readChainLoop (fun x hx => hread x (h.1.range x hx).1 (h.1.range x hx).2) 1000000 h.2

theorem FileChain.runs_lsCluster {c : ℕ} {R : List ℕ} (h : FileChain fs s N c R)
    (hread : ∀ x, 2 ≤ x → x < N → fs.Readable fault x) : Runs fault (fs.lsCluster c) s (entriesOf fs s R) s :=
  (h.runs_readChain hread).bind Runs.pure

section

variable (h : Leads fs s N dir names entry)
include h

theorem Leads.ne_nil : names ≠ [] := by
  cases h with
  | last => exact List.cons_ne_nil _ _
  | next => exact List.cons_ne_nil _ _

theorem Leads.runs_resolveParts (hread : ∀ x, 2 ≤ x → x < N → fs.Readable fault x) :
    Runs fault (fs.resolveParts dir names) s entry s := by
  induction h with
  | last hR hfind =>
    refine (hR.runs_lsCluster hread).bind ?_
    rw [hfind]
    exact Runs.pure
  | next hR hfind hdir hrest ih =>
    refine (hR.runs_lsCluster hread).bind ?_
    have hmore : List.isEmpty _ = false := List.isEmpty_eq_false_iff.mpr hrest.ne_nil
    simp only [hfind, hmore, hdir]
    exact ih

theorem Leads.listed
    (hdir : Directory fs s N dir) : ∃ dir' R, Directory fs s N dir' ∧ FileChain fs s N dir' R ∧ entry ∈ entriesOf fs s R := by
  induction h with
  | last hR hfind => exact ⟨_, _, hdir, hR, List.mem_of_find?_eq_some hfind⟩
  | next hR hfind hsub _ ih => exact ih (.sub hdir hR (List.mem_of_find?_eq_some hfind) hsub)

end

theorem resolve_eq_resolveParts (h : components path ≠ []) :
    fs.resolve path = fs.resolveParts fs.bpb.rootCluster (components path) := by
  have hne : (path.dropWhile (· == '/')).isEmpty = false := by
    rw [List.isEmpty_eq_false_iff]
    intro hnil
    rw [components, hnil] at h
    exact h rfl
  simp only [resolve, hne]
  rfl

theorem readFile_of_empty {d : Disk} (hv : Consistent fs d.sectors N d.fault)
    (hfile : Leads fs d.sectors N fs.bpb.rootCluster (components path) entry) (hreg : entry.isDir = false)
    (hsize : entry.size = 0) : fs.readFile path d = .panic := by
  obtain ⟨s, k, fault⟩ := d
  obtain ⟨dir, R, hdir, hR, hin⟩ := hfile.listed .root
  have hok := hv.entry dir R hdir hR entry hin
  rw [EntryOk, hreg, if_neg Bool.false_ne_true, if_pos hsize] at hok
  obtain ⟨k', hk'⟩ := hfile.runs_resolveParts hv.readable k
  rw [readFile, resolve_eq_resolveParts hfile.ne_nil, bind_of_ok hk', hreg, if_neg Bool.false_ne_true, bind_apply,
    readChain_lt_two (by omega)]

/-- **The files that have data are read.** On a consistent volume, if the names of a path lead to a file, then `read_file`
returns its clusters, in the order of its chain and cut to its size, which is how many bytes it returns, exactly if the file is
not empty. -/
theorem readFile_of_consistent {d : Disk} (hv : Consistent fs d.sectors N d.fault)
    (hfile : Leads fs d.sectors N fs.bpb.rootCluster (components path) entry) (hreg : entry.isDir = false) :
    (∃ cs bytes d', Chain N (fs.fat d.sectors) entry.cluster cs ∧ fs.readFile path d = .ok bytes d' ∧
      bytes = (cs.flatMap (fs.cluster d.sectors)).take entry.size ∧ bytes.length = entry.size ∧
      d'.sectors = d.sectors) ↔ entry.size ≠ 0 := by
  constructor
  · rintro ⟨cs, bytes, d', -, hread, -⟩ hsize
    cases hread.symm.trans (readFile_of_empty hv hfile hreg hsize)
  intro hsize
  obtain ⟨s, k, fault⟩ := d
  obtain ⟨dir, R, hdir, hR, hin⟩ := hfile.listed .root
  have hok := hv.entry dir R hdir hR entry hin
  rw [EntryOk, hreg, if_neg hsize] at hok
  obtain ⟨cs, hcs, hroom⟩ := hok
  have hlen : (cs.flatMap (fs.cluster s)).length = cs.length * fs.clusterBytes := by
    simp only [List.length_flatMap, length_cluster, List.map_const', List.sum_replicate_nat]
  have hrun : Runs fault (fs.readFile path) s ((cs.flatMap (fs.cluster s)).take entry.size) s := by
    rw [readFile, resolve_eq_resolveParts hfile.ne_nil]
    refine (hfile.runs_resolveParts hv.readable).bind ?_
    rw [hreg]
    exact (hcs.runs_readChain hv.readable).bind Runs.pure
  obtain ⟨k', hk'⟩ := hrun k
  refine ⟨cs, _, _, hcs.1, hk', rfl, ?_, rfl⟩
  rw [List.length_take, hlen]
  exact Nat.min_eq_left hroom

end Consistent

def nestedDisk : Disk where
  sectors := fun lba i =>
    if lba = 32 then
      (zeros 8 ++ le32Bytes 0x0FFFFFFF ++ le32Bytes 0x0FFFFFFF ++ le32Bytes 0x0FFFFFFF).getD i 0
    else if lba = 33 then
      (0x53#8 :: List.replicate 10 0x20#8 ++ [0x10#8] ++ zeros 14 ++ le16Bytes 3).getD i 0
    else if lba = 34 then
      (newEntry (0x46#8 :: List.replicate 10 0x20#8) 4 3 ++ newEntry (0x45#8 :: List.replicate 10 0x20#8) 0 0).getD i 0
    else if lba = 35 then [7#8, 8#8, 9#8].getD i 0
    else 0
  clock := 0
  fault := fun _ _ => none

def entryS : DirEntry := { name := ['S'], isDir := true, size := 0, cluster := 3 }

def entryF : DirEntry := { name := ['F'], isDir := false, size := 3, cluster := 4 }

def entryE : DirEntry := { name := ['E'], isDir := false, size := 0, cluster := 0 }

theorem nestedDisk_chains : FileChain smallVolume nestedDisk.sectors 128 2 [2] ∧
    FileChain smallVolume nestedDisk.sectors 128 3 [3] ∧ FileChain smallVolume nestedDisk.sectors 128 4 [4] := by
  have hfat : [2, 3, 4].map (smallVolume.fat nestedDisk.sectors) = [0x0FFFFFFF, 0x0FFFFFFF, 0x0FFFFFFF] := by decide +kernel
  obtain ⟨h₂, h₃, h₄⟩ : smallVolume.fat nestedDisk.sectors 2 = 0x0FFFFFFF ∧
      smallVolume.fat nestedDisk.sectors 3 = 0x0FFFFFFF ∧ smallVolume.fat nestedDisk.sectors 4 = 0x0FFFFFFF := by
    simpa using hfat
  have hlast : ∀ c, 2 ≤ c → c < 128 → smallVolume.fat nestedDisk.sectors c = 0x0FFFFFFF →
      FileChain smallVolume nestedDisk.sectors 128 c [c] := fun c h2 hlt hc =>
    ⟨.last h2 hlt (by rw [hc]; decide), Nat.le_add_left 1 1000000⟩
  exact ⟨hlast 2 le_rfl (by decide) h₂, hlast 3 (by decide) (by decide) h₃, hlast 4 (by decide) (by decide) h₄⟩

theorem nestedDisk_entries : entriesOf smallVolume nestedDisk.sectors [2] = [entryS] ∧
    entriesOf smallVolume nestedDisk.sectors [3] = [entryF, entryE] := by decide +kernel

theorem consistent_nestedDisk : Consistent smallVolume nestedDisk.sectors 128 nestedDisk.fault := by
  obtain ⟨h₂, h₃, h₄⟩ := nestedDisk_chains
  obtain ⟨hroot, hsub⟩ := nestedDisk_entries
  -- a directory starts at one of two clusters, and its chain and its entries are known
  have hlists : ∀ dir R, dir = 2 ∨ dir = 3 → FileChain smallVolume nestedDisk.sectors 128 dir R →
      ∀ e ∈ entriesOf smallVolume nestedDisk.sectors R, e = entryS ∨ e = entryF ∨ e = entryE := by
    intro dir R hdir hR e he
    rcases hdir with rfl | rfl
    · rw [hR.1.unique (by decide) h₂.1, hroot] at he
      exact .inl (List.mem_singleton.mp he)
    · rw [hR.1.unique (by decide) h₃.1, hsub] at he
      exact .inr (by simpa using he)
  have hdirs : ∀ dir, Directory smallVolume nestedDisk.sectors 128 dir → dir = 2 ∨ dir = 3 := by
    intro dir hdir
    induction hdir with
    | root => exact .inl rfl
    | sub _ hR hin hisdir ih =>
      rcases hlists _ _ ih hR _ hin with rfl | rfl | rfl
      · exact .inr rfl
      · cases hisdir
      · cases hisdir
  refine ⟨fun c h2 hc => geometry_smallVolume.readable h2 hc, ⟨_, h₂⟩, fun dir R hdir hR e he => ?_⟩
  rcases hlists dir R (hdirs dir hdir) hR e he with rfl | rfl | rfl
  · exact ⟨_, h₃⟩
  · exact ⟨_, h₄, by decide⟩
  · rfl

theorem nestedDisk_leads {name : List Char} {entry : DirEntry}
    (h : [entryF, entryE].find? (fun e => eqIgnoreAsciiCase e.name name) = some entry) :
    Leads smallVolume nestedDisk.sectors 128 2 [['s'], name] entry := by
  obtain ⟨h₂, h₃, -⟩ := nestedDisk_chains
  obtain ⟨hroot, hsub⟩ := nestedDisk_entries
  have hfind : (entriesOf smallVolume nestedDisk.sectors [2]).find? (fun e => eqIgnoreAsciiCase e.name ['s']) =
      some entryS := by
    rw [hroot]
    decide
  exact .next h₂ hfind rfl (.last h₃ (by rw [hsub, h]))

/-- The file of the subdirectory is read. -/
theorem readFile_nested : ∃ cs bytes d', Chain 128 (smallVolume.fat nestedDisk.sectors) 4 cs ∧
    smallVolume.readFile ['/', 's', '/', 'f'] nestedDisk = .ok bytes d' ∧
    bytes = (cs.flatMap (smallVolume.cluster nestedDisk.sectors)).take 3 ∧ bytes.length = 3 ∧
    d'.sectors = nestedDisk.sectors := by
  have hleads : Leads smallVolume nestedDisk.sectors 128 2 (components ['/', 's', '/', 'f']) entryF :=
    nestedDisk_leads (by decide)
  exact (readFile_of_consistent consistent_nestedDisk hleads rfl).mpr (by decide)

/-- **The empty file beside it panics the kernel**, on a consistent volume; so does an empty file that `create_root_file` has
just written. -/
theorem readFile_empty_panics : (Consistent smallVolume nestedDisk.sectors 128 nestedDisk.fault ∧
      Leads smallVolume nestedDisk.sectors 128 2 (components ['/', 's', '/', 'e']) entryE ∧ entryE.isDir = false ∧
      smallVolume.readFile ['/', 's', '/', 'e'] nestedDisk = .panic) ∧
    ∃ d', smallVolume.createRootFile 2 ['A'] [] emptyDisk = .ok () d' ∧ smallVolume.readFile ['A'] d' = .panic := by
  have hleads : Leads smallVolume nestedDisk.sectors 128 2 (components ['/', 's', '/', 'e']) entryE :=
    nestedDisk_leads (by decide)
  have hrun : (smallVolume.createRootFile 2 ['A'] [] emptyDisk).Returns fun _ d =>
      (smallVolume.readFile ['A'] d).isPanic = true := by decide +kernel
  obtain ⟨_, d', hcreate, hpanic⟩ := hrun
  exact ⟨⟨consistent_nestedDisk, hleads, rfl, readFile_of_empty consistent_nestedDisk hleads rfl rfl⟩, d', hcreate,
    Outcome.eq_panic hpanic⟩

end RustKernel.Drivers.Fat32
