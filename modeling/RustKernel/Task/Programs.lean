import RustKernel.Drivers.Fat32.WriteRead
import RustKernel.Kernel.Machine
import RustKernel.Persist

/-!
# Finding a program and starting it

`task/process.rs` looks for a program in the ramfs and on the FAT volume, under the name given or in the
directories of `PATH`: `resolve_exec_path` only asks whether a file is there, `exec_from_any` reads the file and
starts it. The two look for the file independently.
-/

namespace RustKernel.Programs

open Lib Exec Drivers
open RustKernel.Task (spawnFromElf)
open Fat32 (smallVolume emptyDisk)

variable {path : List Char} {data : List Byte} {parent : ℕ} {k k' : Kernel}

structure Files where
  ramfs : Ramfs
  fat : Option (Fat32 × (ℕ → Sector))
  execPaths : List (List Char)

def FAT : List Char := ['/', 'f', 'a', 't']

def DEFAULT_EXEC_PATHS : List (List Char) :=
  [['/'], ['/', 'b', 'i', 'n'], FAT, FAT ++ ['/', 'b', 'i', 'n']]

def readFat (volume : Fat32 × (ℕ → Sector)) (path : List Char) : Exec String Kernel (List Byte) :=
  Exec.zoom (fun _ => { sectors := volume.2, clock := 0, fault := fun _ _ => none }) (fun _ k => k)
    (volume.1.readFile path)

def fatPath (path : List Char) : List Char := if FAT.isPrefixOf path then path.drop FAT.length else path

def underFat (path : List Char) : Bool := path == FAT || (FAT ++ ['/']).isPrefixOf path

variable (files : Files)

def execFromFs (path : List Char) (parent : ℕ) : Exec String Kernel ℕ :=
  match files.ramfs path with
  | some data => spawnFromElf data parent
  | none => Exec.throw "exec: fichier introuvable"

def execFromFat (path : List Char) (parent : ℕ) : Exec String Kernel ℕ :=
  match files.fat with
  | none => Exec.throw "exec: FAT32 non monté"
  | some volume => do
    let data ← Exec.mapErr (fun _ => "exec: fichier introuvable") (readFat volume (fatPath path))
    spawnFromElf data parent

def execFromAny (path : List Char) (parent : ℕ) : Exec String Kernel ℕ :=
  if underFat path then execFromFat files path parent
  else do
    match ← Exec.attempt (execFromFs files path parent) with
    | .ok pid => pure pid
    | .error _ => execFromFat files path parent

def onFat (path : List Char) : Exec String Kernel Bool :=
  match files.fat with
  | none => pure false
  | some volume => do
    match ← Exec.attempt (readFat volume path) with
    | .ok _ => pure true
    | .error _ => pure false

def execCandidateExists (path : List Char) : Exec String Kernel Bool :=
  if underFat path then
    if fatPath path = [] ∨ fatPath path = ['/'] then pure false else onFat files (fatPath path)
  else if (files.ramfs path).isSome then pure true
  else onFat files path

def joinExecDirAndName (dir name : List Char) : List Char :=
  if dir = ['/'] then '/' :: name else dir ++ '/' :: name

def execPaths : List (List Char) := if files.execPaths.isEmpty then DEFAULT_EXEC_PATHS else files.execPaths

def searchDirs (name : List Char) : List (List Char) → Exec String Kernel (Option (List Char))
  | [] => pure none
  | dir :: dirs => do
    if ← execCandidateExists files (joinExecDirAndName dir name) then pure (some (joinExecDirAndName dir name))
    else searchDirs name dirs

def resolveExecPath (path : List Char) : Exec String Kernel (Option (List Char)) := do
  if path.contains '/' then
    if ← execCandidateExists files path then pure (some path) else pure none
  else searchDirs files path (execPaths files)

def execFromSearch (path : List Char) (parent : ℕ) : Exec String Kernel ℕ := do
  if path.contains '/' then execFromAny files path parent
  else
    match ← resolveExecPath files path with
    | none => Exec.throw "exec: binaire introuvable"
    | some resolved => execFromAny files resolved parent

/-! ### The file found -/

inductive File where
  | ram (path : List Char)
  | fat (path : List Char)
  deriving DecidableEq

def fatContents (path : List Char) : Option (List Byte) :=
  files.fat.bind fun volume =>
    match volume.1.readFile path { sectors := volume.2, clock := 0, fault := fun _ _ => none } with
    | .ok data _ => some data
    | _ => none

def Files.contents : File → Option (List Byte)
  | .ram path => files.ramfs path
  | .fat path => fatContents files path

def Files.asked (path : List Char) : File :=
  if underFat path then .fat (fatPath path) else if (files.ramfs path).isSome then .ram path else .fat path

def Files.found (path : List Char) : Option File :=
  if (files.contents (files.asked path)).isSome then some (files.asked path) else none

variable {files} {volume : Fat32 × (ℕ → Sector)} {name : List Char} {pid : ℕ}

theorem readFat_post (hfat : files.fat = some volume) (path : List Char) (k : Kernel) : (readFat volume path k).Post
    (fun data k' => fatContents files path = some data ∧ k' = k) (fun _ k' => fatContents files path = none ∧ k' = k) := by
  refine post_zoom ?_
  rw [fatContents, hfat, Option.bind_some]
  cases volume.1.readFile path { sectors := volume.2, clock := 0, fault := fun _ _ => none } with
  | ok data d => exact ⟨rfl, rfl⟩
  | err e d => exact ⟨rfl, rfl⟩
  | panic => trivial
  | diverge => trivial

theorem readFat_of_contents (hfat : files.fat = some volume)
    (h : fatContents files path = some data) (k : Kernel) : readFat volume path k = .ok data k := by
  rw [fatContents, hfat, Option.bind_some] at h
  unfold readFat Exec.zoom
  cases hread : volume.1.readFile path { sectors := volume.2, clock := 0, fault := fun _ _ => none } with
  | ok data' d =>
    rw [hread] at h
    cases h
    rfl
  | err e d => rw [hread] at h; cases h
  | panic => rw [hread] at h; cases h
  | diverge => rw [hread] at h; cases h

theorem onFat_post (path : List Char) (k : Kernel) : (onFat files path k).Post
    (fun b k' => (b = true → (fatContents files path).isSome) ∧ k' = k) (fun _ _ => False) := by
  unfold onFat
  cases hfat : files.fat with
  | none => exact ⟨fun h => absurd h (by decide), rfl⟩
  | some volume =>
    let R : Except String (List Byte) → Kernel → Prop := fun r k' => match r with
      | .ok data => fatContents files path = some data ∧ k' = k
      | .error _ => k' = k
    have hread : (Exec.attempt (readFat volume path) k : Outcome String Kernel _).Post R (fun _ _ => False) :=
      post_attempt ((readFat_post hfat path k).imp_err fun _ _ h => h.2)
    refine post_bind hread fun r k' h => ?_
    cases r with
    | ok data => exact ⟨fun _ => by rw [h.1]; rfl, h.2⟩
    | error e => exact ⟨fun h => absurd h (by decide), h⟩

theorem execCandidateExists_post (path : List Char) (k : Kernel) : (execCandidateExists files path k).Post
    (fun b k' => (b = true → (files.contents (files.asked path)).isSome) ∧ k' = k) (fun _ _ => False) := by
  unfold execCandidateExists Files.asked
  by_cases hunder : underFat path
  · rw [if_pos hunder, if_pos hunder]
    by_cases hempty : fatPath path = [] ∨ fatPath path = ['/']
    · rw [if_pos hempty]
      exact ⟨fun h => absurd h (by decide), rfl⟩
    · rw [if_neg hempty]
      exact onFat_post (fatPath path) k
  · rw [if_neg hunder, if_neg hunder]
    by_cases hram : (files.ramfs path).isSome
    · rw [if_pos hram, if_pos hram]
      exact ⟨fun _ => hram, rfl⟩
    · rw [if_neg hram, if_neg hram]
      exact onFat_post path k

theorem execFromFat_of_contents (h : fatContents files (fatPath path) = some data)
    (parent : ℕ) (k : Kernel) : execFromFat files path parent k = spawnFromElf data parent k := by
  unfold execFromFat
  cases hfat : files.fat with
  | none =>
    rw [fatContents, hfat] at h
    cases h
  | some volume =>
    have hread : Exec.mapErr (fun _ => "exec: fichier introuvable") (readFat volume (fatPath path)) k = .ok data k := by
      rw [Exec.mapErr, readFat_of_contents hfat h]
    exact bind_of_ok hread

theorem execFromAny_of_ram
    (hunder : ¬ underFat path) (hram : files.ramfs path = some data) (hload : ∀ e k', spawnFromElf data parent k ≠ .err e k') :
    execFromAny files path parent k = spawnFromElf data parent k := by
  have hfs : execFromFs files path parent = spawnFromElf data parent := by rw [execFromFs, hram]
  rw [execFromAny, if_neg hunder, hfs, bind_apply, Exec.attempt]
  cases hspawn : spawnFromElf data parent k with
  | ok pid k' => rfl
  | err e k' => exact absurd hspawn (hload e k')
  | panic => rfl
  | diverge => rfl

theorem execFromAny_of_not_ram (hunder : ¬ underFat path) (hram : files.ramfs path = none)
    (parent : ℕ) (k : Kernel) : execFromAny files path parent k = execFromFat files path parent k := by
  unfold execFromAny execFromFs
  rw [if_neg hunder, hram]
  rfl

/-- What `exec_from_any` relies on to run the file that is found. -/
structure Agree (files : Files) (path : List Char) (parent : ℕ) (k : Kernel) : Prop where
  slash : files.ramfs path = none → FAT.isPrefixOf path → underFat path
  loads : ¬ underFat path → ∀ data, files.ramfs path = some data → ∀ e k', spawnFromElf data parent k ≠ .err e k'

theorem execFromAny_of_asked (hagree : Agree files path parent k) (h : files.contents (files.asked path) = some data) :
    execFromAny files path parent k = spawnFromElf data parent k := by
  unfold Files.asked at h
  by_cases hunder : underFat path
  · rw [if_pos hunder] at h
    rw [execFromAny, if_pos hunder]
    exact execFromFat_of_contents h parent k
  · rw [if_neg hunder] at h
    cases hram : files.ramfs path with
    | some data' =>
      rw [hram] at h
      cases hram.symm.trans h
      exact execFromAny_of_ram hunder hram (hagree.loads hunder data hram)
    | none =>
      have hpath : fatPath path = path := if_neg fun hbegins => hunder (hagree.slash hram hbegins)
      rw [hram] at h
      rw [execFromAny_of_not_ram hunder hram]
      exact execFromFat_of_contents (hpath.symm ▸ h) parent k

theorem onFat_of_contents (h : fatContents files path = some data) (k : Kernel) : onFat files path k = .ok true k := by
  unfold onFat
  cases hfat : files.fat with
  | none =>
    rw [fatContents, hfat] at h
    cases h
  | some volume =>
    have hread : (Exec.attempt (readFat volume path) k : Outcome String Kernel _) = .ok (.ok data) k := by
      rw [Exec.attempt, readFat_of_contents hfat h]
    exact bind_of_ok hread

/-- `exec_from_fat` does not say why it fails. -/
theorem execFromFat_of_none (h : fatContents files (fatPath path) = none) (parent : ℕ) (k : Kernel) :
    (execFromFat files path parent k).Post (fun _ _ => False)
      (fun e _ => e = "exec: FAT32 non monté" ∨ e = "exec: fichier introuvable") := by
  unfold execFromFat
  cases hfat : files.fat with
  | none => exact .inl rfl
  | some volume =>
    have hread := readFat_post hfat (fatPath path) k
    rw [h] at hread
    exact post_bind (post_mapErr (hread.imp_err fun _ _ _ => .inr rfl)) fun _ _ h => nomatch h.1

/-- The machine after boot, with no frame to give. -/
def fullKernel : Kernel :=
  let k := bootMachine.kernel
  { k with mem := { k.mem with frames := { k.mem.frames with numFrames := 0 } } }

theorem spawnFromElf_fullKernel (data : List Byte) (parent : ℕ) :
    spawnFromElf data parent fullKernel = .err "plus de frames libres" fullKernel := rfl

/-- The file that `exec_candidate_exists` finds is on the volume, under the path that `exec_from_fat` reads. -/
def Files.Plain (files : Files) (path : List Char) : Prop :=
  underFat path = true ∨ files.ramfs path = none ∧ FAT.isPrefixOf path = false

theorem Files.Plain.agree (h : files.Plain path) (parent : ℕ) (k : Kernel) : Agree files path parent k := by
  refine ⟨fun _ hbegins => h.resolve_right fun hnot => ?_, fun hunder data hram => ?_⟩
  · cases hnot.2.symm.trans hbegins
  · cases ((h.resolve_left hunder).1).symm.trans hram

/-- If the file found is not `Plain`, `exec_from_any` goes on to the volume when it cannot load it. -/
theorem execFromAny_fullKernel (hplain : ¬ files.Plain path) (hother : fatContents files (fatPath path) = none)
    (hdata : files.contents (files.asked path) = some data) : execCandidateExists files path fullKernel = .ok true fullKernel ∧
      execFromAny files path 0 fullKernel ≠ spawnFromElf data 0 fullKernel := by
  have hunder : ¬ underFat path := fun h => hplain (.inl h)
  have hfat := execFromFat_of_none hother 0 fullKernel
  have hne : execFromFat files path 0 fullKernel ≠ spawnFromElf data 0 fullKernel := fun heq => by
    rw [heq, spawnFromElf_fullKernel] at hfat
    rcases hfat with h | h <;> exact absurd h (by decide)
  unfold Files.asked at hdata
  rw [if_neg hunder] at hdata
  rw [execCandidateExists, if_neg hunder]
  cases hram : files.ramfs path with
  | some data' =>
    refine ⟨rfl, ?_⟩
    rw [execFromAny, if_neg hunder, execFromFs, hram, bind_apply, Exec.attempt, spawnFromElf_fullKernel]
    exact hne
  | none =>
    rw [hram] at hdata
    refine ⟨onFat_of_contents hdata _, ?_⟩
    rw [execFromAny_of_not_ram hunder hram]
    exact hne

theorem searchDirs_post (name : List Char) (k : Kernel) : ∀ dirs, (searchDirs files name dirs k).Post
    (fun r k' => k' = k ∧ ∀ path ∈ r, ∃ before dir after, dirs = before ++ dir :: after ∧ joinExecDirAndName dir name = path ∧
      execCandidateExists files path k = .ok true k ∧
      ∀ d ∈ before, execCandidateExists files (joinExecDirAndName d name) k = .ok false k) (fun _ _ => False)
  | [] => ⟨rfl, fun _ h => absurd h (by simp)⟩
  | dir :: dirs => by
    have hpost : (execCandidateExists files (joinExecDirAndName dir name) k).Post _ _ :=
      execCandidateExists_post (joinExecDirAndName dir name) k
    rw [searchDirs, bind_apply]
    cases hcand : execCandidateExists files (joinExecDirAndName dir name) k with
    | ok b k' =>
      obtain ⟨-, rfl⟩ := hpost.ok hcand
      cases b with
      | true => exact ⟨rfl, fun path h => ⟨[], dir, dirs, rfl, Option.some.inj h, Option.some.inj h ▸ hcand, by simp⟩⟩
      | false =>
        refine (searchDirs_post name k' dirs).imp_ok fun r k₁ h => ⟨h.1, fun path hpath => ?_⟩
        obtain ⟨before, d, after, rfl, hd, hfound, hnone⟩ := h.2 path hpath
        refine ⟨dir :: before, d, after, rfl, hd, hfound, fun d' hd' => ?_⟩
        rcases List.mem_cons.1 hd' with rfl | hmem
        · exact hcand
        · exact hnone d' hmem
    | err e k' => exact (hpost.err hcand).elim
    | panic => trivial
    | diverge => trivial

/-- **A program started by its name is the first one in `PATH`**: no directory before that one has the file, and the machine
takes the step that starts what the file holds. -/
theorem search_starts_first {s : Machine} {name : List Char} {pid : ℕ} (hm : s.mode = .shell)
    (hname : name.contains '/' = false) (h : execFromSearch files name 0 s.kernel = .ok pid k')
    (hagree : ∀ dir ∈ execPaths files, Agree files (joinExecDirAndName dir name) 0 s.kernel) :
    ∃ before dir after data, execPaths files = before ++ dir :: after ∧
      (∀ d ∈ before, execCandidateExists files (joinExecDirAndName d name) s.kernel = .ok false s.kernel) ∧
      files.contents (files.asked (joinExecDirAndName dir name)) = some data ∧
      step s (.spawn (some data) none) = some ⟨k', .shell⟩ := by
  rw [execFromSearch, hname, resolveExecPath, hname] at h
  obtain ⟨r, k₁, hdirs, hrun⟩ := bind_eq_ok.1 h
  obtain ⟨rfl, hfirst⟩ := (searchDirs_post name s.kernel (execPaths files)).ok hdirs
  cases r with
  | none => cases hrun
  | some path =>
    obtain ⟨before, dir, after, hpaths, rfl, hfound, hnone⟩ := hfirst path rfl
    obtain ⟨data, hdata⟩ := Option.isSome_iff_exists.1 (((execCandidateExists_post _ s.kernel).ok hfound).1 rfl)
    have hspawn : spawnFromElf data 0 s.kernel = .ok pid k' :=
      (execFromAny_of_asked (hagree dir (by simp [hpaths])) hdata).symm.trans hrun
    have hstart : Task.execFromAny (some data) none 0 s.kernel = .ok pid k' := by
      rw [Task.execFromAny, bind_apply, Exec.attempt, Task.execImage, hspawn]
      rfl
    refine ⟨before, dir, after, data, hpaths, hnone, hdata, ?_⟩
    rw [step, hm, handler, Option.bind_some, shellCommand, bind_apply, Exec.attempt, hstart]
    rfl

/-! ### A volume with two files -/

def twoFiles : ℕ → Sector :=
  let written := do
    smallVolume.createRootFile 2 ['F', 'A', 'T', 'X'] [7#8]
    smallVolume.createRootFile 2 ['X'] Fs.tinyImage
  match written emptyDisk with
  | .ok _ d => d.sectors
  | _ => emptyDisk.sectors

def twoXs : Files where
  ramfs := fun path => if path = ['/', 'x'] then some [] else none
  fat := some (smallVolume, twoFiles)
  execPaths := []

/-- `x` is not in `/bin`; it is the file `X` of the volume. -/
def onVolume : Files := { twoXs with ramfs := fun _ => none, execPaths := [['/', 'b', 'i', 'n'], FAT] }

theorem search_starts_x : ∃ before dir after data k', execPaths onVolume = before ++ dir :: after ∧
    onVolume.contents (onVolume.asked (joinExecDirAndName dir ['x'])) = some data ∧
    step bootMachine (.spawn (some data) none) = some ⟨k', .shell⟩ := by
  have hagree : ∀ dir ∈ execPaths onVolume, Agree onVolume (joinExecDirAndName dir ['x']) 0 bootMachine.kernel := by
    intro dir hdir
    exact ⟨fun _ => (by decide : ∀ dir ∈ execPaths onVolume, FAT.isPrefixOf (joinExecDirAndName dir ['x']) →
      underFat (joinExecDirAndName dir ['x'])) dir hdir, fun _ _ hram => by cases hram⟩
  have hanswer : (execFromSearch onVolume ['x'] 0 bootMachine.kernel).answer = some (.ok 1) := by decide +kernel
  obtain ⟨k', h⟩ := Outcome.exists_of_answer hanswer
  obtain ⟨before, dir, after, data, hpaths, -, hdata, hstep⟩ := search_starts_first (s := bootMachine) rfl (by decide) h hagree
  exact ⟨before, dir, after, data, k', hpaths, hdata, hstep⟩

end RustKernel.Programs
