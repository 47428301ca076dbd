import RustKernel.Persist
import RustKernel.Fs.Records

/-!
# Boot modules

`try_load_archive` of `fs/mod.rs` reads a boot module as an archive, a count and so many records, and puts the files into the
ramfs. `init` calls it for each module, and stores a module that is not an archive as one file.
-/

namespace RustKernel.Fs

open Lib Exec Drivers Records

def slashed (name : List Char) : List Char := if name.head? = some '/' then name else '/' :: name

def create (e : Entry) (files : Ramfs) : Ramfs := Function.update files (slashed e.1) (some e.2)

def readArchive (data : List Byte) : Exec Unit Ramfs Unit :=
  if data.length < 4 then throw ()
  else do
    let n ← slice data 0 4
    if le32 n 0 > 1024 then throw ()
    else
      let _ ← readRecords data create (le32 n 0) 4
      pure ()

def tryLoadArchive (data : List Byte) : Exec Empty Ramfs Bool := do
  let r ← attempt (readArchive data)
  pure r.isOk

def modulePath (name : List Char) : List Char :=
  '/' :: if name = [] then ['i', 'n', 'i', 't', 'r', 'd', '.', 'b', 'i', 'n'] else name

def loadModule (name : List Char) (data : List Byte) : Exec Empty Ramfs Unit := do
  let loaded ← tryLoadArchive data
  if loaded then pure ()
  else
    modify fun files => Function.update files (modulePath name) (some data)

def archive (es : List Entry) : List Byte := le32Bytes es.length ++ es.flatMap record

def loadFiles (es : List Entry) (files : Ramfs) : Ramfs := es.foldl (fun files e => create e files) files

/-- The bytes begin with the archive of some files. -/
def IsArchive (data : List Byte) : Prop :=
  ∃ (es : List Entry) (rest : List Byte), es.length ≤ 1024 ∧ (∀ e ∈ es, Fits e) ∧ data = archive es ++ rest

/-- The count is too large, or no whole record follows it. -/
def NoRecord (data : List Byte) : Prop :=
  le32 (data.take 4) 0 > 1024 ∨ ∀ e rest, Fits e → data.drop 4 ≠ record e ++ rest

variable {data n : List Byte} {files files' : Ramfs}

theorem readArchive_of_count (rest : List Byte) (files : Ramfs) (hn : n.length = 4) : readArchive (n ++ rest) files =
    if le32 n 0 > 1024 then .err () files
    else (readRecords (n ++ rest) create (le32 n 0) 4 >>= fun _ => pure ()) files := by
  have h₀ : At (n ++ rest) 0 (n ++ rest) := ⟨[], rfl, rfl⟩
  rw [readArchive, if_neg (by rw [List.length_append]; omega), bind_of_ok (h₀.slice hn)]
  split_ifs
  · rfl
  · rfl

/-- An archive is read, bytes without a record are refused at once, and of all others at least one file has been put. -/
theorem readArchive_cases (data : List Byte) (files : Ramfs) : NoRecord data ∧ readArchive data files = .err () files ∨
    IsArchive data ∧ (∃ es, readArchive data files = .ok () (loadFiles es files)) ∨
    ¬ NoRecord data ∧ ∃ e es, readArchive data files = .err () (loadFiles (e :: es) files) := by
  by_cases hshort : data.length < 4
  · refine .inl ⟨.inr fun e rest _ h => ?_, by rw [readArchive, if_pos hshort]; rfl⟩
    have := congrArg List.length h
    rw [List.length_append, length_record, List.length_drop] at this
    omega
  have hn : (data.take 4).length = 4 := List.length_take_of_le (Nat.not_lt.mp hshort)
  have hcount := readArchive_of_count (data.drop 4) files hn
  rw [List.take_append_drop] at hcount
  rw [hcount]
  split_ifs with hbig
  · exact .inl ⟨.inl hbig, rfl⟩
  have hbody : At data 4 (data.drop 4) := ⟨data.take 4, (List.take_append_drop 4 data).symm, hn⟩
  have hsplit : data = le32Bytes (le32 (data.take 4) 0) ++ data.drop 4 := by rw [le32Bytes_le32 hn, List.take_append_drop]
  cases hc : le32 (data.take 4) 0 with
  | zero => exact .inr (.inl ⟨⟨[], data.drop 4, by decide, nofun, by rw [hc] at hsplit; exact hsplit⟩, [], rfl⟩)
  | succ n =>
    rcases hbody.readRecord_cases files with herr | ⟨e, rest, he, hrest, hok⟩
    · refine .inl ⟨.inr fun e rest he h => ?_, by rw [readRecords, bind_apply, bind_apply, herr]⟩
      cases herr.symm.trans ((h ▸ hbody).readRecord he)
    have hread : readRecords data create (n + 1) 4 files = readRecords data create n (4 + (record e).length) (create e files) := by
      rw [readRecords, bind_of_ok hok, modify_bind]
    rw [bind_apply, hread]
    obtain ⟨es, rest', rfl, hes, hcases⟩ := ((hrest ▸ hbody).advance rfl).readRecords_cases create (n := n) (s := create e files)
    rcases hcases with ⟨hlen, hok⟩ | ⟨-, herr⟩
    · refine .inr (.inl ⟨⟨e :: es, rest', by rw [List.length_cons]; omega, List.forall_mem_cons.mpr ⟨he, hes⟩, ?_⟩,
        e :: es, by rw [hok]; rfl⟩)
      rw [hc, hrest, ← hlen] at hsplit
      rw [hsplit, archive, List.length_cons, List.flatMap_cons, List.append_assoc, List.append_assoc]
    · refine .inr (.inr ⟨?_, e, es, by rw [herr]; rfl⟩)
      rintro (h | h)
      · exact hbig h
      · exact h e _ he hrest

theorem readArchive_archive {es : List Entry} (hlen : es.length ≤ 1024) (hfits : ∀ e ∈ es, Fits e) (rest : List Byte)
    (files : Ramfs) : readArchive (archive es ++ rest) files = .ok () (loadFiles es files) := by
  have hcount : le32 (le32Bytes es.length) 0 = es.length := Fat32.le32_le32Bytes (lt_of_le_of_lt hlen (by decide))
  have hbody : At (le32Bytes es.length ++ (es.flatMap record ++ rest)) 4 (es.flatMap record ++ rest) :=
    ⟨le32Bytes es.length, rfl, rfl⟩
  rw [archive, List.append_assoc, readArchive_of_count _ _ rfl, hcount, if_neg (Nat.not_lt.mpr hlen),
    bind_of_ok (hbody.readRecords hfits)]
  rfl

theorem tryLoadArchive_of_ok (h : readArchive data files = .ok () files') : tryLoadArchive data files = .ok true files' := by
  rw [tryLoadArchive, bind_apply, attempt, h]
  rfl

theorem tryLoadArchive_of_err (h : readArchive data files = .err () files') : tryLoadArchive data files = .ok false files' := by
  rw [tryLoadArchive, bind_apply, attempt, h]
  rfl

theorem loadFiles_isSome {path : List Char} (es : List Entry) : ∀ files : Ramfs, (files path).isSome →
    (loadFiles es files path).isSome := by
  induction es with
  | nil => exact fun _ h => h
  | cons e es ih =>
    intro files h
    refine ih (create e files) ?_
    by_cases hp : path = slashed e.1
    · rw [hp, create, Function.update_self]
      rfl
    · rwa [create, Function.update_of_ne hp]

/-- **Loading is faithful**: an archive is loaded as its files, with a slash added where it is missing, and any other bytes are
read without a slice out of range. A module that is refused appears as itself only, whatever the ramfs holds, exactly if it is
an archive, which is not refused, or if no whole record stands at its beginning. -/
theorem archive_faithful (data : List Byte) :
    (∀ (es : List Entry) rest files, es.length ≤ 1024 → (∀ e ∈ es, Fits e) →
      tryLoadArchive (archive es ++ rest) files = .ok true (loadFiles es files)) ∧
    (∀ files, ∃ b files', tryLoadArchive data files = .ok b files') ∧
    ((∀ files files', tryLoadArchive data files = .ok false files' →
      files' = files ∧ ∀ name, loadModule name data files = .ok () (Function.update files (modulePath name) (some data))) ↔
      IsArchive data ∨ NoRecord data) := by
  have htry : ∀ {es : List Entry} {rest : List Byte} files, es.length ≤ 1024 → (∀ e ∈ es, Fits e) →
      tryLoadArchive (archive es ++ rest) files = .ok true (loadFiles es files) := fun files hlen hfits =>
    tryLoadArchive_of_ok (readArchive_archive hlen hfits _ files)
  refine ⟨fun es rest => htry, fun files => ?_, fun h => ?_, ?_⟩
  · rcases readArchive_cases data files with ⟨-, herr⟩ | ⟨-, es, hok⟩ | ⟨-, e, es, herr⟩
    · exact ⟨false, files, tryLoadArchive_of_err herr⟩
    · exact ⟨true, _, tryLoadArchive_of_ok hok⟩
    · exact ⟨false, _, tryLoadArchive_of_err herr⟩
  · rcases readArchive_cases data fun _ => none with ⟨hno, -⟩ | ⟨harchive, -⟩ | ⟨-, e, es, herr⟩
    · exact .inr hno
    · exact .inl harchive
    · -- the first file is there, in a ramfs that was empty
      have hfiles := (h (fun _ => none) _ (tryLoadArchive_of_err herr)).1
      have hfirst : (create e (fun _ => none) (slashed e.1)).isSome := by
        rw [create, Function.update_self]
        rfl
      have hsome := loadFiles_isSome es _ hfirst
      rw [show loadFiles es (create e fun _ => none) = fun _ => none from hfiles] at hsome
      cases hsome
  · rintro (⟨es, rest, hlen, hfits, rfl⟩ | hno) files files' hfalse
    · cases (htry files hlen hfits).symm.trans hfalse
    · rcases readArchive_cases data files with ⟨-, herr⟩ | ⟨⟨es, rest, hlen, hfits, rfl⟩, -⟩ | ⟨hnot, -⟩
      · have hsame := tryLoadArchive_of_err herr
        cases hsame.symm.trans hfalse
        exact ⟨rfl, fun name => by rw [loadModule, bind_of_ok hsame]; rfl⟩
      · cases (htry files hlen hfits).symm.trans hfalse
      · exact absurd hno hnot

theorem archive_faithful_slash : tryLoadArchive (archive [(['a'], [1#8])]) (fun _ => none) =
    .ok true (loadFiles [(['a'], [1#8])] fun _ => none) := by
  have h := (archive_faithful []).1 [(['a'], [1#8])] [] (fun _ => none) (by decide) fun _ he =>
    List.mem_singleton.mp he ▸ ⟨by decide, by decide⟩
  rwa [List.append_nil] at h

/-- **An archive cut short**: two files are announced, the first is written and the second is not there. -/
theorem cut_archive_leaves_files : ∃ files',
    tryLoadArchive (le32Bytes 2 ++ record (['a'], [1#8])) (fun _ => none) = .ok false files' ∧
      files' ['/', 'a'] = some [1#8] :=
  ⟨_, rfl, rfl⟩

end RustKernel.Fs
