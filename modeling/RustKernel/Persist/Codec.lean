import RustKernel.Persist
import RustKernel.Fs.Records

/-!
# Restoring the saved state

`Blob::deserialize` and `load_into_ramfs` of `persist.rs`, the inverse of what `RustKernel.Persist` saves: the header is
checked, the records are read, and the files in them are put into the ramfs.

`blob_codec` is the whole contract: what is serialized is deserialized, what is deserialized was serialized from the bytes that
were read, and a load restores what a save has stored, as long as the disk keeps the window and can read it.
-/

namespace RustKernel.Persist

open Lib Exec Drivers Records

def deserialize (raw : List Byte) : Exec Unit (List Entry) ℕ :=
  if raw.length < 16 then throw ()
  else do
    let magic ← slice raw 0 8
    if magic ≠ MAGIC then throw ()
    else
      let ver ← slice raw 8 4
      if le32 ver 0 ≠ VERSION then throw ()
      else
        let n ← slice raw 12 4
        if le32 n 0 > 1024 then throw ()
        else readRecords raw (fun e entries => entries ++ [e]) (le32 n 0) 16

def restore (entries : List Entry) (files : Ramfs) : Ramfs :=
  entries.foldl (fun files e => Function.update files e.1 (some e.2)) files

def loadIntoRamfs : Exec Empty Storage Bool := do
  match ← attempt (zoom Storage.drives (fun drives s => { s with drives })
      (Drives.onDisk DISK_IDX (Ata.read PERSIST_LBA PERSIST_SECTORS (List.replicate PERSIST_BYTES 0)))) with
  | .error _ => pure false
  | .ok buf => fun s =>
    match deserialize buf [] with
    | .ok _ entries => .ok true { s with files := restore entries s.files }
    | .err _ _ => .ok false s
    | .panic => .panic
    | .diverge => .diverge

def image (entries : List Entry) : List Byte :=
  MAGIC ++ (le32Bytes VERSION ++ (le32Bytes entries.length ++ entries.flatMap record))

theorem serialize_eq (entries : List Entry) :
    serialize entries = image entries ++ List.replicate (PERSIST_BYTES - (image entries).length) 0 := by
  rfl

theorem foldl_concat {α : Type} : ∀ (l acc : List α), l.foldl (fun acc e => acc ++ [e]) acc = acc ++ l
  | [], acc => (List.append_nil acc).symm
  | e :: l, acc => by rw [List.foldl_cons, foldl_concat l, List.append_assoc, List.singleton_append]

theorem length_image (entries : List Entry) : (image entries).length = 16 + (entries.flatMap record).length := by
  simp only [image, List.length_append, Fat32.length_le32Bytes, MAGIC, List.length_cons, List.length_nil]
  omega

theorem deserialize_header {raw magic ver n rest : List Byte} (hraw : raw = magic ++ (ver ++ (n ++ rest)))
    (hmagic : magic.length = 8) (hver : ver.length = 4) (hn : n.length = 4) : deserialize raw [] =
      if magic ≠ MAGIC ∨ le32 ver 0 ≠ VERSION ∨ le32 n 0 > 1024 then .err () []
      else readRecords raw (fun e entries => entries ++ [e]) (le32 n 0) 16 [] := by
  have h₀ : At raw 0 (magic ++ (ver ++ (n ++ rest))) := ⟨[], hraw, rfl⟩
  have hlong : ¬ raw.length < 16 := by
    simp only [hraw, List.length_append]
    omega
  have h₈ := h₀.advance hmagic
  have h₁₂ := h₈.advance hver
  rw [deserialize, if_neg hlong, bind_of_ok (h₀.slice hmagic)]
  by_cases hM : magic ≠ MAGIC
  · rw [if_pos hM, if_pos (.inl hM)]
    rfl
  rw [if_neg hM, bind_of_ok (h₈.slice hver)]
  by_cases hV : le32 ver 0 ≠ VERSION
  · rw [if_pos hV, if_pos (.inr (.inl hV))]
    rfl
  rw [if_neg hV, bind_of_ok (h₁₂.slice hn)]
  by_cases hN : le32 n 0 > 1024
  · rw [if_pos hN, if_pos (.inr (.inr hN))]
    rfl
  · rw [if_neg hN, if_neg (not_or.mpr ⟨hM, not_or.mpr ⟨hV, hN⟩⟩)]

theorem deserialize_image {entries : List Entry} (hlen : entries.length ≤ 1024) (hfits : ∀ e ∈ entries, Fits e)
    (rest : List Byte) : deserialize (image entries ++ rest) [] = .ok (image entries).length entries := by
  have hraw : image entries ++ rest =
      MAGIC ++ (le32Bytes VERSION ++ (le32Bytes entries.length ++ (entries.flatMap record ++ rest))) := by
    simp only [image, List.append_assoc]
  have hbody : At (image entries ++ rest) 16 (entries.flatMap record ++ rest) :=
    ⟨MAGIC ++ (le32Bytes VERSION ++ le32Bytes entries.length), by simp only [hraw, List.append_assoc], rfl⟩
  have hcount : le32 (le32Bytes entries.length) 0 = entries.length :=
    Fat32.le32_le32Bytes (lt_of_le_of_lt hlen (by decide))
  rw [deserialize_header hraw rfl rfl rfl, hcount, if_neg (by simp [hlen, Fat32.le32_le32Bytes, VERSION]),
    hbody.readRecords hfits, length_image, foldl_concat, List.nil_append]

theorem deserialize_cases (raw : List Byte) : (∃ entries, deserialize raw [] = .err () entries) ∨
    ∃ entries rest, raw = image entries ++ rest ∧ deserialize raw [] = .ok (image entries).length entries := by
  by_cases hshort : raw.length < 16
  · exact .inl ⟨[], by rw [deserialize, if_pos hshort]; rfl⟩
  obtain ⟨magic, ver, n, rest, hraw, hmagic, hver, hn⟩ : ∃ magic ver n rest, raw = magic ++ (ver ++ (n ++ rest)) ∧
      magic.length = 8 ∧ ver.length = 4 ∧ n.length = 4 := by
    refine ⟨raw.take 8, (raw.drop 8).take 4, ((raw.drop 8).drop 4).take 4, ((raw.drop 8).drop 4).drop 4, ?_, ?_, ?_, ?_⟩
    · rw [List.take_append_drop, List.take_append_drop, List.take_append_drop]
    all_goals
      simp only [List.length_take, List.length_drop]
      omega
  rw [deserialize_header hraw hmagic hver hn]
  split_ifs with hbad
  · exact .inl ⟨[], rfl⟩
  obtain ⟨hM, hV, -⟩ : magic = MAGIC ∧ le32 ver 0 = VERSION ∧ ¬ le32 n 0 > 1024 := by simpa only [not_or, not_not] using hbad
  have hbody : At raw 16 rest :=
    ⟨magic ++ (ver ++ n), by simp only [hraw, List.append_assoc], by simp only [List.length_append, hmagic, hver, hn]⟩
  obtain ⟨entries, rest', rfl, -, ⟨hlen, hok⟩ | ⟨-, herr⟩⟩ := hbody.readRecords_cases
    (fun e entries => entries ++ [e]) (n := le32 n 0) (s := [])
  · refine .inr ⟨entries, rest', ?_, by rw [hok, length_image, foldl_concat, List.nil_append]⟩
    rw [hraw, image, hlen, le32Bytes_le32 hn, ← hV, le32Bytes_le32 hver, hM]
    simp only [List.append_assoc]
  · exact .inl ⟨_, herr⟩

/-! ### Saving and restoring -/

theorem restore_of_not_mem : ∀ {entries : List Entry} {files : Ramfs} {path : List Char}, path ∉ entries.map Prod.fst →
    restore entries files path = files path
  | [], _, _, _ => rfl
  | e :: entries, files, path, h => by
    obtain ⟨hne, h⟩ := not_or.mp (mt List.mem_cons.mpr h)
    exact (show restore entries _ path = _ from restore_of_not_mem h).trans (Function.update_of_ne hne ..)

theorem restore_of_mem : ∀ {entries : List Entry} {files : Ramfs} {path : List Char} {data : List Byte},
    (entries.map Prod.fst).Nodup → (path, data) ∈ entries → restore entries files path = some data
  | e :: entries, files, path, data, hnodup, h => by
    obtain ⟨hnew, hnodup⟩ := List.nodup_cons.mp hnodup
    rcases List.mem_cons.mp h with rfl | h
    · exact (restore_of_not_mem hnew).trans (Function.update_self ..)
    · exact (show restore entries _ path = _ from restore_of_mem hnodup h)

theorem mem_collect {files : Ramfs} {path : List Char} {data : List Byte} :
    (path, data) ∈ collect files ↔ path ∈ PERSISTED_PATHS ∧ files path = some data := by
  unfold collect
  rw [List.mem_filterMap]
  constructor
  · rintro ⟨p, hp, h⟩
    obtain ⟨d, hd, heq⟩ := Option.map_eq_some_iff.mp h
    cases heq
    exact ⟨hp, hd⟩
  · rintro ⟨hp, hd⟩
    exact ⟨path, hp, by rw [hd]; rfl⟩

theorem nodup_collect (files : Ramfs) : ((collect files).map Prod.fst).Nodup := by
  have hpaths : (collect files).map Prod.fst = PERSISTED_PATHS.filter fun path => (files path).isSome := by
    unfold collect
    induction PERSISTED_PATHS with
    | nil => rfl
    | cons path paths ih => cases h : files path <;> simp [h, ih]
  rw [hpaths]
  exact List.Nodup.sublist List.filter_sublist (by decide)

theorem fits_collect {files : Ramfs} (h : (serialize (collect files)).length ≤ PERSIST_BYTES) : ∀ e ∈ collect files, Fits e := by
  rintro ⟨path, data⟩ he
  have hpaths : ∀ path ∈ PERSISTED_PATHS, (Utf8.encode path).length < 2 ^ 16 := by decide
  have hrecord : (record (path, data)).length ≤ ((collect files).flatMap record).length := by
    exact (List.sublist_flatten_of_mem (List.mem_map_of_mem he)).length_le
  refine ⟨hpaths path (mem_collect.mp he).1, ?_⟩
  have hbytes : PERSIST_BYTES = 32768 := rfl
  rw [serialize_eq, List.length_append, length_image] at h
  rw [length_record] at hrecord
  omega

structure Keeps (s t : Storage) : Prop where
  disk : ∃ list d, t.drives.disks = some list ∧ list[DISK_IDX]? = some d ∧
    (∀ l, InWindow DISK_IDX l → some (d.sectors l) = s.drives.sector DISK_IDX l) ∧
    ∀ clock l, InWindow DISK_IDX l → d.fault clock l = none

theorem writeBlob_eq_ok {buf : List Byte} {s s' : Storage} (h : writeBlob buf s = .ok () s') : ∃ list d d',
    s.drives.disks = some list ∧ list[DISK_IDX]? = some d ∧ Ata.write PERSIST_LBA PERSIST_SECTORS buf d = .ok () d' ∧
      s'.drives = { s.drives with disks := some (list.set DISK_IDX d') } := by
  unfold writeBlob zoom at h
  cases hdisk : Drives.onDisk DISK_IDX (Ata.write PERSIST_LBA PERSIST_SECTORS buf) s.drives with
  | ok a drives =>
    rw [hdisk] at h
    cases h
    obtain ⟨list, d, d', hlist, hd, hx, rfl⟩ := Drives.onDisk_eq_ok hdisk
    exact ⟨list, d, d', hlist, hd, hx, rfl⟩
  | err e drives => rw [hdisk] at h; cases h
  | panic => rw [hdisk] at h; cases h
  | diverge => rw [hdisk] at h; cases h

theorem loadIntoRamfs_of_save {s s' t : Storage} (hsave : saveFromRamfs s = .ok () s') (hkeeps : Keeps s' t) :
    ∃ t', loadIntoRamfs t = .ok true t' ∧ t'.files = restore (collect s.files) t.files := by
  obtain ⟨list, d, hlist, hd, hsectors, hfault⟩ := hkeeps.disk
  unfold saveFromRamfs at hsave
  dsimp only at hsave
  split_ifs at hsave with hbig
  have hlen : (serialize (collect s.files)).length = PERSIST_SECTORS * SECTOR_SIZE :=
    le_antisymm (Nat.not_lt.mp hbig) (le_length_serialize _)
  -- what the save left in the window
  have hstored : Ata.bytesAt d.sectors PERSIST_LBA PERSIST_SECTORS = serialize (collect s.files) := by
    obtain ⟨list₀, d₀, d₁, hlist₀, hd₀, hwrite, hs'⟩ := writeBlob_eq_ok hsave
    have hstore := (Ata.post_write (by decide) _ d₀).ok hwrite
    have hidx : DISK_IDX < list₀.length := (List.getElem?_eq_some_iff.mp hd₀).1
    have hback : Ata.bytesAt (Ata.stored d₀.sectors PERSIST_LBA PERSIST_SECTORS (serialize (collect s.files))) PERSIST_LBA
        PERSIST_SECTORS = serialize (collect s.files) := Ata.bytesAt_stored hlen
    rw [← hstore] at hback
    refine Eq.trans ?_ hback
    refine Ata.bytesAt_congr fun i hi => Option.some.inj ((hsectors _ ⟨rfl, by omega, by omega⟩).trans ?_)
    simp only [hs', Drives.sector, Option.bind_some, List.getElem?_set_self hidx, Option.map_some]
  have hruns : Ata.Runs d.fault (Ata.read PERSIST_LBA PERSIST_SECTORS (List.replicate PERSIST_BYTES 0)) d.sectors
      (Ata.bytesAt d.sectors PERSIST_LBA PERSIST_SECTORS) d.sectors := Ata.runs_read
    (show 0 < PERSIST_SECTORS by decide) (List.length_replicate ..) (show PERSIST_LBA < 2 ^ 28 by decide)
    fun clock i hi => hfault clock _ ⟨rfl, by omega, by omega⟩
  obtain ⟨k, hk⟩ := hruns d.clock
  rw [hstored] at hk
  have hcount : (collect s.files).length ≤ 1024 :=
    (List.length_filterMap_le ..).trans (show PERSISTED_PATHS.length ≤ 1024 by decide)
  have hdecode := deserialize_image hcount (fits_collect (Nat.not_lt.mp hbig))
    (List.replicate (PERSIST_BYTES - (image (collect s.files)).length) 0)
  rw [← serialize_eq] at hdecode
  refine ⟨⟨{ t.drives with disks := some (list.set DISK_IDX ⟨d.sectors, k, d.fault⟩) }, restore (collect s.files) t.files⟩,
    ?_, rfl⟩
  unfold loadIntoRamfs
  rw [bind_apply, attempt, zoom, Drives.onDisk_of_ok hlist hd hk]
  simp only [hdecode]

/-- **The blob is a faithful codec.** Entries whose lengths can be written are read back; whatever the bytes, no slice is out
of range, and entries that were read are written as the bytes they were read from; and what a save has stored a later load
restores. -/
theorem blob_codec :
    (∀ entries : List Entry, entries.length ≤ 1024 → (∀ e ∈ entries, Fits e) →
      ∃ k, deserialize (serialize entries) [] = .ok k entries) ∧
    (∀ raw, (∃ entries, deserialize raw [] = .err () entries) ∨ ∃ k entries, deserialize raw [] = .ok k entries ∧
      k ≤ raw.length ∧ raw.take k <+: serialize entries) ∧
    ∀ s s' t, saveFromRamfs s = .ok () s' → Keeps s' t → ∃ t', loadIntoRamfs t = .ok true t' ∧
      ∀ path ∈ PERSISTED_PATHS, ∀ data, s.files path = some data → t'.files path = some data := by
  refine ⟨fun entries hlen hfits => ⟨_, by rw [serialize_eq, deserialize_image hlen hfits]⟩, fun raw => ?_, ?_⟩
  · rcases deserialize_cases raw with herr | ⟨entries, rest, rfl, hok⟩
    · exact .inl herr
    · refine .inr ⟨_, entries, hok, by rw [List.length_append]; omega, ?_⟩
      rw [List.take_left]
      exact List.prefix_append ..
  · intro s s' t hsave hkeeps
    obtain ⟨t', hload, hfiles⟩ := loadIntoRamfs_of_save hsave hkeeps
    refine ⟨t', hload, fun path hpath data hdata => ?_⟩
    rw [hfiles]
    exact restore_of_mem (nodup_collect s.files) (mem_collect.mpr ⟨hpath, hdata⟩)

/-- Every file holds the length of its path. -/
def measured : Ramfs := fun path => some [BitVec.ofNat 8 path.length]

theorem blob_codec_two : (collect measured).length = 2 ∧
    (∃ k, deserialize (serialize (collect measured)) [] = .ok k (collect measured)) ∧
    ∃ s' t t', saveFromRamfs ⟨bootWith 2048, measured⟩ = .ok () s' ∧ Keeps s' t ∧ t.files = (fun _ => none) ∧
      loadIntoRamfs t = .ok true t' ∧ ∀ path ∈ PERSISTED_PATHS, t'.files path = measured path := by
  have hfit : (serialize (collect measured)).length ≤ PERSIST_BYTES := by
    rw [serialize, List.length_append, List.length_replicate]
    decide
  obtain ⟨s', hsave, hsector⟩ := saveFromRamfs_stores (s := ⟨bootWith 2048, measured⟩) rfl rfl hfit fun _ _ _ => rfl
  -- the machine is started again with the disk that was written
  let d : Disk := ⟨fun l => (s'.drives.sector DISK_IDX l).getD 0, 0, fun _ _ => none⟩
  have hkeeps : Keeps s' ⟨⟨some [d], none⟩, fun _ => none⟩ := ⟨[d], d, rfl, rfl, fun l hl => ?_, fun _ _ _ => rfl⟩
  · obtain ⟨t', hload, hfiles⟩ := blob_codec.2.2 _ _ _ hsave hkeeps
    exact ⟨rfl, blob_codec.1 _ (by decide) (fits_collect hfit), s', _, t', hsave, hkeeps, rfl, hload,
      fun path hpath => hfiles path hpath _ rfl⟩
  · show some ((s'.drives.sector DISK_IDX l).getD 0) = _
    cases hs : s'.drives.sector DISK_IDX l with
    | none => cases hs.symm.trans (hsector l hl)
    | some x => rfl

end RustKernel.Persist
