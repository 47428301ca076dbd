import RustKernel.Drivers.Fat32.LongNames

/-!
# Short names there and back

`pack_short_name` cuts a name at its first dot and pads the two parts; `parse_dir_entries` trims them and joins them with a
dot, unless the extension is empty. A name that ends in its dot comes back without it.
-/

namespace RustKernel.Drivers.Fat32

open Lib Exec Ata

variable {name : List Char} {b : List Byte} {A : List (List Byte)} {e : List Byte}

/-! ### Listing a packed name -/

def NoLfn (A : List (List Byte)) : Prop := ∀ x ∈ (A.filter fun e => decide (first e ≠ 0xE5)).getLast?, attrs x ≠ 0x0F

theorem foldl_lfnAfter_of_noLfn (h : NoLfn A) : A.foldl lfnAfter [] = [] := by
  induction A using List.reverseRecOn with
  | nil => rfl
  | append_singleton A y ih =>
    rw [List.foldl_append, List.foldl_cons, List.foldl_nil, lfnAfter]
    by_cases hdel : first y = 0xE5
    · rw [if_pos hdel]
      refine ih fun x hx => h x ?_
      rwa [List.filter_append, List.filter_cons_of_neg (by simpa using hdel), List.filter_nil, List.append_nil]
    · have hlfn : attrs y ≠ 0x0F := by
        refine h y ?_
        rw [List.filter_append, List.filter_cons_of_pos (by simpa using hdel), List.getLast?_append]
        rfl
      rw [if_neg hdel, if_neg hlfn]

def packedEntry (name : List Char) (e : List Byte) : DirEntry :=
  { name := name.map toAsciiUppercase, isDir := decide (attrs e &&& 0x10 ≠ 0), size := le32 e 28, cluster := firstCluster e }

theorem slotEntry_of_pack_undotted (hpack : packShortName name = .ok b) (he : e.take 11 = b) (hlfn : attrs e ≠ 0x0F)
    (hlabel : ¬ IsLabel e) : slotEntry e = some (packedEntry (undotted name) e) := by
  have h83 : Name83 (e.take 11) := he ▸ name83_of_pack hpack
  rw [slotEntry, if_neg, shortName_of_pack_undotted hpack he]
  · rfl
  · rintro (h | h | h | h)
    · exact h83.first_ne.2 h
    · exact hlfn h
    · exact hlabel h
    · exact h83.shortName_ne_dots h

theorem slotEntry_of_pack (hpack : packShortName name = .ok b) (hdot : name.getLast? ≠ some '.')
    (he : e.take 11 = b) (hlfn : attrs e ≠ 0x0F) (hlabel : ¬ IsLabel e) : slotEntry e = some (packedEntry name e) := by
  rw [slotEntry_of_pack_undotted hpack he hlfn hlabel, undotted, if_neg hdot]

theorem eqIgnoreAsciiCase_upper (name : List Char) : eqIgnoreAsciiCase (name.map toAsciiUppercase) name = true := by
  rw [eqIgnoreAsciiCase_iff, List.map_map]
  exact List.map_congr_left fun c _ => toAsciiUppercase_idem c

theorem packedEntry_mem {raw : List Byte} {B : List (List Byte)} (hpack : packShortName name = .ok b)
    (hslots : slots raw = A ++ e :: B) (hA : ∀ x ∈ A, first x ≠ 0) (hno : NoLfn A) (he : e.take 11 = b)
    (hlfn : attrs e ≠ 0x0F) (hlabel : ¬ IsLabel e) : packedEntry (undotted name) e ∈ parseDirEntries raw := by
  have hne : first e ≠ 0 := (Name83.first_ne (he ▸ name83_of_pack hpack)).1
  have hself : ∀ x ∈ [e], x = e := fun x hx => List.mem_singleton.mp hx
  have hone : parseSlots [] [e] = [packedEntry (undotted name) e] := by
    rw [parseSlots_eq fun x hx _ => hself x (List.takeWhile_sublist _ |>.subset hx) ▸ hlfn, live_cons_of_ne hne]
    simp only [live, List.takeWhile_nil, List.filterMap_cons, slotEntry_of_pack_undotted hpack he hlfn hlabel,
      List.filterMap_nil]
  rw [parseDirEntries, hslots, parseSlots_append hA, foldl_lfnAfter_of_noLfn hno, ← List.singleton_append,
    parseSlots_append (fun x hx => hself x hx ▸ hne), hone]
  exact List.mem_append_right _ (List.mem_append_left _ (List.mem_singleton_self _))

theorem eqIgnoreAsciiCase_undotted :
    eqIgnoreAsciiCase ((undotted name).map toAsciiUppercase) name = true ↔ name.getLast? ≠ some '.' := by
  by_cases hdot : name.getLast? = some '.'
  · refine iff_of_false (fun h => ?_) (not_not_intro hdot)
    have hlen := congrArg List.length (eqIgnoreAsciiCase_iff.mp h)
    have happend := congrArg List.length (undotted_append hdot)
    simp only [List.length_map, List.length_append, List.length_singleton] at hlen happend
    omega
  · rw [undotted, if_neg hdot]
    exact iff_of_true (eqIgnoreAsciiCase_upper name) hdot

theorem eqIgnoreAsciiCase_of_pack {other : List Char} (h : packShortName name = .ok b) (h' : packShortName other = .ok b) :
    eqIgnoreAsciiCase other name = true ↔ (other.getLast? = some '.' ↔ name.getLast? = some '.') := by
  have htake : b.take 11 = b := List.take_of_length_le (name83_of_pack h).length.le
  have hsame := (shortName_of_pack_undotted h' htake).symm.trans (shortName_of_pack_undotted h htake)
  rw [eqIgnoreAsciiCase_iff]
  constructor
  · intro heq
    have hlast := congrArg List.getLast? heq
    have hcase : ∀ l : List Char, (l.map toAsciiUppercase).getLast? = some '.' ↔ l.getLast? = some '.' := fun l => by
      rw [List.getLast?_map]
      simp only [Option.map_eq_some_iff, toAsciiUppercase_eq_dot, exists_eq_right]
    rw [← hcase, ← hcase name, hlast]
  · intro hiff
    by_cases hdot : name.getLast? = some '.'
    · rw [← undotted_append hdot, ← undotted_append (hiff.mpr hdot), List.map_append, List.map_append, hsame]
    · rwa [undotted, undotted, if_neg hdot, if_neg fun h => hdot (hiff.mp h)] at hsame

/-! ### Finding a file again -/

section Found

variable {fs : Fat32} {fault : ℕ → ℕ → Option String} {s s' s₃ : ℕ → Sector} {R R' cs fr : List ℕ} {L : List (List ℕ)}
  {name : List Char} {b x : List Byte} {size : ℕ} {A B : List (List Byte)} {cur : ℕ} {entry : DirEntry}

structure NameFree (S : List (List Byte)) (name : List Char) (b : List Byte) : Prop where
  closed : Closed [] S
  short : ∀ A x B, S = A ++ x :: B → Stores b x → ∀ y ∈ A.getLast?, ¬ IsLfn y
  other : ∀ o ∈ owned [] S, InUse o.slot → ¬ IsLabel o.slot → eqIgnoreAsciiCase (ownName o) name = true →
    o.slot.take 11 = b

theorem closed_of_upserted {new : List Byte} (hname : NameFree (chainSlots fs s₃ R) name b) (hnew : InUse new)
    (hup : Upserted fs b new s₃ s' cur R R' A x B fr) : A.foldl pending [] = [] ∧ Closed [] (chainSlots fs s' R') := by
  have hclosed := hname.closed
  rw [hup.after]
  rcases hup.before with ⟨-, hS⟩ | ⟨n, -, -, -, -, hS, -, hB⟩
  · rw [hS] at hclosed
    rcases hup.chosen with ⟨hv, -⟩ | ⟨hst, -⟩
    · exact ⟨hclosed.foldl_eq_nil hv.not_isLfn hv.not_inUse, hclosed.replace hv.not_isLfn hnew.not_isLfn (.inr hnew)⟩
    · exact ⟨foldl_pending (hname.short A x B hS hst), hclosed.replace hst.inUse.not_isLfn hnew.not_isLfn (.inr hnew)⟩
  · rw [hS] at hclosed
    exact hclosed.grow hnew hB

theorem ownEntry_nil {e : List Byte} (h : InUse e) : ownEntry ⟨e, []⟩ = slotEntry e := by
  have hname : ownName ⟨e, []⟩ = shortName e := rfl
  have hiff : (¬ InUse e ∨ IsLabel e ∨ shortName e = ['.'] ∨ shortName e = ['.', '.']) ↔
      (first e = 0xE5 ∨ attrs e = 0x0F ∨ IsLabel e ∨ shortName e = ['.'] ∨ shortName e = ['.', '.']) := by
    have hdel := h.2.1
    have hlfn := h.2.2
    tauto
  simp only [ownEntry, slotEntry, hname, hiff]

theorem of_ownEntry_eq_some {o : Owned} (h : ownEntry o = some entry) :
    InUse o.slot ∧ ¬ IsLabel o.slot ∧ entry.name = ownName o := by
  unfold ownEntry at h
  split_ifs at h with hno
  cases h
  rw [not_or, not_or] at hno
  exact ⟨not_not.mp hno.1, hno.2.1, rfl⟩

theorem lookup_of_upserted {c : ℕ} (hpack : packShortName name = .ok b) (hdot : name.getLast? ≠ some '.')
    (hname : NameFree (chainSlots fs s₃ R) name b) (hup : Upserted fs b (newEntry b c size) s₃ s' cur R R' A x B fr) :
    lookup (chainSlots fs s' R') name = some (packedEntry name (newEntry b c size)) := by
  have h83 := name83_of_pack hpack
  have hnew : InUse (newEntry b c size) := inUse_newEntry h83
  obtain ⟨hnil, hclosed⟩ := closed_of_upserted hname hnew hup
  have hlabel : ¬ IsLabel (newEntry b c size) := by
    rw [IsLabel, attrs_newEntry h83.length]
    decide
  have hentry : ownEntry ⟨newEntry b c size, []⟩ = some (packedEntry name (newEntry b c size)) :=
    (ownEntry_nil hnew).trans (slotEntry_of_pack hpack hdot (take_newEntry h83.length) hnew.2.2 hlabel)
  -- a slot before it that is listed under the name would have been taken
  have hnone : ((owned [] A).filterMap ownEntry).find? (fun e => eqIgnoreAsciiCase e.name name) = none := by
    refine List.find?_eq_none.mpr fun entry hin hfound => ?_
    obtain ⟨o, ho, hsome⟩ := List.mem_filterMap.mp hin
    obtain ⟨huse, hnl, hn⟩ := of_ownEntry_eq_some hsome
    have hS : o ∈ owned [] (chainSlots fs s₃ R) := by
      rcases hup.before with ⟨-, hS⟩ | ⟨n, -, -, -, -, hS, -⟩
      · rw [hS, owned_append]
        exact List.mem_append_left _ ho
      · rwa [hS]
    have hA : o.slot ∈ A := map_slot_owned A [] ▸ List.mem_map_of_mem ho
    exact (hup.passed _ hA).2 ⟨huse.1, huse.2.2, huse.2.1, hname.other o hS huse hnl (hn ▸ hfound)⟩
  have hused : ∀ o ∈ owned [] A, decide (first o.slot ≠ 0) = true := fun o ho => by
    have hA : o.slot ∈ A := map_slot_owned A [] ▸ List.mem_map_of_mem ho
    simpa using (hup.passed _ hA).1
  have hlist : parseSlots [] (chainSlots fs s' R') = (owned [] A).filterMap ownEntry ++
      packedEntry name (newEntry b c size) :: ownListing (owned [] B) := by
    rw [← List.map_nil (f := lfnOf), parseSlots_eq_ownListing hclosed, hup.after, owned_middle hnew.not_isLfn,
      if_pos hnew, hnil, ownListing, List.takeWhile_append_of_pos hused, List.filterMap_append, ← ownListing,
      ownListing_cons_of_ne hnew.1, hentry]
    rfl
  rw [lookup, hlist, List.find?_append, hnone, Option.none_or]
  exact List.find?_cons_of_pos (eqIgnoreAsciiCase_upper name)

theorem runs_resolve (g : fs.Geometry fault) (hR : ChainOf fs s fs.bpb.rootCluster R) (hlen : R.length ≤ 1000001)
    (hslash : '/' ∉ name) (hne : name ≠ []) (hfound : lookup (chainSlots fs s R) name = some entry) :
    Runs fault (fs.resolve name) s entry s := by
  rw [resolve_eq hslash hne]
  refine (runs_lsCluster g hR hlen).bind ?_
  rw [show (parseSlots [] (chainSlots fs s R)).find? (fun e => eqIgnoreAsciiCase e.name name) = some entry from hfound]
  exact Runs.pure

theorem Staged.found (g : fs.Geometry fault) (hlayout : Layout fs s R L) (hlen : R.length ≤ 1000000) (hp : Staged fs s s₃ cs)
    (hpack : packShortName name = .ok b) (hdot : name.getLast? ≠ some '.') (hname : NameFree (chainSlots fs s R) name b)
    {fuel k : ℕ} {d : Disk} (hupsert : fs.upsertLoop b (cs.headD 0) size fuel fs.bpb.rootCluster ⟨s₃, k, fault⟩ = .ok () d) :
    ∃ s' k' R' A x B fr, d = ⟨s', k', fault⟩ ∧ (∀ y ∈ cs, y ∉ fr) ∧ R'.length ≤ 1000001 ∧
    Upserted fs b (newEntry b (cs.headD 0) size) s₃ s' fs.bpb.rootCluster R R' A x B fr ∧
    lookup (chainSlots fs s' R') name = some (packedEntry name (newEntry b (cs.headD 0) size)) := by
  obtain ⟨s', k', R', A, x, B, fr, hd, hapart, hup, -⟩ := (post_upsertLoop g
    (length_newEntry (name83_of_pack hpack).length) (hp.chainOf hlayout.root)
    (fun y hy => List.mem_append_left cs hy) (hlayout.ownChains_apart hp b)).ok hupsert
  refine ⟨s', k', R', A, x, B, fr, hd, fun y hy hin => hapart y hin (List.mem_append_right _ hy), ?_, hup, ?_⟩
  · rcases hup.before with ⟨rfl, -⟩ | ⟨n, rfl, -⟩
    · omega
    · rw [List.length_append, List.length_singleton]
      omega
  · refine lookup_of_upserted hpack hdot ?_ hup
    rwa [hp.chainSlots_eq hlayout.root]

end Found

section Created

variable {fs : Fat32} {d d' : Disk} {R : List ℕ} {L : List (List ℕ)} {fuel : ℕ} {name : List Char} {data b : List Byte}
  (g : fs.Geometry d.fault) (hlayout : Layout fs d.sectors R L) (hlen : R.length ≤ 1000000)
  (hpack : packShortName name = .ok b) (hdot : name.getLast? ≠ some '.')
  (hname : NameFree (chainSlots fs d.sectors R) name b) (hcreate : fs.createRootFile fuel name data d = .ok () d')

include g hlayout hlen hpack hdot hname hcreate

theorem resolve_createRootFile : ∃ entry, (fs.resolve name d').answer = some (.ok entry) ∧
    eqIgnoreAsciiCase entry.name name = true ∧ entry.isDir = false ∧ entry.size = data.length % 2 ^ 32 := by
  have hblen := (name83_of_pack hpack).length
  obtain ⟨b', cs, s₃, k₃, hpack', hfilled, hupsert⟩ := of_createRootFile g hcreate
  cases hpack.symm.trans hpack'
  obtain ⟨s', k', R', A, x, B, fr, rfl, -, hR', hup, hfound⟩ := hfilled.staged.found g hlayout hlen hpack hdot hname hupsert
  refine ⟨packedEntry name (newEntry b (cs.headD 0) (data.length % 2 ^ 32)), ?_, eqIgnoreAsciiCase_upper name, ?_,
    size_newEntry hblen (Nat.mod_lt _ (Nat.two_pow_pos 32))⟩
  · obtain ⟨k₄, hk₄⟩ := runs_resolve g hup.chain hR' (slash_notMem_of_pack hpack) (ne_nil_of_pack hpack) hfound k'
    rw [hk₄]
    rfl
  · rw [packedEntry, attrs_newEntry hblen]
    rfl

theorem readFile_of_createRootFile (hne : data ≠ []) (hsize : data.length < 2 ^ 32)
    (hspan : data.length ≤ 1000001 * fs.clusterBytes) : (fs.readFile name d').answer = some (.ok data) := by
  have hblen := (name83_of_pack hpack).length
  obtain ⟨b', cs, s₃, k₃, hpack', hfilled, hupsert⟩ := of_createRootFile g hcreate
  obtain ⟨-, hcount, hp⟩ := hfilled.resolve_left fun h => hne h.1
  cases hpack.symm.trans hpack'
  rw [Nat.mod_eq_of_lt hsize] at hupsert
  obtain ⟨s', k', R', A, x, B, fr, rfl, hfr, hR', hup, hfound⟩ := hp.staged.found g hlayout hlen hpack hdot hname hupsert
  obtain ⟨hchain, hbytes⟩ := hp.newFile hlayout.root hup hfr
  have hcs : cs.length ≤ 1000001 := by
    have hcb : 0 < fs.clusterBytes := Nat.mul_pos g.spc_pos (by decide)
    rw [hcount, Nat.div_le_iff_le_mul hcb]
    omega
  obtain ⟨k₄, hread⟩ := answer_readFile g hup.chain hR' (slash_notMem_of_pack hpack) (ne_nil_of_pack hpack) k'
  have hentry : packedEntry name (newEntry b (cs.headD 0) data.length) = newDirEntry name cs data := by
    rw [packedEntry, attrs_newEntry hblen, size_newEntry hblen hsize, firstCluster_newEntry hblen (hp.staged.headD_lt g)]
    rfl
  rw [hread, hfound, hentry, answerOf]
  simp only [newDirEntry]
  rw [answer_readChain g hchain, if_pos hcs, hbytes]
  simp [Except.map]

end Created

/-- **Short names there and back.** Let a name be accepted. An entry stored under its 11 bytes, with no long name before it, is
listed in upper case without a final dot, so under the name exactly if that does not end in a dot. Another name that packs to
the same bytes is equal but for its case exactly if both or neither of them end in a dot. A file created under a name that
does not end in a dot is found again by `resolve`, and read back if it has data. -/
theorem packShortName_round_trip (hpack : packShortName name = .ok b) :
    (∀ raw A e B, slots raw = A ++ e :: B → (∀ x ∈ A, first x ≠ 0) → NoLfn A → e.take 11 = b → attrs e ≠ 0x0F →
      ¬ IsLabel e → packedEntry (undotted name) e ∈ parseDirEntries raw ∧
        (eqIgnoreAsciiCase (packedEntry (undotted name) e).name name = true ↔ name.getLast? ≠ some '.')) ∧
    (∀ other, packShortName other = .ok b →
      (eqIgnoreAsciiCase other name = true ↔ (other.getLast? = some '.' ↔ name.getLast? = some '.'))) ∧
    ∀ (fs : Fat32) (d d' : Disk) (R : List ℕ) (L : List (List ℕ)) (fuel : ℕ) (data : List Byte),
      fs.Geometry d.fault → Layout fs d.sectors R L → R.length ≤ 1000000 →
      NameFree (chainSlots fs d.sectors R) name b → fs.createRootFile fuel name data d = .ok () d' →
      name.getLast? ≠ some '.' →
      (∃ entry, (fs.resolve name d').answer = some (.ok entry) ∧ eqIgnoreAsciiCase entry.name name = true ∧
        entry.isDir = false ∧ entry.size = data.length % 2 ^ 32) ∧
      (data ≠ [] → data.length < 2 ^ 32 → data.length ≤ 1000001 * fs.clusterBytes →
        (fs.readFile name d').answer = some (.ok data)) := by
  refine ⟨fun raw A e B hslots hA hno he hlfn hlabel => ?_, fun other hother => ?_,
    fun fs d d' R L fuel data g hlayout hlen hname hcreate hdot => ⟨?_, fun hne hsize hspan => ?_⟩⟩
  · exact ⟨packedEntry_mem hpack hslots hA hno he hlfn hlabel, eqIgnoreAsciiCase_undotted⟩
  · exact eqIgnoreAsciiCase_of_pack hpack hother
  · exact resolve_createRootFile g hlayout hlen hpack hdot hname hcreate
  · exact readFile_of_createRootFile g hlayout hlen hpack hdot hname hcreate hne hsize hspan

/-- The name `a.b` is listed as `A.B` and packs as it does, and a file created under it on an empty volume is read back. -/
theorem packShortName_a_b : ∃ b, packShortName ['a', '.', 'b'] = .ok b ∧
    packedEntry ['a', '.', 'b'] (newEntry b 0 0) ∈ parseDirEntries (newEntry b 0 0) ∧
    eqIgnoreAsciiCase ['A', '.', 'B'] ['a', '.', 'b'] = true ∧
    ∃ d', smallVolume.createRootFile 2 ['a', '.', 'b'] [7#8] emptyDisk = .ok () d' ∧
      (smallVolume.readFile ['a', '.', 'b'] d').answer = some (.ok [7#8]) := by
  have hpack : packShortName ['a', '.', 'b'] =
      .ok (0x41#8 :: List.replicate 7 0x20#8 ++ 0x42#8 :: List.replicate 2 0x20#8) := by decide +kernel
  obtain ⟨hlist, hsame, hfile⟩ := packShortName_round_trip hpack
  have hunused : ∀ e ∈ chainSlots smallVolume emptyDisk.sectors [2], first e = 0 := by decide +kernel
  have hname : NameFree (chainSlots smallVolume emptyDisk.sectors [2]) ['a', '.', 'b']
      (0x41#8 :: List.replicate 7 0x20#8 ++ 0x42#8 :: List.replicate 2 0x20#8) := by
    refine ⟨closed_of_unused hunused, fun A x B hS hst => ?_, fun o ho huse => ?_⟩
    · exact absurd (hunused x (hS ▸ List.mem_append_right _ (List.mem_cons_self ..))) hst.1
    · rw [owned_of_unused hunused] at ho
      obtain ⟨e, he, rfl⟩ := List.mem_map.mp ho
      exact absurd (hunused e he) huse.1
  have hret : (smallVolume.createRootFile 2 ['a', '.', 'b'] [7#8] emptyDisk).Returns fun _ _ => True := by decide +kernel
  refine ⟨_, hpack, (hlist _ [] _ [] (by decide +kernel) (by simp) (by simp [NoLfn]) (by decide +kernel)
    (by decide +kernel) (by decide +kernel)).1, (hsame ['A', '.', 'B'] (by decide +kernel)).mpr (by decide), ?_⟩
  obtain ⟨_, d', h, -⟩ := hret
  exact ⟨d', h, (hfile smallVolume emptyDisk d' [2] [] 2 [7#8] geometry_smallVolume layout_emptyDisk
    (by decide) hname h (by decide)).2 (by decide) (by decide) (by decide)⟩

/-- **A name that ends in a dot is lost**: `A.` is accepted and packs like `A`, though the two are not equal; a file created
under it on an empty volume is listed as `A`, and `read_file` does not find it. -/
theorem dot_name_lost : packShortName ['A', '.'] = packShortName ['A'] ∧ eqIgnoreAsciiCase ['A', '.'] ['A'] = false ∧
    ∃ d', smallVolume.createRootFile 2 ['A', '.'] [7#8] emptyDisk = .ok () d' ∧
      (parseDirEntries (smallVolume.cluster d'.sectors 2)).map DirEntry.name = [['A']] ∧
      (smallVolume.readFile ['A', '.'] d').answer = some (.error "FAT32: fichier/répertoire introuvable") := by
  have hrun : (smallVolume.createRootFile 2 ['A', '.'] [7#8] emptyDisk).Returns fun _ d =>
      (parseDirEntries (smallVolume.cluster d.sectors 2)).map DirEntry.name = [['A']] ∧
      (smallVolume.readFile ['A', '.'] d).answer = some (.error "FAT32: fichier/répertoire introuvable") := by
    decide +kernel
  obtain ⟨_, d', hcreate, hlist⟩ := hrun
  exact ⟨by decide +kernel, by decide +kernel, d', hcreate, hlist⟩

end RustKernel.Drivers.Fat32
