import RustKernel.Drivers.Fat32.Consistency

/-!
# One entry for a name

`upsert_root_dir_entry` looks for the entry of a name cluster by cluster, and takes the first deleted slot of a cluster
that does not hold the name. So a file whose entry stands in a later cluster gets a second entry.
-/

namespace RustKernel.Drivers.Fat32

open Lib Exec Ata

variable {x : List Byte} {S : List (List Byte)} {b : List Byte} {name : List Char} {reached : Prop} {op : FileOp}
  {S' : List (List Byte)}

def storedNames (S : List (List Byte)) : List (List Byte) := (S.filter fun e => decide (InUse e)).map (List.take 11)

def rootNames (fs : Fat32) (s : ℕ → Sector) (R : List ℕ) : List (List Byte) := (entries fs s R).map (List.take 11)

@[simp] theorem storedNames_append (S T : List (List Byte)) : storedNames (S ++ T) = storedNames S ++ storedNames T := by
  simp [storedNames]

theorem storedNames_cons_of_inUse (h : InUse x) (S : List (List Byte)) : storedNames (x :: S) = x.take 11 :: storedNames S := by
  simp [storedNames, h]

theorem storedNames_cons_of_not_inUse (h : ¬ InUse x) (S : List (List Byte)) : storedNames (x :: S) = storedNames S := by
  simp [storedNames, h]

theorem mem_storedNames : b ∈ storedNames S ↔ ∃ e ∈ S, Stores b e := by
  simp only [storedNames, List.mem_map, List.mem_filter, decide_eq_true_eq]
  constructor
  · rintro ⟨e, ⟨he, huse⟩, rfl⟩
    exact ⟨e, he, huse.1, huse.2.2, huse.2.1, rfl⟩
  · rintro ⟨e, he, hs⟩
    exact ⟨e, ⟨he, hs.inUse⟩, hs.2.2.2⟩

theorem storedNames_newEntry {cluster size : ℕ} (h : packShortName name = .ok b)
    (S : List (List Byte)) : storedNames (newEntry b cluster size :: S) = b :: storedNames S := by
  have h83 := name83_of_pack h
  rw [storedNames_cons_of_inUse (inUse_newEntry h83), take_newEntry h83.length]

theorem SlotChange.nodup (h : SlotChange reached op S S')
    (hreached : reached) (hnd : (storedNames S).Nodup) : (storedNames S').Nodup := by
  cases h with
  | @replaced _ _ _ b x _ _ A B hpack hst =>
    rw [storedNames_append, storedNames_cons_of_inUse hst.inUse, hst.2.2.2] at hnd
    rw [storedNames_append, storedNames_newEntry hpack]
    exact hnd
  | @filled _ _ _ b x _ _ A B hpack hv hnone =>
    have hnot : b ∉ storedNames (A ++ x :: B) := fun hin => by
      obtain ⟨e, he, hs⟩ := mem_storedNames.mp hin
      exact hnone hreached e he hs
    rw [storedNames_append, storedNames_cons_of_not_inUse hv.not_inUse] at hnd hnot
    rw [storedNames_append, storedNames_newEntry hpack, List.nodup_middle]
    exact List.nodup_cons.mpr ⟨hnot, hnd⟩
  | @grown _ _ _ b _ _ A B hpack hnone hzero =>
    have hnot : b ∉ storedNames S := fun hin => by
      obtain ⟨e, he, hs⟩ := mem_storedNames.mp hin
      exact hnone e he hs
    have hB : storedNames B = [] := by
      refine List.eq_nil_iff_forall_not_mem.mpr fun b' hin => ?_
      obtain ⟨e, he, hs⟩ := mem_storedNames.mp hin
      exact hs.1 (hzero e he)
    rw [storedNames_append, storedNames_newEntry hpack, hB, List.nodup_middle, List.append_nil]
    exact List.nodup_cons.mpr ⟨hnot, hnd⟩
  | @removed _ _ b x A B hpack hst =>
    rw [storedNames_append, storedNames_cons_of_inUse hst.inUse, List.nodup_middle] at hnd
    rw [storedNames_append]
    exact (List.nodup_cons.mp hnd).2

/-! ### A file that is removed -/

structure Plain (S : List (List Byte)) : Prop where
  noLfn : ∀ e ∈ S, first e ≠ 0 → first e ≠ 0xE5 → attrs e ≠ 0x0F
  name : ∀ e ∈ S, InUse e → ¬ IsLabel e → Name83 (e.take 11)

theorem Plain.replace {A B : List (List Byte)} {y : List Byte} (h : Plain (A ++ x :: B)) (hy : Plain [y]) :
    Plain (A ++ y :: B) := by
  have hcases : ∀ e ∈ A ++ y :: B, e ∈ A ++ x :: B ∨ e ∈ [y] := by
    intro e he
    rcases List.mem_append.mp he with he | he
    · exact .inl (List.mem_append_left _ he)
    · rcases List.mem_cons.mp he with rfl | he
      · exact .inr (List.mem_singleton_self _)
      · exact .inl (List.mem_append_right _ (List.mem_cons_of_mem _ he))
  refine ⟨fun e he => ?_, fun e he => ?_⟩
  · exact (hcases e he).elim (h.noLfn e) (hy.noLfn e)
  · exact (hcases e he).elim (h.name e) (hy.name e)

theorem plain_newEntry {cluster size : ℕ} (h : Name83 b) : Plain [newEntry b cluster size] := by
  refine ⟨fun e he _ _ => ?_, fun e he _ _ => ?_⟩
  · rw [List.mem_singleton.mp he, attrs_newEntry h.length]
    decide
  · rw [List.mem_singleton.mp he, take_newEntry h.length]
    exact h

theorem plain_deleted (x : List Byte) : Plain [deleted x] := by
  refine ⟨fun e he _ hdel => ?_, fun e he huse => ?_⟩
  · rw [List.mem_singleton.mp he] at hdel
    exact absurd (first_deleted x) hdel
  · rw [List.mem_singleton.mp he] at huse
    exact absurd huse (not_inUse_deleted x)

theorem SlotChange.plain (h : SlotChange reached op S S') (hplain : Plain S) : Plain S' := by
  cases h with
  | replaced hpack _ => exact hplain.replace (plain_newEntry (name83_of_pack hpack))
  | filled hpack _ _ => exact hplain.replace (plain_newEntry (name83_of_pack hpack))
  | @grown _ _ _ b cluster size A B hpack _ hzero =>
    have hnew : Plain [newEntry b cluster size] := plain_newEntry (name83_of_pack hpack)
    refine ⟨fun e he hne => ?_, fun e he huse => ?_⟩
    · rcases List.mem_append.mp he with he | he
      · exact hplain.noLfn e he hne
      · rcases List.mem_cons.mp he with rfl | he
        · exact hnew.noLfn _ (List.mem_singleton_self _) hne
        · exact absurd (hzero e he) hne
    · rcases List.mem_append.mp he with he | he
      · exact hplain.name e he huse
      · rcases List.mem_cons.mp he with rfl | he
        · exact hnew.name _ (List.mem_singleton_self _) huse
        · exact absurd (hzero e he) huse.1
  | removed _ _ => exact hplain.replace (plain_deleted _)

theorem Plain.lookup_eq_none (h : Plain S)
    (hpack : packShortName name = .ok b) (hnot : b ∉ storedNames S) : lookup S name = none := by
  have hlive : ∀ e ∈ live S, e ∈ S ∧ first e ≠ 0 := fun e he =>
    ⟨(List.takeWhile_sublist _).mem he, by simpa using List.mem_takeWhile_imp he⟩
  rw [lookup, parseSlots_eq fun e he => h.noLfn e (hlive e he).1 (hlive e he).2, List.find?_eq_none]
  intro entry hentry hfound
  obtain ⟨e, he, hslot⟩ := List.mem_filterMap.mp hentry
  rw [slotEntry] at hslot
  split_ifs at hslot with hskip
  cases hslot
  simp only [not_or] at hskip
  have huse : InUse e := ⟨(hlive e he).2, hskip.1, hskip.2.1⟩
  have hname := take_eq_of_found hpack (h.name e (hlive e he).1 huse hskip.2.2.1) hfound
  exact hnot (mem_storedNames.mpr ⟨e, (hlive e he).1, huse.1, huse.2.2, huse.2.1, hname⟩)

theorem SlotChange.not_stored {fuel : ℕ} (h : SlotChange reached (.unlink fuel name) S S') (hnd : (storedNames S).Nodup) :
    ∃ b, packShortName name = .ok b ∧ b ∉ storedNames S' := by
  cases h with
  | @removed _ _ b x A B hpack hst =>
    refine ⟨b, hpack, ?_⟩
    rw [storedNames_append, storedNames_cons_of_inUse hst.inUse, hst.2.2.2, List.nodup_middle] at hnd
    rw [storedNames_append]
    exact (List.nodup_cons.mp hnd).1

/-! ### Sequences of calls -/

def FileOp.ReachesName (fs : Fat32) (d : Disk) (op : FileOp) : Prop :=
  ∀ R, ChainOf fs d.sectors fs.bpb.rootCluster R → op.Reached fs d.sectors R

structure Distinct (fs : Fat32) (fault : ℕ → ℕ → Option String) (plain : Prop) (d : Disk) : Prop where
  fault : d.fault = fault
  layout : ∃ R L, Layout fs d.sectors R L ∧ (rootNames fs d.sectors R).Nodup ∧
    (plain → Plain (chainSlots fs d.sectors R))

theorem Distinct.step {fs : Fat32} {fault : ℕ → ℕ → Option String} {plain : Prop} {d d' : Disk}
    (g : fs.Geometry fault) (h : Distinct fs fault plain d) (hop : op.ReachesName fs d)
    (hstep : fileStep fs d op = some d') : Distinct fs fault plain d' := by
  obtain ⟨rfl, R, L, hlayout, hnd, hplain⟩ := h
  obtain ⟨hfault, R', L', h', -, hchange⟩ := hlayout.step g hstep
  exact ⟨hfault, R', L', h', hchange.nodup (hop R hlayout.root) hnd, fun hp => hchange.plain (hplain hp)⟩

/-- **One entry for a name.** If every sector of the volume can be accessed, then after every sequence of files created
and removed whose walks reach their names, no two entries of the root have the same name. If moreover the names were
plain at the start, a file that is then removed cannot be read. -/
theorem rootNames_nodup_of_run {fs : Fat32} {d d' : Disk} {R : List ℕ} {L : List (List ℕ)} {tr : List (Disk × FileOp)}
    (g : fs.Geometry d.fault) (h : Layout fs d.sectors R L) (hnd : (rootNames fs d.sectors R).Nodup)
    (hrun : Run (fileStep fs) d tr d') (hreach : ∀ x ∈ tr, x.2.ReachesName fs x.1) :
    ∃ R' L', Layout fs d'.sectors R' L' ∧ (rootNames fs d'.sectors R').Nodup ∧
      (Plain (chainSlots fs d.sectors R) → ∀ fuel name d'', fs.unlinkRoot fuel name d' = .ok () d'' →
        ∃ e, (fs.readFile name d'').answer = some (.error e)) := by
  have hstart : Distinct fs d.fault (Plain (chainSlots fs d.sectors R)) d := ⟨rfl, R, L, h, hnd, id⟩
  obtain ⟨hfault, R', L', h', hnd', hplain⟩ := hrun.invariant
    (I := Distinct fs d.fault (Plain (chainSlots fs d.sectors R))) (K := fun d op => op.ReachesName fs d) hstart hreach
    fun _ _ _ ha hop hs => ha.step g hop hs
  refine ⟨R', L', h', hnd', fun hp fuel name d'' hunlink => ?_⟩
  have g' : fs.Geometry d'.fault := hfault.symm ▸ g
  have hstep : fileStep fs d' (.unlink fuel name) = some d'' := by rw [fileStep, hunlink]; rfl
  obtain ⟨hfault', R'', L'', h'', -, hchange⟩ := h'.step g' hstep
  obtain ⟨b, hpack, hnot⟩ := hchange.not_stored hnd'
  have hnone := (hchange.plain (hplain hp)).lookup_eq_none hpack hnot
  obtain ⟨s, k, fault⟩ := d''
  obtain rfl : fault = d'.fault := hfault'
  exact answer_readFile_none g' h''.root (slash_notMem_of_pack hpack) (ne_nil_of_pack hpack) hnone k

/-- On the empty volume a file is created. Its name is the only one; when it is removed, it cannot be read. -/
theorem rootNames_nodup_create : ∃ tr d', Run (fileStep smallVolume) emptyDisk tr d' ∧
    ∃ R' L', Layout smallVolume d'.sectors R' L' ∧ (rootNames smallVolume d'.sectors R').Nodup ∧
      (Plain (chainSlots smallVolume emptyDisk.sectors [2]) → ∀ fuel name d'',
        smallVolume.unlinkRoot fuel name d' = .ok () d'' →
          ∃ e, (smallVolume.readFile name d'').answer = some (.error e)) := by
  have hunused : ∀ e ∈ chainSlots smallVolume emptyDisk.sectors [2], first e = 0 := fun e he => by
    have hcluster : smallVolume.cluster emptyDisk.sectors 2 = zeros 512 := by decide +kernel
    rw [chainSlots, List.flatMap_singleton, hcluster] at he
    exact first_of_mem_slots_zeros he
  have hreach : (FileOp.create 2 ['A'] [7#8]).ReachesName smallVolume emptyDisk := by
    intro R hR b _
    obtain rfl : R = [2] := hR.unique (by decide) layout_emptyDisk.root
    refine ⟨fun A e B hS he => absurd (hunused e ?_) he.1, fun R₁ R₂ hR he x hx => ?_⟩
    · rw [hS]
      exact List.mem_append_right _ (List.mem_cons_self ..)
    · obtain ⟨e, he, hs⟩ := he
      refine absurd (hunused e ?_) hs.1
      rw [hR, chainSlots, List.flatMap_append]
      exact List.mem_append_right _ he
  have hnd : (rootNames smallVolume emptyDisk.sectors [2]).Nodup := by decide +kernel
  have hret : (fileStep smallVolume emptyDisk (.create 2 ['A'] [7#8])).isSome = true := by decide +kernel
  obtain ⟨d', hd'⟩ := Option.isSome_iff_exists.mp hret
  have hrun : Run (fileStep smallVolume) emptyDisk [(emptyDisk, .create 2 ['A'] [7#8])] d' := .single hd'
  refine ⟨_, d', hrun, rootNames_nodup_of_run geometry_smallVolume layout_emptyDisk hnd hrun fun x hx => ?_⟩
  rw [List.mem_singleton.mp hx]
  exact hreach

def laterCluster : Disk where
  sectors := fun lba i =>
    if lba = 32 then (zeros 8 ++ le32Bytes 3 ++ le32Bytes 0x0FFFFFFF ++ le32Bytes 0x0FFFFFFF).getD i 0
    else if lba = 33 then 0xE5#8
    else if lba = 34 then (newEntry (0x41#8 :: List.replicate 10 0x20#8) 4 1).getD i 0
    else if lba = 35 ∧ i.val = 0 then 9#8
    else 0
  clock := 0
  fault := fun _ _ => none

theorem layout_laterCluster : Layout smallVolume laterCluster.sectors [2, 3] [[4]] :=
  ⟨by decide +kernel, by decide +kernel, by decide, mirrored_smallVolume _⟩

/-- **A name stored twice**: `create_root_file` takes the deleted slot of the first cluster and does not see the entry of
the second. Then `unlink_root` removes the new entry only, and `read_file` reads the old file. -/
theorem create_repeats_name : Layout smallVolume laterCluster.sectors [2, 3] [[4]] ∧
    (rootNames smallVolume laterCluster.sectors [2, 3]).Nodup ∧
    ∃ d₁ d₂, smallVolume.createRootFile 3 ['A'] [7#8] laterCluster = .ok () d₁ ∧
      ChainOf smallVolume d₁.sectors 2 [2, 3] ∧ ¬ (rootNames smallVolume d₁.sectors [2, 3]).Nodup ∧
      smallVolume.unlinkRoot 3 ['A'] d₁ = .ok () d₂ ∧
      (smallVolume.readFile ['A'] d₂).answer = some (.ok [9#8]) := by
  have hrun : (smallVolume.createRootFile 3 ['A'] [7#8] laterCluster).Returns fun _ d₁ =>
      ChainOf smallVolume d₁.sectors 2 [2, 3] ∧ ¬ (rootNames smallVolume d₁.sectors [2, 3]).Nodup ∧
      (smallVolume.unlinkRoot 3 ['A'] d₁).Returns fun _ d₂ =>
        (smallVolume.readFile ['A'] d₂).answer = some (.ok [9#8]) := by
    decide +kernel
  obtain ⟨_, d₁, hcreate, hchain, hnd, _, d₂, hunlink, hread⟩ := hrun
  exact ⟨layout_laterCluster, by decide +kernel, d₁, d₂, hcreate, hchain, hnd, hunlink, hread⟩

end RustKernel.Drivers.Fat32
