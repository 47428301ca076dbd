import RustKernel.Drivers.Fat32.Consistency

/-!
# Long names

A long name stands in slots of its own before the slot of its entry. `parse_dir_entries` collects these slots and gives
them to the next entry; a deleted slot in between does not end the collection. `unlink_root` marks the slot of the entry
only, so the slots of its long name stay, and the next entry is listed under the name of the file removed.
-/

namespace RustKernel.Drivers.Fat32

open Lib Exec Ata

variable {e : List Byte} {S : List (List Byte)} {x : List Byte} {B : List (List Byte)} {run A : List (List Byte)} {o : Owned}
  {y : List Byte} {op : FileOp}

/-! ### Slots and their long names -/

def IsLfn (e : List Byte) : Prop := first e ≠ 0 ∧ first e ≠ 0xE5 ∧ attrs e = 0x0F
deriving Decidable

theorem InUse.not_isLfn (h : InUse e) : ¬ IsLfn e := fun hl => h.2.2 hl.2.2

theorem Vacant.not_isLfn (h : Vacant e) : ¬ IsLfn e := fun hl => h.elim hl.1 hl.2.1

def pending (run : List (List Byte)) (e : List Byte) : List (List Byte) := if IsLfn e then run ++ [e] else []

theorem pending_of_isLfn (h : IsLfn e) (run : List (List Byte)) : pending run e = run ++ [e] := if_pos h

theorem pending_of_not_isLfn (h : ¬ IsLfn e) (run : List (List Byte)) : pending run e = [] := if_neg h

inductive Closed : List (List Byte) → List (List Byte) → Prop
  | nil : Closed [] []
  | cons {run S : List (List Byte)} {e : List Byte} :
      run = [] ∨ IsLfn e ∨ InUse e → Closed (pending run e) S → Closed run (e :: S)

theorem closed_nil_iff : Closed run [] ↔ run = [] := by
  constructor
  · rintro ⟨⟩
    rfl
  · rintro rfl
    exact .nil

theorem closed_cons_iff : Closed run (e :: S) ↔ (run = [] ∨ IsLfn e ∨ InUse e) ∧ Closed (pending run e) S := by
  constructor
  · rintro ⟨⟩
    exact ⟨by assumption, by assumption⟩
  · exact fun h => .cons h.1 h.2

instance instDecidableClosed : ∀ run S, Decidable (Closed run S)
  | _, [] => decidable_of_iff' _ closed_nil_iff
  | run, e :: S =>
    have := instDecidableClosed (pending run e) S
    decidable_of_iff' _ closed_cons_iff

structure Owned where
  slot : List Byte
  long : List (List Byte)

def owned : List (List Byte) → List (List Byte) → List Owned
  | _, [] => []
  | run, e :: S => ⟨e, if InUse e then run else []⟩ :: owned (pending run e) S

theorem owned_append (A B : List (List Byte)) : ∀ run, owned run (A ++ B) = owned run A ++ owned (A.foldl pending run) B := by
  induction A with
  | nil => exact fun run => rfl
  | cons e A ih => exact fun run => congrArg _ (ih (pending run e))

theorem map_slot_owned (S : List (List Byte)) : ∀ run, (owned run S).map Owned.slot = S := by
  induction S with
  | nil => exact fun run => rfl
  | cons e S ih => exact fun run => congrArg _ (ih (pending run e))

theorem owned_of_unused (h : ∀ e ∈ S, first e = 0) : owned [] S = S.map (⟨·, []⟩) := by
  induction S with
  | nil => rfl
  | cons e S ih =>
    have he := h e (List.mem_cons_self ..)
    have huse : ¬ InUse e := fun hu => hu.1 he
    have hlfn : ¬ IsLfn e := fun hl => hl.1 he
    rw [owned, if_neg huse, pending_of_not_isLfn hlfn, ih fun x hx => h x (List.mem_cons_of_mem _ hx), List.map_cons]

def ownName (o : Owned) : List Char := entryName (o.long.map lfnOf) o.slot

def ownEntry (o : Owned) : Option DirEntry :=
  if ¬ InUse o.slot ∨ IsLabel o.slot ∨ ownName o = ['.'] ∨ ownName o = ['.', '.'] then none
  else some { name := ownName o, isDir := decide (attrs o.slot &&& 0x10 ≠ 0), size := le32 o.slot 28,
              cluster := firstCluster o.slot }

def ownListing (T : List Owned) : List DirEntry :=
  (T.takeWhile fun o => decide (first o.slot ≠ 0)).filterMap ownEntry

theorem ownListing_cons_of_ne (h : first o.slot ≠ 0) (T : List Owned) :
    ownListing (o :: T) = (ownEntry o).toList ++ ownListing T := by
  rw [ownListing, List.takeWhile_cons_of_pos (by simpa using h), List.filterMap_cons]
  cases ownEntry o <;> rfl

theorem ownEntry_of_not_inUse (h : ¬ InUse o.slot) : ownEntry o = none := if_pos (.inl h)

theorem parseSlots_eq_ownListing : ∀ {S run : List (List Byte)}, Closed run S →
    parseSlots (run.map lfnOf) S = ownListing (owned run S)
  | [], run, _ => rfl
  | e :: S, run, h => by
    obtain ⟨hhead, htail⟩ := closed_cons_iff.mp h
    have ih := parseSlots_eq_ownListing htail
    by_cases hzero : first e = 0
    · rw [parseSlots, if_pos hzero, owned, ownListing, List.takeWhile_cons_of_neg (by simpa using hzero)]
      rfl
    rw [parseSlots, if_neg hzero, owned, ownListing_cons_of_ne hzero, ← ih]
    by_cases hdel : first e = 0xE5
    · -- nothing is collected before a deleted slot
      have huse : ¬ InUse e := fun hu => hu.2.1 hdel
      have hlfn : ¬ IsLfn e := fun hl => hl.2.1 hdel
      obtain rfl : run = [] := hhead.resolve_right fun h => h.elim hlfn huse
      rw [if_pos hdel, ownEntry_of_not_inUse huse, pending_of_not_isLfn hlfn]
      rfl
    rw [if_neg hdel]
    by_cases hlfn : attrs e = 0x0F
    · have huse : ¬ InUse e := fun hu => hu.2.2 hlfn
      rw [if_pos hlfn, ownEntry_of_not_inUse huse, pending_of_isLfn ⟨hzero, hdel, hlfn⟩, List.map_append]
      rfl
    have huse : InUse e := ⟨hzero, hdel, hlfn⟩
    rw [if_neg hlfn, if_pos huse, pending_of_not_isLfn huse.not_isLfn]
    have hname : ownName ⟨e, run⟩ = entryName (run.map lfnOf) e := rfl
    by_cases hlabel : IsLabel e
    · have hnone : ownEntry ⟨e, run⟩ = none := if_pos (.inr (.inl hlabel))
      rw [if_pos hlabel, hnone]
      rfl
    rw [if_neg hlabel]
    by_cases hdots : entryName (run.map lfnOf) e = ['.'] ∨ entryName (run.map lfnOf) e = ['.', '.']
    · have hnone : ownEntry ⟨e, run⟩ = none := if_pos (.inr (.inr (hname ▸ hdots)))
      simp only [if_pos hdots, hnone]
      rfl
    · have hsome : ownEntry ⟨e, run⟩ = some _ := if_neg (by rw [hname]; tauto)
      simp only [if_neg hdots, hsome]
      rfl

/-! ### Calls -/

inductive Written : FileOp → List Owned → List Owned → Prop
  | replaced {fuel : ℕ} {name : List Char} {data b : List Byte} {o : Owned} {cluster size : ℕ} {A B : List Owned} :
      packShortName name = .ok b → Stores b o.slot →
      Written (.create fuel name data) (A ++ o :: B) (A ++ ⟨newEntry b cluster size, o.long⟩ :: B)
  | filled {fuel : ℕ} {name : List Char} {data b : List Byte} {o : Owned} {cluster size : ℕ} {A B : List Owned} :
      packShortName name = .ok b → Vacant o.slot →
      Written (.create fuel name data) (A ++ o :: B) (A ++ ⟨newEntry b cluster size, []⟩ :: B)
  | grown {fuel : ℕ} {name : List Char} {data b : List Byte} {cluster size : ℕ} {A : List Owned} {Z : List (List Byte)} :
      packShortName name = .ok b → (∀ z ∈ Z, first z = 0) →
      Written (.create fuel name data) A (A ++ ⟨newEntry b cluster size, []⟩ :: Z.map (⟨·, []⟩))
  | removed {fuel : ℕ} {name : List Char} {b : List Byte} {o : Owned} {A B : List Owned} :
      packShortName name = .ok b → Stores b o.slot →
      Written (.unlink fuel name) (A ++ o :: B) (A ++ ⟨deleted o.slot, []⟩ :: B)

inductive AllWritten : List FileOp → List Owned → List Owned → Prop
  | nil {T : List Owned} : AllWritten [] T T
  | snoc {ops : List FileOp} {op : FileOp} {T T' T'' : List Owned} :
      AllWritten ops T T' → Written op T' T'' → AllWritten (ops ++ [op]) T T''

def FileOp.RemovesShort (S : List (List Byte)) : FileOp → Prop
  | .create .. => True
  | .unlink _ name => ∀ b, packShortName name = .ok b →
    ∀ A x B, S = A ++ x :: B → Stores b x → ∀ y ∈ A.getLast?, ¬ IsLfn y

theorem foldl_pending (h : ∀ y ∈ A.getLast?, ¬ IsLfn y) : A.foldl pending [] = [] := by
  induction A using List.reverseRecOn with
  | nil => rfl
  | append_singleton A y _ =>
    rw [List.foldl_append]
    exact pending_of_not_isLfn (h y (by simp)) _

theorem Closed.foldl_eq_nil (hlfn : ¬ IsLfn x) (huse : ¬ InUse x) :
    ∀ {A run}, Closed run (A ++ x :: B) → A.foldl pending run = []
  | [], _, h => (closed_cons_iff.mp h).1.resolve_right fun h => h.elim hlfn huse
  | _ :: A, _, h => (closed_cons_iff.mp h).2.foldl_eq_nil hlfn huse (A := A)

theorem Closed.replace (hx : ¬ IsLfn x) (hy : ¬ IsLfn y) :
    ∀ {A run}, Closed run (A ++ x :: B) → A.foldl pending run = [] ∨ InUse y → Closed run (A ++ y :: B)
  | [], run, h, hor => by
    have htail := (closed_cons_iff.mp h).2
    rw [pending_of_not_isLfn hx] at htail
    refine .cons (hor.imp id .inr) ?_
    rw [pending_of_not_isLfn hy]
    exact htail
  | _ :: A, _, h, hor => by
    obtain ⟨hhead, htail⟩ := closed_cons_iff.mp h
    exact .cons hhead (Closed.replace hx hy (A := A) htail hor)

theorem closed_of_unused (h : ∀ e ∈ S, first e = 0) : Closed [] S := by
  induction S with
  | nil => exact .nil
  | cons e S ih =>
    refine .cons (.inl rfl) ?_
    rw [pending_of_not_isLfn fun hl => hl.1 (h e (List.mem_cons_self ..))]
    exact ih fun x hx => h x (List.mem_cons_of_mem _ hx)

theorem Closed.grow {Z : List (List Byte)} (hy : InUse y) (hZ : ∀ e ∈ Z, first e = 0) :
    ∀ {A run}, Closed run A → A.foldl pending run = [] ∧ Closed run (A ++ y :: Z)
  | [], run, h => by
    refine ⟨closed_nil_iff.mp h, .cons (.inr (.inr hy)) ?_⟩
    rw [pending_of_not_isLfn hy.not_isLfn]
    exact closed_of_unused hZ
  | _ :: A, _, h => by
    obtain ⟨hhead, htail⟩ := closed_cons_iff.mp h
    obtain ⟨hnil, hclosed⟩ := Closed.grow hy hZ (A := A) htail
    exact ⟨hnil, .cons hhead hclosed⟩

theorem owned_middle (hx : ¬ IsLfn x) : owned [] (A ++ x :: B) =
    owned [] A ++ ⟨x, if InUse x then A.foldl pending [] else []⟩ :: owned [] B := by
  rw [owned_append, owned, pending_of_not_isLfn hx]

theorem SlotChange.owned {reached : Prop} {S' : List (List Byte)} (h : SlotChange reached op S S') (hshort : op.RemovesShort S)
    (hclosed : Closed [] S) : Closed [] S' ∧ Written op (Fat32.owned [] S) (Fat32.owned [] S') := by
  cases h with
  | @replaced _ _ _ b x cluster size A B hpack hst =>
    have hnew : InUse (newEntry b cluster size) := inUse_newEntry (name83_of_pack hpack)
    refine ⟨hclosed.replace hst.inUse.not_isLfn hnew.not_isLfn (.inr hnew), ?_⟩
    rw [owned_middle hst.inUse.not_isLfn, owned_middle hnew.not_isLfn, if_pos hst.inUse, if_pos hnew]
    exact .replaced hpack hst
  | @filled _ _ _ b x cluster size A B hpack hv _ =>
    have hnew : InUse (newEntry b cluster size) := inUse_newEntry (name83_of_pack hpack)
    refine ⟨hclosed.replace hv.not_isLfn hnew.not_isLfn (.inr hnew), ?_⟩
    rw [owned_middle hv.not_isLfn, owned_middle hnew.not_isLfn, if_pos hnew, hclosed.foldl_eq_nil hv.not_isLfn hv.not_inUse]
    exact .filled hpack hv
  | @grown _ _ _ b cluster size A B hpack _ hzero =>
    have hnew : InUse (newEntry b cluster size) := inUse_newEntry (name83_of_pack hpack)
    obtain ⟨hnil, hgrown⟩ := hclosed.grow hnew hzero
    refine ⟨hgrown, ?_⟩
    rw [owned_middle hnew.not_isLfn, if_pos hnew, hnil, owned_of_unused hzero]
    exact .grown hpack hzero
  | @removed _ _ b x A B hpack hst =>
    have hnil := foldl_pending (hshort b hpack A x B rfl hst)
    have hdel : ¬ IsLfn (deleted x) := fun hl => hl.2.1 (first_deleted x)
    refine ⟨hclosed.replace hst.inUse.not_isLfn hdel (.inl hnil), ?_⟩
    rw [owned_middle hst.inUse.not_isLfn, owned_middle hdel]
    exact .removed (o := ⟨x, _⟩) hpack hst

/-! ### Sequences of calls -/

structure Owns (fs : Fat32) (fault : ℕ → ℕ → Option String) (T : List Owned) (tr : List (Disk × FileOp)) (d : Disk) :
    Prop where
  fault : d.fault = fault
  layout : ∃ R L, Layout fs d.sectors R L ∧ Closed [] (chainSlots fs d.sectors R) ∧
    AllWritten (tr.map (·.2)) T (owned [] (chainSlots fs d.sectors R))

def FileOp.SparesLong (fs : Fat32) (d : Disk) (op : FileOp) : Prop :=
  ∀ R, ChainOf fs d.sectors fs.bpb.rootCluster R → op.RemovesShort (chainSlots fs d.sectors R)

theorem Owns.step {fs : Fat32} {fault : ℕ → ℕ → Option String} {T : List Owned} {tr : List (Disk × FileOp)}
    {d d' : Disk} (g : fs.Geometry fault) (h : Owns fs fault T tr d) (hop : op.SparesLong fs d)
    (hstep : fileStep fs d op = some d') : Owns fs fault T (tr ++ [(d, op)]) d' := by
  obtain ⟨rfl, R, L, hlayout, hclosed, hall⟩ := h
  obtain ⟨hfault, R', L', h', -, hchange⟩ := hlayout.step g hstep
  obtain ⟨hclosed', hwritten⟩ := hchange.owned (hop R hlayout.root) hclosed
  refine ⟨hfault, R', L', h', hclosed', ?_⟩
  rw [List.map_append]
  exact hall.snoc hwritten

/-- **Listed names belong to their files.** If every sector of the volume can be accessed and the long names of its root
are closed, then after every sequence of files created and removed, none of those removed with a long name, the listing
of the root is that of the own names of its files, as the calls have left them. -/
theorem listing_own_of_run {fs : Fat32} {d d' : Disk} {R : List ℕ} {L : List (List ℕ)} {tr : List (Disk × FileOp)}
    (g : fs.Geometry d.fault) (h : Layout fs d.sectors R L) (hclosed : Closed [] (chainSlots fs d.sectors R))
    (hrun : Run (fileStep fs) d tr d') (hspare : ∀ x ∈ tr, x.2.SparesLong fs x.1) :
    ∃ R' L' T', Layout fs d'.sectors R' L' ∧ T'.map Owned.slot = chainSlots fs d'.sectors R' ∧
      AllWritten (tr.map (·.2)) (owned [] (chainSlots fs d.sectors R)) T' ∧
      parseDirEntries (R'.flatMap (fs.cluster d'.sectors)) = ownListing T' := by
  have hstart : Owns fs d.fault (owned [] (chainSlots fs d.sectors R)) [] d := ⟨rfl, R, L, h, hclosed, .nil⟩
  obtain ⟨-, R', L', h', hclosed', hall⟩ := hrun.history
    (I := Owns fs d.fault (owned [] (chainSlots fs d.sectors R))) (K := fun d op => op.SparesLong fs d) hstart hspare
    fun _ _ _ _ ha hop hs => ha.step g hop hs
  have hslots : slots (R'.flatMap (fs.cluster d'.sectors)) = chainSlots fs d'.sectors R' :=
    slots_flatMap fun c _ => length_cluster_eq d'.sectors c
  refine ⟨R', L', _, h', map_slot_owned _ _, hall, ?_⟩
  rw [parseDirEntries, hslots]
  exact parseSlots_eq_ownListing hclosed'

def longSlot : List Byte :=
  [0x41#8, 0x4C#8, 0#8, 0x6F#8, 0#8, 0x6E#8, 0#8, 0x67#8, 0#8, 0x20#8, 0#8, 0x0F#8, 0#8, 0x17#8, 0x6E#8, 0#8, 0x61#8,
    0#8, 0x6D#8, 0#8, 0x65#8, 0#8, 0#8, 0#8, 0xFF#8, 0xFF#8, 0#8, 0#8, 0xFF#8, 0xFF#8, 0xFF#8, 0xFF#8]

def longDisk : Disk where
  sectors := fun lba i =>
    if lba = 32 then
      (zeros 8 ++ le32Bytes 0x0FFFFFFF ++ le32Bytes 0x0FFFFFFF ++ le32Bytes 0x0FFFFFFF).getD i 0
    else if lba = 33 then
      (longSlot ++ newEntry ([0x4C#8, 0x4F#8, 0x4E#8, 0x47#8, 0x4E#8, 0x41#8, 0x7E#8, 0x31#8] ++ List.replicate 3 0x20#8) 3 1
        ++ newEntry (0x42#8 :: List.replicate 10 0x20#8) 4 1).getD i 0
    else 0
  clock := 0
  fault := fun _ _ => none

theorem layout_longDisk : Layout smallVolume longDisk.sectors [2] [[3], [4]] :=
  ⟨by decide +kernel, by decide +kernel, by decide, mirrored_smallVolume _⟩

theorem closed_longDisk : Closed [] (chainSlots smallVolume longDisk.sectors [2]) := by decide +kernel

/-- The file without a long name is removed: the other one is listed under its long name. -/
theorem listing_own_unlink : ∃ tr d', Run (fileStep smallVolume) longDisk tr d' ∧ tr ≠ [] ∧
    ∃ R' L' T', Layout smallVolume d'.sectors R' L' ∧ T'.map Owned.slot = chainSlots smallVolume d'.sectors R' ∧
      AllWritten (tr.map (·.2)) (owned [] (chainSlots smallVolume longDisk.sectors [2])) T' ∧
      parseDirEntries (R'.flatMap (smallVolume.cluster d'.sectors)) = ownListing T' := by
  have hret : (fileStep smallVolume longDisk (.unlink 3 ['B'])).isSome = true := by decide +kernel
  obtain ⟨d', hd'⟩ := Option.isSome_iff_exists.mp hret
  have hrun : Run (fileStep smallVolume) longDisk [(longDisk, .unlink 3 ['B'])] d' := .single hd'
  have hspare : (FileOp.unlink 3 ['B']).SparesLong smallVolume longDisk := by
    intro R hR b hpack A x B hS hst y hy
    obtain rfl : R = [2] := hR.unique (by decide) layout_longDisk.root
    -- the slots before the entry are those of the other file
    have hall : ∀ i < 16, ((chainSlots smallVolume longDisk.sectors [2]).getD i []).take 11 =
        0x42#8 :: List.replicate 10 0x20#8 →
        ∀ y ∈ ((chainSlots smallVolume longDisk.sectors [2]).take i).getLast?, ¬ IsLfn y := by decide +kernel
    have hb : packShortName ['B'] = .ok (0x42#8 :: List.replicate 10 0x20#8) := by decide +kernel
    obtain rfl : 0x42#8 :: List.replicate 10 0x20#8 = b := Except.ok.inj (hb.symm.trans hpack)
    have hlen : (chainSlots smallVolume longDisk.sectors [2]).length = 16 := by decide +kernel
    have hlt : A.length < 16 := by
      rw [hS, List.length_append, List.length_cons] at hlen
      omega
    refine hall A.length hlt ?_ y ?_
    · rw [hS]
      simpa using hst.2.2.2
    · rw [hS, List.take_left]
      exact hy
  have g : smallVolume.Geometry longDisk.fault := geometry_smallVolume
  refine ⟨_, d', hrun, by simp, listing_own_of_run g layout_longDisk closed_longDisk hrun fun x hx => ?_⟩
  rw [List.mem_singleton.mp hx]
  exact hspare

/-- **A name passed on**: when the file with the long name is removed, the other file is listed under that name. -/
theorem unlink_passes_name_on : Layout smallVolume longDisk.sectors [2] [[3], [4]] ∧
    Closed [] (chainSlots smallVolume longDisk.sectors [2]) ∧
    (parseDirEntries (smallVolume.cluster longDisk.sectors 2)).map (fun e => (e.name, e.cluster)) =
      [(['L', 'o', 'n', 'g', ' ', 'n', 'a', 'm', 'e'], 3), (['B'], 4)] ∧
    ∃ d', smallVolume.unlinkRoot 3 ['L', 'O', 'N', 'G', 'N', 'A', '~', '1'] longDisk = .ok () d' ∧
      ChainOf smallVolume d'.sectors 2 [2] ∧
      (parseDirEntries (smallVolume.cluster d'.sectors 2)).map (fun e => (e.name, e.cluster)) =
        [(['L', 'o', 'n', 'g', ' ', 'n', 'a', 'm', 'e'], 4)] := by
  have hrun : (smallVolume.unlinkRoot 3 ['L', 'O', 'N', 'G', 'N', 'A', '~', '1'] longDisk).Returns fun _ d =>
      smallVolume.fat d.sectors 2 = 0x0FFFFFFF ∧
      (parseDirEntries (smallVolume.cluster d.sectors 2)).map (fun e => (e.name, e.cluster)) =
        [(['L', 'o', 'n', 'g', ' ', 'n', 'a', 'm', 'e'], 4)] := by decide +kernel
  obtain ⟨_, d', hunlink, hfat, hlist⟩ := hrun
  refine ⟨layout_longDisk, closed_longDisk, by decide +kernel, d', hunlink, ?_, hlist⟩
  exact .last le_rfl (by decide) (by rw [hfat]; decide)

end RustKernel.Drivers.Fat32
