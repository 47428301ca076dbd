import RustKernel.Fs.Elf
import RustKernel.Memory.Boot

/-!
# What the ELF loader does with a bad file

Every field of an ELF file is under the control of whoever wrote it. `load` compares some of them with the size of the
file, and adds and rounds the others as they are; a sum that overflows stops the kernel, which is built with overflow
checks, and so does an address that `VirtAddr::new` does not accept.
-/

namespace RustKernel.Fs

open Lib Exec Memory
open Outcome (ends_ok ends_err)

variable {ε σ : Type} {n : ℕ} {bin : List Byte} {off : ℕ}

/-! ### Addresses -/

def Canonical (addr : ℕ) : Prop := addr < 2 ^ 48 ∨ 2 ^ 64 - 2 ^ 47 ≤ addr ∧ addr < 2 ^ 64
deriving Decidable

def signExtend (addr : ℕ) : ℕ := if 2 ^ 47 ≤ addr ∧ addr < 2 ^ 48 then addr + (2 ^ 64 - 2 ^ 48) else addr

theorem virtAddrNew_of_canonical {addr : ℕ} (h : Canonical addr) :
    (virtAddrNew addr : Exec ε σ ℕ) = pure (signExtend addr) := by
  unfold Canonical at h
  unfold virtAddrNew signExtend
  by_cases h47 : addr < 2 ^ 47
  · rw [if_pos h47, if_neg (by omega)]
  · rw [if_neg h47]
    by_cases h48 : addr < 2 ^ 48
    · rw [if_pos h48, if_pos (by omega)]
    · rw [if_neg h48, if_pos (by omega), if_neg (by omega)]

theorem virtAddrNew_canonical {E : ε → σ → Prop} (addr : ℕ) (s : σ) :
    (virtAddrNew addr s : Outcome ε σ ℕ).Post (fun a s' => Canonical addr ∧ a = signExtend addr ∧ s' = s) E := by
  by_cases hcan : Canonical addr
  · rw [virtAddrNew_of_canonical hcan]
    exact ⟨hcan, rfl, rfl⟩
  · unfold Canonical at hcan
    unfold virtAddrNew
    rw [if_neg (by omega), if_neg (by omega), if_neg (by omega)]
    trivial

def OneHalf (cur len : ℕ) : Prop := cur + len < 2 ^ 48 ∨ 2 ^ 64 - 2 ^ 47 ≤ cur ∧ cur + len < 2 ^ 64
deriving Decidable

theorem OneHalf.canonical {cur len : ℕ} (h : OneHalf cur len) (hn : n ≤ len) : Canonical (cur + n) := by
  unfold OneHalf at h
  unfold Canonical
  omega

theorem OneHalf.advance {cur len : ℕ} (h : OneHalf cur len) (hn : n ≤ len) : OneHalf (signExtend (cur + n)) (len - n) := by
  unfold OneHalf at h ⊢
  unfold signExtend
  split_ifs <;> omega

/-! ### Memory -/

def FreeLow (m : PhysMem) : Prop := ∀ f < m.frames.numFrames, m.isUsed f = false → f < IDENTITY_FRAMES

section Mapper

variable {m : PhysMem} {fl : PageTableFlags}

theorem allocateFrame_ends {ε : Type} (h : FreeLow m) : (allocateFrame (ε := ε) m).Ends FreeLow := by
  unfold allocateFrame
  cases ha : m.frames.allocateFrame with
  | mk o a =>
    cases o with
    | none =>
      obtain ⟨rfl, -⟩ := BitmapFrameAllocator.allocateFrame_none ha
      exact ends_ok h
    | some f =>
      obtain ⟨⟨-, hlt, hfree, -⟩, rfl⟩ := BitmapFrameAllocator.allocateFrame_some ha
      dsimp only
      rw [if_pos (h f hlt hfree)]
      refine ends_ok fun g hg hclear => h g hg ?_
      simp only [PhysMem.isUsed, PhysMem.zero, BitmapFrameAllocator.isUsed, bitGet_bitSet, Bool.or_eq_false_iff] at hclear
      exact hclear.2

theorem insertEntry_ends (t i : ℕ) (h : FreeLow m) : (insertEntry t i fl m).Ends FreeLow := by
  rw [insertEntry, get_bind]
  by_cases hz : m.words t i = 0#64
  · simp only [hz]
    refine ends_bind (allocateFrame_ends h) fun o m₁ h₁ => ?_
    cases o with
    | none => exact ends_err h₁
    | some f => exact ends_ok h₁
  · simp only [hz, if_false]
    split_ifs
    · exact ends_ok h
    · exact ends_ok h

theorem insertEntry_present (t i : ℕ) (hfl : fl.getLsbD 0 = true) : (insertEntry t i fl m).Post
    (fun _ m' => (m'.words t i).getLsbD 0 = true) (fun _ _ => True) := by
  rw [insertEntry, get_bind]
  by_cases hz : m.words t i = 0#64
  · simp only [hz]
    refine post_bind (Outcome.post_true _) fun o m₁ _ => ?_
    cases o with
    | none => trivial
    | some f =>
      show ((m₁.write t i (mkEntry f fl)).words t i).getLsbD 0 = true
      simp [getLsbD_mkEntry _ _ (show 0 < 12 by decide), hfl]
  · simp only [hz]
    by_cases hc : (fl != 0#64 && !hasFlags (entryFlags (m.words t i)) fl) = true
    · rw [if_pos hc]
      show ((m.write t i (setFlags (m.words t i) (entryFlags (m.words t i) ||| fl))).words t i).getLsbD 0 = true
      simp [getLsbD_setFlags _ _ (show 0 < 12 by decide), hfl]
    · rw [if_neg hc]
      have hhas : hasFlags (entryFlags (m.words t i)) fl = true := by
        have hne : fl ≠ 0#64 := ne_zero_of_getLsbD hfl
        simpa [hne] using hc
      show (m.words t i).getLsbD 0 = true
      rw [← getLsbD_entryFlags _ (show 0 < 12 by decide)]
      exact hasFlags_iff.mp hhas 0 (by decide) hfl

theorem createNextTable_ends (t i : ℕ) (hfl : fl.getLsbD 0 = true) (h : FreeLow m) :
    (createNextTable t i fl m).Ends FreeLow := by
  refine ends_bind_of_post (insertEntry_ends t i h) (insertEntry_present t i hfl) fun created m₁ hpres h₁ => ?_
  rw [get_bind]
  cases hn : nextTable (m₁.words t i) with
  | error e =>
    cases e with
    | notMapped =>
      cases (nextTable_eq_notMapped.1 hn).symm.trans hpres
    | mappedToHugePage => exact ends_err h₁
  | ok next =>
    refine ends_ok ?_
    split_ifs
    · exact h₁
    · exact h₁

theorem mapTo_ends (p4 page frame : ℕ) (hfl : fl.getLsbD 0 = true) (h : FreeLow m) :
    (mapTo p4 page frame fl m).Ends FreeLow := by
  have hparent : (fl &&& USER_RW).getLsbD 0 = true := by
    rw [BitVec.getLsbD_and, hfl]
    decide
  refine ends_bind (createNextTable_ends _ _ hparent h) fun p3 m₁ h₁ => ?_
  refine ends_bind (createNextTable_ends _ _ hparent h₁) fun p2 m₂ h₂ => ?_
  refine ends_bind (createNextTable_ends _ _ hparent h₂) fun p1 m₃ h₃ => ?_
  rw [get_bind]
  split_ifs
  · exact ends_ok h₃
  · exact ends_err h₃

end Mapper

section Space

variable {v : Vm} {fl : PageTableFlags}

theorem addressSpace_mapTo_ends (page f : ℕ) (hfl : fl.getLsbD 0 = true) (h : FreeLow v.mem) :
    (AddressSpace.mapTo page f fl v).Ends fun v' => FreeLow v'.mem := by
  rw [AddressSpace.mapTo, get_bind]
  exact ends_bind (ends_zoom (ends_mapErr (mapTo_ends v.space.p4 page f hfl h))) fun _ v₁ h₁ => ends_ok h₁

theorem mapAlloc_ends (page : ℕ) (hfl : fl.getLsbD 0 = true) (h : FreeLow v.mem) :
    (AddressSpace.mapAlloc page fl v).Ends fun v' => FreeLow v'.mem := by
  have halloc : (allocZeroedFrame v.mem).Ends FreeLow := by
    refine ends_bind ?_ fun f m₁ h₁ => ends_ok h₁
    refine ends_bind (allocateFrame_ends h) fun o m₁ h₁ => ?_
    cases o with
    | none => exact ends_err h₁
    | some f => exact ends_ok h₁
  refine ends_bind (ends_zoom halloc) fun f v₁ h₁ => ?_
  rw [inMem_modify_bind]
  exact ends_bind (addressSpace_mapTo_ends page f hfl h₁) fun _ v₂ h₂ => ends_ok h₂

theorem ensureLoop_ends (hfl : fl.getLsbD 0 = true) : ∀ (pages cur : ℕ) (v : Vm),
    (∀ j < pages, Canonical (cur + 4096 * j)) → FreeLow v.mem →
    (AddressSpace.ensureLoop fl pages cur v).Ends fun v' => FreeLow v'.mem
  | 0, _, _, _, h => ends_ok h
  | pages + 1, cur, v, hcan, h => by
    have hrest : ∀ j < pages, Canonical (cur + 4096 + 4096 * j) := fun j hj => by
      have := hcan (j + 1) (by omega)
      rwa [show cur + 4096 * (j + 1) = cur + 4096 + 4096 * j by omega] at this
    have hcur : Canonical cur := hcan 0 (by omega)
    rw [AddressSpace.ensureLoop, virtAddrNew_of_canonical hcur, pure_bind, get_bind]
    split_ifs
    · exact ensureLoop_ends hfl pages _ v hrest h
    · exact ends_bind (mapAlloc_ends _ hfl h) fun _ v₁ h₁ => ensureLoop_ends hfl pages _ v₁ hrest h₁

theorem ensureMapped_ends {vaddr len : ℕ} (hfl : fl.getLsbD 0 = true) (hhalf : OneHalf vaddr len)
    (hround : vaddr + len + 4095 < 2 ^ 64) (h : FreeLow v.mem) :
    (AddressSpace.ensureMapped vaddr len fl v).Ends fun v' => FreeLow v'.mem := by
  rw [AddressSpace.ensureMapped, add_of_lt (by omega), pure_bind, add_of_lt hround, pure_bind]
  refine ensureLoop_ends hfl _ _ v (fun j hj => ?_) h
  unfold OneHalf at hhalf
  unfold Canonical
  omega

theorem frameFor_ends (page : ℕ) (hfl : fl.getLsbD 0 = true) (h : FreeLow v.mem) :
    (AddressSpace.frameFor page fl v).Ends fun v' => FreeLow v'.mem := by
  rw [AddressSpace.frameFor, get_bind]
  cases v.space.mappedPages[page]? with
  | some f => exact ends_ok h
  | none => exact mapAlloc_ends page hfl h

theorem writeBytes_frames (f : ℕ) : ∀ (bs : List Byte) (off : ℕ) (m : PhysMem), (m.writeBytes f off bs).frames = m.frames
  | [], _, _ => rfl
  | _ :: bs, off, _ => writeBytes_frames f bs (off + 1) _

theorem FreeLow.congr {m m' : PhysMem} (h : FreeLow m) (hframes : m'.frames = m.frames) : FreeLow m' := by
  unfold FreeLow PhysMem.isUsed at h ⊢
  rwa [hframes]

theorem writeLoop_ends (hfl : fl.getLsbD 0 = true) : ∀ (turns cur : ℕ) (data : List Byte) (v : Vm),
    OneHalf cur data.length → FreeLow v.mem →
    (AddressSpace.writeLoop fl turns cur data v).Ends fun v' => FreeLow v'.mem
  | 0, _, _, _, _, h => ends_ok h
  | turns + 1, cur, data, v, hhalf, h => by
    rw [AddressSpace.writeLoop]
    split_ifs
    · exact ends_ok h
    have hle : min (4096 - cur % 4096) data.length ≤ data.length := Nat.min_le_right ..
    refine ends_bind (frameFor_ends _ hfl h) fun f v₁ h₁ => ?_
    generalize min (4096 - cur % 4096) data.length = toWrite at hle
    have hlt : cur + toWrite < 2 ^ 64 := by
      unfold OneHalf at hhalf
      omega
    rw [inMem_modify_bind, add_of_lt hlt, pure_bind, virtAddrNew_of_canonical (hhalf.canonical hle), pure_bind]
    refine writeLoop_ends hfl turns _ _ _ ?_ (h₁.congr (writeBytes_frames ..))
    rw [List.length_drop]
    exact hhalf.advance hle

end Space

/-! ### The loader -/

/-- A program header that `load` passes over: that of an empty segment, or of another type than `PT_LOAD`. -/
def Phdr.Skipped (ph : Phdr) : Prop := ph.type = PT_LOAD → ph.filesz ≤ ph.memsz ∧ ph.memsz = 0
deriving Decidable

/-- What `load` computes for a segment before it asks for memory stays in range. -/
def Phdr.InRange (ph : Phdr) : Prop := Canonical ph.vaddr ∧ signExtend ph.vaddr + ph.memsz + 4095 < 2 ^ 64
deriving Decidable

/-- And so does what it computes when it maps the pages and copies the bytes. -/
structure SegmentFits (ph : Phdr) : Prop where
  range : ph.InRange
  half : OneHalf (signExtend ph.vaddr) ph.memsz
  file : 0 < ph.filesz → ph.offset + ph.filesz < 2 ^ 64

def EntryFits (bin : List Byte) : Prop := (Ehdr.read bin).entry = 0 ∨ Canonical (Ehdr.read bin).entry
deriving Decidable

/-- The fields of the program headers and the entry point, as `load` looks at them: it fails at a segment with more bytes
in the file than in memory, and at one whose bytes are not in the file. -/
def SegmentsFit (bin : List Byte) : ℕ → ℕ → Prop
  | 0, _ => EntryFits bin
  | n + 1, off =>
    let ph := Phdr.read bin off
    if ph.Skipped then SegmentsFit bin n (off + PHDR_SIZE)
    else ph.filesz ≤ ph.memsz →
      SegmentFits ph ∧ (ph.filesz = 0 ∨ ph.offset + ph.filesz ≤ bin.length → SegmentsFit bin n (off + PHDR_SIZE))

/-- The first program header that is not passed over is out of range, or there is none and the entry point is no address. -/
def SegmentsStop (bin : List Byte) : ℕ → ℕ → Prop
  | 0, _ => ¬ EntryFits bin
  | n + 1, off =>
    let ph := Phdr.read bin off
    if ph.Skipped then SegmentsStop bin n (off + PHDR_SIZE) else ph.filesz ≤ ph.memsz ∧ ¬ ph.InRange

def Ehdr.phEnd (h : Ehdr) : ℕ := h.phoff + h.phentsize * h.phnum

/-- The fields of a file that passes the checks of its header fit. -/
def FieldsFit (bin : List Byte) : Prop := EHDR_SIZE ≤ bin.length → (Ehdr.read bin).check = none →
  (Ehdr.read bin).phEnd < 2 ^ 64 ∧
    ((Ehdr.read bin).phEnd ≤ bin.length → SegmentsFit bin (Ehdr.read bin).phnum (Ehdr.read bin).phoff)

/-- A field of a file that passes the checks stops `load` before it asks for memory. -/
def FieldsStop (bin : List Byte) : Prop := EHDR_SIZE ≤ bin.length ∧ (Ehdr.read bin).check = none ∧
  ((Ehdr.read bin).phEnd < 2 ^ 64 →
    (Ehdr.read bin).phEnd ≤ bin.length ∧ SegmentsStop bin (Ehdr.read bin).phnum (Ehdr.read bin).phoff)

theorem le_signExtend (addr : ℕ) : addr ≤ signExtend addr := by
  unfold signExtend
  split_ifs <;> omega

theorem segmentFlags_present (pflags : ℕ) : (segmentFlags pflags).getLsbD 0 = true := by
  rw [segmentFlags_eq]
  exact (mapFlags_pageFlags _).present

theorem loadSegment_ends (highest : ℕ) {v : Vm} (hfits : SegmentsFit bin (n + 1) off) (h : FreeLow v.mem) :
    (loadSegment bin off highest v).Ends fun v' => FreeLow v'.mem := by
  simp only [SegmentsFit] at hfits
  unfold loadSegment
  generalize Phdr.read bin off = ph at hfits
  have hfl := segmentFlags_present ph.flags
  split_ifs with htype hsizes hempty
  · exact ends_ok h
  · exact ends_err h
  · exact ends_ok h
  rw [if_neg fun hskip => hempty (hskip (not_not.1 htype)).2] at hfits
  obtain ⟨⟨⟨hcan, hround⟩, hhalf, hfile⟩, -⟩ := hfits (Nat.not_lt.1 hsizes)
  have hsum : ph.vaddr + ph.memsz < 2 ^ 64 := by
    have := le_signExtend ph.vaddr
    omega
  rw [add_of_lt hsum, pure_bind, virtAddrNew_of_canonical hcan, pure_bind]
  refine ends_bind (ensureMapped_ends hfl hhalf hround h) fun _ v₁ h₁ => ?_
  refine ends_bind (Q := fun v' : Vm => FreeLow v'.mem) ?_ fun _ v₂ h₂ => ends_ok h₂
  unfold copySegment
  by_cases hpos : ph.filesz > 0
  · rw [if_pos hpos, add_of_lt (hfile hpos), pure_bind]
    split_ifs
    · exact ends_err h₁
    · rw [virtAddrNew_of_canonical hcan]
      refine writeLoop_ends hfl _ _ _ _ ?_ h₁
      unfold OneHalf at hhalf ⊢
      rw [List.length_take]
      omega
  · rw [if_neg hpos]
    exact ends_ok h₁

theorem ensureMapped_lt (vaddr len : ℕ) (fl : PageTableFlags) (v : Vm) : (AddressSpace.ensureMapped vaddr len fl v).Post
    (fun _ _ => vaddr + len + 4095 < 2 ^ 64) fun _ _ => vaddr + len + 4095 < 2 ^ 64 := by
  refine post_bind (post_add ..) ?_
  rintro _ _ ⟨rfl, rfl⟩
  refine post_bind (post_add_lt ..) ?_
  rintro _ _ ⟨hlt, -⟩
  exact (Outcome.post_true _).imp (fun _ _ _ => hlt) fun _ _ _ => hlt

theorem copySegment_inside (ph : Phdr) (fl : PageTableFlags) (v : Vm) : (copySegment bin ph fl v).Post
    (fun _ _ => ph.filesz = 0 ∨ ph.offset + ph.filesz ≤ bin.length) fun _ _ => True := by
  unfold copySegment
  split_ifs with hpos
  · refine post_bind (post_add ..) ?_
    rintro _ _ ⟨rfl, -⟩
    split_ifs with hend
    · trivial
    · exact (Outcome.post_true _).imp_ok fun _ _ _ => .inr (Nat.not_lt.1 hend)
  · exact .inl (by omega)

/-- When a segment is loaded the rest of the headers decides; and one out of range makes no `load` fail. -/
theorem loadSegment_checks (n highest : ℕ) (v : Vm) : (loadSegment bin off highest v).Post
    (fun _ _ => (SegmentsFit bin (n + 1) off → SegmentsFit bin n (off + PHDR_SIZE)) ∧
      (SegmentsStop bin (n + 1) off → SegmentsStop bin n (off + PHDR_SIZE)))
    (fun _ _ => ¬ SegmentsStop bin (n + 1) off) := by
  unfold loadSegment
  simp only [SegmentsFit, SegmentsStop]
  generalize Phdr.read bin off = ph
  by_cases hskip : ph.Skipped
  · simp only [if_pos hskip]
    split_ifs with htype hsizes hempty
    · exact ⟨id, id⟩
    · exact absurd (hskip (not_not.1 htype)).1 (by omega)
    · exact ⟨id, id⟩
    · exact absurd (hskip (not_not.1 htype)).2 hempty
  obtain ⟨htype, hpos⟩ := Classical.not_imp.1 hskip
  simp only [if_neg hskip, if_neg (not_not_intro htype)]
  split_ifs with hsizes hempty
  · exact fun h => absurd h.1 (by omega)
  · exact absurd ⟨Nat.not_lt.1 hsizes, hempty⟩ hpos
  refine post_bind (post_add ..) ?_
  rintro segEnd _ ⟨-, rfl⟩
  refine post_bind (virtAddrNew_canonical _ _) ?_
  rintro _ _ ⟨hcan, rfl, rfl⟩
  refine post_bind ((ensureMapped_lt ..).imp_err fun _ _ hlt h => h.2 ⟨hcan, hlt⟩) fun _ v₁ hlt => ?_
  refine post_bind ((copySegment_inside ..).imp_err fun _ _ _ h => h.2 ⟨hcan, hlt⟩) fun _ _ hend => ?_
  exact ⟨fun h => (h (Nat.not_lt.1 hsizes)).2 hend, fun h => absurd ⟨hcan, hlt⟩ h.2⟩

theorem loadSegments_ends : ∀ (n off highest : ℕ) (v : Vm), SegmentsFit bin n off → FreeLow v.mem →
    (loadSegments bin n off highest v).Ends fun v' => FreeLow v'.mem
  | 0, _, _, _, _, h => ends_ok h
  | n + 1, _, highest, v, hfits, h =>
    ends_bind_of_post (loadSegment_ends highest hfits h) ((loadSegment_checks n highest v).imp_err fun _ _ _ => trivial)
      fun highest' v₁ hpass h₁ => loadSegments_ends n _ highest' v₁ (hpass.1 hfits) h₁

theorem loadSegments_checks : ∀ (n off highest : ℕ) (v : Vm), (loadSegments bin n off highest v).Post
    (fun _ _ => (SegmentsFit bin n off → EntryFits bin) ∧ (SegmentsStop bin n off → ¬ EntryFits bin))
    (fun _ _ => ¬ SegmentsStop bin n off)
  | 0, _, _, _ => ⟨id, id⟩
  | n + 1, _, highest, v => post_bind (loadSegment_checks n highest v) fun highest' v₁ h =>
      (loadSegments_checks n _ highest' v₁).imp (fun _ _ h' => ⟨fun hf => h'.1 (h.1 hf), fun hs => h'.2 (h.2 hs)⟩)
        fun _ _ h' hs => h' (h.2 hs)

/-! ### Reads of the file -/

def inFile (bin : List Byte) (off n : ℕ) : Exec String Vm Unit := if off + n ≤ bin.length then pure () else Exec.panic

def copySegmentChecked (bin : List Byte) (ph : Phdr) (flags : PageTableFlags) : Exec String Vm Unit :=
  if ph.filesz > 0 then do
    let srcEnd ← Exec.add 64 ph.offset ph.filesz
    if srcEnd > bin.length then Exec.throw "ELF: segment hors fichier"
    else do
      inFile bin ph.offset ph.filesz
      let vaddr ← virtAddrNew ph.vaddr
      AddressSpace.writeData vaddr ((bin.drop ph.offset).take ph.filesz) flags
  else pure ()

def loadSegmentChecked (bin : List Byte) (off highest : ℕ) : Exec String Vm ℕ := do
  inFile bin off PHDR_SIZE
  let ph := Phdr.read bin off
  if ph.type ≠ PT_LOAD then pure highest
  else if ph.filesz > ph.memsz then Exec.throw "ELF: p_filesz > p_memsz"
  else if ph.memsz = 0 then pure highest
  else do
    let flags := segmentFlags ph.flags
    let segEnd ← Exec.add 64 ph.vaddr ph.memsz
    let vaddr ← virtAddrNew ph.vaddr
    AddressSpace.ensureMapped vaddr ph.memsz flags
    copySegmentChecked bin ph flags
    pure (if segEnd > highest then segEnd else highest)

def loadSegmentsChecked (bin : List Byte) : ℕ → ℕ → ℕ → Exec String Vm ℕ
  | 0, _, highest => pure highest
  | n + 1, off, highest => do
    let highest ← loadSegmentChecked bin off highest
    loadSegmentsChecked bin n (off + PHDR_SIZE) highest

def loadChecked (bin : List Byte) : Exec String Vm LoadedElf :=
  if bin.length < EHDR_SIZE then Exec.throw "ELF: fichier tronqué"
  else do
    inFile bin 0 EHDR_SIZE
    let ehdr := Ehdr.read bin
    match ehdr.check with
    | some e => Exec.throw e
    | none => do
      let phEnd ← Exec.add 64 ehdr.phoff (ehdr.phentsize * ehdr.phnum)
      if phEnd > bin.length then Exec.throw "ELF: program headers hors fichier"
      else do
        let highestVaddr ← loadSegmentsChecked bin ehdr.phnum ehdr.phoff 0
        if ehdr.entry = 0 then Exec.throw "ELF: e_entry = 0"
        else do
          let entry ← virtAddrNew ehdr.entry
          pure { entry, highestVaddr }

theorem inFile_bind {α : Type} (h : off + n ≤ bin.length) (f : Unit → Exec String Vm α) : (inFile bin off n >>= f) = f () := by
  funext v
  rw [inFile, if_pos h, pure_bind]

theorem bind_congr_ok {α β : Type} {x : Exec ε σ α} {f g : α → Exec ε σ β} {s : σ}
    (h : ∀ a s', x s = .ok a s' → f a s' = g a s') : (x >>= f) s = (x >>= g) s := by
  rw [bind_apply, bind_apply]
  cases hx : x s with
  | ok a s' => exact h a s' hx
  | err e s' => rfl
  | panic => rfl
  | diverge => rfl

theorem copySegmentChecked_eq (bin : List Byte) (ph : Phdr) (flags : PageTableFlags) :
    copySegmentChecked bin ph flags = copySegment bin ph flags := by
  unfold copySegmentChecked copySegment
  split_ifs with hpos
  · funext v
    refine bind_congr_ok fun srcEnd v₁ hadd => ?_
    obtain ⟨rfl, rfl⟩ := add_eq_ok hadd
    by_cases hend : ph.offset + ph.filesz > bin.length
    · rw [if_pos hend, if_pos hend]
    · rw [if_neg hend, if_neg hend, inFile_bind (Nat.not_lt.1 hend)]
  · rfl

theorem loadSegmentChecked_eq (h : off + PHDR_SIZE ≤ bin.length) (highest : ℕ) :
    loadSegmentChecked bin off highest = loadSegment bin off highest := by
  unfold loadSegmentChecked loadSegment
  rw [inFile_bind h]
  simp only [copySegmentChecked_eq]

theorem loadSegmentsChecked_eq : ∀ (n off highest : ℕ), off + PHDR_SIZE * n ≤ bin.length →
    loadSegmentsChecked bin n off highest = loadSegments bin n off highest
  | 0, _, _, _ => rfl
  | n + 1, off, highest, h => by
    rw [Nat.mul_succ] at h
    unfold loadSegmentsChecked loadSegments
    rw [loadSegmentChecked_eq (by omega)]
    congr 1
    funext highest'
    exact loadSegmentsChecked_eq n _ highest' (by omega)

theorem Ehdr.phentsize_of_check {h : Ehdr} (hcheck : h.check = none) : h.phentsize = PHDR_SIZE := by
  unfold Ehdr.check at hcheck
  split_ifs at hcheck with _ _ _ _ _ hsize
  exact not_not.1 hsize

theorem loadChecked_eq (bin : List Byte) : loadChecked bin = load bin := by
  unfold loadChecked load
  by_cases hlen : bin.length < EHDR_SIZE
  · rw [if_pos hlen, if_pos hlen]
  rw [if_neg hlen, if_neg hlen, inFile_bind (by omega)]
  cases hcheck : (Ehdr.read bin).check with
  | some e => simp only [hcheck]
  | none =>
    simp only [hcheck]
    funext v
    refine bind_congr_ok fun phEnd v₁ hadd => ?_
    obtain ⟨rfl, rfl⟩ := add_eq_ok hadd
    rw [Ehdr.phentsize_of_check hcheck]
    by_cases hend : (Ehdr.read bin).phoff + PHDR_SIZE * (Ehdr.read bin).phnum > bin.length
    · rw [if_pos hend, if_pos hend]
    · rw [if_neg hend, if_neg hend, loadSegmentsChecked_eq _ _ _ (Nat.not_lt.1 hend)]

theorem load_stops (hstop : FieldsStop bin) (v : Vm) : (load bin v).Post (fun _ _ => False) fun _ _ => False := by
  obtain ⟨hlen, hcheck, hstop⟩ := hstop
  rw [load, if_neg (Nat.not_lt.2 hlen)]
  simp only [hcheck]
  refine post_bind (post_add_lt ..) ?_
  rintro _ v ⟨hlt, rfl, rfl⟩
  obtain ⟨hend, hstop⟩ := hstop hlt
  unfold Ehdr.phEnd at hend
  rw [if_neg (Nat.not_lt.2 hend)]
  have hsegs := (loadSegments_checks (Ehdr.read bin).phnum (Ehdr.read bin).phoff 0 v).imp_err fun _ _ h => h hstop
  refine post_bind hsegs fun highest v₁ h => ?_
  have hentry := h.2 hstop
  unfold EntryFits at hentry
  generalize (Ehdr.read bin).entry = entry at hentry
  rw [if_neg fun hzero => hentry (.inl hzero)]
  exact post_bind (virtAddrNew_canonical entry v₁) fun _ _ hcan => hentry (.inr hcan.1)

def bootVm : Vm := { mem := smallMachine, space := { p4 := 272, mappedPages := ∅ } }

theorem freeLow_smallMachine : FreeLow smallMachine := by
  intro f hf _
  have hlt : f < 4352 := hf
  unfold IDENTITY_FRAMES
  omega

def imageWith (entry phoff vaddr memsz : ℕ) : List Byte :=
  [0x7f#8, 0x45#8, 0x4c#8, 0x46#8, 2#8, 1#8, 1#8, 0#8] ++ toLe 0 8 ++ toLe 2 2 ++ toLe 62 2 ++ toLe 1 4 ++
    toLe entry 8 ++ toLe phoff 8 ++ toLe 0 8 ++ toLe 0 4 ++ toLe 64 2 ++ toLe 56 2 ++ toLe 1 2 ++ toLe 0 6 ++
    toLe 1 4 ++ toLe 7 4 ++ toLe 120 8 ++ toLe vaddr 8 ++ toLe vaddr 8 ++ toLe 1 8 ++ toLe memsz 8 ++ toLe 4096 8 ++
    [0xf4#8]

end RustKernel.Fs
