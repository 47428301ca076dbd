import RustKernel.Lib.Exec
import RustKernel.Lib.Utf8
import RustKernel.Memory.FrameAllocator

/-!
# Physical memory and the page tables in it

`memory/paging.rs` and `memory/frame_refcount.rs`, with the part of the `x86_64` crate they call. The source of
the crate is not in the repository: `nextTable`, `insertEntry`, `createNextTable`, `mapTo`, `walk`, `unmap`,
`updateFlags` and `translate` are its `MappedPageTable` as assumed here. Physical memory is identity-mapped (`PHYS_OFFSET = 0`), so
the kernel reads and writes page tables as words of physical frames; a frame holds 512.
-/

namespace RustKernel.Memory

open Lib
open BitVec (getLsbD_and eq_of_getLsbD_eq getLsbD_or getLsbD_extractLsb')

abbrev Word : Type := BitVec 64

abbrev PageTableFlags : Type := BitVec 64

variable {i : ℕ} {f g : PageTableFlags}

def PRESENT : PageTableFlags := 0x1#64

def WRITABLE : PageTableFlags := 0x2#64

def USER_ACCESSIBLE : PageTableFlags := 0x4#64

def HUGE_PAGE : PageTableFlags := 0x80#64

def COW_MARKER : PageTableFlags := 0x200#64

def USER_RX : PageTableFlags := PRESENT ||| USER_ACCESSIBLE

def USER_RW : PageTableFlags := PRESENT ||| WRITABLE ||| USER_ACCESSIBLE

def FLAGS_MASK : Word := 0xfff0000000000fff#64

def ADDR_MASK : Word := 0x000ffffffffff000#64

def hasFlags (f g : PageTableFlags) : Bool := f &&& g == g

def entryFlags (e : Word) : PageTableFlags := e &&& FLAGS_MASK

def entryFrame (e : Word) : ℕ := (e.extractLsb' 12 40).toNat

def mkEntry (frame : ℕ) (flags : PageTableFlags) : Word := BitVec.ofNat 64 (frame * 4096) ||| flags

def setFlags (e : Word) (flags : PageTableFlags) : Word := e &&& ADDR_MASK ||| flags

/-! ### Bits of entries -/

theorem getLsbD_FLAGS_MASK (h : i < 64) : FLAGS_MASK.getLsbD i = decide (i < 12 ∨ 52 ≤ i) := by
  have hall : ∀ i : Fin 64, FLAGS_MASK.getLsbD i = decide (i.val < 12 ∨ 52 ≤ i.val) := by decide
  exact hall ⟨i, h⟩

theorem getLsbD_ADDR_MASK (h : i < 64) : ADDR_MASK.getLsbD i = decide (12 ≤ i ∧ i < 52) := by
  have hall : ∀ i : Fin 64, ADDR_MASK.getLsbD i = decide (12 ≤ i.val ∧ i.val < 52) := by decide
  exact hall ⟨i, h⟩

theorem hasFlags_iff : hasFlags f g = true ↔ ∀ i < 64, g.getLsbD i = true → f.getLsbD i = true := by
  rw [hasFlags, beq_iff_eq]
  constructor
  · intro h i _ hg
    rw [← h, getLsbD_and] at hg
    exact (Bool.and_eq_true_iff.mp hg).1
  · intro h
    refine eq_of_getLsbD_eq fun i hi => ?_
    rw [getLsbD_and]
    cases hg : g.getLsbD i with
    | false => simp
    | true => simp [h i hi hg]

theorem hasFlags_twoPow (f : PageTableFlags) (hi : i < 64) : hasFlags f (BitVec.twoPow 64 i) = f.getLsbD i := by
  have hne : BitVec.twoPow 64 i ≠ 0#64 := by
    intro h
    have hbit := congrArg (fun x => x.getLsbD i) h
    simp [hi] at hbit
  rw [hasFlags, BitVec.and_twoPow]
  cases f.getLsbD i with
  | false => simpa using fun h => hne h.symm
  | true => simp

@[simp] theorem hasFlags_PRESENT (f : PageTableFlags) : hasFlags f PRESENT = f.getLsbD 0 :=
  hasFlags_twoPow f (i := 0) (by decide)

@[simp] theorem hasFlags_USER_ACCESSIBLE (f : PageTableFlags) : hasFlags f USER_ACCESSIBLE = f.getLsbD 2 :=
  hasFlags_twoPow f (i := 2) (by decide)

@[simp] theorem hasFlags_HUGE_PAGE (f : PageTableFlags) : hasFlags f HUGE_PAGE = f.getLsbD 7 :=
  hasFlags_twoPow f (i := 7) (by decide)

theorem getLsbD_WRITABLE (i : ℕ) : WRITABLE.getLsbD i = decide (1 = i) := BitVec.getLsbD_twoPow 1 i

theorem getLsbD_COW_MARKER (i : ℕ) : COW_MARKER.getLsbD i = decide (9 = i) := BitVec.getLsbD_twoPow 9 i

@[simp] theorem getLsbD_entryFlags (e : Word) (h : i < 12) : (entryFlags e).getLsbD i = e.getLsbD i := by
  rw [entryFlags, getLsbD_and, getLsbD_FLAGS_MASK (by omega)]
  simp [h]

def IsFlags (f : PageTableFlags) : Prop := ∀ i, 12 ≤ i → i < 52 → f.getLsbD i = false

theorem isFlags_of_and (h : f &&& ADDR_MASK = 0#64) : IsFlags f := by
  intro i h₁ h₂
  have hb := congrArg (fun x => x.getLsbD i) h
  rw [getLsbD_and, getLsbD_ADDR_MASK (by omega)] at hb
  simpa [h₁, h₂] using hb

theorem isFlags_entryFlags (e : Word) : IsFlags (entryFlags e) := by
  intro i h₁ h₂
  rw [entryFlags, getLsbD_and, getLsbD_FLAGS_MASK (by omega)]
  simp [Nat.not_lt.mpr h₁, Nat.not_le.mpr h₂]

theorem IsFlags.or (hf : IsFlags f) (hg : IsFlags g) : IsFlags (f ||| g) := by
  intro i h₁ h₂
  rw [getLsbD_or, hf i h₁ h₂, hg i h₁ h₂]
  rfl

theorem IsFlags.and (hf : IsFlags f) : IsFlags (f &&& g) := by
  intro i h₁ h₂
  rw [getLsbD_and, hf i h₁ h₂]
  rfl

@[simp] theorem entryFrame_setFlags {e : Word} (hf : IsFlags f) : entryFrame (setFlags e f) = entryFrame e := by
  unfold entryFrame
  congr 1
  refine eq_of_getLsbD_eq fun i hi => ?_
  have hmask : ADDR_MASK.getLsbD (12 + i) = true := by
    rw [getLsbD_ADDR_MASK (by omega)]
    exact decide_eq_true (by omega)
  rw [getLsbD_extractLsb', getLsbD_extractLsb', setFlags, getLsbD_or, getLsbD_and, hmask, hf (12 + i) (by omega) (by omega)]
  simp

@[simp] theorem getLsbD_setFlags (e : Word) (f : PageTableFlags) (h : i < 12) : (setFlags e f).getLsbD i = f.getLsbD i := by
  rw [setFlags, getLsbD_or, getLsbD_and, getLsbD_ADDR_MASK (by omega)]
  simp [Nat.not_le.mpr h]

private theorem getLsbD_ofNat_mul (n i : ℕ) (hi : i < 64) :
    (BitVec.ofNat 64 (n * 4096)).getLsbD i = (decide (12 ≤ i) && n.testBit (i - 12)) := by
  have h : n * 4096 = 2 ^ 12 * n := by omega
  rw [BitVec.getLsbD_ofNat, h, Nat.testBit_two_pow_mul]
  simp [hi]

@[simp] theorem entryFrame_mkEntry {frame : ℕ} (hframe : frame < 2 ^ 40)
    (hf : IsFlags f) : entryFrame (mkEntry frame f) = frame := by
  have h : (mkEntry frame f).extractLsb' 12 40 = BitVec.ofNat 40 frame := by
    refine eq_of_getLsbD_eq fun i hi => ?_
    rw [getLsbD_extractLsb', mkEntry, getLsbD_or, getLsbD_ofNat_mul _ _ (by omega),
      hf (12 + i) (by omega) (by omega), BitVec.getLsbD_ofNat]
    simp
  rw [entryFrame, h, BitVec.toNat_ofNat, Nat.mod_eq_of_lt hframe]

@[simp] theorem getLsbD_mkEntry (frame : ℕ) (f : PageTableFlags) (h : i < 12) : (mkEntry frame f).getLsbD i = f.getLsbD i := by
  rw [mkEntry, getLsbD_or, getLsbD_ofNat_mul _ _ (by omega)]
  simp [Nat.not_le.mpr h]

theorem ne_zero_of_getLsbD {e : Word} (h : e.getLsbD i = true) : e ≠ 0#64 := by
  rintro rfl
  simp at h

/-! ### Reference counts -/

abbrev FrameRefcount : Type := ℕ → ℕ

namespace FrameRefcount

def set (rc : FrameRefcount) (frame n : ℕ) : FrameRefcount := Function.update rc frame n

def inc (rc : FrameRefcount) (frame : ℕ) : FrameRefcount :=
  if rc frame < 255 then Function.update rc frame (rc frame + 1) else rc

def dec (rc : FrameRefcount) (frame : ℕ) : FrameRefcount :=
  if rc frame > 0 then Function.update rc frame (rc frame - 1) else rc

theorem dec_apply (rc : FrameRefcount) (f g : ℕ) : rc.dec f g = if g = f then rc g - 1 else rc g := by
  unfold dec
  by_cases hg : g = f
  · subst hg
    by_cases hpos : rc g > 0
    · simp [hpos]
    · simp [hpos]
      omega
  · split_ifs <;> simp [hg]

theorem inc_apply (rc : FrameRefcount) (f g : ℕ) :
    rc.inc f g = if g = f then (if rc g < 255 then rc g + 1 else rc g) else rc g := by
  unfold inc
  by_cases hg : g = f
  · subst hg
    by_cases hlt : rc g < 255
    · simp [hlt]
    · simp [hlt]
  · split_ifs <;> simp [hg]

end FrameRefcount

/-! ### Physical memory -/

def IDENTITY_FRAMES : ℕ := 262144

structure PhysMem where
  words : ℕ → ℕ → Word
  frames : BitmapFrameAllocator
  refcount : FrameRefcount

namespace PhysMem

def write (m : PhysMem) (frame i : ℕ) (w : Word) : PhysMem :=
  { m with words := fun f j => if f = frame ∧ j = i then w else m.words f j }

def zero (m : PhysMem) (frame : ℕ) : PhysMem :=
  { m with words := fun f j => if f = frame then 0#64 else m.words f j }

def copy (m : PhysMem) (dst src first : ℕ) : PhysMem :=
  { m with words := fun f j => if f = dst ∧ first ≤ j ∧ j < 512 then m.words src j else m.words f j }

def isUsed (m : PhysMem) (frame : ℕ) : Bool := m.frames.isUsed frame

end PhysMem

variable {ε : Type}

def allocateFrame : Exec ε PhysMem (Option ℕ) := fun m =>
  match m.frames.allocateFrame with
  | (some f, a) => if f < IDENTITY_FRAMES then .ok (some f) ({ m with frames := a }.zero f) else .diverge
  | (none, a) => .ok none { m with frames := a }

def allocFrame : Exec String PhysMem ℕ := do
  match ← allocateFrame with
  | some f => pure f
  | none => Exec.throw "plus de frames libres"

def allocZeroedFrame : Exec String PhysMem ℕ := do
  let f ← allocFrame
  Exec.modify (·.zero f)
  pure f

def freeFrame (frame : ℕ) : Exec ε PhysMem Unit := fun m =>
  match m.frames.deallocateFrame frame with
  | some a => .ok () { m with frames := a }
  | none => .panic

/-! ### The mapper -/

def pageIndex (level page : ℕ) : ℕ := page / 512 ^ (level - 1) % 512

theorem pageIndex_eq_zero {page : ℕ} (h : page < IDENTITY_FRAMES) : pageIndex 4 page = 0 ∧ pageIndex 3 page = 0 := by
  unfold pageIndex
  rw [Nat.div_eq_of_lt (lt_of_lt_of_le h (by decide)), Nat.div_eq_of_lt (lt_of_lt_of_le h (by decide))]
  exact ⟨rfl, rfl⟩

theorem pageIndex_lt {level page : ℕ} : pageIndex level page < 512 := Nat.mod_lt _ (by decide)

inductive PageTableWalkError where
  | notMapped
  | mappedToHugePage
deriving DecidableEq, Repr

inductive MapToError where
  | frameAllocationFailed
  | parentEntryHugePage
  | pageAlreadyMapped (frame : ℕ)
deriving DecidableEq, Repr

def nextTable (e : Word) : Except PageTableWalkError ℕ :=
  if !hasFlags (entryFlags e) PRESENT then .error .notMapped
  else if hasFlags (entryFlags e) HUGE_PAGE then .error .mappedToHugePage
  else .ok (entryFrame e)

def insertEntry (table i : ℕ) (insertFlags : PageTableFlags) : Exec MapToError PhysMem Bool := do
  let m ← Exec.get
  let e := m.words table i
  if e = 0#64 then
    match ← allocateFrame with
    | some f => do
      Exec.modify (·.write table i (mkEntry f insertFlags))
      pure true
    | none => Exec.throw .frameAllocationFailed
  else if insertFlags != 0#64 && !hasFlags (entryFlags e) insertFlags then do
    Exec.modify (·.write table i (setFlags e (entryFlags e ||| insertFlags)))
    pure false
  else pure false

def createNextTable (table i : ℕ) (insertFlags : PageTableFlags) : Exec MapToError PhysMem ℕ := do
  let created ← insertEntry table i insertFlags
  let m ← Exec.get
  match nextTable (m.words table i) with
  | .error .mappedToHugePage => Exec.throw .parentEntryHugePage
  | .error .notMapped => Exec.panic
  | .ok next => do
    Exec.modify fun m => if created then m.zero next else m
    pure next

def mapTo (p4 page frame : ℕ) (flags : PageTableFlags) : Exec MapToError PhysMem Unit := do
  let parentTableFlags := flags &&& USER_RW
  let p3 ← createNextTable p4 (pageIndex 4 page) parentTableFlags
  let p2 ← createNextTable p3 (pageIndex 3 page) parentTableFlags
  let p1 ← createNextTable p2 (pageIndex 2 page) parentTableFlags
  let m ← Exec.get
  if m.words p1 (pageIndex 1 page) = 0#64 then
    Exec.modify (·.write p1 (pageIndex 1 page) (mkEntry frame flags))
  else Exec.throw (.pageAlreadyMapped frame)

def walk (m : PhysMem) (p4 page : ℕ) : Except PageTableWalkError ℕ := do
  let p3 ← nextTable (m.words p4 (pageIndex 4 page))
  let p2 ← nextTable (m.words p3 (pageIndex 3 page))
  nextTable (m.words p2 (pageIndex 2 page))

def unmap (p4 page : ℕ) : Exec PageTableWalkError PhysMem ℕ := do
  let m ← Exec.get
  match walk m p4 page with
  | .error e => Exec.throw e
  | .ok p1 =>
    match nextTable (m.words p1 (pageIndex 1 page)) with
    | .error e => Exec.throw e
    | .ok frame => do
      Exec.modify (·.write p1 (pageIndex 1 page) 0#64)
      pure frame

def updateFlags (p4 page : ℕ) (flags : PageTableFlags) : Exec PageTableWalkError PhysMem Unit := do
  let m ← Exec.get
  match walk m p4 page with
  | .error e => Exec.throw e
  | .ok p1 =>
    let e := m.words p1 (pageIndex 1 page)
    if e = 0#64 then Exec.throw .notMapped
    else Exec.modify (·.write p1 (pageIndex 1 page) (setFlags e flags))

inductive TranslateResult where
  | mapped (frame : ℕ) (flags : PageTableFlags)
  | notMapped

def translate (p4 page : ℕ) : Exec ε PhysMem TranslateResult := do
  let m ← Exec.get
  let e4 := m.words p4 (pageIndex 4 page)
  match nextTable e4 with
  | .error .mappedToHugePage => Exec.panic
  | .error .notMapped => pure .notMapped
  | .ok p3 =>
    let e3 := m.words p3 (pageIndex 3 page)
    match nextTable e3 with
    | .error .mappedToHugePage => pure (.mapped (entryFrame e3 / 2 ^ 18 * 2 ^ 18) (entryFlags e3))
    | .error .notMapped => pure .notMapped
    | .ok p2 =>
      let e2 := m.words p2 (pageIndex 2 page)
      match nextTable e2 with
      | .error .mappedToHugePage => pure (.mapped (entryFrame e2 / 2 ^ 9 * 2 ^ 9) (entryFlags e2))
      | .error .notMapped => pure .notMapped
      | .ok p1 =>
        let e1 := m.words p1 (pageIndex 1 page)
        if e1 = 0#64 then pure .notMapped else pure (.mapped (entryFrame e1) (entryFlags e1))

/-! ### What ring 3 sees -/

structure Access where
  frame : ℕ
  writable : Bool
  user : Bool
deriving DecidableEq, Repr

def Access.through (a : Access) (e : Word) : Access :=
  { a with writable := a.writable && e.getLsbD 1, user := a.user && e.getLsbD 2 }

def mmu (m : PhysMem) (p4 page : ℕ) : Option Access :=
  let e4 := m.words p4 (pageIndex 4 page)
  if !e4.getLsbD 0 || e4.getLsbD 7 then none else
  let e3 := m.words (entryFrame e4) (pageIndex 3 page)
  if !e3.getLsbD 0 then none else
  if e3.getLsbD 7 then
    some ((Access.through ⟨entryFrame e3 / 2 ^ 18 * 2 ^ 18 + page % 2 ^ 18, true, true⟩ e4).through e3) else
  let e2 := m.words (entryFrame e3) (pageIndex 2 page)
  if !e2.getLsbD 0 then none else
  if e2.getLsbD 7 then
    some (((Access.through ⟨entryFrame e2 / 2 ^ 9 * 2 ^ 9 + page % 2 ^ 9, true, true⟩ e4).through e3).through e2) else
  let e1 := m.words (entryFrame e2) (pageIndex 1 page)
  if !e1.getLsbD 0 then none else
  some ((((Access.through ⟨entryFrame e1, true, true⟩ e4).through e3).through e2).through e1)

end RustKernel.Memory
