import Mathlib.Algebra.Order.Ring.Nat
import Mathlib.Data.Finset.Card
import Mathlib.Order.Bounds.Basic
import RustKernel.Lib.Run

/-!
# The physical frame allocator

`memory/frame_allocator.rs` keeps one bit per 4 KiB frame in a 64 KiB bitmap: `0` is free,
`1` is used. `new` sets every bit, clears the frames of the usable memory areas the boot
loader reports, and sets again those the kernel keeps for itself. `allocate_frame` takes
the first clear bit from the hint `next_free` on, `deallocate_frame` clears a bit and
lowers the hint.
-/

namespace RustKernel.Memory

open Lib
open Option (bind_eq_bind bind_eq_some_iff)

def FRAME_SIZE : ℕ := 4096

def BITMAP_ADDR : ℕ := 0x00F00000

def BITMAP_SIZE : ℕ := 64 * 1024

def BITMAP_BITS : ℕ := BITMAP_SIZE * 8

def HEAP_START : ℕ := 0x01000000

def HEAP_SIZE : ℕ := 32 * 1024 * 1024

/-! ### The bitmap -/

abbrev Bitmap : Type := ℕ → BitVec 8

def bitGet (bm : Bitmap) (i : ℕ) : Bool := bm (i / 8) &&& 1#8 <<< (i % 8) != 0#8

def bitSet (bm : Bitmap) (i : ℕ) : Bitmap :=
  Function.update bm (i / 8) (bm (i / 8) ||| 1#8 <<< (i % 8))

def bitClear (bm : Bitmap) (i : ℕ) : Bitmap :=
  Function.update bm (i / 8) (bm (i / 8) &&& ~~~(1#8 <<< (i % 8)))

theorem bitGet_eq_getLsbD (bm : Bitmap) (i : ℕ) : bitGet bm i = (bm (i / 8)).getLsbD (i % 8) := by
  have hmask : 1#8 <<< (i % 8) = BitVec.twoPow 8 (i % 8) := (BitVec.twoPow_eq 8 (i % 8)).symm
  have hne : BitVec.twoPow 8 (i % 8) ≠ 0#8 := by
    intro h
    have hbit := congrArg (fun x => x.getLsbD (i % 8)) h
    simp [Nat.mod_lt] at hbit
  rw [bitGet, hmask, BitVec.and_twoPow]
  cases hb : (bm (i / 8)).getLsbD (i % 8) with
  | false => simp
  | true => simpa using hne

@[simp] theorem bitGet_bitSet (bm : Bitmap) (i j : ℕ) : bitGet (bitSet bm i) j = (decide (j = i) || bitGet bm j) := by
  simp only [bitGet_eq_getLsbD, bitSet]
  by_cases hbyte : j / 8 = i / 8
  · have hij : (i % 8 = j % 8) ↔ j = i := by omega
    have hi : i % 8 < 8 := by omega
    rw [hbyte, Function.update_self, BitVec.getLsbD_or, ← BitVec.twoPow_eq, BitVec.getLsbD_twoPow]
    simp only [hij, hi, decide_true, Bool.true_and, Bool.or_comm]
  · have hij : j ≠ i := fun h => hbyte (by rw [h])
    simp [Function.update_of_ne hbyte, hij]

@[simp] theorem bitGet_bitClear (bm : Bitmap) (i j : ℕ) : bitGet (bitClear bm i) j = (!decide (j = i) && bitGet bm j) := by
  simp only [bitGet_eq_getLsbD, bitClear]
  by_cases hbyte : j / 8 = i / 8
  · have hij : (i % 8 = j % 8) ↔ j = i := by omega
    have hi : i % 8 < 8 := by omega
    have hj : j % 8 < 8 := by omega
    rw [hbyte, Function.update_self, BitVec.getLsbD_and, BitVec.getLsbD_not, ← BitVec.twoPow_eq, BitVec.getLsbD_twoPow]
    simp only [hij, hi, hj, decide_true, Bool.true_and, Bool.and_comm]
  · have hij : j ≠ i := fun h => hbyte (by rw [h])
    simp [Function.update_of_ne hbyte, hij]

/-! ### The allocator -/

structure BitmapFrameAllocator where
  bitmap : Bitmap
  numFrames : ℕ
  nextFree : ℕ
  used : ℕ

namespace BitmapFrameAllocator

def isUsed (a : BitmapFrameAllocator) (f : ℕ) : Bool := bitGet a.bitmap f

def scanFree (bm : Bitmap) : ℕ → ℕ → Option ℕ
  | _, 0 => none
  | f, k + 1 => if !bitGet bm f then some f else scanFree bm (f + 1) k

def findFree (a : BitmapFrameAllocator) : Option ℕ × BitmapFrameAllocator :=
  match scanFree a.bitmap a.nextFree (a.numFrames - a.nextFree) with
  | some f => (some f, { a with nextFree := f + 1 })
  | none => (none, a)

def allocateFrame (a : BitmapFrameAllocator) : Option ℕ × BitmapFrameAllocator :=
  match a.findFree with
  | (some f, a) => (some f, { a with bitmap := bitSet a.bitmap f, used := a.used + 1 })
  | (none, a) => (none, a)

def deallocateFrame (a : BitmapFrameAllocator) (f : ℕ) : Option BitmapFrameAllocator :=
  if f / 8 < BITMAP_SIZE then
    if bitGet a.bitmap f then
      if 0 < a.used then
        some { a with
          bitmap := bitClear a.bitmap f
          used := a.used - 1
          nextFree := if f < a.nextFree then f else a.nextFree }
      else none
    else some a
  else none

end BitmapFrameAllocator

/-! ### Building it at boot -/

def checkedAdd (a b : ℕ) : Option ℕ := if a + b < 2 ^ 64 then some (a + b) else none

def alignUp (addr : ℕ) : Option ℕ :=
  (checkedAdd addr FRAME_SIZE).map fun x => (x - 1) / FRAME_SIZE * FRAME_SIZE

structure MemoryArea where
  baseAddr : ℕ
  length : ℕ
  typ : ℕ

def MemoryArea.isUsable (m : MemoryArea) : Bool := m.typ == 1

def MemoryArea.endAddr (m : MemoryArea) : Option ℕ := checkedAdd m.baseAddr m.length

def clearFrames (bm : Bitmap) (numFrames : ℕ) : ℕ → ℕ → Bitmap × ℕ
  | _, 0 => (bm, numFrames)
  | first, k + 1 => clearFrames (bitClear bm first) (max numFrames (first + 1)) (first + 1) k

def freeArea (bm : Bitmap) (numFrames : ℕ) (area : MemoryArea) : Option (Bitmap × ℕ) :=
  if !area.isUsable then some (bm, numFrames) else do
    let start ← alignUp area.baseAddr
    let stop ← area.endAddr
    let first := start / FRAME_SIZE
    let last := min (stop / FRAME_SIZE) BITMAP_BITS
    if first ≥ BITMAP_BITS then some (bm, numFrames)
    else some (clearFrames bm numFrames first (last - first))

def freeAreas (bm : Bitmap) (numFrames : ℕ) : List MemoryArea → Option (Bitmap × ℕ)
  | [] => some (bm, numFrames)
  | area :: areas => do
    let (bm, numFrames) ← freeArea bm numFrames area
    freeAreas bm numFrames areas

def markFrames (a : BitmapFrameAllocator) : ℕ → ℕ → BitmapFrameAllocator
  | _, 0 => a
  | f, k + 1 =>
    let a := if !bitGet a.bitmap f then { a with bitmap := bitSet a.bitmap f, used := a.used + 1 } else a
    markFrames a (f + 1) k

def markRangeUsed (a : BitmapFrameAllocator) (range : ℕ × ℕ) : Option BitmapFrameAllocator := do
  let stop ← alignUp range.2
  let first := range.1 / FRAME_SIZE
  let last := min (stop / FRAME_SIZE) BITMAP_BITS
  some (markFrames a first (last - first))

abbrev Module : Type := ℕ × ℕ

variable {areas : List MemoryArea} {bm : Bitmap} {modules : List Module} {a : BitmapFrameAllocator} {k : ℕ}

def markModules (a : BitmapFrameAllocator) : List Module → Option BitmapFrameAllocator
  | [] => some a
  | (start, len) :: modules => do
    let stop ← checkedAdd start len
    let a ← markRangeUsed a (start, stop)
    markModules a modules

def freeUsable (memoryAreas : Option (List MemoryArea)) : Option (Bitmap × ℕ) :=
  match memoryAreas with
  | some areas => freeAreas (fun _ => 0xff#8) 0 areas
  | none => some (fun _ => 0xff#8, 0)

def BitmapFrameAllocator.new (memoryAreas : Option (List MemoryArea)) (modules : List Module) :
    Option BitmapFrameAllocator := do
  let (bitmap, numFrames) ← freeUsable memoryAreas
  let a : BitmapFrameAllocator := { bitmap, numFrames, nextFree := 0, used := 0 }
  let a ← markRangeUsed a (0, BITMAP_ADDR)
  let a ← markRangeUsed a (BITMAP_ADDR, BITMAP_ADDR + BITMAP_SIZE)
  let a ← markRangeUsed a (HEAP_START, HEAP_START + HEAP_SIZE)
  let a ← markRangeUsed a (0, 0)
  markModules a modules

/-! ### What is free after boot -/

def MemoryArea.Covers (m : MemoryArea) (f : ℕ) : Prop :=
  m.isUsable = true ∧ m.baseAddr ≤ f * FRAME_SIZE ∧ (f + 1) * FRAME_SIZE ≤ m.baseAddr + m.length

def Touches (range : ℕ × ℕ) (f : ℕ) : Prop := range.1 < (f + 1) * FRAME_SIZE ∧ f * FRAME_SIZE < range.2

def reservedRanges (modules : List Module) : List (ℕ × ℕ) :=
  [(0, BITMAP_ADDR), (BITMAP_ADDR, BITMAP_ADDR + BITMAP_SIZE), (HEAP_START, HEAP_START + HEAP_SIZE), (0, 0)] ++
    modules.map fun m => (m.1, m.1 + m.2)

theorem checkedAdd_eq_some {a b c : ℕ} (h : checkedAdd a b = some c) : c = a + b := by
  unfold checkedAdd at h
  split_ifs at h
  cases h
  rfl

theorem alignUp_eq_some {a c : ℕ} (h : alignUp a = some c) : c = (a + 4095) / FRAME_SIZE * FRAME_SIZE := by
  obtain ⟨x, hx, rfl⟩ := Option.map_eq_some_iff.mp h
  rw [checkedAdd_eq_some hx]
  rfl

theorem bitGet_clearFrames (k : ℕ) : ∀ (bm : Bitmap) (n f g : ℕ),
    bitGet (clearFrames bm n f k).1 g = false ↔ bitGet bm g = false ∨ f ≤ g ∧ g < f + k := by
  induction k with
  | zero => intro bm n f g; simp [clearFrames]
  | succ k ih =>
    intro bm n f g
    rw [clearFrames, ih, bitGet_bitClear]
    have hsplit : (f ≤ g ∧ g < f + (k + 1)) ↔ g = f ∨ f + 1 ≤ g ∧ g < f + 1 + k := by omega
    simp only [Bool.and_eq_false_iff, Bool.not_eq_false', decide_eq_true_eq]
    tauto

theorem clearFrames_snd (k : ℕ) : ∀ (bm : Bitmap) (n f : ℕ), (clearFrames bm n f k).2 = if k = 0 then n else max n (f + k) := by
  induction k with
  | zero => intro bm n f; rfl
  | succ k ih =>
    intro bm n f
    rw [clearFrames]
    grind

structure Freed (areas : List MemoryArea) (bm : Bitmap) (numFrames : ℕ) : Prop where
  clear : ∀ f, bitGet bm f = false ↔ f < BITMAP_BITS ∧ ∃ m ∈ areas, m.Covers f
  lt : ∀ f, bitGet bm f = false → f < numFrames
  le : numFrames ≤ BITMAP_BITS

theorem Freed.freeArea {bm' : Bitmap} {n n' : ℕ} {area : MemoryArea} (h : Freed areas bm n)
    (hf : freeArea bm n area = some (bm', n')) : Freed (areas ++ [area]) bm' n' := by
  unfold Memory.freeArea at hf
  by_cases hu : area.isUsable = true
  · simp only [hu, Bool.not_true, Bool.false_eq_true, if_false, bind_eq_bind, bind_eq_some_iff] at hf
    obtain ⟨start, hstart, stop, hstop, hf⟩ := hf
    have hstart := alignUp_eq_some hstart
    have hstop : stop = area.baseAddr + area.length := checkedAdd_eq_some hstop
    -- the frames the loop clears are those the area covers
    have hcov : ∀ f, f < BITMAP_BITS → (area.Covers f ↔ start / FRAME_SIZE ≤ f ∧
        f < start / FRAME_SIZE + (min (stop / FRAME_SIZE) BITMAP_BITS - start / FRAME_SIZE)) := by
      simp only [MemoryArea.Covers, hu, true_and, FRAME_SIZE] at *
      omega
    split_ifs at hf with hfirst
    · cases hf
      refine ⟨fun f => ?_, h.lt, h.le⟩
      rw [h.clear]
      refine and_congr_right fun hlt => ?_
      have hnot : ¬ area.Covers f := by rw [hcov f hlt]; omega
      simp [hnot]
    · rw [Option.some.injEq, Prod.ext_iff] at hf
      obtain ⟨rfl, rfl⟩ := hf
      have hle := h.le
      refine ⟨fun f => ?_, fun f hc => ?_, ?_⟩
      · rw [bitGet_clearFrames, h.clear]
        have hmem : (∃ m ∈ areas ++ [area], m.Covers f) ↔ (∃ m ∈ areas, m.Covers f) ∨ area.Covers f := by simp
        rw [hmem]
        by_cases hlt : f < BITMAP_BITS
        · rw [hcov f hlt]
          simp [hlt]
        · simp only [hlt, false_and, false_or, iff_false]
          omega
      · rw [clearFrames_snd]
        rcases (bitGet_clearFrames _ _ _ _ _).mp hc with hc | hc
        · have := h.lt f hc
          split_ifs <;> omega
        · split_ifs <;> omega
      · rw [clearFrames_snd]
        split_ifs <;> omega
  · simp only [hu] at hf
    obtain ⟨rfl, rfl⟩ := hf
    refine ⟨fun f => ?_, h.lt, h.le⟩
    have hnot : ¬ area.Covers f := fun hc => hu hc.1
    rw [h.clear]
    simp [hnot]

theorem Freed.freeAreas : ∀ {done : List MemoryArea} {bm bm' : Bitmap} {n n' : ℕ},
    Freed done bm n → freeAreas bm n areas = some (bm', n') → Freed (done ++ areas) bm' n' := by
  induction areas with
  | nil =>
    intro done bm bm' n n' h hf
    cases hf
    simpa using h
  | cons area areas ih =>
    intro done bm bm' n n' h hf
    simp only [Memory.freeAreas, bind_eq_bind, bind_eq_some_iff, Prod.exists] at hf
    obtain ⟨bm₁, n₁, h₁, hf⟩ := hf
    simpa using ih (h.freeArea h₁) hf

theorem isUsed_markFrames (k : ℕ) : ∀ (a : BitmapFrameAllocator) (f g : ℕ),
    (markFrames a f k).isUsed g = false ↔ a.isUsed g = false ∧ ¬ (f ≤ g ∧ g < f + k) := by
  induction k with
  | zero => intro a f g; simp [markFrames]
  | succ k ih =>
    intro a f g
    have hsplit : (f ≤ g ∧ g < f + (k + 1)) ↔ g = f ∨ f + 1 ≤ g ∧ g < f + 1 + k := by omega
    rw [markFrames, ih]
    cases hf : bitGet a.bitmap f with
    | true =>
      -- the bit is already set, so `g` is not this frame if its bit is clear
      have hne : a.isUsed g = false → g ≠ f := by
        rintro hg rfl
        simp [BitmapFrameAllocator.isUsed, hf] at hg
      tauto
    | false =>
      simp only [Bool.not_false, if_true, BitmapFrameAllocator.isUsed, bitGet_bitSet,
        Bool.or_eq_false_iff, decide_eq_false_iff_not]
      tauto

theorem numFrames_markFrames (k : ℕ) : ∀ (a : BitmapFrameAllocator) (f : ℕ),
    (markFrames a f k).numFrames = a.numFrames ∧ (markFrames a f k).nextFree = a.nextFree := by
  induction k with
  | zero => intro a f; exact ⟨rfl, rfl⟩
  | succ k ih =>
    intro a f
    rw [markFrames, (ih _ _).1, (ih _ _).2]
    split_ifs <;> exact ⟨rfl, rfl⟩

structure Booted (areas : List MemoryArea) (ranges : List (ℕ × ℕ)) (a : BitmapFrameAllocator) : Prop where
  clear : ∀ f, a.isUsed f = false ↔
    f < BITMAP_BITS ∧ (∃ m ∈ areas, m.Covers f) ∧ ∀ r ∈ ranges, ¬ Touches r f
  lt : ∀ f, a.isUsed f = false → f < a.numFrames
  le : a.numFrames ≤ BITMAP_BITS
  nextFree : a.nextFree = 0

theorem Booted.markRangeUsed {ranges : List (ℕ × ℕ)} {a' : BitmapFrameAllocator} {r : ℕ × ℕ} (h : Booted areas ranges a)
    (hm : markRangeUsed a r = some a') : Booted areas (ranges ++ [r]) a' := by
  simp only [Memory.markRangeUsed, bind_eq_bind, bind_eq_some_iff, Option.some.injEq] at hm
  obtain ⟨stop, hstop, rfl⟩ := hm
  have hstop := alignUp_eq_some hstop
  have htouch : ∀ f, f < BITMAP_BITS → (Touches r f ↔ r.1 / FRAME_SIZE ≤ f ∧
      f < r.1 / FRAME_SIZE + (min (stop / FRAME_SIZE) BITMAP_BITS - r.1 / FRAME_SIZE)) := by
    simp only [Touches, FRAME_SIZE] at *
    omega
  obtain ⟨hn, hnext⟩ := numFrames_markFrames (min (stop / FRAME_SIZE) BITMAP_BITS - r.1 / FRAME_SIZE) a (r.1 / FRAME_SIZE)
  refine ⟨fun f => ?_, fun f hc => ?_, hn ▸ h.le, hnext.trans h.nextFree⟩
  · rw [isUsed_markFrames, h.clear]
    by_cases hlt : f < BITMAP_BITS
    · rw [← htouch f hlt]
      simp only [List.mem_append, List.mem_singleton, or_imp, forall_and, forall_eq, and_assoc]
    · simp [hlt]
  · rw [hn]
    exact h.lt f ((isUsed_markFrames _ _ _ _).mp hc).1

theorem Booted.markModules : ∀ {ranges : List (ℕ × ℕ)} {a a' : BitmapFrameAllocator}, Booted areas ranges a →
    markModules a modules = some a' → Booted areas (ranges ++ modules.map fun m => (m.1, m.1 + m.2)) a' := by
  induction modules with
  | nil =>
    intro ranges a a' h hm
    cases hm
    simpa using h
  | cons m modules ih =>
    intro ranges a a' h hm
    simp only [Memory.markModules, bind_eq_bind, bind_eq_some_iff] at hm
    obtain ⟨stop, hstop, a₁, h₁, hm⟩ := hm
    rw [checkedAdd_eq_some hstop] at h₁
    simpa using ih (h.markRangeUsed h₁) hm

theorem freed_nil : Freed [] (fun _ => 0xff#8) 0 := by
  have hfull : ∀ f, bitGet (fun _ => 0xff#8) f = true := by
    intro f
    have hlt : f % 8 < 8 := by omega
    rw [bitGet_eq_getLsbD]
    exact BitVec.getLsbD_allOnes.trans (by simpa using hlt)
  exact ⟨fun f => by simp [hfull], fun f => by simp [hfull], Nat.zero_le _⟩

theorem booted_new {areas : Option (List MemoryArea)}
    (h : BitmapFrameAllocator.new areas modules = some a) : Booted (areas.getD []) (reservedRanges modules) a := by
  simp only [BitmapFrameAllocator.new, bind_eq_bind, bind_eq_some_iff, Prod.exists] at h
  obtain ⟨bm, n, hfree, a₁, h₁, a₂, h₂, a₃, h₃, a₄, h₄, hm⟩ := h
  have hfreed : Freed (areas.getD []) bm n := by
    cases areas with
    | none => cases hfree; exact freed_nil
    | some l => simpa using freed_nil.freeAreas hfree
  have hboot : Booted (areas.getD []) [] { bitmap := bm, numFrames := n, nextFree := 0, used := 0 } :=
    ⟨fun f => (hfreed.clear f).trans (by simp), hfreed.lt, hfreed.le, rfl⟩
  exact ((((hboot.markRangeUsed h₁).markRangeUsed h₂).markRangeUsed h₃).markRangeUsed h₄).markModules hm

/-! ### Allocating and freeing -/

theorem scanFree_eq_some : ∀ {f g : ℕ}, BitmapFrameAllocator.scanFree bm f k = some g → f ≤ g ∧ g < f + k ∧
    bitGet bm g = false ∧ ∀ i, f ≤ i → i < g → bitGet bm i = true := by
  induction k with
  | zero => intro f g h; cases h
  | succ k ih =>
    intro f g h
    simp only [BitmapFrameAllocator.scanFree] at h
    split_ifs at h with hb
    · cases h
      exact ⟨le_rfl, by omega, by simpa using hb, fun i h₁ h₂ => by omega⟩
    · obtain ⟨h₁, h₂, h₃, h₄⟩ := ih h
      refine ⟨by omega, by omega, h₃, fun i hi hlt => ?_⟩
      rcases Nat.eq_or_lt_of_le hi with rfl | hi
      · simpa using hb
      · exact h₄ i hi hlt

theorem scanFree_eq_none : ∀ {f : ℕ},
    BitmapFrameAllocator.scanFree bm f k = none → ∀ i, f ≤ i → i < f + k → bitGet bm i = true := by
  induction k with
  | zero => intro f _ i h₁ h₂; omega
  | succ k ih =>
    intro f h i h₁ h₂
    simp only [BitmapFrameAllocator.scanFree] at h
    split_ifs at h with hb
    rcases Nat.eq_or_lt_of_le h₁ with rfl | hi
    · simpa using hb
    · exact ih h i hi (by omega)

namespace BitmapFrameAllocator

def free (a : BitmapFrameAllocator) : Set ℕ := {f | f < a.numFrames ∧ a.isUsed f = false}

def HintOk (a : BitmapFrameAllocator) : Prop := ∀ f, f < a.nextFree → f < a.numFrames → a.isUsed f = true

theorem allocateFrame_some {a a' : BitmapFrameAllocator} {f : ℕ} (h : a.allocateFrame = (some f, a')) :
    (a.nextFree ≤ f ∧ f < a.numFrames ∧ a.isUsed f = false ∧ ∀ i, a.nextFree ≤ i → i < f → a.isUsed i = true) ∧
    a' = { a with bitmap := bitSet a.bitmap f, nextFree := f + 1, used := a.used + 1 } := by
  simp only [allocateFrame, findFree] at h
  cases hs : scanFree a.bitmap a.nextFree (a.numFrames - a.nextFree) with
  | none => simp [hs] at h
  | some g =>
    simp only [hs] at h
    obtain ⟨rfl, rfl⟩ := h
    obtain ⟨h₁, h₂, h₃, h₄⟩ := scanFree_eq_some hs
    exact ⟨⟨h₁, by omega, h₃, h₄⟩, rfl⟩

theorem allocateFrame_none {a a' : BitmapFrameAllocator} (h : a.allocateFrame = (none, a')) :
    a' = a ∧ ∀ i, a.nextFree ≤ i → i < a.numFrames → a.isUsed i = true := by
  simp only [allocateFrame, findFree] at h
  cases hs : scanFree a.bitmap a.nextFree (a.numFrames - a.nextFree) with
  | some g => simp [hs] at h
  | none =>
    simp only [hs, Prod.mk.injEq, true_and] at h
    exact ⟨h.symm, fun i h₁ h₂ => scanFree_eq_none hs i h₁ (by omega)⟩

/-- The number of frames that `allocate_frame` can still give. -/
def available (a : BitmapFrameAllocator) : ℕ :=
  (List.range' a.nextFree (a.numFrames - a.nextFree)).countP fun f => !a.isUsed f

theorem available_of_none {a a' : BitmapFrameAllocator} (h : a.allocateFrame = (none, a')) : a.available = 0 := by
  refine List.countP_eq_zero.mpr fun f hf => ?_
  obtain ⟨hle, hlt⟩ := List.mem_range'_1.mp hf
  rw [(allocateFrame_none h).2 f hle (by omega)]
  decide

theorem available_of_some {a a' : BitmapFrameAllocator} {f : ℕ} (h : a.allocateFrame = (some f, a')) :
    a.available = a'.available + 1 := by
  obtain ⟨⟨hle, hlt, hfree, hbefore⟩, rfl⟩ := allocateFrame_some h
  have hlen : a.numFrames - a.nextFree = f - a.nextFree + (a.numFrames - (f + 1) + 1) := by omega
  have hfirst : (List.range' a.nextFree (f - a.nextFree)).countP (fun g => !a.isUsed g) = 0 := by
    refine List.countP_eq_zero.mpr fun g hg => ?_
    obtain ⟨hge, hlt'⟩ := List.mem_range'_1.mp hg
    rw [hbefore g hge (by omega)]
    decide
  unfold available
  rw [hlen, ← List.range'_append_1, Nat.add_sub_cancel' hle, List.range'_succ, List.countP_append, hfirst, Nat.zero_add,
    List.countP_cons_of_pos (by rw [hfree]; rfl)]
  -- the bits above the frame are as before
  refine congrArg (· + 1) (List.countP_congr fun g hg => ?_)
  have hne : g ≠ f := by
    have := (List.mem_range'_1.mp hg).1
    omega
  simp only [isUsed, bitGet_bitSet, hne, decide_false, Bool.false_or]

theorem deallocateFrame_some {a a' : BitmapFrameAllocator} {f : ℕ} (h : a.deallocateFrame f = some a')
    (hf : a.isUsed f = true) : 0 < a.used ∧ a' = { a with
      bitmap := bitClear a.bitmap f, used := a.used - 1, nextFree := min f a.nextFree } := by
  have hb : bitGet a.bitmap f = true := hf
  have hmin : (if f < a.nextFree then f else a.nextFree) = min f a.nextFree := by split_ifs <;> omega
  simp only [deallocateFrame, hmin] at h
  split_ifs at h with h₁ h₂
  cases h
  exact ⟨h₂, rfl⟩

variable {a a' : BitmapFrameAllocator} {f : ℕ}

section

variable (hint : a.HintOk)
include hint

theorem HintOk.isLeast (h : a.allocateFrame = (some f, a')) : IsLeast a.free f := by
  obtain ⟨⟨hle, hlt, hclear, hbefore⟩, -⟩ := allocateFrame_some h
  refine ⟨⟨hlt, hclear⟩, fun g hg => ?_⟩
  by_contra hgf
  have hused : a.isUsed g = true := by
    by_cases hn : g < a.nextFree
    · exact hint g hn hg.1
    · exact hbefore g (by omega) (by omega)
  exact absurd hg.2 (by simp [hused])

theorem HintOk.free_eq_empty (h : a.allocateFrame = (none, a')) : a.free = ∅ := by
  obtain ⟨-, hall⟩ := allocateFrame_none h
  refine Set.eq_empty_of_forall_notMem fun g hg => ?_
  have hused : a.isUsed g = true := by
    by_cases hn : g < a.nextFree
    · exact hint g hn hg.1
    · exact hall g (by omega) hg.1
  exact absurd hg.2 (by simp [hused])

theorem HintOk.allocateFrame (h : a.allocateFrame = (some f, a')) : a'.HintOk := by
  obtain ⟨⟨hle, hlt, hclear, hbefore⟩, rfl⟩ := allocateFrame_some h
  intro g hg hn
  simp only [isUsed, bitGet_bitSet, Bool.or_eq_true, decide_eq_true_eq]
  rcases Nat.lt_or_eq_of_le (Nat.lt_succ_iff.mp hg) with hgf | hgf
  · by_cases hnext : g < a.nextFree
    · exact .inr (hint g hnext hn)
    · exact .inr (hbefore g (by omega) hgf)
  · exact .inl hgf

theorem HintOk.deallocateFrame (hf : a.isUsed f = true) (h : a.deallocateFrame f = some a') : a'.HintOk := by
  obtain ⟨-, rfl⟩ := deallocateFrame_some h hf
  intro g hg hn
  have hgf : g ≠ f := by rintro rfl; simp at hg
  simpa [isUsed, hgf] using hint g (by simp at hg; omega) hn

end

end BitmapFrameAllocator

/-! ### Sessions -/

inductive Call where
  | allocate
  | deallocate (f : ℕ)

structure Session where
  alloc : BitmapFrameAllocator
  outstanding : Finset ℕ

namespace Session

variable {a : BitmapFrameAllocator} {f : ℕ}

def step (s : Session) : Call → Option Session
  | .allocate =>
    match s.alloc.allocateFrame with
    | (some f, a) => some ⟨a, insert f s.outstanding⟩
    | (none, a) => some ⟨a, s.outstanding⟩
  | .deallocate f =>
    if f ∈ s.outstanding then (s.alloc.deallocateFrame f).map fun a => ⟨a, s.outstanding.erase f⟩
    else none

structure Inv (boot : BitmapFrameAllocator) (s : Session) : Prop where
  numFrames : s.alloc.numFrames = boot.numFrames ∧ boot.numFrames ≤ BITMAP_BITS
  hint : s.alloc.HintOk
  isUsed : ∀ f, s.alloc.isUsed f = true ↔ boot.isUsed f = true ∨ f ∈ s.outstanding
  fresh : ∀ f ∈ s.outstanding, f ∈ boot.free
  used : s.alloc.used = boot.used + s.outstanding.card

theorem Inv.init {areas : Option (List MemoryArea)} (h : BitmapFrameAllocator.new areas modules = some a) : Inv a ⟨a, ∅⟩ := by
  have hb := booted_new h
  refine ⟨⟨rfl, hb.le⟩, fun f hf => ?_, fun f => by simp, fun f hf => by simp at hf, by simp⟩
  simp [hb.nextFree] at hf

variable {boot : BitmapFrameAllocator} {s s' : Session}

theorem Inv.fresh_of_allocate (hi : Inv boot s) (h : s.alloc.allocateFrame = (some f, a)) :
    boot.isUsed f = false ∧ f ∉ s.outstanding := by
  have hclear := (hi.hint.isLeast h).1.2
  rw [← Bool.not_eq_true, hi.isUsed, not_or, Bool.not_eq_true] at hclear
  exact hclear

theorem Inv.allocate (hi : Inv boot s) (h : s.alloc.allocateFrame = (some f, a)) : Inv boot ⟨a, insert f s.outstanding⟩ := by
  have hint := hi.hint.allocateFrame h
  obtain ⟨hboot, hout⟩ := hi.fresh_of_allocate h
  obtain ⟨⟨-, hlt, -⟩, rfl⟩ := BitmapFrameAllocator.allocateFrame_some h
  refine ⟨hi.numFrames, hint, fun g => ?_, fun g hg => ?_, ?_⟩
  · have := hi.isUsed g
    simp only [BitmapFrameAllocator.isUsed, bitGet_bitSet, Bool.or_eq_true, decide_eq_true_eq, Finset.mem_insert] at this ⊢
    tauto
  · rcases Finset.mem_insert.mp hg with rfl | hg
    · exact ⟨hi.numFrames.1 ▸ hlt, hboot⟩
    · exact hi.fresh g hg
  · simp only [Finset.card_insert_of_notMem hout, hi.used]
    omega

theorem Inv.deallocate (hi : Inv boot s) (hf : f ∈ s.outstanding)
    (h : s.alloc.deallocateFrame f = some a) : Inv boot ⟨a, s.outstanding.erase f⟩ := by
  have hused : s.alloc.isUsed f = true := (hi.isUsed f).mpr (.inr hf)
  have hint := hi.hint.deallocateFrame hused h
  have hboot : boot.isUsed f = false := (hi.fresh f hf).2
  have hpos : 0 < s.outstanding.card := Finset.card_pos.mpr ⟨f, hf⟩
  obtain ⟨-, rfl⟩ := BitmapFrameAllocator.deallocateFrame_some h hused
  refine ⟨hi.numFrames, hint, fun g => ?_, fun g hg => hi.fresh g (Finset.mem_of_mem_erase hg), ?_⟩
  · have := hi.isUsed g
    simp only [BitmapFrameAllocator.isUsed, bitGet_bitClear, Bool.and_eq_true, Bool.not_eq_true',
      decide_eq_false_iff_not, Finset.mem_erase] at this hboot ⊢
    rw [this]
    by_cases hg : g = f
    · simp [hg, hboot]
    · simp [hg]
  · simp only [Finset.card_erase_of_mem hf, hi.used]
    omega

theorem Inv.step {c : Call} (hi : Inv boot s) (h : s.step c = some s') : Inv boot s' := by
  cases c with
  | allocate =>
    simp only [Session.step] at h
    cases ha : s.alloc.allocateFrame with
    | mk o a =>
      cases o with
      | some f =>
        simp only [ha, Option.some.injEq] at h
        exact h ▸ hi.allocate ha
      | none =>
        -- nothing changes
        simp only [ha, Option.some.injEq] at h
        rw [← h, (BitmapFrameAllocator.allocateFrame_none ha).1]
        exact hi
  | deallocate f =>
    simp only [Session.step] at h
    split_ifs at h with hf
    obtain ⟨a, ha, rfl⟩ := Option.map_eq_some_iff.mp h
    exact hi.deallocate hf ha

theorem Inv.run {tr : List (Session × Call)} (hr : Run Session.step s tr s') (hi : Inv boot s) : Inv boot s' :=
  hr.keeps hi fun _ _ _ ha h => ha.step h

theorem Inv.isSome_deallocate (hi : Inv boot s) (hf : f ∈ s.outstanding) : (s.step (.deallocate f)).isSome = true := by
  have hb : bitGet s.alloc.bitmap f = true := (hi.isUsed f).mpr (.inr hf)
  have hlt : f < BITMAP_BITS := lt_of_lt_of_le (hi.fresh f hf).1 hi.numFrames.2
  have hbyte : f / 8 < BITMAP_SIZE := Nat.div_lt_of_lt_mul (by rwa [Nat.mul_comm])
  have hpos : 0 < s.alloc.used := by
    have := Finset.card_pos.mpr ⟨f, hf⟩
    rw [hi.used]
    omega
  simp [Session.step, hf, BitmapFrameAllocator.deallocateFrame, hb, hbyte, hpos]

end Session

/-- **Safety and completeness of the allocator.** After any sequence of calls that gives back
only outstanding frames, an allocation returns the least clear frame below `num_frames`,
which is neither outstanding nor reserved at boot; it fails only when every frame is set;
and giving back an outstanding frame never panics. -/
theorem allocateFrame_least_of_run {areas : Option (List MemoryArea)}
    {boot : BitmapFrameAllocator} {tr : List (Session × Call)} {s : Session}
    (hnew : BitmapFrameAllocator.new areas modules = some boot)
    (hrun : Run Session.step ⟨boot, ∅⟩ tr s) :
    (∀ f a, s.alloc.allocateFrame = (some f, a) →
      IsLeast s.alloc.free f ∧ f ∉ s.outstanding ∧ boot.isUsed f = false ∧
      (∃ m ∈ areas.getD [], m.Covers f) ∧ ∀ r ∈ reservedRanges modules, ¬ Touches r f) ∧
    (∀ a, s.alloc.allocateFrame = (none, a) → ∀ f < s.alloc.numFrames, s.alloc.isUsed f = true) ∧
    (∀ f ∈ s.outstanding, (s.step (.deallocate f)).isSome = true) := by
  have hi : Session.Inv boot s := (Session.Inv.init hnew).run hrun
  refine ⟨fun f a h => ?_, fun a h f hf => ?_, fun f hf => hi.isSome_deallocate hf⟩
  · have hleast := hi.hint.isLeast h
    obtain ⟨hclear, hout⟩ := hi.fresh_of_allocate h
    have hreserved := ((booted_new hnew).clear f).mp hclear
    exact ⟨hleast, hout, hclear, hreserved.2⟩
  · have hempty := hi.hint.free_eq_empty h
    by_contra hclear
    exact Set.eq_empty_iff_forall_notMem.mp hempty f ⟨hf, by simpa using hclear⟩

/-- On a machine with 127 MiB from 1 MiB on, the first frame handed out is the one after the bitmap. When it has been given
back, below the hint, it is handed out again. -/
theorem allocateFrame_first : ∃ boot tr s a, BitmapFrameAllocator.new (some [⟨0x100000, 0x7F00000, 1⟩]) [] = some boot ∧
    Run Session.step ⟨boot, ∅⟩ tr s ∧ tr.map Prod.snd = [.allocate, .allocate, .deallocate 3856] ∧
    s.alloc.allocateFrame = (some 3856, a) ∧ IsLeast s.alloc.free 3856 := by
  have hsome : (BitmapFrameAllocator.new (some [⟨0x100000, 0x7F00000, 1⟩]) []).isSome = true := by
    simp [BitmapFrameAllocator.new, freeUsable, freeAreas, freeArea, alignUp, checkedAdd, markRangeUsed,
      markModules, MemoryArea.isUsable, MemoryArea.endAddr, FRAME_SIZE, BITMAP_ADDR, BITMAP_BITS,
      BITMAP_SIZE, HEAP_START, HEAP_SIZE]
  obtain ⟨boot, hnew⟩ := Option.isSome_iff_exists.mp hsome
  have hclear : boot.isUsed 3856 = false := by
    rw [(booted_new hnew).clear]
    simp [reservedRanges, Touches, MemoryArea.Covers, MemoryArea.isUsable, FRAME_SIZE, BITMAP_ADDR,
      BITMAP_BITS, BITMAP_SIZE, HEAP_START, HEAP_SIZE]
  have hnext : ∀ {tr s}, Run Session.step ⟨boot, ∅⟩ tr s → 3856 ∉ s.outstanding →
      ∃ a, s.alloc.allocateFrame = (some 3856, a) ∧ IsLeast s.alloc.free 3856 := by
    intro tr s hrun hout
    have hi := (Session.Inv.init hnew).run hrun
    have hfree : 3856 ∈ s.alloc.free := by
      refine ⟨hi.numFrames.1 ▸ (booted_new hnew).lt _ hclear, ?_⟩
      rw [← Bool.not_eq_true, hi.isUsed, hclear]
      simp [hout]
    have hspec := allocateFrame_least_of_run hnew hrun
    cases ha : s.alloc.allocateFrame with
    | mk o a =>
      cases o with
      | none => exact absurd (hspec.2.1 a ha 3856 hfree.1) (by simp [hfree.2])
      | some f =>
        obtain ⟨hleast, -, -, -, hreserved⟩ := hspec.1 f a ha
        have hle : f ≤ 3856 := hleast.2 hfree
        have h₁ := hreserved (0, BITMAP_ADDR) (by simp [reservedRanges])
        have h₂ := hreserved (BITMAP_ADDR, BITMAP_ADDR + BITMAP_SIZE) (by simp [reservedRanges])
        obtain rfl : f = 3856 := by
          simp only [Touches, FRAME_SIZE, BITMAP_ADDR, BITMAP_SIZE] at h₁ h₂
          omega
        exact ⟨a, rfl, hleast⟩
  obtain ⟨a₁, ha₁, -⟩ := hnext .nil (Finset.notMem_empty _)
  have hrun₁ : Run Session.step ⟨boot, ∅⟩ [(_, .allocate)] ⟨a₁, {3856}⟩ := Run.nil.snoc (by rw [Session.step, ha₁]; rfl)
  obtain ⟨s₂, hs₂, hmem⟩ : ∃ s₂, Session.step ⟨a₁, {3856}⟩ .allocate = some s₂ ∧ 3856 ∈ s₂.outstanding := by
    rw [Session.step]
    cases a₁.allocateFrame with
    | mk o a => cases o <;> exact ⟨_, rfl, by simp⟩
  have hrun₂ := hrun₁.snoc hs₂
  obtain ⟨s₃, hs₃⟩ := Option.isSome_iff_exists.mp ((allocateFrame_least_of_run hnew hrun₂).2.2 3856 hmem)
  obtain ⟨a₃, -, rfl⟩ := Option.map_eq_some_iff.mp ((if_pos hmem).symm.trans hs₃)
  obtain ⟨a, ha, hleast⟩ := hnext (hrun₂.snoc hs₃) (Finset.notMem_erase _ _)
  exact ⟨boot, _, _, a, hnew, hrun₂.snoc hs₃, rfl, ha, hleast⟩

end RustKernel.Memory
