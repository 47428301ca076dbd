import Mathlib.Order.Lattice.Nat
import RustKernel.Memory.FrameAllocator

/-!
# The memory map at boot

`BitmapFrameAllocator::new` against the memory map it is given. `booted_new` says which bits it leaves clear; here are the
rest of what it computes, `num_frames` and `used`, and that it does not overflow on a map of addresses a page below 2^64.
-/

namespace RustKernel.Memory

open Lib
open Option (isSome_iff_exists bind_eq_bind bind_some bind_eq_some_iff)

variable {areas : List MemoryArea} {modules : List Module} {f : ℕ} {a : BitmapFrameAllocator} {area : MemoryArea}

instance (m : MemoryArea) (f : ℕ) : Decidable (m.Covers f) := inferInstanceAs (Decidable (_ ∧ _))

@[irreducible]
def usableFrames (areas : List MemoryArea) : Finset ℕ := (Finset.range BITMAP_BITS).filter fun f => ∃ m ∈ areas, m.Covers f

def Reserved (modules : List Module) (x : ℕ) : Prop :=
  x < BITMAP_ADDR + BITMAP_SIZE ∨ (HEAP_START ≤ x ∧ x < HEAP_START + HEAP_SIZE) ∨ ∃ m ∈ modules, m.1 ≤ x ∧ x < m.1 + m.2

theorem mem_usableFrames : f ∈ usableFrames areas ↔ f < BITMAP_BITS ∧ ∃ m ∈ areas, m.Covers f := by
  rw [usableFrames, Finset.mem_filter, Finset.mem_range]

@[irreducible]
def BitmapFrameAllocator.freeFrames (a : BitmapFrameAllocator) : Finset ℕ :=
  (Finset.range BITMAP_BITS).filter fun f => a.isUsed f = false

theorem BitmapFrameAllocator.mem_freeFrames : f ∈ a.freeFrames ↔ f < BITMAP_BITS ∧ a.isUsed f = false := by
  rw [freeFrames, Finset.mem_filter, Finset.mem_range]

/-! ### The areas -/

theorem alignUp_isSome {a : ℕ} (h : a < 2 ^ 64 - 4096) : (alignUp a).isSome = true := by
  rw [alignUp, checkedAdd, if_pos (by unfold FRAME_SIZE; omega)]
  rfl

theorem freeArea_isSome (bm : Bitmap) (n : ℕ) (h : area.baseAddr + area.length < 2 ^ 64 - 4096) :
    (freeArea bm n area).isSome = true := by
  unfold freeArea
  split_ifs with hu
  · rfl
  · obtain ⟨start, hstart⟩ := isSome_iff_exists.mp (alignUp_isSome (a := area.baseAddr) (by omega))
    have hstop : area.endAddr = some (area.baseAddr + area.length) := if_pos (by omega)
    simp only [hstart, hstop, bind_eq_bind, bind_some]
    split_ifs <;> rfl

theorem freeAreas_isSome (h : ∀ m ∈ areas, m.baseAddr + m.length < 2 ^ 64 - 4096)
    (bm : Bitmap) (n : ℕ) : (freeAreas bm n areas).isSome = true := by
  induction areas generalizing bm n with
  | nil => rfl
  | cons area areas ih =>
    obtain ⟨⟨bm', n'⟩, hfree⟩ := isSome_iff_exists.mp (freeArea_isSome bm n (h area List.mem_cons_self))
    rw [freeAreas, hfree]
    exact ih (fun m hm => h m (List.mem_cons_of_mem _ hm)) bm' n'

theorem numFrames_freeArea {bm bm' : Bitmap} {n n' k : ℕ} (h : freeArea bm n area = some (bm', n')) :
    n' ≤ k ↔ n ≤ k ∧ ∀ f < BITMAP_BITS, area.Covers f → f < k := by
  unfold freeArea at h
  by_cases hu : area.isUsable = true
  · simp only [hu, Bool.not_true, Bool.false_eq_true, if_false, bind_eq_bind, bind_eq_some_iff] at h
    obtain ⟨start, hstart, stop, hstop, h⟩ := h
    have hstart := alignUp_eq_some hstart
    have hstop : stop = area.baseAddr + area.length := checkedAdd_eq_some hstop
    have hcov : ∀ f, f < BITMAP_BITS → (area.Covers f ↔ start / FRAME_SIZE ≤ f ∧ f < min (stop / FRAME_SIZE) BITMAP_BITS) := by
      simp only [MemoryArea.Covers, hu, true_and, FRAME_SIZE] at *
      omega
    have hle : min (stop / FRAME_SIZE) BITMAP_BITS ≤ BITMAP_BITS := Nat.min_le_right ..
    generalize start / FRAME_SIZE = first, min (stop / FRAME_SIZE) BITMAP_BITS = last at h hcov hle
    have hframes : (∀ f < BITMAP_BITS, area.Covers f → f < k) ↔ (first < last → last ≤ k) := by
      constructor
      · intro hall hne
        have hlast := hall (last - 1) (by omega) ((hcov _ (by omega)).mpr (by omega))
        omega
      · intro hlast f hlt hf
        have := (hcov f hlt).mp hf
        omega
    rw [hframes]
    split_ifs at h with hfirst
    · cases h
      omega
    · rw [Option.some.injEq, Prod.ext_iff] at h
      obtain ⟨-, rfl⟩ := h
      rw [clearFrames_snd]
      split_ifs <;> omega
  · simp only [hu] at h
    obtain ⟨-, rfl⟩ := h
    have hnot : ∀ f, ¬ area.Covers f := fun f hc => hu hc.1
    simp [hnot]

theorem numFrames_freeAreas {bm bm' : Bitmap} {n n' k : ℕ}
    (h : freeAreas bm n areas = some (bm', n')) : n' ≤ k ↔ n ≤ k ∧ ∀ f ∈ usableFrames areas, f < k := by
  induction areas generalizing bm n with
  | nil =>
    cases h
    simp [mem_usableFrames]
  | cons area areas ih =>
    simp only [freeAreas, bind_eq_bind, bind_eq_some_iff, Prod.exists] at h
    obtain ⟨bm₁, n₁, h₁, h⟩ := h
    rw [ih h, numFrames_freeArea h₁]
    simp only [mem_usableFrames]
    grind

/-! ### Counting -/

structure Counted (n total : ℕ) (a : BitmapFrameAllocator) : Prop where
  numFrames : a.numFrames = n
  count : a.used + a.freeFrames.card = total

section

variable {n total : ℕ} {a a' : BitmapFrameAllocator}

theorem Counted.mark {f : ℕ} (h : Counted n total a) (hf : f < BITMAP_BITS) (hclear : a.isUsed f = false) :
    Counted n total { a with bitmap := bitSet a.bitmap f, used := a.used + 1 } := by
  have hmem : f ∈ a.freeFrames := BitmapFrameAllocator.mem_freeFrames.mpr ⟨hf, hclear⟩
  have herase : BitmapFrameAllocator.freeFrames { a with bitmap := bitSet a.bitmap f, used := a.used + 1 } =
      a.freeFrames.erase f := by
    ext g
    rw [Finset.mem_erase, BitmapFrameAllocator.mem_freeFrames, BitmapFrameAllocator.mem_freeFrames]
    simp only [BitmapFrameAllocator.isUsed, bitGet_bitSet, Bool.or_eq_false_iff, decide_eq_false_iff_not]
    tauto
  refine ⟨h.numFrames, ?_⟩
  have hcount := h.count
  have hcard := Finset.card_erase_add_one hmem
  rw [herase]
  dsimp only
  omega

theorem Counted.markFrames {k : ℕ} : ∀ {a : BitmapFrameAllocator} {f : ℕ}, Counted n total a → f + k ≤ BITMAP_BITS →
    Counted n total (markFrames a f k) := by
  induction k with
  | zero => exact fun h _ => h
  | succ k ih =>
    intro a f h hle
    refine ih ?_ (by omega)
    cases hf : bitGet a.bitmap f with
    | true => exact h
    | false => exact h.mark (by omega) hf

theorem Counted.markRangeUsed {r : ℕ × ℕ} (h : Counted n total a) (hm : markRangeUsed a r = some a') : Counted n total a' := by
  simp only [Memory.markRangeUsed, bind_eq_bind, bind_eq_some_iff, Option.some.injEq] at hm
  obtain ⟨stop, -, rfl⟩ := hm
  by_cases hempty : min (stop / FRAME_SIZE) BITMAP_BITS ≤ r.1 / FRAME_SIZE
  · rw [Nat.sub_eq_zero_of_le hempty]
    exact h
  · exact h.markFrames (by omega)

theorem Counted.markModules (h : Counted n total a) (hm : markModules a modules = some a') : Counted n total a' := by
  induction modules generalizing a with
  | nil =>
    cases hm
    exact h
  | cons m modules ih =>
    simp only [Memory.markModules, bind_eq_bind, bind_eq_some_iff] at hm
    obtain ⟨stop, -, a₁, h₁, hm⟩ := hm
    exact ih (h.markRangeUsed h₁) hm

theorem counted_new
    (h : BitmapFrameAllocator.new (some areas) modules = some a) :
    Counted ((usableFrames areas).sup (· + 1)) (usableFrames areas).card a := by
  simp only [BitmapFrameAllocator.new, bind_eq_bind, bind_eq_some_iff, Prod.exists] at h
  obtain ⟨bm, n, hfree, a₁, h₁, a₂, h₂, a₃, h₃, a₄, h₄, hm⟩ := h
  have hfreed : Freed areas bm n := by simpa using freed_nil.freeAreas hfree
  have hcount : Counted ((usableFrames areas).sup (· + 1)) (usableFrames areas).card
      { bitmap := bm, numFrames := n, nextFree := 0, used := 0 } := by
    constructor
    · refine eq_of_forall_ge_iff fun k => ?_
      rw [Finset.sup_le_iff, numFrames_freeAreas hfree]
      exact and_iff_right (Nat.zero_le k)
    · rw [Nat.zero_add]
      congr 1
      ext f
      rw [BitmapFrameAllocator.mem_freeFrames, mem_usableFrames]
      exact ⟨fun hf => (hfreed.clear f).mp hf.2, fun hf => ⟨hf.1, (hfreed.clear f).mpr hf⟩⟩
  exact ((((hcount.markRangeUsed h₁).markRangeUsed h₂).markRangeUsed h₃).markRangeUsed h₄).markModules hm

end

theorem Session.Inv.count {boot : BitmapFrameAllocator} {s : Session} (hi : Session.Inv boot s) :
    s.alloc.used + s.alloc.freeFrames.card = boot.used + boot.freeFrames.card := by
  have hsub : s.outstanding ⊆ boot.freeFrames := by
    intro f hf
    obtain ⟨hlt, hclear⟩ := hi.fresh f hf
    exact BitmapFrameAllocator.mem_freeFrames.mpr ⟨lt_of_lt_of_le hlt hi.numFrames.2, hclear⟩
  have hfree : s.alloc.freeFrames = boot.freeFrames \ s.outstanding := by
    ext f
    have hused := hi.isUsed f
    rw [Finset.mem_sdiff, BitmapFrameAllocator.mem_freeFrames, BitmapFrameAllocator.mem_freeFrames, ← Bool.not_eq_true,
      ← Bool.not_eq_true, hused]
    tauto
  have hcard := Finset.card_le_card hsub
  rw [hfree, Finset.card_sdiff_of_subset hsub, hi.used]
  omega

/-! ### No overflow -/

theorem markRangeUsed_isSome {r : ℕ × ℕ} (h : r.2 < 2 ^ 64 - 4096) : (markRangeUsed a r).isSome = true := by
  obtain ⟨stop, hstop⟩ := isSome_iff_exists.mp (alignUp_isSome h)
  rw [markRangeUsed, hstop]
  rfl

theorem markModules_isSome (h : ∀ m ∈ modules, m.1 + m.2 < 2 ^ 64 - 4096) (a : BitmapFrameAllocator) :
    (markModules a modules).isSome = true := by
  induction modules generalizing a with
  | nil => rfl
  | cons m modules ih =>
    have hm := h m List.mem_cons_self
    have hstop : checkedAdd m.1 m.2 = some (m.1 + m.2) := if_pos (by omega)
    obtain ⟨a', ha⟩ := isSome_iff_exists.mp (markRangeUsed_isSome (a := a) (r := (m.1, m.1 + m.2)) hm)
    rw [markModules, hstop, bind_eq_bind, bind_some, ha]
    exact ih (fun m hm => h m (List.mem_cons_of_mem _ hm)) a'

theorem new_isSome (hareas : ∀ m ∈ areas, m.baseAddr + m.length < 2 ^ 64 - 4096)
    (hmodules : ∀ m ∈ modules, m.1 + m.2 < 2 ^ 64 - 4096) : (BitmapFrameAllocator.new (some areas) modules).isSome = true := by
  have hmark : ∀ (a : BitmapFrameAllocator) (r : ℕ × ℕ), r.2 < 2 ^ 64 - 4096 → ∃ a', markRangeUsed a r = some a' :=
    fun a r hr => isSome_iff_exists.mp (markRangeUsed_isSome hr)
  obtain ⟨⟨bm, n⟩, hfree⟩ := isSome_iff_exists.mp (freeAreas_isSome hareas (fun _ => 0xff#8) 0)
  obtain ⟨a₁, h₁⟩ := hmark { bitmap := bm, numFrames := n, nextFree := 0, used := 0 } (0, BITMAP_ADDR) (by simp [BITMAP_ADDR])
  obtain ⟨a₂, h₂⟩ := hmark a₁ (BITMAP_ADDR, BITMAP_ADDR + BITMAP_SIZE) (by simp [BITMAP_ADDR, BITMAP_SIZE])
  obtain ⟨a₃, h₃⟩ := hmark a₂ (HEAP_START, HEAP_START + HEAP_SIZE) (by simp [HEAP_START, HEAP_SIZE])
  obtain ⟨a₄, h₄⟩ := hmark a₃ (0, 0) (by simp)
  have hbind : ∀ {α β : Type} {x : Option α} {a : α} {f : α → Option β}, x = some a → (f a).isSome = true →
      (x >>= f).isSome = true := by
    rintro α β x a f rfl h
    exact h
  exact hbind hfree (hbind h₁ (hbind h₂ (hbind h₃ (hbind h₄ (markModules_isSome hmodules a₄)))))

theorem not_touches_iff (hne : ∀ m ∈ modules, 0 < m.2) (f : ℕ) :
    (∀ r ∈ reservedRanges modules, ¬ Touches r f) ↔ ∀ x, x / FRAME_SIZE = f → ¬ Reserved modules x := by
  constructor
  · rintro h x rfl (hx | hx | ⟨m, hm, hx⟩)
    · by_cases hlow : x < BITMAP_ADDR
      · exact h (0, BITMAP_ADDR) (by simp [reservedRanges]) (by unfold Touches FRAME_SIZE; omega)
      · exact h (BITMAP_ADDR, BITMAP_ADDR + BITMAP_SIZE) (by simp [reservedRanges]) (by unfold Touches FRAME_SIZE; omega)
    · exact h (HEAP_START, HEAP_START + HEAP_SIZE) (by simp [reservedRanges]) (by unfold Touches FRAME_SIZE; omega)
    · refine h (m.1, m.1 + m.2) ?_ (by unfold Touches FRAME_SIZE; omega)
      exact List.mem_append_right _ (List.mem_map.mpr ⟨m, hm, rfl⟩)
  · intro h r hr htouch
    -- the first address of the range that is in the frame
    have haddr : r.1 < r.2 → max r.1 (f * FRAME_SIZE) / FRAME_SIZE = f ∧ r.1 ≤ max r.1 (f * FRAME_SIZE) ∧
        max r.1 (f * FRAME_SIZE) < r.2 := by
      unfold Touches FRAME_SIZE at *
      omega
    simp only [reservedRanges, List.mem_append, List.mem_cons, List.not_mem_nil, or_false, List.mem_map] at hr
    rcases hr with (rfl | rfl | rfl | rfl) | ⟨m, hm, rfl⟩
    · obtain ⟨hf, -, hx⟩ := haddr (by decide)
      exact h _ hf (.inl (lt_of_lt_of_le hx (by decide)))
    · obtain ⟨hf, -, hx⟩ := haddr (by decide)
      exact h _ hf (.inl hx)
    · obtain ⟨hf, hx⟩ := haddr (by decide)
      exact h _ hf (.inr (.inl hx))
    · exact absurd htouch.2 (Nat.not_lt_zero _)
    · obtain ⟨hf, hx⟩ := haddr (Nat.lt_add_of_pos_right (hne m hm))
      exact h _ hf (.inr (.inr ⟨m, hm, hx⟩))

/-- **The memory map is honoured exactly.** -/
theorem memory_map_honoured
    (hareas : ∀ m ∈ areas, m.baseAddr + m.length < 2 ^ 64 - 4096)
    (hmodules : ∀ m ∈ modules, 0 < m.2 ∧ m.1 + m.2 < 2 ^ 64 - 4096) :
    ∃ boot, BitmapFrameAllocator.new (some areas) modules = some boot ∧
      (∀ f, boot.isUsed f = false ↔ (∃ m ∈ areas, m.Covers f) ∧ f < BITMAP_BITS ∧
        ∀ x, x / FRAME_SIZE = f → ¬ Reserved modules x) ∧
      boot.numFrames = (usableFrames areas).sup (· + 1) ∧
      boot.used + boot.freeFrames.card = (usableFrames areas).card ∧
      ∀ tr s, Run Session.step ⟨boot, ∅⟩ tr s → s.alloc.used + s.alloc.freeFrames.card = (usableFrames areas).card := by
  obtain ⟨boot, hnew⟩ := Option.isSome_iff_exists.mp (new_isSome hareas fun m hm => (hmodules m hm).2)
  have hcount := counted_new hnew
  refine ⟨boot, hnew, fun f => ?_, hcount.numFrames, hcount.count, fun tr s hrun => ?_⟩
  · rw [(booted_new hnew).clear f, not_touches_iff fun m hm => (hmodules m hm).1]
    exact and_left_comm
  · rw [((Session.Inv.init hnew).run hrun).count, hcount.count]

/-- A map of two overlapping areas, the second of them first, and a module. -/
theorem memory_map_honoured_overlap : ∃ boot,
    BitmapFrameAllocator.new (some [⟨0x4000000, 0x100800, 1⟩, ⟨0x100000, 0x4000000, 1⟩, ⟨0, 0x100000, 2⟩]) [(0x3000000, 5)] =
      some boot ∧ boot.isUsed 0x3000 = true ∧ boot.isUsed 0x3001 = false ∧ boot.numFrames = 0x4100 := by
  have hareas : ∀ m ∈ ([⟨0x4000000, 0x100800, 1⟩, ⟨0x100000, 0x4000000, 1⟩, ⟨0, 0x100000, 2⟩] : List MemoryArea),
      m.baseAddr + m.length < 2 ^ 64 - 4096 := by decide
  have hmodules : ∀ m ∈ ([(0x3000000, 5)] : List Module), 0 < m.2 ∧ m.1 + m.2 < 2 ^ 64 - 4096 := by decide
  obtain ⟨boot, hnew, hfree, hnum, -⟩ := memory_map_honoured hareas hmodules
  refine ⟨boot, hnew, ?_, (hfree _).mpr ⟨⟨_, .tail _ (.head _), by decide⟩, by decide, ?_⟩, ?_⟩
  · rw [← Bool.not_eq_false, hfree]
    rintro ⟨-, -, hx⟩
    exact hx 0x3000000 rfl (.inr (.inr ⟨_, List.mem_cons_self, by decide⟩))
  · rintro x hx (h | h | ⟨m, hm, h⟩)
    · simp only [FRAME_SIZE, BITMAP_ADDR, BITMAP_SIZE] at *
      omega
    · simp only [FRAME_SIZE, HEAP_START, HEAP_SIZE] at *
      omega
    · rw [List.mem_singleton] at hm
      subst hm
      simp only [FRAME_SIZE] at *
      omega
  · rw [hnum]
    refine le_antisymm (Finset.sup_le fun f hf => ?_) ?_
    · obtain ⟨-, m, hm, hcov⟩ := mem_usableFrames.mp hf
      simp only [List.mem_cons, List.not_mem_nil, or_false] at hm
      rcases hm with rfl | rfl | rfl
      all_goals
        simp only [MemoryArea.Covers, FRAME_SIZE] at hcov
        omega
    · have hlast : 0x40ff ∈ usableFrames [⟨0x4000000, 0x100800, 1⟩, ⟨0x100000, 0x4000000, 1⟩, ⟨0, 0x100000, 2⟩] :=
        mem_usableFrames.mpr ⟨by decide, _, List.mem_cons_self, by decide⟩
      exact Finset.le_sup (f := (· + 1)) hlast

end RustKernel.Memory
