import RustKernel.Memory.BootMap
import RustKernel.Memory.Paging

/-!
# The frames the kernel can reach

`allocate_frame` zeroes the frame it returns, at its physical address: the boot tables map the first GiB there, and nothing
else. The bitmap of the frame allocator covers the first two.
-/

namespace RustKernel.Memory

open Lib

/-- A frame that is free is handed out in time, if nothing is given back. -/
theorem Session.Inv.exists_run {boot : BitmapFrameAllocator} {s : Session} {f : ℕ} (hi : Session.Inv boot s)
    (hf : f ∈ s.alloc.free) : ∃ tr s' a, Run Session.step s tr s' ∧ s'.alloc.allocateFrame = (some f, a) := by
  -- the hint moves towards the frame
  induction hn : f - s.alloc.nextFree using Nat.strongRecOn generalizing s with
  | ind n ih =>
    cases ha : s.alloc.allocateFrame with
    | mk o a =>
      cases o with
      | none =>
        rw [hi.hint.free_eq_empty ha] at hf
        exact hf.elim
      | some g =>
        rcases ((hi.hint.isLeast ha).2 hf).eq_or_lt with rfl | hlt
        · exact ⟨[], s, a, .nil, ha⟩
        have hi' := hi.allocate ha
        have hstep : s.step .allocate = some ⟨a, insert g s.outstanding⟩ := by rw [Session.step, ha]
        obtain ⟨⟨hnext, -⟩, rfl⟩ := BitmapFrameAllocator.allocateFrame_some ha
        have hf' : f ∈ BitmapFrameAllocator.free
            { s.alloc with bitmap := bitSet s.alloc.bitmap g, nextFree := g + 1, used := s.alloc.used + 1 } := by
          refine ⟨hf.1, ?_⟩
          rw [BitmapFrameAllocator.isUsed, bitGet_bitSet, Bool.or_eq_false_iff]
          exact ⟨decide_eq_false (by omega), hf.2⟩
        obtain ⟨tr, s', a', hrun, h⟩ := ih (f - (g + 1)) (by omega) hi' hf' rfl
        exact ⟨_, s', a', (Run.nil.snoc hstep).append hrun, h⟩

/-- **Every frame is in reach**, after any use of the allocator, exactly if every frame of usable memory between 1 GiB and
2 GiB is reserved. -/
theorem frames_reachable {areas : Option (List MemoryArea)} {modules : List Module} {boot : BitmapFrameAllocator}
    (hnew : BitmapFrameAllocator.new areas modules = some boot) :
    (∀ tr s, Run Session.step ⟨boot, ∅⟩ tr s → (∀ f a, s.alloc.allocateFrame = (some f, a) → f < IDENTITY_FRAMES) ∧
      ∀ m : PhysMem, m.frames = s.alloc → allocateFrame (ε := Empty) m ≠ .diverge) ↔
    ∀ f, IDENTITY_FRAMES ≤ f → f < BITMAP_BITS → (∃ m ∈ areas.getD [], m.Covers f) →
      ∃ r ∈ reservedRanges modules, Touches r f := by
  have hb := booted_new hnew
  constructor
  · intro h f hge hlt hcovers
    by_contra hnone
    have hclear : boot.isUsed f = false := (hb.clear f).mpr ⟨hlt, hcovers, fun r hr ht => hnone ⟨r, hr, ht⟩⟩
    obtain ⟨tr, s, a, hrun, ha⟩ := (Session.Inv.init hnew).exists_run ⟨hb.lt f hclear, hclear⟩
    exact absurd ((h tr s hrun).1 f a ha) (Nat.not_lt.mpr hge)
  · intro h tr s hrun
    have hreach : ∀ f a, s.alloc.allocateFrame = (some f, a) → f < IDENTITY_FRAMES := by
      intro f a ha
      obtain ⟨hlt, hcovers, hfree⟩ := (hb.clear f).mp (((Session.Inv.init hnew).run hrun).fresh_of_allocate ha).1
      by_contra hge
      obtain ⟨r, hr, ht⟩ := h f (Nat.not_lt.mp hge) hlt hcovers
      exact hfree r hr ht
    refine ⟨hreach, fun m hm => ?_⟩
    unfold allocateFrame
    rw [hm]
    cases ha : s.alloc.allocateFrame with
    | mk o a =>
      cases o with
      | none => exact nofun
      | some f =>
        dsimp only
        rw [if_pos (hreach f a ha)]
        exact nofun

/-- With 1023 MiB from 1 MiB on, and a GiB from 4 GiB on, which the bitmap does not cover. -/
theorem frames_reachable_gib : ∃ boot, BitmapFrameAllocator.new (some [⟨0x100000, 0x3FF00000, 1⟩, ⟨0x100000000, 0x40000000, 1⟩])
    [] = some boot ∧ ∀ f a, boot.allocateFrame = (some f, a) → f < IDENTITY_FRAMES := by
  have hsome : (BitmapFrameAllocator.new (some [⟨0x100000, 0x3FF00000, 1⟩, ⟨0x100000000, 0x40000000, 1⟩]) []).isSome = true :=
    new_isSome (by decide) (by decide)
  obtain ⟨boot, hnew⟩ := Option.isSome_iff_exists.mp hsome
  refine ⟨boot, hnew, ((frames_reachable hnew).mpr (fun f hge hlt hcovers => ?_) [] _ .nil).1⟩
  simp only [Option.getD_some, List.mem_cons, List.not_mem_nil, or_false, exists_eq_or_imp, exists_eq_left,
    MemoryArea.Covers, FRAME_SIZE, IDENTITY_FRAMES, BITMAP_BITS, BITMAP_SIZE] at *
  omega

/-- **A frame out of reach**: the usable memory of the map is one frame at 1 GiB. It is returned, and the kernel faults when it
zeroes it. -/
theorem frame_out_of_reach : ∃ boot a, BitmapFrameAllocator.new (some [⟨0x40000000, 4096, 1⟩]) [] = some boot ∧
    boot.allocateFrame = (some IDENTITY_FRAMES, a) ∧
    ∀ m : PhysMem, m.frames = boot → allocateFrame (ε := Empty) m = .diverge := by
  have hsome : (BitmapFrameAllocator.new (some [⟨0x40000000, 4096, 1⟩]) []).isSome = true := new_isSome (by decide) (by decide)
  obtain ⟨boot, hnew⟩ := Option.isSome_iff_exists.mp hsome
  have hb := booted_new hnew
  have hclear : ∀ f, boot.isUsed f = false ↔ f = IDENTITY_FRAMES := by
    intro f
    rw [hb.clear]
    simp [reservedRanges, Touches, MemoryArea.Covers, MemoryArea.isUsable, FRAME_SIZE, BITMAP_ADDR, BITMAP_BITS, BITMAP_SIZE,
      HEAP_START, HEAP_SIZE, IDENTITY_FRAMES]
    omega
  have hint := (Session.Inv.init hnew).hint
  cases ha : boot.allocateFrame with
  | mk o a =>
    cases o with
    | none =>
      have hfree : IDENTITY_FRAMES ∈ boot.free := ⟨hb.lt _ ((hclear _).mpr rfl), (hclear _).mpr rfl⟩
      rw [hint.free_eq_empty ha] at hfree
      exact hfree.elim
    | some f =>
      obtain rfl := (hclear f).mp (hint.isLeast ha).1.2
      refine ⟨boot, a, hnew, ha, fun m hm => ?_⟩
      unfold allocateFrame
      rw [hm, ha]
      exact if_neg (lt_irrefl _)

end RustKernel.Memory
