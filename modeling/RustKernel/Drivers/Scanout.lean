import RustKernel.Drivers.Fb

/-!
# What reaches the screen

`Fb` without frames: the calls that draw, `commit` and `present` in any order, and the other backend of `present`, which copies
to the memory of a virtio GPU.
-/

namespace RustKernel.Display

open Lib Exec Lib.Raster

variable {g : Geometry} {font : ℕ → ℕ → BitVec 8}

/-! ### Calls in any order -/

inductive FbCall where
  | draw (d : Draw)
  | commit
  | present

namespace FbCall

variable (g font)

def exec : FbCall → Exec Empty (Fb g) Unit
  | .draw d => d.exec g font
  | .commit => Display.commit
  | .present => Display.present

def track (p : Pictures) : FbCall → Pictures
  | .draw d => { p with drawn := d.paint g font p.drawn }
  | .commit => { p with committed := p.drawn }
  | .present => p

def thenPresent (calls : List FbCall) : Exec Empty (Fb g) Unit := do
  calls.forM (exec g font)
  Display.present

end FbCall

def Covers (fb : Fb g) : Prop :=
  fb.dirty.any = true → fb.frameReady = true → fb.dirty.x0 ≤ fb.readyDirty.x0 ∧ fb.readyDirty.x1 ≤ fb.dirty.x1 ∧
    fb.dirty.y0 ≤ fb.readyDirty.y0 ∧ fb.readyDirty.y1 ≤ fb.dirty.y1
deriving Decidable

theorem Covers.has {fb : Fb g} {x y : ℕ} (h : Covers fb) (hany : fb.dirty.any = true) (hready : fb.frameReady = true)
    (hhas : fb.readyDirty.Has x y) : fb.dirty.Has x y := by
  have := h hany hready
  unfold DirtyRect.Has at *
  exact ⟨hany, by omega⟩

namespace Held

variable {fb : Fb g} {p : Pictures}

theorem exec {c : FbCall} (h : Held fb p) (hvalid : ∀ d, c = .draw d → d.Valid g) (hcovers : c = .commit → Covers fb) :
    (c.exec g font fb).Returns fun _ fb' => Held fb' (FbCall.track g font p c) := by
  cases c with
  | draw d => exact (h.draw (hvalid d rfl)).imp fun _ _ h' => h'.1
  | commit =>
    exact h.commit fun hany x y hx hy hnot => h.front x y hx hy fun hwait => hnot ((hcovers rfl).has hany hwait.1 hwait.2)
  | present => exact h.present.imp fun _ _ h' => h'.1

end Held

theorem Held.calls {calls : List FbCall} (hvalid : ∀ d, .draw d ∈ calls → d.Valid g) {fb : Fb g} {p : Pictures} (h : Held fb p)
    (hcovers : ∀ n, calls[n]? = some .commit → ((calls.take n).forM (FbCall.exec g font) fb).Returns fun _ => Covers) :
    (calls.forM (FbCall.exec g font) fb).Returns fun _ fb' => Held fb' (calls.foldl (FbCall.track g font) p) := by
  induction calls generalizing fb p with
  | nil => exact returns_pure h
  | cons c calls ih =>
    have hfirst : c = .commit → Covers fb := by
      rintro rfl
      obtain ⟨_, _, heq, hfb⟩ := hcovers 0 rfl
      cases heq
      exact hfb
    obtain ⟨_, fb₁, heq, h₁⟩ := h.exec (fun d hd => hvalid d (hd ▸ List.mem_cons_self)) hfirst
    have hbind : ∀ rest : List FbCall, (c :: rest).forM (FbCall.exec g font) fb = rest.forM (FbCall.exec g font) fb₁ :=
      fun rest => bind_of_ok heq
    rw [hbind]
    refine ih (fun d hd => hvalid d (List.mem_cons_of_mem _ hd)) h₁ fun n hn => ?_
    rw [← hbind]
    exact hcovers (n + 1) hn

/-- **After each `present` the screen shows what was committed last**, whatever the order of the calls before it, if no
`commit` replaces a rectangle that is waiting by one that does not cover it. -/
theorem present_shows_committed {fb : Fb g} {img : Image} (calls : List FbCall)
    (hvalid : ∀ d, .draw d ∈ calls → d.Valid g) (hfront : ShowsImage g fb.front img)
    (hpresent : ShowsImage g fb.presentBuf img) (hback : ShowsImage g fb.back img)
    (hcovers : ∀ n, calls[n]? = some .commit →
      ((calls.take n).forM (FbCall.exec g font) fb).Returns fun _ => Covers) :
    (FbCall.thenPresent g font calls fb).Returns fun _ fb' =>
      ShowsImage g fb'.front (calls.foldl (FbCall.track g font) ⟨img, img⟩).committed := by
  exact returns_bind ((Held.start hfront hpresent hback).calls hvalid hcovers) fun _ _ h => h.present.imp fun _ _ h' => h'.2

/-- Two commits, the second of which covers the first. -/
theorem present_shows_committed_tiny :
    (FbCall.thenPresent tiny (fun _ _ => 0) [.draw (.putPixel 0 0 7), .commit, .draw (.clear 9), .commit]
      (black tiny)).Returns fun _ fb' => tiny.pixel fb'.front 0 0 = 9 ∧ tiny.pixel fb'.front 1 1 = 9 := by
  have hblack : ShowsImage tiny (fun _ => 0) fun _ _ => 0 := fun _ _ _ _ => rfl
  refine (present_shows_committed _ ?_ hblack hblack hblack ?_).imp fun _ fb' h => ⟨?_, ?_⟩
  · rintro d hd
    simp only [List.mem_cons, FbCall.draw.injEq, reduceCtorEq, List.not_mem_nil, or_false, false_or] at hd
    rcases hd with rfl | rfl <;> trivial
  · intro n hn
    rcases n with _ | _ | _ | _ | n
    · cases hn
    · decide +kernel
    · cases hn
    · decide +kernel
    · cases hn
  · exact (h 0 0 (by decide) (by decide)).trans (by decide)
  · exact (h 1 1 (by decide) (by decide)).trans (by decide)

/-- **The second `commit` makes `present` skip a region**: the pixel (0, 0) was committed as 7 and is still black after
`present`. -/
theorem second_commit_skips :
    (FbCall.thenPresent tiny (fun _ _ => 0) [.draw (.putPixel 0 0 7), .commit, .draw (.putPixel 1 1 9), .commit]
      (black tiny)).Returns fun _ fb' => tiny.pixel fb'.front 0 0 = 0 ∧ tiny.pixel fb'.front 1 1 = 9 ∧
        ([.draw (.putPixel 0 0 7), .commit, .draw (.putPixel 1 1 9), .commit].foldl
          (FbCall.track tiny fun _ _ => 0) ⟨fun _ _ => 0, fun _ _ => 0⟩).committed 0 0 = 7 := by
  decide +kernel

/-! ### The GPU -/

structure Gpu where
  width : ℕ
  height : ℕ
  fb : ℕ → Colour
  copies : List (ℕ × ℕ) := []

def presentVirtioGpu (src : Fb g) : Exec Empty Gpu Unit := do
  let d := src.readyDirty
  let w ← sub d.x1 d.x0
  let h ← sub d.y1 d.y0
  if w = 0 ∨ h = 0 then pure ()
  else
    let gpu ← get
    let dstW := gpu.width
    forRange d.y0 d.y1 fun y => do
      let row ← mul 32 y g.pitch
      let len ← sub d.x1 d.x0
      let srcOff := row + d.x0
      let dstOff := y * dstW + d.x0
      modify fun gpu => { gpu with
        fb := fun i => if dstOff ≤ i ∧ i < dstOff + len then src.presentBuf (srcOff + (i - dstOff)) else gpu.fb i
        copies := gpu.copies ++ [(dstOff, len)] }
      pure true

def BootCombines (multiboot : Option Geometry) (gpu : Gpu) (g : Geometry) : Prop :=
  match multiboot with
  | some m => g = m
  | none => g.width = gpu.width ∧ g.height = gpu.height ∧ g.pitch = gpu.width

/-- **The copy puts every pixel in its place**, and it stays within the GPU's framebuffer exactly if the rectangle is empty or
its last row ends there. -/
theorem presentVirtioGpu_inside {gpu : Gpu} (hcopies : gpu.copies = []) (src : Fb g) :
    (presentVirtioGpu src gpu).Returns fun _ gpu' =>
      ((∀ c ∈ gpu'.copies, c.1 + c.2 ≤ gpu.width * gpu.height) ↔
        (src.readyDirty.x0 < src.readyDirty.x1 → src.readyDirty.y0 < src.readyDirty.y1 →
          (src.readyDirty.y1 - 1) * gpu.width + src.readyDirty.x1 ≤ gpu.width * gpu.height)) ∧
      ∀ x y, src.readyDirty.x0 ≤ x → x < src.readyDirty.x1 → src.readyDirty.y0 ≤ y → y < src.readyDirty.y1 →
        x < gpu.width → gpu'.fb (y * gpu.width + x) = g.pixel src.presentBuf x y := by
  have hx0 := src.readyDirty.x0_le
  have hy1 := src.readyDirty.y1_le
  unfold presentVirtioGpu
  rw [sub_of_le hx0, pure_bind, sub_of_le src.readyDirty.y0_le, pure_bind]
  split_ifs with hempty
  · refine returns_pure ⟨iff_of_true (by rw [hcopies]; exact fun _ h => (nomatch h)) fun _ _ => by omega, fun x y h₁ h₂ h₃ h₄ => ?_⟩
    omega
  -- the rows above `y` have been copied; a row that is too long runs into the rows below it only
  refine returns_forRange (I := fun y gpu₁ => ∃ b cs, gpu₁ = { gpu with fb := b, copies := cs } ∧
    (∀ c, c ∈ cs ↔ ∃ y', src.readyDirty.y0 ≤ y' ∧ y' < y ∧
      c = (y' * gpu.width + src.readyDirty.x0, src.readyDirty.x1 - src.readyDirty.x0)) ∧
    ∀ x' y', src.readyDirty.Rows y x' y' → x' < gpu.width → b (y' * gpu.width + x') = g.pixel src.presentBuf x' y')
    src.readyDirty.y0_le
    ⟨gpu.fb, [], by rw [← hcopies], fun c => by simp; omega, fun x' y' h => by unfold DirtyRect.Rows at h; omega⟩ ?_ ?_
  · rintro y _ hlo hhi ⟨b, cs, rfl, hcs, hb⟩
    rw [mul_row (lt_of_lt_of_le hhi hy1), pure_bind, pure_bind]
    refine ⟨true, _, rfl, _, _, rfl, fun c => ?_, fun x' y' hrows hx' => ?_⟩
    · rw [List.mem_append, hcs, List.mem_singleton]
      constructor
      · rintro (⟨y', h₁, h₂, rfl⟩ | rfl)
        · exact ⟨y', h₁, by omega, rfl⟩
        · exact ⟨y, hlo, by omega, rfl⟩
      · rintro ⟨y', h₁, h₂, rfl⟩
        rcases (Nat.lt_succ_iff.mp h₂).eq_or_lt with rfl | h₂
        · exact .inr rfl
        · exact .inl ⟨y', h₁, h₂, rfl⟩
    · obtain ⟨h₁, h₂, h₃, h₄⟩ := hrows
      rcases (Nat.lt_succ_iff.mp h₄).eq_or_lt with rfl | h₄
      · rw [if_pos (by omega), Frame.pixel]
        congr 1
        omega
      · have := Nat.mul_le_mul_right gpu.width (show y' + 1 ≤ y from h₄)
        rw [Nat.succ_mul] at this
        rw [if_neg (by omega)]
        exact hb x' y' ⟨h₁, h₂, h₃, h₄⟩ hx'
  · rintro _ ⟨b, cs, rfl, hcs, hb⟩
    refine ⟨⟨fun h hx hy => ?_, fun h c hc => ?_⟩, fun x y h₁ h₂ h₃ h₄ hx => hb x y ⟨h₁, h₂, h₃, h₄⟩ hx⟩
    · have := h _ ((hcs _).mpr ⟨src.readyDirty.y1 - 1, by omega, by omega, rfl⟩)
      dsimp only at this
      omega
    · obtain ⟨y', h₁, h₂, rfl⟩ := (hcs c).mp hc
      have := Nat.mul_le_mul_right gpu.width (show y' ≤ src.readyDirty.y1 - 1 by omega)
      have := h (by omega) (by omega)
      dsimp only
      omega

def onePixel (x y : ℕ) (hx : x < g.width) (hy : y < g.height) : Fb g :=
  { black g with
    frameReady := true
    readyDirty := ⟨true, x, y, x + 1, y + 1, Nat.le_succ x, Nat.le_succ y, hx, hy⟩ }

def xga : Geometry := sized 1024 768 (by decide) (by decide) (by decide)

/-- A rectangle of one pixel in a framebuffer that is larger than the GPU's. -/
theorem presentVirtioGpu_inside_xga :
    (presentVirtioGpu (onePixel (g := xga) 9 9 (by decide) (by decide)) ⟨640, 480, fun _ => 5, []⟩).Returns
      fun _ gpu' => (∀ c ∈ gpu'.copies, c.1 + c.2 ≤ 640 * 480) ∧ gpu'.fb (9 * 640 + 9) = 0 :=
  (presentVirtioGpu_inside rfl _).imp fun _ _ h => ⟨h.1.mpr (by decide), h.2 9 9 (by decide) (by decide) (by decide) (by decide) (by decide)⟩

/-- **A larger framebuffer**: multiboot has set up 1024 by 768 pixels and the GPU reports 640 by 480. The pixel (0, 500) is
written behind the end of the GPU's framebuffer. -/
theorem presentVirtioGpu_outside : BootCombines (some xga) ⟨640, 480, fun _ => 5, []⟩ xga ∧
    (presentVirtioGpu (onePixel (g := xga) 0 500 (by decide) (by decide)) ⟨640, 480, fun _ => 5, []⟩).Returns
      fun _ gpu' => ∃ c ∈ gpu'.copies, gpu'.width * gpu'.height ≤ c.1 := by
  exact ⟨rfl, by decide +kernel⟩

end RustKernel.Display
