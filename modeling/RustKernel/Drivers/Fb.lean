import RustKernel.Lib.Loop
import RustKernel.Lib.Raster

/-!
# The framebuffer

`Fb` of `drivers/fb.rs` with the `Mmio` backend: a back buffer that everything is drawn into, a buffer of the frame being
presented, and the video memory. The drawing operations keep a rectangle of what they have touched since the last `commit`.
`commit` swaps the two buffers and copies the rectangle back, so that the next frame starts from the same picture, and
`present` copies the rectangle to the video memory.
-/

namespace RustKernel.Display

open Lib Exec Lib.Raster

abbrev Colour := BitVec 32

def CHAR_WIDTH : ℕ := 8
def CHAR_HEIGHT : ℕ := 16

structure Geometry extends Frame where
  pitch_lt : pitch < 2 ^ 32
  height_lt : height < 2 ^ 32
  size_lt : pitch * height < 2 ^ 32

namespace Geometry

variable (g : Geometry)

def textScale : ℕ := if g.width ≥ 2560 then 3 else if g.width ≥ 1920 then 2 else 1

def glyphWidth : ℕ := CHAR_WIDTH * g.textScale

def glyphHeight : ℕ := CHAR_HEIGHT * g.textScale

end Geometry

structure DirtyRect (g : Geometry) where
  any : Bool
  x0 : ℕ
  y0 : ℕ
  x1 : ℕ
  y1 : ℕ
  x0_le : x0 ≤ x1
  y0_le : y0 ≤ y1
  x1_le : x1 ≤ g.width
  y1_le : y1 ≤ g.height

namespace DirtyRect

variable {g : Geometry}

def empty : DirtyRect g :=
  { any := false, x0 := 0, y0 := 0, x1 := 0, y1 := 0, x0_le := le_rfl, y0_le := le_rfl, x1_le := Nat.zero_le _,
    y1_le := Nat.zero_le _ }

def Has (d : DirtyRect g) (x y : ℕ) : Prop := d.any = true ∧ d.x0 ≤ x ∧ x < d.x1 ∧ d.y0 ≤ y ∧ y < d.y1

end DirtyRect

structure Fb (g : Geometry) where
  front : ℕ → Colour
  back : ℕ → Colour
  presentBuf : ℕ → Colour
  dirty : DirtyRect g
  frameReady : Bool
  readyDirty : DirtyRect g

def satAdd (a b : ℕ) : ℕ := min (a + b) (2 ^ 32 - 1)
def satMul (a b : ℕ) : ℕ := min (a * b) (2 ^ 32 - 1)

section Model

variable {g : Geometry}

open Exec

def markDirtyRect (x y w h : ℕ) : Exec Empty (Fb g) Unit := modify fun fb =>
  if w = 0 ∨ h = 0 then fb else
  let x0 := min x g.width
  let y0 := min y g.height
  let x1 := min (satAdd x w) g.width
  let y1 := min (satAdd y h) g.height
  if hin : x0 < x1 ∧ y0 < y1 then
    if fb.dirty.any then
      { fb with dirty := {
          any := true, x0 := min fb.dirty.x0 x0, y0 := min fb.dirty.y0 y0, x1 := max fb.dirty.x1 x1, y1 := max fb.dirty.y1 y1
          x0_le := (min_le_right _ _).trans (hin.1.le.trans (le_max_right _ _))
          y0_le := (min_le_right _ _).trans (hin.2.le.trans (le_max_right _ _))
          x1_le := max_le fb.dirty.x1_le (min_le_right _ _)
          y1_le := max_le fb.dirty.y1_le (min_le_right _ _) } }
    else
      { fb with dirty := {
          any := true, x0, y0, x1, y1
          x0_le := hin.1.le, y0_le := hin.2.le, x1_le := min_le_right _ _, y1_le := min_le_right _ _ } }
  else fb

def storeBack (off : ℕ) (rgb : Colour) : Exec Empty (Fb g) Unit :=
  if off < g.pitch * g.height then modify fun fb => { fb with back := Function.update fb.back off rgb } else panic

def idx (g : Geometry) (x y : ℕ) : Exec Empty (Fb g) ℕ := do
  let row ← mul 32 y g.pitch
  add 32 row x

def putPixel (x y : ℕ) (rgb : Colour) : Exec Empty (Fb g) Unit := do
  if x ≥ g.width ∨ y ≥ g.height then pure ()
  else
    let off ← idx g x y
    storeBack off rgb
    markDirtyRect x y 1 1

def fillRect (x y w h : ℕ) (rgb : Colour) : Exec Empty (Fb g) Unit := do
  let x1 := min x g.width
  let y1 := min y g.height
  let x2 := min (satAdd x w) g.width
  let y2 := min (satAdd y h) g.height
  forRange y1 y2 fun py => do
    let row ← mul 32 py g.pitch
    forRange x1 x2 fun px => do
      storeBack (row + px) rgb
      pure true
    pure true
  markDirtyRect x1 y1 (x2 - x1) (y2 - y1)

def clear (rgb : Colour) : Exec Empty (Fb g) Unit := fillRect 0 0 g.width g.height rgb

variable (font : ℕ → ℕ → BitVec 8)

def glyph (ch : Char) : ℕ → BitVec 8 := if ch.toNat > 0x7F then font 0x3F else font ch.toNat

def isOn (bits : BitVec 8) (gx : ℕ) : Exec Empty (Fb g) Bool := do
  let shift ← sub 7 gx
  pure ((bits >>> shift) &&& 1 != 0)

/-- The path of `blit_char` for the scale 1. -/
def blitFast (x y : ℕ) (ch : Char) (fg bg : Colour) : Exec Empty (Fb g) Unit := do
  let right ← add 32 x 8
  let cols ← sub (min right g.width) x
  forRange 0 CHAR_HEIGHT fun gy => do
    let py ← add 32 y gy
    if py ≥ g.height then pure false
    else
      let bits := glyph font ch gy
      let row ← mul 32 py g.pitch
      let base := row + x
      forRange 0 cols fun gx => do
        let on ← isOn bits gx
        storeBack (base + gx) (if on then fg else bg)
        pure true
      pure true

/-- A pixel of a glyph in a row, on the path of `blit_char` for any scale. -/
def blitPixel (scale x row : ℕ) (bits : BitVec 8) (fg bg : Colour) (gx : ℕ) : Exec Empty (Fb g) Unit := do
  let on ← isOn bits gx
  let color := if on then fg else bg
  let px0 := satAdd x (satMul gx scale)
  forRange 0 scale fun sx => do
    let px := satAdd px0 sx
    if px ≥ g.width then pure false
    else
      storeBack (row + px) color
      pure true

def blitRow (scale x row : ℕ) (bits : BitVec 8) (fg bg : Colour) : Exec Empty (Fb g) Unit :=
  forRange 0 CHAR_WIDTH fun gx => do
    blitPixel scale x row bits fg bg gx
    pure true

/-- A row of a glyph, `scale` times. -/
def blitRows (scale x y : ℕ) (bits : BitVec 8) (fg bg : Colour) (gy : ℕ) : Exec Empty (Fb g) Unit :=
  forRange 0 scale fun sy => do
    let py := satAdd (satAdd y (satMul gy scale)) sy
    if py ≥ g.height then pure false
    else
      let row ← mul 32 py g.pitch
      blitRow scale x row bits fg bg
      pure true

/-- The path of `blit_char` for any scale. -/
def blitScaled (scale x y : ℕ) (ch : Char) (fg bg : Colour) : Exec Empty (Fb g) Unit :=
  forRange 0 CHAR_HEIGHT fun gy => do
    blitRows scale x y (glyph font ch gy) fg bg gy
    pure true

def blitChar (x y : ℕ) (ch : Char) (fg bg : Colour) : Exec Empty (Fb g) Unit := do
  if x ≥ g.width ∨ y ≥ g.height then pure ()
  else
    let scale := g.textScale
    if scale = 1 then blitFast font x y ch fg bg else blitScaled font scale x y ch fg bg
    markDirtyRect x y g.glyphWidth g.glyphHeight

def scrollUpBounded (maxY pixels : ℕ) (clearColor : Colour) : Exec Empty (Fb g) Unit := do
  if pixels = 0 ∨ pixels ≥ maxY then pure ()
  else
    let yLim := min maxY g.height
    let lineU32 := g.pitch
    let srcStart := pixels * lineU32
    let rows ← sub yLim pixels
    let toCopy := rows * lineU32
    if srcStart + toCopy ≤ g.pitch * g.height then
      modify fun fb => { fb with back := Frame.copyWithin fb.back srcStart toCopy 0 }
      fillRect 0 rows g.width pixels clearColor
      markDirtyRect 0 0 g.width yLim
    else panic

def commit : Exec Empty (Fb g) Unit := do
  let fb ← get
  if fb.dirty.any = false ∧ fb.frameReady = false then pure ()
  else if fb.dirty.any then
    modify fun fb => { fb with
      readyDirty := fb.dirty, dirty := .empty, back := fb.presentBuf, presentBuf := fb.back }
    let d := fb.dirty
    forRange d.y0 d.y1 fun y => do
      let row ← mul 32 y g.pitch
      let len ← sub d.x1 d.x0
      modify fun fb => { fb with back := Frame.copyRun fb.presentBuf fb.back (row + d.x0) len }
      pure true
    modify fun fb => { fb with frameReady := true }
  else pure ()

def fastBlitRow (src dst : ℕ → Colour) (off count : ℕ) : ℕ → Colour :=
  if count = 0 then dst else
  let dst := Frame.copyRun src dst off (2 * (count / 2))
  if count % 2 > 0 then Function.update dst (off + (count - 1)) (src (off + (count - 1))) else dst

def presentMmio : Exec Empty (Fb g) Unit := do
  let fb ← get
  let d := fb.readyDirty
  let copyLen ← sub d.x1 d.x0
  forRange d.y0 d.y1 fun y => do
    let row ← mul 32 y g.pitch
    modify fun fb => { fb with front := fastBlitRow fb.presentBuf fb.front (row + d.x0) copyLen }
    pure true

def present : Exec Empty (Fb g) Unit := do
  let fb ← get
  if fb.frameReady then
    presentMmio
    modify fun fb => { fb with frameReady := false, readyDirty := .empty }
  else pure ()

end Model

/-! ### The loops -/

def Box (x y w h x' y' : ℕ) : Prop := x ≤ x' ∧ x' < x + w ∧ y ≤ y' ∧ y' < y + h
deriving Decidable

def cellColour (font : ℕ → ℕ → BitVec 8) (scale : ℕ) (ch : Char) (fg bg : Colour) (dx dy : ℕ) : Colour :=
  if (glyph font ch (dy / scale) >>> (7 - dx / scale)) &&& 1 != 0 then fg else bg

section Loops

variable {g : Geometry} {P P' : ℕ → ℕ → Prop} {c : ℕ → ℕ → Colour} {fb fb₁ : Fb g} {x y : ℕ} {bits : BitVec 8} {gx row : ℕ}

open Exec

def Draws (P : ℕ → ℕ → Prop) (c : ℕ → ℕ → Colour) (fb fb' : Fb g) : Prop :=
  ∃ b, fb' = { fb with back := b } ∧ g.Paints P c fb.back b

theorem draws_none (h : ∀ x y, x < g.width → y < g.height → ¬ P x y) : Draws P c fb fb :=
  ⟨fb.back, rfl, .none h⟩

theorem Draws.congr {fb' : Fb g} (h : Draws P c fb fb') (hP : ∀ x y, x < g.width → y < g.height → (P' x y ↔ P x y)) :
    Draws P' c fb fb' := by
  obtain ⟨b, hfb, hb⟩ := h
  exact ⟨b, hfb, hb.congr hP⟩

theorem storeBack_draws {off : ℕ} {v : Colour} (h : Draws P c fb fb₁) (hx : x < g.width) (hy : y < g.height)
    (hoff : off = y * g.pitch + x) (hv : v = c x y) (hP : ∀ x' y', P' x' y' ↔ P x' y' ∨ (x' = x ∧ y' = y)) :
    (storeBack off v fb₁).Returns fun _ => Draws P' c fb := by
  obtain ⟨b, rfl, hb⟩ := h
  rw [storeBack, hoff, if_pos (Frame.index_lt hx hy)]
  exact returns_modify ⟨_, rfl, hb.store hx hv hP⟩

theorem mul_row {σ : Type} (hy : y < g.height) : (mul 32 y g.pitch : Exec Empty σ ℕ) = pure (y * g.pitch) := by
  refine mul_of_lt (lt_of_le_of_lt ?_ g.size_lt)
  rw [Nat.mul_comm]
  exact Nat.mul_le_mul_left _ hy.le

theorem isOn_eq (h : gx < 8) : (isOn bits gx : Exec Empty (Fb g) Bool) = pure ((bits >>> (7 - gx)) &&& 1 != 0) := by
  rw [isOn, sub_of_le (by omega)]
  rfl

def Upto (x₁ x₂ y₁ py px x' y' : ℕ) : Prop := x₁ ≤ x' ∧ x' < x₂ ∧ y₁ ≤ y' ∧ (y' < py ∨ y' = py ∧ x' < px)

section Upto

variable {x₁ x₂ y₁ py px : ℕ}

theorem upto_start : Draws (Upto x₁ x₂ y₁ y₁ x₁) c fb fb :=
  draws_none fun x y _ _ => by unfold Upto; omega

theorem upto_row (h : Draws (Upto x₁ x₂ y₁ py x₂) c fb fb₁) : Draws (Upto x₁ x₂ y₁ (py + 1) x₁) c fb fb₁ :=
  h.congr fun x y _ _ => by unfold Upto; omega

theorem upto_right {px' : ℕ} (h : Draws (Upto x₁ x₂ y₁ py px) c fb fb₁) (hpx : g.width ≤ px) (hpx' : g.width ≤ px') :
    Draws (Upto x₁ x₂ y₁ py px') c fb fb₁ :=
  h.congr fun x y hx _ => by unfold Upto; omega

theorem upto_bottom {py' : ℕ} (h : Draws (Upto x₁ x₂ y₁ py x₁) c fb fb₁) (hpy : g.height ≤ py) (hpy' : g.height ≤ py') :
    Draws (Upto x₁ x₂ y₁ py' x₁) c fb fb₁ :=
  h.congr fun x y _ hy => by unfold Upto; omega

theorem storeBack_upto {off : ℕ} {v : Colour} (h : Draws (Upto x₁ x₂ y₁ py px) c fb fb₁) (hx : x₁ ≤ px) (hx₂ : px < x₂)
    (hy : y₁ ≤ py) (hpx : px < g.width) (hpy : py < g.height) (hoff : off = py * g.pitch + px) (hv : v = c px py) :
    (storeBack off v fb₁).Returns fun _ => Draws (Upto x₁ x₂ y₁ py (px + 1)) c fb :=
  storeBack_draws h hpx hpy hoff hv fun x' y' => by unfold Upto; omega

end Upto

theorem fillRect_loops {x₁ x₂ y₁ y₂ : ℕ} {rgb : Colour} (hx : x₁ ≤ x₂) (hy : y₁ ≤ y₂) (hx₂ : x₂ ≤ g.width)
    (hy₂ : y₂ ≤ g.height) :
    (forRange y₁ y₂ (fun py => do
      let row ← mul 32 py g.pitch
      forRange x₁ x₂ fun px => do
        storeBack (row + px) rgb
        pure true
      pure true) fb).Returns fun _ => Draws (Upto x₁ x₂ y₁ y₂ x₁) (fun _ _ => rgb) fb := by
  refine returns_forRange (I := fun py => Draws (Upto x₁ x₂ y₁ py x₁) (fun _ _ => rgb) fb) hy upto_start
    (fun py fb₁ hlo hhi h => ?_) fun _ h => h
  rw [mul_row (lt_of_lt_of_le hhi hy₂), pure_bind]
  refine returns_bind (returns_forRange (I := fun px => Draws (Upto x₁ x₂ y₁ py px) (fun _ _ => rgb) fb) hx h
    (fun px fb₂ hlo' hhi' h' => ?_) fun _ h' => upto_row h') fun _ fb₂ h' => returns_pure h'
  exact returns_bind (storeBack_upto h' hlo' hhi' hlo (by omega) (by omega) rfl rfl) fun _ _ h'' => returns_pure h''

/-- A loop of one round. -/
theorem forRange_one {f : ℕ → Exec Empty (Fb g) Bool} : forRange 0 1 f = f 0 >>= fun _ => pure () := by
  funext fb
  rw [forRange, Nat.sub_zero, forCount, bind_apply, bind_apply]
  cases f 0 fb with
  | ok go fb' => cases go <;> rfl
  | err e fb' => rfl
  | panic => rfl
  | diverge => rfl

theorem satAdd_one {a k : ℕ} (h : a + k < 2 ^ 32) : satAdd (satAdd a (satMul k 1)) 0 = a + k := by
  unfold satAdd satMul
  omega

theorem blitPixel_one {fg bg : Colour} (hgx : gx < 8) (hright : x + 8 < 2 ^ 32) :
    (blitPixel 1 x row bits fg bg gx : Exec Empty (Fb g) Unit) =
      if x + gx ≥ g.width then pure () else (isOn bits gx >>= fun on => storeBack (row + x + gx) (if on then fg else bg)) := by
  funext fb
  rw [blitPixel, isOn_eq hgx, pure_bind, forRange_one, satAdd_one (by omega)]
  dsimp only
  by_cases hpx : x + gx ≥ g.width
  · rw [if_pos hpx, if_pos hpx]
    rfl
  · rw [if_neg hpx, if_neg hpx, Exec.pure_bind, Nat.add_assoc, storeBack]
    split_ifs <;> rfl

/-- With the scale 1 the rows of the two paths are the same: the columns beyond the screen do nothing. -/
theorem blitRow_one {fg bg : Colour} (hx : x < g.width) (hright : x + 8 < 2 ^ 32) :
    forRange 0 (min (x + 8) g.width - x) (fun gx => do
      let on ← isOn bits gx
      storeBack (row + x + gx) (if on then fg else bg)
      pure true) = (blitRow 1 x row bits fg bg : Exec Empty (Fb g) Unit) := by
  generalize hcols : min (x + 8) g.width - x = cols
  obtain ⟨rest, hrest⟩ : ∃ rest, CHAR_WIDTH = cols + rest := Nat.exists_eq_add_of_le (by unfold CHAR_WIDTH; omega)
  have hwidth : cols + rest = 8 := hrest.symm
  rw [blitRow, forRange, forRange, Nat.sub_zero, Nat.sub_zero, hrest]
  refine forCount_congr (n := 0) (fun gx _ hgx => ?_) rfl (forCount_idle fun gx hlo hgx => ⟨true, ?_⟩)
  · rw [blitPixel_one (by omega) hright, if_neg (by omega), isOn_eq (by omega)]
    rfl
  · rw [blitPixel_one (by omega) hright, if_pos (by omega)]
    rfl

theorem blitRows_one {gy : ℕ} {fg bg : Colour} : (blitRows 1 x y bits fg bg gy : Exec Empty (Fb g) Unit) =
    if y + gy ≥ g.height then pure () else blitRow 1 x ((y + gy) * g.pitch) bits fg bg := by
  have hheight := g.height_lt
  funext fb
  rw [blitRows, forRange_one]
  dsimp only
  by_cases hpy : y + gy ≥ g.height
  · rw [if_pos hpy, if_pos (by unfold satAdd satMul; omega)]
    rfl
  · rw [if_neg hpy, satAdd_one (by omega), if_neg hpy, mul_row (by omega), bind_apply, pure_bind, bind_apply]
    cases blitRow 1 x ((y + gy) * g.pitch) bits fg bg fb <;> rfl

section Glyph

variable (font : ℕ → ℕ → BitVec 8) {ch : Char} {fg bg : Colour}
variable {scale : ℕ}

def charColour (g : Geometry) (x y : ℕ) (ch : Char) (fg bg : Colour) (x' y' : ℕ) : Colour :=
  cellColour font g.textScale ch fg bg (x' - x) (y' - y)

/-- The rows below the screen and the columns right of it do nothing on the general path. -/
theorem blitFast_eq (hx : x < g.width) (hy : y < g.height) (hright : x + 8 < 2 ^ 32) :
    (blitFast font x y ch fg bg : Exec Empty (Fb g) Unit) = blitScaled font 1 x y ch fg bg := by
  have hheight := g.height_lt
  obtain ⟨rest, hrest⟩ : ∃ rest, CHAR_HEIGHT = min CHAR_HEIGHT (g.height - y) + rest := Nat.exists_eq_add_of_le (min_le_left _ _)
  generalize hrows : min CHAR_HEIGHT (g.height - y) = rows at hrest
  funext fb
  rw [blitFast, add_of_lt hright, pure_bind, sub_of_le (by omega), pure_bind, blitScaled, forRange, forRange, Nat.sub_zero, hrest]
  refine congrFun (forCount_congr (fun gy _ hgy => ?_) (forCount_stop fun hpos => ?_)
    (forCount_idle fun gy hlo hgy => ⟨true, ?_⟩)) fb
  · rw [blitRows_one, if_neg (by omega), add_of_lt (by omega)]
    funext fb
    rw [pure_bind, if_neg (by omega), mul_row (by omega), pure_bind, blitRow_one hx hright]
  · rw [add_of_lt (by omega)]
    exact if_pos (by omega)
  · rw [blitRows_one, if_pos (by omega)]
    rfl

theorem charColour_eq {gx gy sx sy : ℕ} (hscale : g.textScale = scale) (hsx : sx < scale) (hsy : sy < scale) :
    charColour font g x y ch fg bg (x + gx * scale + sx) (y + gy * scale + sy) =
      if (glyph font ch gy >>> (7 - gx)) &&& 1 != 0 then fg else bg := by
  have hdiv : ∀ {k r : ℕ}, r < scale → (k * scale + r) / scale = k := by
    intro k r hr
    rw [Nat.mul_comm, Nat.mul_add_div (by omega), Nat.div_eq_of_lt hr, Nat.add_zero]
  simp only [charColour, cellColour, hscale, Nat.add_assoc, Nat.add_sub_cancel_left, hdiv hsx, hdiv hsy]

theorem blitRow_draws {gy sy py row : ℕ} (hscale : g.textScale = scale) (hsy : sy < scale)
    (hpy : py = y + gy * scale + sy) (hin : py < g.height) (hrow : row = py * g.pitch)
    (h : Draws (Upto x (x + CHAR_WIDTH * scale) y py x) (charColour font g x y ch fg bg) fb fb₁) :
    (blitRow scale x row (glyph font ch gy) fg bg fb₁).Returns fun _ =>
      Draws (Upto x (x + CHAR_WIDTH * scale) y (py + 1) x) (charColour font g x y ch fg bg) fb := by
  have hwidth := lt_of_le_of_lt g.width_le g.pitch_lt
  refine returns_forRange
    (I := fun gx => Draws (Upto x (x + CHAR_WIDTH * scale) y py (x + gx * scale)) (charColour font g x y ch fg bg) fb)
    (Nat.zero_le _) (by simpa using h) (fun gx fb₂ _ hgx h' => ?_) fun fb₂ h' => upto_row h'
  refine returns_bind (Q := fun _ => Draws (Upto x (x + CHAR_WIDTH * scale) y py (x + (gx + 1) * scale)) _ fb) ?_
    fun _ _ h'' => returns_pure h''
  rw [blitPixel, isOn_eq hgx, pure_bind]
  have hright : x + (gx + 1) * scale ≤ x + CHAR_WIDTH * scale := by
    have := Nat.mul_le_mul_right scale (show gx + 1 ≤ CHAR_WIDTH from hgx)
    omega
  rw [Nat.add_mul] at hright
  refine returns_forRange
    (I := fun sx => Draws (Upto x (x + CHAR_WIDTH * scale) y py (x + gx * scale + sx)) (charColour font g x y ch fg bg) fb)
    (Nat.zero_le _) h' (fun sx fb₃ _ hsx h'' => ?_) fun fb₃ h'' => ?_
  · by_cases hpx : satAdd (satAdd x (satMul gx scale)) sx ≥ g.width
    · have hbeyond : g.width ≤ x + gx * scale + sx := by unfold satAdd satMul at hpx; omega
      rw [if_pos hpx]
      refine returns_pure (upto_right h'' hbeyond ?_)
      rw [Nat.add_mul]
      omega
    · have hpx' : satAdd (satAdd x (satMul gx scale)) sx = x + gx * scale + sx := by
        unfold satAdd satMul at hpx ⊢
        omega
      rw [if_neg hpx]
      refine returns_bind (storeBack_upto h'' (by omega) (by omega) (by omega) (by omega) hin (by omega) ?_)
        fun _ _ h₃ => returns_pure h₃
      rw [hpy]
      exact (charColour_eq font hscale hsx hsy).symm
  · rw [Nat.add_mul, Nat.one_mul, ← Nat.add_assoc]
    exact h''

theorem blitScaled_draws (hscale : g.textScale = scale) : (blitScaled font scale x y ch fg bg fb).Returns fun _ =>
      Draws (Upto x (x + CHAR_WIDTH * scale) y (y + CHAR_HEIGHT * scale) x) (charColour font g x y ch fg bg) fb := by
  have hheight := g.height_lt
  refine returns_forRange
    (I := fun gy => Draws (Upto x (x + CHAR_WIDTH * scale) y (y + gy * scale) x) (charColour font g x y ch fg bg) fb)
    (Nat.zero_le _) (by simpa using upto_start) (fun gy fb₁ _ hgy h => ?_) fun _ h => h
  refine returns_bind (returns_forRange
    (I := fun sy => Draws (Upto x (x + CHAR_WIDTH * scale) y (y + gy * scale + sy) x) (charColour font g x y ch fg bg) fb)
    (Nat.zero_le _) h (fun sy fb₂ _ hsy h' => ?_) fun fb₂ h' => ?_) fun _ fb₂ h' => returns_pure h'
  · by_cases hpy : satAdd (satAdd y (satMul gy scale)) sy ≥ g.height
    · have hbelow : g.height ≤ y + gy * scale + sy := by unfold satAdd satMul at hpy; omega
      rw [if_pos hpy]
      refine returns_pure (upto_bottom h' hbelow ?_)
      rw [Nat.add_mul]
      omega
    · have hpy' : satAdd (satAdd y (satMul gy scale)) sy = y + gy * scale + sy := by
        unfold satAdd satMul at hpy ⊢
        omega
      rw [if_neg hpy, hpy']
      rw [hpy'] at hpy
      rw [mul_row (not_le.mp hpy), pure_bind]
      exact returns_bind (blitRow_draws font hscale hsy rfl (not_le.mp hpy) rfl h') fun _ _ h'' => returns_pure h''
  · rw [Nat.add_mul, Nat.one_mul, ← Nat.add_assoc]
    exact h'

end Glyph

end Loops

/-! ### What the calls draw -/

abbrev Image := ℕ → ℕ → Colour

inductive Draw where
  | putPixel (x y : ℕ) (rgb : Colour)
  | fillRect (x y w h : ℕ) (rgb : Colour)
  | clear (rgb : Colour)
  | blitChar (x y : ℕ) (ch : Char) (fg bg : Colour)
  | scrollUpBounded (maxY pixels : ℕ) (clearColor : Colour)

namespace Draw

variable (g : Geometry) (font : ℕ → ℕ → BitVec 8)

def exec : Draw → Exec Empty (Fb g) Unit
  | .putPixel x y rgb => Display.putPixel x y rgb
  | .fillRect x y w h rgb => Display.fillRect x y w h rgb
  | .clear rgb => Display.clear rgb
  | .blitChar x y ch fg bg => Display.blitChar font x y ch fg bg
  | .scrollUpBounded maxY pixels clearColor => Display.scrollUpBounded maxY pixels clearColor

def paint : Draw → Image → Image
  | .putPixel x y rgb, img => fun x' y' => if x' = x ∧ y' = y then rgb else img x' y'
  | .fillRect x y w h rgb, img => fun x' y' => if Box x y w h x' y' then rgb else img x' y'
  | .clear rgb, _ => fun _ _ => rgb
  | .blitChar x y ch fg bg, img => fun x' y' =>
    if Box x y g.glyphWidth g.glyphHeight x' y' then charColour font g x y ch fg bg x' y' else img x' y'
  | .scrollUpBounded maxY pixels clearColor, img => fun x' y' =>
    if pixels = 0 ∨ pixels ≥ maxY then img x' y'
    else if y' + pixels < maxY then img x' (y' + pixels) else if y' < maxY then clearColor else img x' y'

def Valid : Draw → Prop
  | .scrollUpBounded maxY _ _ => maxY ≤ g.height
  | _ => True

instance : DecidablePred (Valid g)
  | .scrollUpBounded maxY _ _ => inferInstanceAs (Decidable (maxY ≤ g.height))
  | .putPixel .. | .fillRect .. | .clear _ | .blitChar .. => isTrue trivial

variable {g font}

theorem paint_congr {d : Draw} {img img' : Image} (hd : d.Valid g)
    (h : ∀ x y, x < g.width → y < g.height → img x y = img' x y) :
    ∀ x y, x < g.width → y < g.height → d.paint g font img x y = d.paint g font img' x y := by
  intro x y hx hy
  cases d with
  | putPixel | fillRect | blitChar => simp only [paint, h x y hx hy]
  | clear => rfl
  | scrollUpBounded maxY pixels clearColor =>
    have hmax : maxY ≤ g.height := hd
    simp only [paint]
    split_ifs with h₁ h₂ h₃
    · exact h x y hx hy
    · exact h x (y + pixels) hx (by omega)
    · rfl
    · exact h x y hx hy

end Draw

section Calls

variable {g : Geometry} {font : ℕ → ℕ → BitVec 8} {fb fb₁ : Fb g} {x y w h : ℕ} {paint : Image → Image}

open Exec

def Drew (paint : Image → Image) (fb fb' : Fb g) : Prop :=
  ∃ b d, fb' = { fb with back := b, dirty := d } ∧
    (∀ x y, x < g.width → y < g.height → g.pixel b x y = paint (g.pixel fb.back) x y) ∧
    ∀ x y, x < g.width → y < g.height → (fb.dirty.Has x y ∨ g.pixel b x y ≠ g.pixel fb.back x y) → d.Has x y

theorem markDirtyRect_returns : (markDirtyRect x y w h fb).Returns fun _ fb' => ∃ d, fb' = { fb with dirty := d } ∧
    ∀ x' y', x' < g.width → y' < g.height → (fb.dirty.Has x' y' ∨ Box x y w h x' y') → d.Has x' y' := by
  have hwidth := lt_of_le_of_lt g.width_le g.pitch_lt
  have hheight := g.height_lt
  refine returns_modify ?_
  by_cases hempty : w = 0 ∨ h = 0
  · rw [if_pos hempty]
    refine ⟨fb.dirty, rfl, fun x' y' hx' hy' hor => hor.resolve_right fun hbox => ?_⟩
    unfold Box at hbox
    omega
  dsimp only
  split_ifs with hin hany
  · refine ⟨_, rfl, fun x' y' hx' hy' hor => ?_⟩
    unfold DirtyRect.Has Box satAdd at *
    refine ⟨rfl, ?_⟩
    dsimp only
    omega
  · refine ⟨_, rfl, fun x' y' hx' hy' hor => ?_⟩
    have hbox := hor.resolve_left fun hhas => hany hhas.1
    unfold DirtyRect.Has Box satAdd at *
    refine ⟨rfl, ?_⟩
    dsimp only
    omega
  · refine ⟨fb.dirty, rfl, fun x' y' hx' hy' hor => hor.resolve_right fun hbox => ?_⟩
    unfold Box satAdd at *
    omega

theorem drew_of_draws {P : ℕ → ℕ → Prop} {c : Image} {fb₂ : Fb g} (hdraws : Draws P c fb fb₁)
    (hmark : ∃ d, fb₂ = { fb₁ with dirty := d } ∧
      ∀ x' y', x' < g.width → y' < g.height → (fb₁.dirty.Has x' y' ∨ Box x y w h x' y') → d.Has x' y')
    (hbox : ∀ x' y', x' < g.width → y' < g.height → P x' y' → Box x y w h x' y')
    (hin : ∀ x' y', x' < g.width → y' < g.height → P x' y' → paint (g.pixel fb.back) x' y' = c x' y')
    (hout : ∀ x' y', x' < g.width → y' < g.height → ¬ P x' y' → paint (g.pixel fb.back) x' y' = g.pixel fb.back x' y') :
    Drew paint fb fb₂ := by
  obtain ⟨b, rfl, hb⟩ := hdraws
  obtain ⟨d, rfl, hd⟩ := hmark
  refine ⟨b, d, rfl, fun x' y' hx' hy' => ?_, fun x' y' hx' hy' hor => hd x' y' hx' hy' ?_⟩
  · by_cases hP : P x' y'
    · rw [hb.inside x' y' hx' hy' hP, hin x' y' hx' hy' hP]
    · rw [hb.outside x' y' hx' hy' hP, hout x' y' hx' hy' hP]
  · refine hor.imp id fun hne => hbox x' y' hx' hy' ?_
    by_contra hP
    exact hne (hb.outside x' y' hx' hy' hP)

theorem drew_none
    (h : ∀ x' y', x' < g.width → y' < g.height → paint (g.pixel fb.back) x' y' = g.pixel fb.back x' y') : Drew paint fb fb :=
  ⟨fb.back, fb.dirty, rfl, fun x' y' hx' hy' => (h x' y' hx' hy').symm, fun _ _ _ _ hor => hor.resolve_right (by simp)⟩

theorem putPixel_returns (hx : x < g.width) (hy : y < g.height) (rgb : Colour) : (putPixel x y rgb fb).Returns fun _ fb' =>
    ∃ d, fb' = { fb with back := Function.update fb.back (y * g.pitch + x) rgb, dirty := d } ∧
      ∀ x' y', x' < g.width → y' < g.height → (fb.dirty.Has x' y' ∨ Box x y 1 1 x' y') → d.Has x' y' := by
  have hidx : (idx g x y : Exec Empty (Fb g) ℕ) = pure (y * g.pitch + x) := by
    rw [idx, mul_row hy]
    exact add_of_lt ((Frame.index_lt hx hy).trans g.size_lt)
  rw [putPixel, if_neg (by omega), hidx, pure_bind, storeBack, if_pos (Frame.index_lt hx hy)]
  exact markDirtyRect_returns

theorem putPixel_drew (rgb : Colour) : (putPixel x y rgb fb).Returns fun _ =>
    Drew ((Draw.putPixel x y rgb).paint g font) fb := by
  by_cases hout : x ≥ g.width ∨ y ≥ g.height
  · rw [putPixel, if_pos hout]
    exact returns_pure (drew_none fun x' y' hx' hy' => if_neg (by omega))
  rw [not_or, not_le, not_le] at hout
  have hstart : g.Paints (fun _ _ => False) (fun _ _ => rgb) fb.back fb.back := .none fun _ _ _ _ => id
  refine (putPixel_returns hout.1 hout.2 rgb).imp fun _ fb₂ h₂ => drew_of_draws
    ⟨_, rfl, hstart.store hout.1 rfl fun x' y' => (false_or _).symm.to_iff⟩ h₂ ?_ ?_ ?_
  · rintro x' y' - - ⟨rfl, rfl⟩
    unfold Box
    omega
  · exact fun x' y' _ _ hP => if_pos hP
  · exact fun x' y' _ _ hP => if_neg hP

theorem fillRect_drew (font : ℕ → ℕ → BitVec 8) (rgb : Colour) : (fillRect x y w h rgb fb).Returns fun _ =>
    Drew ((Draw.fillRect x y w h rgb).paint g font) fb := by
  have hwidth := lt_of_le_of_lt g.width_le g.pitch_lt
  have hheight := g.height_lt
  refine returns_bind (fillRect_loops (by unfold satAdd; omega) (by unfold satAdd; omega) (by omega) (by omega))
    fun _ fb₁ h₁ => markDirtyRect_returns.imp fun _ fb₂ h₂ => drew_of_draws h₁ h₂ ?_ ?_ ?_
  · intro x' y' hx' hy' hP
    unfold Upto satAdd at hP
    unfold Box satAdd
    omega
  · intro x' y' hx' hy' hP
    refine if_pos ?_
    unfold Upto satAdd at hP
    unfold Box
    omega
  · intro x' y' hx' hy' hP
    refine if_neg ?_
    unfold Upto satAdd at hP
    unfold Box
    omega

theorem clear_drew (rgb : Colour) : (clear rgb fb).Returns fun _ => Drew ((Draw.clear rgb).paint g font) fb := by
  refine (fillRect_drew font rgb).imp fun _ fb' => ?_
  rintro ⟨b, d, hfb, hpaint, hdirty⟩
  refine ⟨b, d, hfb, fun x' y' hx' hy' => (hpaint x' y' hx' hy').trans (if_pos ?_), hdirty⟩
  unfold Box
  omega

theorem textScale_cases (g : Geometry) : g.textScale = 1 ∧ g.width < 1920 ∨ g.textScale = 2 ∨ g.textScale = 3 := by
  unfold Geometry.textScale
  split_ifs <;> simp
  omega

theorem blitChar_drew (ch : Char) (fg bg : Colour) : (blitChar font x y ch fg bg fb).Returns fun _ =>
    Drew ((Draw.blitChar x y ch fg bg).paint g font) fb := by
  by_cases hout : x ≥ g.width ∨ y ≥ g.height
  · rw [blitChar, if_pos hout]
    refine returns_pure (drew_none fun x' y' hx' hy' => if_neg ?_)
    unfold Box
    omega
  rw [blitChar, if_neg hout]
  rw [not_or, not_le, not_le] at hout
  -- Both ways of drawing the bitmap draw the same.
  have hloops : ∀ {m : Exec Empty (Fb g) Unit}, (m fb).Returns (fun _ =>
      Draws (Upto x (x + g.glyphWidth) y (y + g.glyphHeight) x) (charColour font g x y ch fg bg) fb) →
      ((m >>= fun _ => markDirtyRect x y g.glyphWidth g.glyphHeight) fb).Returns fun _ =>
        Drew ((Draw.blitChar x y ch fg bg).paint g font) fb := by
    intro m hm
    refine returns_bind hm fun _ fb₁ h₁ => markDirtyRect_returns.imp fun _ fb₂ h₂ => drew_of_draws h₁ h₂ ?_ ?_ ?_
    · intro x' y' hx' hy' hP
      unfold Upto at hP
      unfold Box
      omega
    · intro x' y' hx' hy' hP
      refine if_pos ?_
      unfold Upto at hP
      unfold Box
      omega
    · intro x' y' hx' hy' hP
      refine if_neg ?_
      unfold Upto at hP
      unfold Box
      omega
  by_cases hscale : g.textScale = 1
  · have hnarrow : g.width < 1920 := by
      have := textScale_cases g
      omega
    rw [if_pos hscale, blitFast_eq font hout.1 hout.2 (by omega), ← hscale]
    exact hloops (blitScaled_draws font rfl)
  · rw [if_neg hscale]
    exact hloops (blitScaled_draws font rfl)

theorem scrollUpBounded_drew {maxY pixels : ℕ} (font : ℕ → ℕ → BitVec 8) (rgb : Colour) (hmax : maxY ≤ g.height) :
    (scrollUpBounded maxY pixels rgb fb).Returns fun _ => Drew ((Draw.scrollUpBounded maxY pixels rgb).paint g font) fb := by
  by_cases hnone : pixels = 0 ∨ pixels ≥ maxY
  · rw [scrollUpBounded, if_pos hnone]
    exact returns_pure (drew_none fun x' y' _ _ => if_pos hnone)
  rw [scrollUpBounded, if_neg hnone, min_eq_left hmax]
  rw [sub_of_le (by omega), pure_bind]
  have hfits : pixels * g.pitch + (maxY - pixels) * g.pitch ≤ g.pitch * g.height := by
    rw [← Nat.add_mul, Nat.mul_comm g.pitch]
    exact Nat.mul_le_mul_right _ (by omega)
  rw [if_pos hfits, modify_bind]
  refine returns_bind (fillRect_drew font rgb) fun _ fb₁ h₁ => markDirtyRect_returns.imp fun _ fb₂ h₂ => ?_
  obtain ⟨b, d, rfl, hpaint, hdirty⟩ := h₁
  obtain ⟨d', rfl, hd'⟩ := h₂
  have hpixel : ∀ x' y', x' < g.width → y' < g.height → g.pixel b x' y' = if maxY - pixels ≤ y' ∧ y' < maxY then rgb
      else g.pixel fb.back x' (if y' < maxY - pixels then y' + pixels else y') := by
    intro x' y' hx' hy'
    rw [hpaint x' y' hx' hy', ← Frame.pixel_copyWithin hx']
    refine if_congr ?_ rfl rfl
    unfold Box
    omega
  refine ⟨b, d', rfl, fun x' y' hx' hy' => ?_, fun x' y' hx' hy' hor => hd' x' y' hx' hy' ?_⟩
  · rw [hpixel x' y' hx' hy']
    dsimp only [Draw.paint]
    split_ifs <;> first | rfl | omega
  · rcases hor with hold | hne
    · exact Or.inl (hdirty x' y' hx' hy' (Or.inl hold))
    · refine Or.inr ?_
      by_contra hbox
      refine hne ?_
      unfold Box at hbox
      rw [hpixel x' y' hx' hy', if_neg (by omega), if_neg (by omega)]

theorem exec_drew {d : Draw} (hd : d.Valid g) : (d.exec g font fb).Returns fun _ => Drew (d.paint g font) fb := by
  cases d with
  | putPixel x y rgb => exact putPixel_drew rgb
  | fillRect x y w h rgb => exact fillRect_drew font rgb
  | clear rgb => exact clear_drew rgb
  | blitChar x y ch fg bg => exact blitChar_drew ch fg bg
  | scrollUpBounded maxY pixels rgb => exact scrollUpBounded_drew font rgb hd

end Calls

/-! ### Frames -/

section Frames

variable {g : Geometry} {font : ℕ → ℕ → BitVec 8} {fb fb₁ : Fb g} {img : Image}

open Exec

def ShowsImage (g : Geometry) (b : ℕ → Colour) (img : Image) : Prop :=
  ∀ x y, x < g.width → y < g.height → g.pixel b x y = img x y

def frame (g : Geometry) (font : ℕ → ℕ → BitVec 8) (draws : List Draw) : Exec Empty (Fb g) Unit := do
  draws.forM (Draw.exec g font)
  commit
  present

def paintAll (g : Geometry) (font : ℕ → ℕ → BitVec 8) (draws : List Draw) (img : Image) : Image :=
  draws.foldl (fun img d => d.paint g font img) img

def DirtyRect.Rows (d : DirtyRect g) (y x' y' : ℕ) : Prop := d.x0 ≤ x' ∧ x' < d.x1 ∧ d.y0 ≤ y' ∧ y' < y

theorem copyRect_returns {src : ℕ → Colour} {d : DirtyRect g} {f : ℕ → Exec Empty (Fb g) Bool} {put : (ℕ → Colour) → Fb g}
    (hf : ∀ y b, y < g.height → f y (put b) = .ok true (put (Frame.copyRun src b (y * g.pitch + d.x0) (d.x1 - d.x0))))
    (b : ℕ → Colour) : (forRange d.y0 d.y1 f (put b)).Returns fun _ fb' =>
      ∃ b', fb' = put b' ∧ g.Paints (d.Rows d.y1) (g.pixel src) b b' := by
  refine returns_forRange (I := fun y fb' => ∃ b', fb' = put b' ∧ g.Paints (d.Rows y) (g.pixel src) b b') d.y0_le
    ⟨b, rfl, .none fun x y _ _ => by unfold DirtyRect.Rows; omega⟩ ?_ fun _ h => h
  rintro y _ hlo hhi ⟨b', rfl, hb'⟩
  have hx := d.x0_le
  have hlen : d.x0 + (d.x1 - d.x0) ≤ g.width := by have := d.x1_le; omega
  refine ⟨true, _, hf y b' (lt_of_lt_of_le hhi d.y1_le), _, rfl, hb'.copyRun hlen fun x' y' => ?_⟩
  unfold DirtyRect.Rows
  omega

theorem commit_returns (fb : Fb g) : (commit fb).Returns fun _ fb' => if fb.dirty.any then ∃ b,
    fb' = { fb with readyDirty := fb.dirty, dirty := .empty, back := b, presentBuf := fb.back, frameReady := true } ∧
    g.Paints (fb.dirty.Rows fb.dirty.y1) (g.pixel fb.back) fb.presentBuf b else fb' = fb := by
  rw [commit, get_bind]
  by_cases hany : fb.dirty.any = true
  · simp only [if_pos hany, if_neg (show ¬ (fb.dirty.any = false ∧ fb.frameReady = false) by simp [hany])]
    rw [modify_bind]
    let swapped : (ℕ → Colour) → Fb g := fun b =>
      { fb with readyDirty := fb.dirty, dirty := .empty, back := b, presentBuf := fb.back }
    have hcopy : ∀ y b, y < g.height → (do
        let row ← mul 32 y g.pitch
        let len ← sub fb.dirty.x1 fb.dirty.x0
        modify fun fb' : Fb g => { fb' with back := Frame.copyRun fb'.presentBuf fb'.back (row + fb.dirty.x0) len }
        pure true : Exec Empty (Fb g) Bool) (swapped b) =
        .ok true (swapped (Frame.copyRun fb.back b (y * g.pitch + fb.dirty.x0) (fb.dirty.x1 - fb.dirty.x0))) := by
      intro y b hy
      rw [mul_row hy, sub_of_le fb.dirty.x0_le]
      rfl
    refine returns_bind (copyRect_returns hcopy fb.presentBuf) ?_
    rintro _ _ ⟨b, rfl, hb⟩
    exact returns_modify ⟨b, rfl, hb⟩
  · simp only [if_neg hany]
    split_ifs
    · exact returns_pure rfl
    · exact returns_pure rfl

theorem fastBlitRow_eq (src dst : ℕ → Colour) (off count : ℕ) :
    fastBlitRow src dst off count = Frame.copyRun src dst off count := by
  funext i
  unfold fastBlitRow Frame.copyRun
  by_cases hzero : count = 0
  · rw [if_pos hzero, if_neg (by omega)]
  rw [if_neg hzero]
  by_cases hodd : count % 2 > 0
  · rw [if_pos hodd]
    by_cases hlast : i = off + (count - 1)
    · rw [hlast, Function.update_self, if_pos (by omega)]
    · rw [Function.update_of_ne hlast]
      exact if_congr (by omega) rfl rfl
  · rw [if_neg hodd]
    exact if_congr (by omega) rfl rfl

theorem present_returns (fb : Fb g) : (present fb).Returns fun _ fb' => if fb.frameReady then ∃ b,
    fb' = { fb with front := b, frameReady := false, readyDirty := .empty } ∧
    g.Paints (fb.readyDirty.Rows fb.readyDirty.y1) (g.pixel fb.presentBuf) fb.front b else fb' = fb := by
  rw [present, get_bind]
  by_cases hready : fb.frameReady = true
  · simp only [if_pos hready]
    have hmmio : (presentMmio fb).Returns fun _ fb' => ∃ b, fb' = { fb with front := b } ∧
        g.Paints (fb.readyDirty.Rows fb.readyDirty.y1) (g.pixel fb.presentBuf) fb.front b := by
      rw [presentMmio, get_bind, sub_of_le fb.readyDirty.x0_le]
      have hcopy : ∀ y b, y < g.height → (do
          let row ← mul 32 y g.pitch
          modify fun fb' : Fb g => { fb' with
            front := fastBlitRow fb'.presentBuf fb'.front (row + fb.readyDirty.x0) (fb.readyDirty.x1 - fb.readyDirty.x0) }
          pure true : Exec Empty (Fb g) Bool) { fb with front := b } = .ok true { fb with
            front := Frame.copyRun fb.presentBuf b (y * g.pitch + fb.readyDirty.x0)
              (fb.readyDirty.x1 - fb.readyDirty.x0) } := by
        intro y b hy
        rw [mul_row hy, pure_bind, modify_bind, fastBlitRow_eq]
        rfl
      exact copyRect_returns hcopy fb.front
    refine returns_bind hmmio ?_
    rintro _ _ ⟨b, rfl, hb⟩
    exact returns_modify ⟨b, rfl, hb⟩
  · simp only [if_neg hready]
    exact returns_pure rfl

structure Pictures where
  drawn : Image
  committed : Image

structure Held (fb : Fb g) (p : Pictures) : Prop where
  back : ShowsImage g fb.back p.drawn
  presentBuf : ShowsImage g fb.presentBuf p.committed
  clean : ∀ x y, x < g.width → y < g.height → ¬ fb.dirty.Has x y → g.pixel fb.presentBuf x y = g.pixel fb.back x y
  front : ∀ x y, x < g.width → y < g.height → ¬ (fb.frameReady = true ∧ fb.readyDirty.Has x y) →
    g.pixel fb.front x y = p.committed x y

namespace Held

variable {p : Pictures}

theorem start (hfront : ShowsImage g fb.front img) (hpresent : ShowsImage g fb.presentBuf img)
    (hback : ShowsImage g fb.back img) : Held fb ⟨img, img⟩ :=
  ⟨hback, hpresent, fun x y hx hy _ => (hpresent x y hx hy).trans (hback x y hx hy).symm, fun x y hx hy _ => hfront x y hx hy⟩

theorem draw {d : Draw} (h : Held fb p) (hd : d.Valid g) : (d.exec g font fb).Returns fun _ fb' =>
    Held fb' { p with drawn := d.paint g font p.drawn } ∧ fb'.front = fb.front := by
  refine (exec_drew hd).imp ?_
  rintro _ _ ⟨b, r, rfl, hpaint, hdirty⟩
  refine ⟨⟨fun x y hx hy => ?_, h.presentBuf, fun x y hx hy hclean => ?_, h.front⟩, rfl⟩
  · rw [hpaint x y hx hy]
    exact Draw.paint_congr hd h.back x y hx hy
  · have hsame : g.pixel b x y = g.pixel fb.back x y := by
      by_contra hne
      exact hclean (hdirty x y hx hy (.inr hne))
    rw [hsame]
    exact h.clean x y hx hy fun hold => hclean (hdirty x y hx hy (.inl hold))

theorem commit (h : Held fb p) (hshown : fb.dirty.any = true → ∀ x y, x < g.width → y < g.height → ¬ fb.dirty.Has x y →
      g.pixel fb.front x y = p.committed x y) : (commit fb).Returns fun _ fb' => Held fb' { p with committed := p.drawn } := by
  refine (commit_returns fb).imp fun _ fb' h' => ?_
  -- what is not dirty has been committed before
  have hdrawn : ∀ x y, x < g.width → y < g.height → ¬ fb.dirty.Has x y → p.committed x y = p.drawn x y :=
    fun x y hx hy hnot => by rw [← h.presentBuf x y hx hy, h.clean x y hx hy hnot, h.back x y hx hy]
  by_cases hany : fb.dirty.any = true
  · rw [if_pos hany] at h'
    obtain ⟨b, rfl, hb⟩ := h'
    have hback : g.Same b fb.back := by
      intro x y hx hy
      by_cases hin : fb.dirty.Rows fb.dirty.y1 x y
      · exact hb.inside x y hx hy hin
      · rw [hb.outside x y hx hy hin]
        exact h.clean x y hx hy fun hhas => hin hhas.2
    refine ⟨fun x y hx hy => (hback x y hx hy).trans (h.back x y hx hy), h.back,
      fun x y hx hy _ => (hback x y hx hy).symm, fun x y hx hy hnot => ?_⟩
    have hclean : ¬ fb.dirty.Has x y := fun hhas => hnot ⟨rfl, hhas⟩
    exact (hshown hany x y hx hy hclean).trans (hdrawn x y hx hy hclean)
  · rw [if_neg hany] at h'
    subst h'
    have hclean : ∀ x y, ¬ fb'.dirty.Has x y := fun x y hhas => hany hhas.1
    exact ⟨h.back, fun x y hx hy => (h.presentBuf x y hx hy).trans (hdrawn x y hx hy (hclean x y)), h.clean,
      fun x y hx hy hnot => (h.front x y hx hy hnot).trans (hdrawn x y hx hy (hclean x y))⟩

theorem present (h : Held fb p) : (present fb).Returns fun _ fb' => Held fb' p ∧ ShowsImage g fb'.front p.committed := by
  refine (present_returns fb).imp fun _ fb' h' => ?_
  by_cases hready : fb.frameReady = true
  · rw [if_pos hready] at h'
    obtain ⟨b, rfl, hb⟩ := h'
    have hfront : ShowsImage g b p.committed := by
      intro x y hx hy
      by_cases hin : fb.readyDirty.Rows fb.readyDirty.y1 x y
      · exact (hb.inside x y hx hy hin).trans (h.presentBuf x y hx hy)
      · exact (hb.outside x y hx hy hin).trans (h.front x y hx hy fun hwait => hin hwait.2.2)
    exact ⟨⟨h.back, h.presentBuf, h.clean, fun x y hx hy _ => hfront x y hx hy⟩, hfront⟩
  · rw [if_neg hready] at h'
    subst h'
    exact ⟨h, fun x y hx hy => h.front x y hx hy fun hwait => hready hwait.1⟩

theorem draws {draws : List Draw} (hvalid : ∀ d ∈ draws, d.Valid g) (h : Held fb p) : (draws.forM (Draw.exec g font) fb).Returns
    fun _ fb' => Held fb' { p with drawn := paintAll g font draws p.drawn } ∧ fb'.front = fb.front := by
  refine (returns_forM (I := fun rest fb' => (∀ d ∈ rest, d.Valid g) ∧ fb'.front = fb.front ∧
    ∃ img, Held fb' { p with drawn := img } ∧ paintAll g font rest img = paintAll g font draws p.drawn)
    ⟨hvalid, rfl, p.drawn, h, rfl⟩ ?_).imp ?_
  · rintro d rest fb₁ ⟨hvalid, hfront, img, h', hall⟩
    exact (h'.draw (hvalid d List.mem_cons_self)).imp fun _ fb₂ h₂ =>
      ⟨fun d' hd' => hvalid d' (List.mem_cons_of_mem _ hd'), h₂.2.trans hfront, _, h₂.1, hall⟩
  · rintro _ fb' ⟨-, hfront, img, h', hall⟩
    exact ⟨hall ▸ h', hfront⟩

theorem frame {draws : List Draw} (hvalid : ∀ d ∈ draws, d.Valid g) (h : Held fb ⟨img, img⟩)
    (hfront : ShowsImage g fb.front img) : (frame g font draws fb).Returns fun _ fb' =>
    Held fb' ⟨paintAll g font draws img, paintAll g font draws img⟩ ∧ ShowsImage g fb'.front (paintAll g font draws img) :=
  returns_bind (h.draws hvalid) fun _ _ h₁ =>
    returns_bind (h₁.1.commit fun _ x y hx hy _ => h₁.2 ▸ hfront x y hx hy) fun _ _ h₂ => h₂.present

end Held

/-- **What is drawn is what is shown**: however the calls are grouped into frames, after each of them the three buffers show
the picture that all calls so far have drawn. -/
theorem shown_is_drawn (frames : List (List Draw)) (hvalid : ∀ draws ∈ frames, ∀ d ∈ draws, d.Valid g)
    (hfront : ShowsImage g fb.front img) (hpresent : ShowsImage g fb.presentBuf img) (hback : ShowsImage g fb.back img) :
    (frames.forM (frame g font) fb).Returns fun _ fb' => ShowsImage g fb'.front (paintAll g font frames.flatten img) ∧
      ShowsImage g fb'.presentBuf (paintAll g font frames.flatten img) ∧
      ShowsImage g fb'.back (paintAll g font frames.flatten img) := by
  refine (returns_forM (I := fun rest fb' => (∀ draws ∈ rest, ∀ d ∈ draws, d.Valid g) ∧ ∃ img', Held fb' ⟨img', img'⟩ ∧
      ShowsImage g fb'.front img' ∧ paintAll g font rest.flatten img' = paintAll g font frames.flatten img)
    ⟨hvalid, img, .start hfront hpresent hback, hfront, rfl⟩ ?_).imp ?_
  · rintro draws rest fb₁ ⟨hvalid, img', h, hfront', hall⟩
    refine (h.frame (hvalid draws List.mem_cons_self) hfront').imp fun _ fb₂ h₂ =>
      ⟨fun draws' hmem => hvalid draws' (List.mem_cons_of_mem _ hmem), _, h₂.1, h₂.2, ?_⟩
    rw [← hall, List.flatten_cons, paintAll, paintAll, paintAll, List.foldl_append]
  · rintro _ fb' ⟨-, img', h, hfront', hall⟩
    rw [← hall]
    exact ⟨hfront', h.presentBuf, h.back⟩

def black (g : Geometry) : Fb g :=
  { front := fun _ => 0, back := fun _ => 0, presentBuf := fun _ => 0, dirty := .empty, frameReady := false,
    readyDirty := .empty }

def sized (w h : ℕ) (hw : w < 2 ^ 32) (hh : h < 2 ^ 32) (hsize : w * h < 2 ^ 32) : Geometry :=
  { width := w, height := h, pitch := w, width_le := le_rfl, pitch_lt := hw, height_lt := hh, size_lt := hsize }

def tiny : Geometry :=
  { width := 2, height := 2, pitch := 3, width_le := by decide, pitch_lt := by decide, height_lt := by decide,
    size_lt := by decide }

theorem shown_is_drawn_tiny :
    (([[.fillRect 0 1 2 9 7], [.scrollUpBounded 2 1 0]] : List (List Draw)).forM (frame tiny fun _ _ => 0)
      { front := fun _ => 0, back := fun _ => 0, presentBuf := fun _ => 0, dirty := .empty, frameReady := false,
        readyDirty := .empty }).Returns fun _ fb' => tiny.pixel fb'.front 0 0 = 7 ∧ tiny.pixel fb'.front 0 1 = 0 := by
  have hblack : ShowsImage tiny (fun _ => 0) fun _ _ => 0 := fun _ _ _ _ => rfl
  refine (shown_is_drawn _ (by decide) hblack hblack hblack).imp fun _ fb' h => ⟨?_, ?_⟩
  · exact (h.1 0 0 (by decide) (by decide)).trans (by decide)
  · exact (h.1 0 1 (by decide) (by decide)).trans (by decide)

/-- **The two paths of `blit_char` draw the same** with the scale 1, whatever the geometry: the same buffer and the same
dirty rectangle. -/
theorem blitFast_agrees (font : ℕ → ℕ → BitVec 8) (ch : Char) (fg bg : Colour) {x y : ℕ} (hx : x < g.width)
    (hy : y < g.height) (hright : x + 8 < 2 ^ 32) (fb : Fb g) :
    (blitFast font x y ch fg bg >>= fun _ => markDirtyRect x y CHAR_WIDTH CHAR_HEIGHT) fb =
      (blitScaled font 1 x y ch fg bg >>= fun _ => markDirtyRect x y (CHAR_WIDTH * 1) (CHAR_HEIGHT * 1)) fb := by
  rw [blitFast_eq font hx hy hright, Nat.mul_one, Nat.mul_one]

/-- A character that is cut on the right and below. -/
theorem blitFast_agrees_tiny : (blitFast (fun _ _ => 0x81) 1 1 'a' 7 0 >>= fun _ => markDirtyRect 1 1 8 16) (black tiny) =
    (blitScaled (fun _ _ => 0x81) 1 1 1 'a' 7 0 >>= fun _ => markDirtyRect 1 1 8 16) (black tiny) :=
  blitFast_agrees _ _ _ _ (by decide) (by decide) (by decide) _

end Frames

end RustKernel.Display
