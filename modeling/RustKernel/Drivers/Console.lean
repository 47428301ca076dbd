import RustKernel.Drivers.Fb

/-!
# The console

`Console` of `drivers/console.rs`: a text terminal on the framebuffer. It knows where the next character goes and the colours
it is written in; the characters themselves are pixels only.
-/

namespace RustKernel.Display

open Lib Exec Lib.Raster

structure Console where
  cols : ℕ
  rows : ℕ
  glyphW : ℕ
  glyphH : ℕ
  cx : ℕ
  cy : ℕ
  fg : Colour
  bg : Colour

def Geometry.cols (g : Geometry) : ℕ := g.width / g.glyphWidth
def Geometry.rows (g : Geometry) : ℕ := g.height / g.glyphHeight - 2

section Model

variable {g : Geometry} (font : ℕ → ℕ → BitVec 8)

open Exec

def newline (c : Console) : Exec Empty (Fb g) Console := do
  let cy ← add 32 c.cy 1
  if cy ≥ c.rows then
    let maxY ← mul 32 c.rows c.glyphH
    scrollUpBounded maxY c.glyphH c.bg
    let cy ← sub c.rows 1
    pure { c with cx := 0, cy }
  else pure { c with cx := 0, cy }

def wrap (c : Console) : Exec Empty (Fb g) Console := if c.cx ≥ c.cols then newline c else pure c

def putGlyph (c : Console) (ch : Char) : Exec Empty (Fb g) Console := do
  let c ← wrap c
  let x ← mul 32 c.cx c.glyphW
  let y ← mul 32 c.cy c.glyphH
  blitChar font x y ch c.fg c.bg
  let cx ← add 32 c.cx 1
  pure { c with cx }

def tabLoop (next : ℕ) : ℕ → Console → Exec Empty (Fb g) Console
  | 0, _ => diverge
  | fuel + 1, c =>
    if c.cx < next ∧ c.cx < c.cols then do
      let c ← putGlyph font c ' '
      tabLoop next fuel c
    else pure c

def putChar (c : Console) (ch : Char) : Exec Empty (Fb g) Console :=
  if ch = '\n' then newline c
  else if ch = '\r' then pure { c with cx := 0 }
  else if ch = '\x08' then
    if c.cx > 0 then do
      let cx ← sub c.cx 1
      let x ← mul 32 cx c.glyphW
      let y ← mul 32 c.cy c.glyphH
      fillRect x y c.glyphW c.glyphH c.bg
      pure { c with cx }
    else pure c
  else if ch = '\t' then do
    let stop ← add 32 (c.cx / 4) 1
    let next ← mul 32 stop 4
    tabLoop font next (next + 1) c
  else putGlyph font c ch

def writeString (c : Console) : List Char → Exec Empty (Fb g) Console
  | [] => pure c
  | ch :: s => do
    let c ← putChar font c ch
    writeString c s

inductive Input where
  | write (s : List Char)
  | setColors (fg bg : Colour)

def inputs (c : Console) : List Input → Exec Empty (Fb g) Console
  | [] => pure c
  | .write s :: is => do
    let c ← writeString font c s
    inputs c is
  | .setColors fg bg :: is => inputs { c with fg, bg } is

end Model

/-! ### A terminal -/

inductive Cell where
  | blank (colour : Colour)
  | char (ch : Char) (fg bg : Colour)
  deriving DecidableEq

structure Text where
  cell : ℕ → ℕ → Cell
  cx : ℕ
  cy : ℕ
  fg : Colour
  bg : Colour

namespace Text

variable (cols rows : ℕ)

def set (t : Text) (col row : ℕ) (v : Cell) : Text :=
  { t with cell := fun col' row' => if col' = col ∧ row' = row then v else t.cell col' row' }

def newline (t : Text) : Text :=
  if t.cy + 1 < rows then { t with cx := 0, cy := t.cy + 1 }
  else { t with cx := 0, cell := fun col row => if row + 1 < rows then t.cell col (row + 1) else .blank t.bg }

def put (t : Text) (ch : Char) : Text :=
  let t := if t.cx = cols then t.newline rows else t
  { t.set t.cx t.cy (.char ch t.fg t.bg) with cx := t.cx + 1 }

def back (t : Text) : Text :=
  if t.cx = 0 then t else { t.set (t.cx - 1) t.cy (.blank t.bg) with cx := t.cx - 1 }

def spaces : ℕ → Text → Text
  | 0, t => t
  | n + 1, t => spaces n (t.put cols rows ' ')

def char (t : Text) (ch : Char) : Text :=
  if ch = '\n' then t.newline rows
  else if ch = '\r' then { t with cx := 0 }
  else if ch = '\x08' then t.back
  else if ch = '\t' then t.spaces cols rows (min ((t.cx / 4 + 1) * 4) cols - t.cx)
  else t.put cols rows ch

def input (t : Text) : Input → Text
  | .write s => s.foldl (char cols rows) t
  | .setColors fg bg => { t with fg, bg }

end Text

/-! ### The console refines it -/

section Refinement

variable {g : Geometry} {font : ℕ → ℕ → BitVec 8} {t : Text} {fb₀ fb fb' : Fb g} {paint : Image → Image}

open Exec

theorem Geometry.textScale_pos (g : Geometry) : 0 < g.textScale := by
  have := textScale_cases g
  omega

theorem Geometry.glyphWidth_pos (g : Geometry) : 0 < g.glyphWidth := Nat.mul_pos (by decide) g.textScale_pos

theorem Geometry.glyphHeight_pos (g : Geometry) : 0 < g.glyphHeight := Nat.mul_pos (by decide) g.textScale_pos

theorem Geometry.cols_mul_le (g : Geometry) : g.cols * g.glyphWidth ≤ g.width := Nat.div_mul_le_self _ _

theorem Geometry.rows_mul_le (g : Geometry) : g.rows * g.glyphHeight ≤ g.height :=
  (Nat.mul_le_mul_right _ (Nat.sub_le _ _)).trans (Nat.div_mul_le_self _ _)

def Cell.colour (g : Geometry) (font : ℕ → ℕ → BitVec 8) : Cell → ℕ → ℕ → Colour
  | .blank c, _, _ => c
  | .char ch fg bg, dx, dy => cellColour font g.textScale ch fg bg dx dy

def picture (g : Geometry) (font : ℕ → ℕ → BitVec 8) (cell : ℕ → ℕ → Cell) : Image := fun x y =>
  (cell (x / g.glyphWidth) (y / g.glyphHeight)).colour g font (x % g.glyphWidth) (y % g.glyphHeight)

@[simps]
def consoleOf (g : Geometry) (t : Text) : Console :=
  { cols := g.cols, rows := g.rows, glyphW := g.glyphWidth, glyphH := g.glyphHeight, cx := t.cx, cy := t.cy, fg := t.fg,
    bg := t.bg }

structure Renders (font : ℕ → ℕ → BitVec 8) (t : Text) (fb₀ fb : Fb g) : Prop where
  cx_le : t.cx ≤ g.cols
  cy_lt : t.cy < g.rows
  area : ∀ x y, x < g.cols * g.glyphWidth → y < g.rows * g.glyphHeight → g.pixel fb.back x y = picture g font t.cell x y
  below : ∀ x y, x < g.width → g.rows * g.glyphHeight ≤ y → y < g.height → g.pixel fb.back x y = g.pixel fb₀.back x y

theorem Renders.drew {t' : Text} (h : Renders font t fb₀ fb) (hdrew : Drew paint fb fb')
    (hcx : t'.cx ≤ g.cols) (hcy : t'.cy < g.rows)
    (harea : ∀ x y, x < g.cols * g.glyphWidth → y < g.rows * g.glyphHeight →
      paint (g.pixel fb.back) x y = picture g font t'.cell x y)
    (hbelow : ∀ x y, g.rows * g.glyphHeight ≤ y → paint (g.pixel fb.back) x y = g.pixel fb.back x y) :
    Renders font t' fb₀ fb' := by
  obtain ⟨b, d, rfl, hpaint, -⟩ := hdrew
  have hwidth := g.cols_mul_le
  have hheight := g.rows_mul_le
  refine ⟨hcx, hcy, fun x y hx hy => ?_, fun x y hx hy hlt => ?_⟩
  · rw [hpaint x y (by omega) (by omega)]
    exact harea x y hx hy
  · rw [hpaint x y hx hlt, hbelow x y hy]
    exact h.below x y hx hy hlt

theorem box_cell {w h col row x y : ℕ} (hw : 0 < w) (hh : 0 < h) :
    Box (col * w) (row * h) w h x y ↔ x / w = col ∧ y / h = row := by
  rw [Nat.div_eq_iff hw, Nat.div_eq_iff hh]
  unfold Box
  omega

theorem Renders.cell {c : Image} {v : Cell} {cx col row : ℕ} (h : Renders font t fb₀ fb)
    (hdrew : Drew paint fb fb') (hcx : cx ≤ g.cols) (hrow : row < g.rows)
    (hpaint : ∀ img x y, paint img x y =
      if Box (col * g.glyphWidth) (row * g.glyphHeight) g.glyphWidth g.glyphHeight x y then c x y else img x y)
    (hc : ∀ x y, x / g.glyphWidth = col → y / g.glyphHeight = row →
      c x y = v.colour g font (x % g.glyphWidth) (y % g.glyphHeight)) :
    Renders font { t.set col row v with cx := cx } fb₀ fb' := by
  have hbox : ∀ x y, Box (col * g.glyphWidth) (row * g.glyphHeight) g.glyphWidth g.glyphHeight x y ↔
      x / g.glyphWidth = col ∧ y / g.glyphHeight = row := fun x y => box_cell g.glyphWidth_pos g.glyphHeight_pos
  refine h.drew hdrew hcx h.cy_lt (fun x y hx hy => ?_) fun x y hy => ?_
  · rw [hpaint, picture]
    dsimp only [Text.set]
    by_cases hhere : x / g.glyphWidth = col ∧ y / g.glyphHeight = row
    · rw [if_pos ((hbox x y).mpr hhere), if_pos hhere, hc x y hhere.1 hhere.2]
    · rw [if_neg (fun hb => hhere ((hbox x y).mp hb)), if_neg hhere]
      exact h.area x y hx hy
  · rw [hpaint, if_neg]
    intro hb
    have hlt := Nat.mul_le_mul_right g.glyphHeight (show row + 1 ≤ g.rows from hrow)
    rw [Nat.add_mul] at hlt
    unfold Box at hb
    omega

theorem newline_renders (hrows : 2 ≤ g.rows) (h : Renders font t fb₀ fb) : (newline (consoleOf g t) fb).Returns fun c fb' => c =
    consoleOf g (t.newline g.rows) ∧ Renders font (t.newline g.rows) fb₀ fb' ∧ (t.newline g.rows).cx = 0 := by
  have hcy := h.cy_lt
  have hgh := g.glyphHeight_pos
  have hmul := g.rows_mul_le
  have hheight := g.height_lt
  have hle : g.rows ≤ g.rows * g.glyphHeight := Nat.le_mul_of_pos_right _ hgh
  rw [newline]
  simp only [consoleOf_cols, consoleOf_rows, consoleOf_glyphW, consoleOf_glyphH, consoleOf_cy, consoleOf_fg, consoleOf_bg]
  rw [add_of_lt (by omega), pure_bind]
  by_cases hlast : t.cy + 1 < g.rows
  · rw [if_neg (not_le.mpr hlast), Text.newline, if_pos hlast]
    exact returns_pure ⟨rfl, ⟨Nat.zero_le _, hlast, h.area, h.below⟩, rfl⟩
  · rw [if_pos (not_lt.mp hlast), mul_of_lt (lt_of_le_of_lt hmul hheight), pure_bind]
    refine returns_bind (scrollUpBounded_drew font _ hmul) fun _ fb' hdrew => ?_
    rw [sub_of_le (by omega), Text.newline, if_neg hlast]
    have hrow : t.cy = g.rows - 1 := by omega
    refine returns_pure ⟨?_, ?_, rfl⟩
    · rw [consoleOf, hrow]
    -- The rows move up by one, and the last one is cleared.
    have htwo : g.glyphHeight < g.rows * g.glyphHeight := by
      have := Nat.mul_le_mul_right g.glyphHeight hrows
      omega
    refine h.drew hdrew (Nat.zero_le _) hcy (fun x y hx hy => ?_) fun x y hy => ?_
    · have hnone : ¬ (g.glyphHeight = 0 ∨ g.glyphHeight ≥ g.rows * g.glyphHeight) := by omega
      have hup : (y + g.glyphHeight) / g.glyphHeight = y / g.glyphHeight + 1 := Nat.add_div_right y hgh
      have hiff : y + g.glyphHeight < g.rows * g.glyphHeight ↔ y / g.glyphHeight + 1 < g.rows := by
        rw [← hup, Nat.div_lt_iff_lt_mul hgh]
      dsimp only [Draw.paint, picture]
      rw [if_neg (by exact hnone)]
      by_cases hmove : y + g.glyphHeight < g.rows * g.glyphHeight
      · rw [if_pos (by exact hmove), if_pos (hiff.mp hmove), h.area x (y + g.glyphHeight) hx hmove, picture, hup,
          Nat.add_mod_right]
      · rw [if_neg (by exact hmove), if_pos hy, if_neg (fun hlt => hmove (hiff.mpr hlt))]
        rfl
    · dsimp only [Draw.paint]
      split_ifs <;> first | rfl | omega

theorem wrap_renders (hcols : 1 ≤ g.cols) (hrows : 2 ≤ g.rows) (h : Renders font t fb₀ fb) :
    (wrap (consoleOf g t) fb).Returns fun c fb' => ∃ t₁, t₁ = (if t.cx = g.cols then t.newline g.rows else t) ∧
      c = consoleOf g t₁ ∧ Renders font t₁ fb₀ fb' ∧ t₁.cx < g.cols := by
  have hcx := h.cx_le
  simp only [wrap, consoleOf_cx, consoleOf_cols]
  by_cases hfull : t.cx = g.cols
  · rw [if_pos hfull, if_pos (Nat.le_of_eq hfull.symm)]
    exact (newline_renders hrows h).imp fun c fb' hc => ⟨_, rfl, hc.1, hc.2.1, by omega⟩
  · rw [if_neg hfull, if_neg (by omega)]
    exact returns_pure ⟨t, rfl, rfl, h, by omega⟩

theorem putGlyph_renders (hcols : 1 ≤ g.cols) (hrows : 2 ≤ g.rows) (ch : Char) (h : Renders font t fb₀ fb) :
    (putGlyph font (consoleOf g t) ch fb).Returns fun c fb' => c = consoleOf g (t.put g.cols g.rows ch) ∧
      Renders font (t.put g.cols g.rows ch) fb₀ fb' := by
  refine returns_bind (wrap_renders hcols hrows h) ?_
  rintro _ fb₁ ⟨t₁, ht₁, rfl, h₁, hcx⟩
  have hx : t₁.cx * g.glyphWidth < 2 ^ 32 :=
    lt_of_le_of_lt ((Nat.mul_le_mul_right _ hcx.le).trans (g.cols_mul_le.trans g.width_le)) g.pitch_lt
  have hy : t₁.cy * g.glyphHeight < 2 ^ 32 :=
    lt_of_le_of_lt ((Nat.mul_le_mul_right _ h₁.cy_lt.le).trans g.rows_mul_le) g.height_lt
  have hsucc : t₁.cx + 1 < 2 ^ 32 := by
    have : g.cols ≤ g.cols * g.glyphWidth := Nat.le_mul_of_pos_right _ g.glyphWidth_pos
    have := g.cols_mul_le.trans g.width_le
    have := g.pitch_lt
    omega
  simp only [consoleOf_cols, consoleOf_rows, consoleOf_glyphW, consoleOf_glyphH, consoleOf_cx, consoleOf_cy, consoleOf_fg,
    consoleOf_bg]
  rw [mul_of_lt hx, pure_bind, mul_of_lt hy, pure_bind]
  refine returns_bind (blitChar_drew ch t₁.fg t₁.bg) fun _ fb₂ hdrew => ?_
  rw [add_of_lt hsucc, Text.put, ← ht₁]
  refine returns_pure ⟨rfl, h₁.cell hdrew hcx h₁.cy_lt (fun _ _ _ => rfl) fun x y hcol hrow => ?_⟩
  rw [charColour, ← hcol, ← hrow, Nat.mul_comm, ← Nat.mod_eq_sub_mul_div, Nat.mul_comm, ← Nat.mod_eq_sub_mul_div]
  rfl

theorem tabLoop_renders (hcols : 1 ≤ g.cols) (hrows : 2 ≤ g.rows) {next : ℕ} : ∀ (fuel : ℕ) {t : Text} {fb : Fb g},
    Renders font t fb₀ fb → min next g.cols - t.cx < fuel →
    (tabLoop font next fuel (consoleOf g t) fb).Returns fun c fb' =>
      c = consoleOf g (t.spaces g.cols g.rows (min next g.cols - t.cx)) ∧
        Renders font (t.spaces g.cols g.rows (min next g.cols - t.cx)) fb₀ fb'
  | 0, _, _, _, hfuel => absurd hfuel (Nat.not_lt_zero _)
  | fuel + 1, t, fb, h, hfuel => by
    rw [tabLoop]
    by_cases hgo : t.cx < next ∧ t.cx < g.cols
    · rw [if_pos (by exact hgo)]
      refine returns_bind (putGlyph_renders hcols hrows ' ' h) ?_
      rintro _ fb₁ ⟨rfl, h₁⟩
      have hput : (t.put g.cols g.rows ' ').cx = t.cx + 1 := by simp only [Text.put, if_neg hgo.2.ne]
      have hcount : min next g.cols - t.cx = min next g.cols - (t.put g.cols g.rows ' ').cx + 1 := by omega
      rw [hcount]
      exact tabLoop_renders hcols hrows fuel h₁ (by omega)
    · rw [if_neg (by exact hgo)]
      have hnone : min next g.cols - t.cx = 0 := by omega
      rw [hnone]
      exact returns_pure ⟨rfl, h⟩

theorem back_renders (h : Renders font t fb₀ fb) (hcx : 0 < t.cx) :
    ((do
      let cx ← sub t.cx 1
      let x ← mul 32 cx g.glyphWidth
      let y ← mul 32 t.cy g.glyphHeight
      fillRect x y g.glyphWidth g.glyphHeight t.bg
      pure { consoleOf g t with cx } : Exec Empty (Fb g) Console) fb).Returns fun c fb' =>
      c = consoleOf g t.back ∧ Renders font t.back fb₀ fb' := by
  have hle := h.cx_le
  have hx : (t.cx - 1) * g.glyphWidth < 2 ^ 32 :=
    lt_of_le_of_lt ((Nat.mul_le_mul_right _ (by omega)).trans (g.cols_mul_le.trans g.width_le)) g.pitch_lt
  have hy : t.cy * g.glyphHeight < 2 ^ 32 :=
    lt_of_le_of_lt ((Nat.mul_le_mul_right _ h.cy_lt.le).trans g.rows_mul_le) g.height_lt
  rw [sub_of_le hcx, pure_bind, mul_of_lt hx, pure_bind, mul_of_lt hy, pure_bind]
  refine returns_bind (fillRect_drew font t.bg) fun _ fb₁ hdrew => ?_
  rw [Text.back, if_neg (by omega)]
  exact returns_pure ⟨rfl, h.cell hdrew (by omega) h.cy_lt (fun _ _ _ => rfl) fun _ _ _ _ => rfl⟩

theorem putChar_renders (hcols : 1 ≤ g.cols) (hrows : 2 ≤ g.rows) (ch : Char) (h : Renders font t fb₀ fb) :
    (putChar font (consoleOf g t) ch fb).Returns fun c fb' => c = consoleOf g (t.char g.cols g.rows ch) ∧
      Renders font (t.char g.cols g.rows ch) fb₀ fb' := by
  rw [putChar, Text.char]
  split_ifs with hnl hcr hbs hcx htab
  · exact (newline_renders hrows h).imp fun _ _ h' => ⟨h'.1, h'.2.1⟩
  · exact returns_pure ⟨rfl, Nat.zero_le _, h.cy_lt, h.area, h.below⟩
  · exact back_renders h hcx
  · rw [Text.back, if_pos (by simpa using hcx)]
    exact returns_pure ⟨rfl, h⟩
  · have hcx := h.cx_le
    have hwidth := g.cols_mul_le.trans g.width_le
    have hpitch := g.pitch_lt
    have hgw : 8 ≤ g.glyphWidth := Nat.le_mul_of_pos_right 8 g.textScale_pos
    have hlarge := Nat.mul_le_mul_left g.cols hgw
    simp only [consoleOf_cx]
    rw [add_of_lt (by omega), pure_bind, mul_of_lt (by omega)]
    exact tabLoop_renders hcols hrows _ h (by omega)
  · exact putGlyph_renders hcols hrows ch h

theorem writeString_renders (hcols : 1 ≤ g.cols) (hrows : 2 ≤ g.rows) : ∀ (s : List Char) {t : Text} {fb : Fb g},
    Renders font t fb₀ fb → (writeString font (consoleOf g t) s fb).Returns fun c fb' =>
      c = consoleOf g (s.foldl (Text.char g.cols g.rows) t) ∧ Renders font (s.foldl (Text.char g.cols g.rows) t) fb₀ fb'
  | [], _, _, h => returns_pure ⟨rfl, h⟩
  | ch :: s, t, fb, h => by
    refine returns_bind (putChar_renders hcols hrows ch h) ?_
    rintro _ fb₁ ⟨rfl, h₁⟩
    exact writeString_renders hcols hrows s h₁

theorem inputs_renders (hcols : 1 ≤ g.cols) (hrows : 2 ≤ g.rows) : ∀ (is : List Input) {t : Text} {fb : Fb g},
    Renders font t fb₀ fb → (inputs font (consoleOf g t) is fb).Returns fun c fb' =>
      c = consoleOf g (is.foldl (Text.input g.cols g.rows) t) ∧ Renders font (is.foldl (Text.input g.cols g.rows) t) fb₀ fb'
  | [], _, _, h => returns_pure ⟨rfl, h⟩
  | .write s :: is, t, fb, h => by
    refine returns_bind (writeString_renders hcols hrows s h) ?_
    rintro _ fb₁ ⟨rfl, h₁⟩
    exact inputs_renders hcols hrows is h₁
  | .setColors fg bg :: is, t, fb, h => by
    exact inputs_renders (t := { t with fg, bg }) hcols hrows is ⟨h.cx_le, h.cy_lt, h.area, h.below⟩

/-- **The console is a terminal**: starting from an area that shows some cells, whatever is written and however the colours
change, it shows the cells that the terminal has then; the cursor stays in the area, and nothing changes below it. -/
theorem console_renders (t : Text) (fb : Fb g) (is : List Input) (hcols : 1 ≤ g.cols) (hrows : 2 ≤ g.rows)
    (hcx : t.cx ≤ g.cols) (hcy : t.cy < g.rows)
    (harea : ∀ x y, x < g.cols * g.glyphWidth → y < g.rows * g.glyphHeight →
      g.pixel fb.back x y = picture g font t.cell x y) :
    (inputs font (consoleOf g t) is fb).Returns fun c fb' =>
      let t' := is.foldl (Text.input g.cols g.rows) t
      c = consoleOf g t' ∧ c.cx ≤ c.cols ∧ c.cy < c.rows ∧
        (∀ x y, x < g.cols * g.glyphWidth → y < g.rows * g.glyphHeight →
          g.pixel fb'.back x y = picture g font t'.cell x y) ∧
        ∀ x y, x < g.width → g.rows * g.glyphHeight ≤ y → y < g.height → g.pixel fb'.back x y = g.pixel fb.back x y := by
  refine (inputs_renders hcols hrows is ⟨hcx, hcy, harea, fun _ _ _ _ _ => rfl⟩).imp ?_
  rintro _ fb' ⟨rfl, h⟩
  exact ⟨rfl, h.cx_le, h.cy_lt, h.area, h.below⟩

def small : Geometry :=
  { width := 16, height := 64, pitch := 16, width_le := by decide, pitch_lt := by decide, height_lt := by decide,
    size_lt := by decide }

/-- Three characters and a newline: the first row scrolls away. -/
theorem console_renders_small :
    (inputs (g := small) (fun _ _ => 0xff)
      (consoleOf small { cell := fun _ _ => .blank 0, cx := 0, cy := 0, fg := 5, bg := 1 })
      [.write ['a', 'b', 'c'], .setColors 5 2, .write ['\n']]
      { front := fun _ => 0, back := fun _ => 0, presentBuf := fun _ => 0, dirty := .empty, frameReady := false,
        readyDirty := .empty }).Returns fun c fb' =>
        c.cx = 0 ∧ c.cy = 1 ∧ small.pixel fb'.back 0 0 = 5 ∧ small.pixel fb'.back 8 0 = 0 ∧
          small.pixel fb'.back 0 16 = 2 := by
  refine (console_renders _ _ _ (by decide) (by decide) (by decide) (by decide) fun _ _ _ _ => rfl).imp ?_
  rintro _ fb' ⟨rfl, -, -, harea, -⟩
  refine ⟨by decide, by decide, ?_, ?_, ?_⟩
  · exact (harea 0 0 (by decide) (by decide)).trans (by decide)
  · exact (harea 8 0 (by decide) (by decide)).trans (by decide)
  · exact (harea 0 16 (by decide) (by decide)).trans (by decide)

end Refinement

end RustKernel.Display
