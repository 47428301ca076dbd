import RustKernel.Drivers.Fb
import RustKernel.Gfx.Acquire

/-!
# Presenting the back buffer of a client

`sys_fb_present` of `gfx/mod.rs` puts the words of the shared back buffer on the screen: they lie in frames of 4096 bytes, one
after the other, and the pixel a word belongs to is found by division by the pitch.
-/

namespace RustKernel.Gfx

open Lib Exec Memory RustKernel.Task Display

def frameWord (m : PhysMem) (f j : ℕ) : Colour := (m.words f (j / 2)).extractLsb' (32 * (j % 2)) 32

def backbufWord (k : Kernel) (n : ℕ) : Colour := frameWord k.mem (k.fb.frames.getD (n / 1024) 0) (n % 1024)

section Model

variable {g : Display.Geometry}

def readWord (k : Kernel) (i f j : ℕ) : Exec Empty (Fb g) Colour :=
  if j < 1024 ∧ i * 4096 + j * 4 + 4 ≤ k.fb.len then pure (frameWord k.mem f j) else panic

def presentWord (k : Kernel) (pitchU32 i f j : ℕ) : Exec Empty (Fb g) Unit := do
  let offsetBytes := i * 4096 + j * 4
  let pixelIndex := offsetBytes / 4
  if pitchU32 = 0 then panic
  else
    let y := pixelIndex / pitchU32 % 2 ^ 32
    let x := pixelIndex % pitchU32 % 2 ^ 32
    if y < g.height ∧ x < g.width then do
      let px ← readWord k i f j
      putPixel x y px
    else pure ()

def presentFrames (k : Kernel) (pitchU32 : ℕ) : ℕ → ℕ → List ℕ → Exec Empty (Fb g) Unit
  | _, _, [] => pure ()
  | i, copied, f :: fs => do
    let left ← sub k.fb.len copied
    let bytesInPage := min 4096 left
    forRange 0 (bytesInPage / 4) fun j => do
      presentWord k pitchU32 i f j
      pure true
    let copied ← add 64 copied bytesInPage
    presentFrames k pitchU32 (i + 1) copied fs

def sysFbPresent (rectPtr : ℕ) (k : Kernel) : Exec Empty (Fb g) ℕ :=
  if k.fb.owner ≠ k.table.current then pure U64_MAX
  else if rectPtr ≠ 0 ∧ userSliceOk rectPtr 16 = false then pure U64_MAX
  else do
    let pitchBytes ← mul 32 g.pitch 4
    presentFrames k (pitchBytes / 4) 0 0 k.fb.frames
    commit
    present
    pure 0

end Model

/-! ### The registers -/

inductive Registers (geo : RustKernel.Geometry) : Framebuffer → Prop
  | boot : Registers geo ⟨some geo, 0, [], 0, 0⟩
  | acquire {k k' : Kernel} {outPtr ret : ℕ} : Registers geo k.fb →
      sysFbAcquire (ε := Empty) outPtr k = .ok ret k' → Registers geo k'.fb
  | release {k k' : Kernel} {pid : ℕ} : Registers geo k.fb → releaseIfOwner (ε := Empty) pid k = .ok () k' →
      Registers geo k'.fb

structure Sized (geo : RustKernel.Geometry) (fb : Framebuffer) : Prop where
  len : fb.len = geo.pitch * geo.height
  frames : fb.frames.length = (fb.len + 4095) / 4096

structure Kept (geo : RustKernel.Geometry) (fb : Framebuffer) : Prop where
  geometry : fb.geometry = some geo
  sized : fb.frames ≠ [] → Sized geo fb

variable {ε : Type} {geo : RustKernel.Geometry} {k : Kernel}

theorem Kept.congr {fb fb' : Framebuffer} (h : Kept geo fb) (hgeo : fb'.geometry = fb.geometry)
    (hframes : fb'.frames = fb.frames) (hlen : fb'.len = fb.len) : Kept geo fb' :=
  ⟨hgeo.trans h.geometry, fun hne =>
    have hs := h.sized (hframes ▸ hne)
    ⟨hlen.trans hs.len, by rw [hframes, hlen]; exact hs.frames⟩⟩

theorem ensureBackbuf_kept (h : Kept geo k.fb) (howner : k.fb.owner = k.table.current) :
    (ensureBackbuf (ε := ε) (geo.pitch * geo.height) k).Post (fun there k' => Kept geo k'.fb ∧
      (there = true → Sized geo k'.fb ∧ k'.fb.owner = k'.table.current)) (fun _ _ => True) := by
  refine ensureBackbuf_rule (fun hne => ⟨h, fun _ => ⟨h.sized hne, howner⟩⟩) fun _ =>
    (allocFrames_rule (I := fun _ _ => True) (fun _ _ => trivial) _ trivial).imp ?_ fun _ _ _ => ⟨h.congr rfl rfl rfl, nofun⟩
  rintro l m ⟨hlen, -⟩
  have hs : Sized geo { k.fb with frames := l, len := geo.pitch * geo.height } := ⟨rfl, hlen.trans (Nat.zero_add _)⟩
  exact ⟨⟨h.geometry, fun _ => hs⟩, fun _ => ⟨hs, howner⟩⟩

theorem sysFbAcquire_kept (outPtr : ℕ) (h : Kept geo k.fb) : (sysFbAcquire (ε := ε) outPtr k).Post
    (fun ret k' => Kept geo k'.fb ∧ (ret = 0 → Sized geo k'.fb ∧ k'.fb.owner = k'.table.current)) (fun _ _ => True) := by
  let R : Bool → Kernel → Prop := fun there k' => Kept geo k'.fb ∧
    (there = true → Sized geo k'.fb ∧ k'.fb.owner = k'.table.current)
  have hmax : ∀ {P : Prop}, U64_MAX = 0 → P := fun h0 => absurd h0 (by decide)
  refine sysFbAcquire_rule (R := R) (S := fun _ => R true) (fun _ => ⟨h, hmax⟩) (fun _ => ⟨h.congr rfl rfl rfl, hmax⟩)
    (fun g hg _ => ?_) (fun _ h => ⟨h.1, hmax⟩) (fun k' h' => ?_) (fun _ h => ⟨h.1.congr rfl rfl rfl, hmax⟩)
    fun _ h => ⟨h.1.congr rfl rfl rfl, fun _ => ⟨⟨(h.2 rfl).1.len, (h.2 rfl).1.frames⟩, (h.2 rfl).2⟩⟩
  · cases h.geometry.symm.trans hg
    exact ensureBackbuf_kept (h.congr rfl rfl rfl) rfl
  · refine (inCurrent_put _ k').imp ?_ fun _ _ _ => trivial
    rintro _ _ ⟨v, rfl⟩
    exact ⟨h'.1, fun _ => ⟨(h'.2 rfl).1, (h'.2 rfl).2.trans (ProcessTable.current_update ..).symm⟩⟩

theorem Registers.kept {fb : Framebuffer} (h : Registers geo fb) : Kept geo fb := by
  induction h with
  | boot => exact ⟨rfl, fun hne => absurd rfl hne⟩
  | acquire _ hcall ih => exact ((sysFbAcquire_kept _ ih).ok hcall).1
  | @release k k' pid _ hcall ih =>
    cases hcall
    show Kept geo (if k.fb.owner = pid then { k.fb with owner := 0, va := 0 } else k.fb)
    split_ifs
    · exact ih.congr rfl rfl rfl
    · exact ih

/-! ### The loops -/

section Loops

variable {g : Display.Geometry} {fb fb₁ : Fb g}

def Put (k : Kernel) (n : ℕ) (fb fb' : Fb g) : Prop :=
  ∃ b d, fb' = { fb with back := b, dirty := d } ∧ ∀ x y, x < g.width → y < g.height → y * g.pitch + x < n →
    g.pixel b x y = backbufWord k (y * g.pitch + x) ∧ d.Has x y

theorem presentWord_put {i f j n : ℕ} (hf : k.fb.frames[i]? = some f) (hj : j < 1024) (hn : n = i * 1024 + j)
    (hlen : i * 4096 + j * 4 + 4 ≤ k.fb.len) (hsize : k.fb.len = 4 * (g.pitch * g.height)) (h : Put k n fb fb₁) :
    (presentWord k g.pitch i f j fb₁).Returns fun _ => Put k (n + 1) fb := by
  obtain ⟨b, d, rfl, hput⟩ := h
  have hlt : n < g.pitch * g.height := by omega
  have hpitch : 0 < g.pitch := Nat.pos_of_mul_pos_right (Nat.zero_lt_of_lt hlt)
  have hy : n / g.pitch < g.height := Nat.div_lt_of_lt_mul hlt
  have hx : n % g.pitch < g.pitch := Nat.mod_lt _ hpitch
  have hindex : n / g.pitch * g.pitch + n % g.pitch = n := Nat.div_add_mod' _ _
  have hword : frameWord k.mem f j = backbufWord k n := by
    have hdiv : n / 1024 = i := by omega
    have hmod : n % 1024 = j := by omega
    rw [backbufWord, hdiv, hmod, List.getD_eq_getElem?_getD, hf]
    rfl
  have hpixel : (i * 4096 + j * 4) / 4 = n := by omega
  unfold presentWord
  rw [hpixel, if_neg hpitch.ne', Nat.mod_eq_of_lt (hy.trans g.height_lt), Nat.mod_eq_of_lt (hx.trans g.pitch_lt)]
  by_cases hvisible : n % g.pitch < g.width
  · rw [if_pos ⟨hy, hvisible⟩, readWord, if_pos ⟨hj, hlen⟩, hword]
    refine (putPixel_returns hvisible hy _).imp ?_
    rintro _ _ ⟨d', rfl, hd'⟩
    refine ⟨_, d', rfl, fun x y hx hy hxy => ?_⟩
    rw [hindex, Raster.Frame.pixel]
    by_cases hhere : y * g.pitch + x = n
    · obtain ⟨hx₀, hy₀⟩ := (Raster.Frame.index_inj hx hvisible).mp (hhere.trans hindex.symm)
      rw [hhere, Function.update_self]
      exact ⟨rfl, hd' x y hx hy (.inr (by unfold Box; omega))⟩
    · obtain ⟨hb, hd⟩ := hput x y hx hy (by omega)
      rw [Function.update_of_ne hhere]
      exact ⟨hb, hd' x y hx hy (.inl hd)⟩
  · rw [if_neg fun hv => hvisible hv.2]
    refine returns_pure ⟨b, d, rfl, fun x y hx' hy' hxy => hput x y hx' hy' ?_⟩
    -- the word is in no visible column
    by_contra hge
    have hhere : n = g.pitch * y + x := by rw [Nat.mul_comm]; omega
    refine hvisible ?_
    rw [hhere, Nat.mul_add_mod, Nat.mod_eq_of_lt (lt_of_lt_of_le hx' g.width_le)]
    exact hx'

theorem presentFrames_put (hsize : k.fb.len = 4 * (g.pitch * g.height)) (hsmall : k.fb.len < 2 ^ 64) {fs : List ℕ} {i : ℕ}
    (hfs : k.fb.frames.drop i = fs) (hi : k.fb.frames.length = (k.fb.len + 4095) / 4096)
    (h : Put k (min (i * 4096) k.fb.len / 4) fb fb₁) :
    (presentFrames k g.pitch i (min (i * 4096) k.fb.len) fs fb₁).Returns fun _ => Put k (k.fb.len / 4) fb := by
  induction fs generalizing i fb₁ with
  | nil =>
    have hlast : k.fb.frames.length ≤ i := List.drop_eq_nil_iff.mp hfs
    rw [Nat.min_eq_right (by omega)] at h
    exact returns_pure h
  | cons f fs ih =>
    have hlt : i < k.fb.frames.length := by
      by_contra hge
      cases (List.drop_eq_nil_of_le (by omega)).symm.trans hfs
    have hf : k.fb.frames[i]? = some f := by
      have := congrArg List.head? hfs
      rwa [List.head?_drop] at this
    have hquarter : ∀ m, (i * 4096 + m) / 4 = i * 1024 + m / 4 := fun m => by omega
    have hcopied : min (i * 4096) k.fb.len = i * 4096 := by omega
    have hnext : i * 4096 + min 4096 (k.fb.len - i * 4096) = min ((i + 1) * 4096) k.fb.len := by omega
    rw [hcopied] at h ⊢
    unfold presentFrames
    rw [sub_of_le (by omega), pure_bind]
    refine returns_bind (returns_forRange (I := fun j => Put k (i * 1024 + j) fb) (Nat.zero_le _) ?_ ?_ fun _ h => h) ?_
    · rwa [← Nat.add_zero (i * 4096), hquarter] at h
    · intro j fb₂ _ hj h₂
      exact returns_bind (presentWord_put hf (by omega) rfl (by omega) hsize h₂) fun _ _ h₃ =>
        returns_pure (Nat.add_assoc (i * 1024) j 1 ▸ h₃)
    · intro _ fb₂ h₂
      rw [add_of_lt (by omega), Exec.pure_bind, hnext]
      refine ih (by rw [← List.drop_drop, hfs]; rfl) ?_
      rwa [← hquarter, hnext] at h₂

end Loops

theorem commit_present_shows {g : Display.Geometry} {fb : Fb g} {img : Image}
    (h : ∀ x y, x < g.width → y < g.height → g.pixel fb.back x y = img x y ∧ fb.dirty.Has x y) :
    ((do commit; present) fb).Returns fun _ (fb' : Fb g) => ShowsImage g fb'.front img := by
  refine returns_bind (commit_returns fb) fun _ fb₁ h₁ => (present_returns fb₁).imp fun _ fb₂ h₂ x y hx hy => ?_
  obtain ⟨hback, hhas⟩ := h x y hx hy
  rw [if_pos hhas.1] at h₁
  obtain ⟨b, rfl, -⟩ := h₁
  obtain ⟨b', rfl, hb'⟩ := h₂
  exact (hb'.inside x y hx hy hhas.2).trans hback

/-- **`sys_fb_present` shows the back buffer**: after a successful `sys_fb_acquire`, with any content of the back buffer and
in any state of the framebuffer, the caller's next `sys_fb_present` returns 0 and makes the pixel `(x, y)` the word number
`y * pitch + x`. -/
theorem fbPresent_shows {g : Display.Geometry} {k₀ k₁ k : Kernel} {outPtr rectPtr : ℕ}
    (hreg : Registers ⟨g.height, 4 * g.pitch⟩ k₀.fb) (hacquire : sysFbAcquire (ε := Empty) outPtr k₀ = .ok 0 k₁)
    (hfb : k.fb = k₁.fb) (hcaller : k.table.current = k₁.table.current) (hpitch : 4 * g.pitch < 2 ^ 32)
    (hrect : rectPtr = 0 ∨ userSliceOk rectPtr 16 = true) (fb : Fb g) :
    (sysFbPresent rectPtr k fb).Returns fun ret fb' => ret = 0 ∧ ∀ x y, x < g.width → y < g.height →
      g.pixel fb'.front x y = backbufWord k (y * g.pitch + x) := by
  obtain ⟨hsized, howner⟩ := ((sysFbAcquire_kept outPtr hreg.kept).ok hacquire).2 rfl
  rw [← hfb] at hsized howner
  rw [← hcaller] at howner
  have hlen : k.fb.len = 4 * (g.pitch * g.height) := by
    rw [hsized.len]
    exact Nat.mul_assoc ..
  have hsmall := g.size_lt
  have hok : ¬ (rectPtr ≠ 0 ∧ userSliceOk rectPtr 16 = false) := by
    rintro ⟨hne, hbad⟩
    rcases hrect with h | h
    · exact hne h
    · cases h.symm.trans hbad
  unfold sysFbPresent
  rw [if_neg (not_not.mpr howner), if_neg hok, mul_of_lt (by omega), Exec.pure_bind,
    Nat.mul_div_cancel _ (by decide : 0 < 4)]
  have hstart : Put k (min (0 * 4096) k.fb.len / 4) fb fb :=
    ⟨fb.back, fb.dirty, rfl, fun x y _ _ hlt => by simp at hlt⟩
  have hframes := presentFrames_put hlen (by omega) rfl hsized.frames hstart
  refine returns_bind hframes ?_
  rintro _ _ ⟨b, d, rfl, hput⟩
  have hall : ∀ x y, x < g.width → y < g.height → g.pixel b x y = backbufWord k (y * g.pitch + x) ∧ d.Has x y := by
    intro x y hx hy
    have := Raster.Frame.index_lt hx hy
    exact hput x y hx hy (by omega)
  obtain ⟨_, fb₁, hrun, hshows⟩ := @commit_present_shows g { fb with back := b, dirty := d } _ hall
  obtain ⟨_, fb₂, hcommit, hpresent⟩ := bind_eq_ok.mp hrun
  rw [bind_of_ok hcommit, bind_of_ok hpresent]
  exact returns_pure ⟨rfl, hshows⟩

theorem width_rows : 1000 < 2 ^ 32 := by decide
theorem height_rows : 3 < 2 ^ 32 := by decide
theorem area_rows : 1000 * 3 < 2 ^ 32 := by decide

/-- Three rows, which fill two pages and most of a third. -/
def rows : Display.Geometry := sized 1000 3 width_rows height_rows area_rows

/-- The kernel after every word of memory has got the number of its frame in its upper half. -/
def numbered (k : Kernel) : Kernel := { k with mem := { k.mem with words := fun f _ => BitVec.ofNat 32 f ++ 0#32 } }

theorem fbPresent_shows_rows : ∃ k₀ k₁ : Kernel, Registers ⟨3, 4000⟩ k₀.fb ∧
    sysFbAcquire (ε := Empty) (Fs.USER_STACK_TOP - 4096) k₀ = .ok 0 k₁ ∧ k₁.fb.frames = [4120, 4121, 4122] ∧
    (sysFbPresent 0 (numbered k₁) (black rows)).Returns fun ret fb' => ret = 0 ∧ rows.pixel fb'.front 1 0 = 4120 ∧
      rows.pixel fb'.front 25 1 = 4121 ∧ rows.pixel fb'.front 999 2 = 4122 := by
  have hfinal : (exec step Orderly fbMachine loadOne).any fun t =>
      (sysFbAcquire (ε := Empty) (Fs.USER_STACK_TOP - 4096)
        { t.kernel with fb := ⟨some ⟨3, 4000⟩, 0, [], 0, 0⟩ }).Returns fun ret k₁ =>
          ret = 0 ∧ k₁.fb.frames = [4120, 4121, 4122] := by
    decide +kernel
  obtain ⟨tr, t, -, -, ret, k₁, hcall, rfl, hframes⟩ := exists_run_of_any hfinal
  refine ⟨_, k₁, .boot, hcall, hframes, ?_⟩
  have hreg : Registers ⟨rows.height, 4 * rows.pitch⟩ ⟨some ⟨3, 4000⟩, 0, [], 0, 0⟩ := .boot
  have hword : ∀ n, backbufWord (numbered k₁) n =
      (BitVec.ofNat 32 ([4120, 4121, 4122].getD (n / 1024) 0) ++ 0#32).extractLsb' (32 * (n % 1024 % 2)) 32 := fun n => by
    rw [← hframes]
    rfl
  refine (fbPresent_shows (k := numbered k₁) hreg hcall rfl rfl (by decide) (.inl rfl) (black rows)).imp fun ret fb' h => ?_
  refine ⟨h.1, ?_, ?_, ?_⟩ <;> rw [h.2 _ _ (by decide) (by decide), hword] <;> decide

end RustKernel.Gfx
