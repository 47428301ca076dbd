import RustKernel.Kernel.Orderly
import RustKernel.Memory.Grants

/-!
# Acquiring the framebuffer, all or nothing

Does `sys_fb_acquire` either do all it is for, or nothing? It takes the framebuffer first, looks at the caller's pointer
last, and passes over the pages it cannot map.
-/

namespace RustKernel

open Lib Exec Memory RustKernel.Task Gfx

variable {outPtr : ℕ}

section Backbuf

variable {ε : Type} {v : Vm} {kind : ℕ → Kind}

structure Ensured (len : ℕ) (k : Kernel) (there : Bool) (k' : Kernel) : Prop where
  table : k'.table = k.table
  va : k'.fb.va = k.fb.va
  words : ∀ f, k.mem.isUsed f = true → k'.mem.words f = k.mem.words f
  owner : k'.fb.owner = if there then k.fb.owner else 0
  fails : there = false → k.fb.frames = []
  frames : there = true → k.fb.frames ≠ [] ∧ k'.fb.frames = k.fb.frames ∧ k'.mem = k.mem ∨
    k.fb.frames = [] ∧ k'.fb.frames.length = (len + 4095) / 4096 ∧
      k.mem.frames.available = k'.mem.frames.available + (len + 4095) / 4096

theorem ensureBackbuf_ensured (len : ℕ) (k : Kernel) :
    (ensureBackbuf (ε := ε) len k).Post (Ensured len k) (fun _ _ => False) := by
  -- a frame that is taken was not in use
  let I : List ℕ → PhysMem → Prop := fun l m => k.mem.frames.available = m.frames.available + l.length ∧
    ∀ f, k.mem.isUsed f = true → m.isUsed f = true ∧ m.words f = k.mem.words f
  have hstart : I [] k.mem := ⟨rfl, fun f hf => ⟨hf, rfl⟩⟩
  refine ensureBackbuf_rule (fun hne => ⟨rfl, rfl, fun _ _ => rfl, rfl, nofun, fun _ => .inl ⟨hne, rfl, rfl⟩⟩) fun hnil =>
    (allocFrames_rule (I := I) ?_ _ hstart).imp ?_ ?_
  · rintro l m m' f ⟨hcount, h⟩ hf
    refine ⟨by rw [hcount, hf.available, List.length_append, List.length_singleton]; omega, fun g hg => ?_⟩
    obtain ⟨hused, hwords⟩ := h g hg
    have hne : g ≠ f := by
      rintro rfl
      cases hf.fresh.symm.trans hused
    exact ⟨(hf.used g).mpr (.inr hused), (funext fun i => by rw [hf.words, if_neg hne]).trans hwords⟩
  · rintro l m ⟨hlen, hcount, h⟩
    replace hlen : l.length = (len + 4095) / 4096 := hlen.trans (Nat.zero_add _)
    exact ⟨rfl, rfl, fun f hf => (h f hf).2, rfl, nofun, fun _ => .inr ⟨hnil, hlen, hlen ▸ hcount⟩⟩
  · rintro _ m ⟨l, m₁, ⟨-, h⟩, hfrees, -⟩
    exact ⟨rfl, rfl, fun f hf => by rw [hfrees.words, (h f hf).2], rfl, fun _ => hnil, nofun⟩

/-! ### The loop that maps the back buffer -/

theorem attempt_mapTo_grants (page : ℕ) {f : ℕ} (hf : f < IDENTITY_FRAMES) (hl : Layout v.mem kind)
    (hp4 : kind v.space.p4 = .table 4) : (Exec.attempt (δ := ε) (AddressSpace.mapTo page f USER_RW) v).Post
      (fun r v' => v'.space.p4 = v.space.p4 ∧ (∃ kind', Steady v.mem kind v'.mem kind') ∧
        (∀ page' g, Granted v.mem v.space.p4 page' g → Granted v'.mem v.space.p4 page' g) ∧
        (r = .ok () → Granted v'.mem v.space.p4 page f)) (fun _ _ => False) := by
  have hgrant := post_addressSpace_mapTo (mapTo_granted page hl hp4 hf)
  refine post_attempt (((addressSpace_mapTo_post page f hl hp4 (mapFlags_pageFlags true)).and hgrant).imp ?_ ?_)
  · rintro _ v' ⟨⟨hsp, -, -, kind', p1, hmaps⟩, ⟨hnew, hold⟩, -⟩
    exact ⟨by rw [hsp]; rfl, ⟨kind', hmaps.steady⟩, hold, fun _ => hnew⟩
  · rintro _ v' ⟨⟨hsp, -, hs⟩, hold, -⟩
    exact ⟨by rw [hsp], hs, hold, fun h => nomatch h⟩

theorem mapBackbuf_keeps (fs : List ℕ) (n : ℕ) (hlow : ∀ f ∈ fs, f < IDENTITY_FRAMES) (hl : Layout v.mem kind)
    (hp4 : kind v.space.p4 = .table 4) : (mapBackbuf (ε := ε) n fs v).Post
      (fun _ v' => ∀ page g, Granted v.mem v.space.p4 page g → Granted v'.mem v.space.p4 page g) (fun _ _ => False) := by
  induction fs generalizing n v kind with
  | nil => exact fun _ _ h => h
  | cons f fs ih =>
    refine post_bind (Fs.virtAddrNew_post _ v) fun va _ hv => ?_
    rw [hv]
    refine post_bind (attempt_mapTo_grants (va / 4096) (hlow f List.mem_cons_self) hl hp4) ?_
    rintro _ v' ⟨hsame, ⟨kind', hs⟩, hkeep, -⟩
    have hp4' : kind' v'.space.p4 = .table 4 := by
      rw [hsame]
      exact hs.kind_eq hp4
    refine (ih (n + 1) (fun g hg => hlow g (List.mem_cons_of_mem _ hg)) hs.target hp4').imp_ok ?_
    intro _ v'' hrest page g h
    rw [hsame] at hrest
    exact hrest page g (hkeep page g h)

theorem mapBackbuf_vacant (fs : List ℕ) (n : ℕ) (hva : FB_USER_VA + (n + fs.length) * 4096 ≤ 2 ^ 47)
    (hlow : ∀ f ∈ fs, f < IDENTITY_FRAMES) (htree : Tree v.mem v.space.p4) (hl : Layout v.mem kind)
    (hp4 : kind v.space.p4 = .table 4)
    (hv : ∀ x, n ≤ x → x < n + fs.length → Vacant v.mem (FB_USER_VA / 4096 + x) 4 v.space.p4)
    (hleft : 3 * fs.length < v.mem.frames.available) :
    (mapBackbuf (ε := ε) n fs v).Post (fun _ v' =>
      ∀ i f, fs[i]? = some f → Granted v'.mem v.space.p4 (FB_USER_VA / 4096 + (n + i)) f) (fun _ _ => False) := by
  induction fs generalizing n v kind with
  | nil => exact fun i f h => nomatch h
  | cons f fs ih =>
    rw [List.length_cons] at hva hv hleft
    have hpage : (FB_USER_VA + n * 4096) / 4096 = FB_USER_VA / 4096 + n := Nat.add_mul_div_right _ _ (by decide)
    have hlt : FB_USER_VA + n * 4096 < 2 ^ 47 := by omega
    have hlow' : ∀ g ∈ fs, g < IDENTITY_FRAMES := fun g hg => hlow g (List.mem_cons_of_mem _ hg)
    unfold mapBackbuf
    rw [virtAddrNew_of_lt hlt, pure_bind, hpage]
    have hvacant : (Exec.attempt (δ := ε) (AddressSpace.mapTo (FB_USER_VA / 4096 + n) f USER_RW) v).Post
        (fun r v' => v.mem.frames.available ≤ v'.mem.frames.available + 3 ∧
          r = .ok () ∧ ∀ page, page % 512 ^ 4 ≠ (FB_USER_VA / 4096 + n) % 512 ^ 4 →
            Vacant v.mem page 4 v.space.p4 → Vacant v'.mem page 4 v.space.p4) (fun _ _ => False) := by
      have hmap := (mapTo_vacant htree hl hp4 (mapFlags_pageFlags true)).and
        (mapTo_available _ (FB_USER_VA / 4096 + n) f _)
      refine post_attempt ((post_addressSpace_mapTo hmap).imp ?_ ?_)
      · exact fun _ _ h => ⟨h.1.2, rfl, h.1.1⟩
      · -- a frame is left, so the page is mapped
        rintro _ v' ⟨⟨hnone, hcount⟩, -⟩
        have hzero := (hnone (hv n le_rfl (by omega))).available
        omega
    refine post_bind ((attempt_mapTo_grants _ (hlow f List.mem_cons_self) hl hp4).and hvacant
      |>.imp_err fun _ _ h => h.1) ?_
    rintro r v' ⟨⟨hsame, ⟨kind', hs⟩, -, hnew⟩, hcount, hok, hkeep⟩
    have hp4' : kind' v'.space.p4 = .table 4 := by
      rw [hsame]
      exact hs.kind_eq hp4
    have hva' : FB_USER_VA + (n + 1 + fs.length) * 4096 ≤ 2 ^ 47 := by
      rw [Nat.add_assoc n, Nat.add_comm 1]
      exact hva
    have hrest := ih (n + 1) hva' hlow' (by rw [hsame]; exact hs.tree _ hp4 htree) hs.target hp4'
      (fun x hx hlt => by
        rw [hsame]
        refine hkeep _ ?_ (hv x (by omega) (by omega))
        omega) (by omega)
    refine (hrest.and (mapBackbuf_keeps fs (n + 1) hlow' hs.target hp4')).imp ?_ fun _ _ h => h.1
    rw [hsame]
    rintro _ v'' ⟨htail, hstays⟩ i g hi
    cases i with
    | zero =>
      obtain rfl : f = g := Option.some.inj hi
      exact hstays _ _ (hnew hok)
    | succ i =>
      rw [Nat.add_comm i, ← Nat.add_assoc n]
      exact htail i g hi

end Backbuf

/-! ### The call -/

def backbufPages (fb : Framebuffer) (g : Geometry) : ℕ :=
  if fb.frames.isEmpty then (g.pitch * g.height + 4095) / 4096 else fb.frames.length

/-- The frames that the call may take: the back buffer, if there is none yet, and three tables for each of its pages. -/
def backbufNeeds (fb : Framebuffer) (g : Geometry) : ℕ :=
  (if fb.frames.isEmpty then backbufPages fb g else 0) + 3 * backbufPages fb g

def Kernel.Ready (k : Kernel) (outPtr : ℕ) : Prop :=
  ∃ g ∈ k.fb.geometry, ∃ a ∈ k.table.spaces[k.table.current]?,
    userSliceOk outPtr FB_INFO_SIZE = true ∧
    (∀ y < FB_INFO_SIZE, ∃ x ∈ mmu k.mem a.p4 ((outPtr + y) / 4096), x.writable = true ∧ x.user = true) ∧
    (k.fb.owner = k.table.current → k.fb.frames ≠ []) ∧
    FB_USER_VA + backbufPages k.fb g * 4096 ≤ 2 ^ 47 ∧
    ((∀ i < backbufPages k.fb g, Vacant k.mem (FB_USER_VA / 4096 + i) 4 a.p4) ∧
        backbufNeeds k.fb g < k.mem.frames.available ∨
      ∀ i < backbufPages k.fb g, ∃ f ∈ k.fb.frames[i]?, Granted k.mem a.p4 (FB_USER_VA / 4096 + i) f)

instance (k : Kernel) (outPtr : ℕ) : Decidable (k.Ready outPtr) :=
  inferInstanceAs (Decidable (∃ g ∈ k.fb.geometry, ∃ a ∈ k.table.spaces[k.table.current]?, _))

structure Acquired (a : AddressSpace) (k : Kernel) (ret : ℕ) (k' : Kernel) : Prop where
  refused : ret = U64_MAX → k'.fb.owner = k.fb.owner ∧ k'.fb.va = k.fb.va ∧ k'.table = k.table ∧
    ∀ page, mmu k'.mem a.p4 page = mmu k.mem a.p4 page
  granted : ret = 0 → k'.fb.owner = k.table.current ∧
    ∀ i f, k'.fb.frames[i]? = some f → Granted k'.mem a.p4 (FB_USER_VA / 4096 + i) f

theorem sysFbAcquire_ready {ε : Type} {k : Kernel} {kernelP4 p2 : ℕ} (h : k.Sound kernelP4 p2)
    (hready : k.Ready outPtr) : (sysFbAcquire (ε := ε) outPtr k).Post
      (fun ret k' => ∃ a, k.table.spaces[k.table.current]? = some a ∧ Acquired a k ret k') (fun _ _ => False) := by
  obtain ⟨g, hgeo, a, ha, hptr, -, hbuf, hva, hpages⟩ := hready
  obtain ⟨p, hp, rfl⟩ := ProcessTable.spaces_eq_some.mp ha
  obtain ⟨kind, hm⟩ := h.memory
  let k₁ : Kernel := { k with fb := { k.fb with owner := k.table.current } }
  have h₁ : k₁.Sound kernelP4 p2 := h.congr
  have hwords : ∀ {there k₂}, Ensured (g.pitch * g.height) k₁ there k₂ → ∀ t level, kind t = .table level →
      k₂.mem.words t = k.mem.words t := fun hens t level ht => hens.words t (hm.layout.isUsed ht)
  have hmax : ∀ {P : Prop}, U64_MAX = 0 → P := fun h0 => absurd h0 (by decide)
  refine sysFbAcquire_rule
    (R := fun there k₂ => (k.fb.owner ≠ 0 → k.fb.owner = k.table.current) ∧ Ensured (g.pitch * g.height) k₁ there k₂ ∧
      k₂.Sound kernelP4 p2)
    (S := fun r k₃ => r = some () ∧ k₃.fb.owner = k.table.current ∧
      ∀ i f, k₃.fb.frames[i]? = some f → Granted k₃.mem p.addressSpace.p4 (FB_USER_VA / 4096 + i) f)
    (fun _ => ⟨_, ha, fun _ => ⟨rfl, rfl, rfl, fun _ => rfl⟩, hmax⟩) (fun hnone => nomatch hnone.symm.trans hgeo)
    (fun g' hg' hfree => ?_) (fun k₂ ⟨howner, hens, _⟩ => ?_) (fun k₂ ⟨_, hens, h₂⟩ => ?_) (fun _ h => nomatch h.1)
    fun _ ⟨_, hdone⟩ => ⟨_, ha, fun hret => ?_, fun _ => hdone⟩
  · cases hgeo.symm.trans hg'
    refine ((ensureBackbuf_ensured _ k₁).and (ensureBackbuf_sound _ h₁)).imp (fun _ _ h => ⟨fun h0 => ?_, h.1, h.2.1⟩)
      fun _ _ h => h.1
    exact not_not.mp fun hne => hfree ⟨h0, hne⟩
  · refine ⟨_, ha, fun _ => ⟨?_, hens.va, hens.table, fun page => mmu_congr hm.layout (hm.root ha) (hwords hens)⟩, hmax⟩
    -- the caller was not the owner, or there would have been a back buffer
    have hnone : k.fb.owner = 0 := by
      by_contra h0
      exact hbuf (howner h0) (hens.fails rfl)
    rw [hens.owner, hnone]
    rfl
  · have htable : k₂.table = k.table := hens.table
    have hp₂ : k₂.table.procs[k₂.table.current]? = some p := by rw [htable]; exact hp
    have ha₂ : k₂.table.spaces[k₂.table.current]? = some p.addressSpace := by rw [htable]; exact ha
    obtain ⟨kind₂, hm₂⟩ := h₂.memory
    have hlow : ∀ f ∈ k₂.fb.frames, f < IDENTITY_FRAMES := fun f hf => hm₂.lentLow f (Kernel.mem_pool.mpr (.inr hf))
    have hlen : k₂.fb.frames.length = backbufPages k.fb g := by
      unfold backbufPages
      rcases hens.frames rfl with ⟨hne, hsame, -⟩ | ⟨hnil, hlen, -⟩
      · rw [if_neg fun hempty => hne (List.isEmpty_iff.1 hempty), hsame]
      · rw [if_pos (List.isEmpty_iff.2 hnil), hlen]
    have hva₂ : FB_USER_VA + (0 + k₂.fb.frames.length) * 4096 ≤ 2 ^ 47 := by rwa [Nat.zero_add, hlen]
    have hmap : (mapBackbuf (ε := ε) 0 k₂.fb.frames ⟨k₂.mem, p.addressSpace⟩).Post (fun _ v' =>
        ∀ i f, k₂.fb.frames[i]? = some f → Granted v'.mem p.addressSpace.p4 (FB_USER_VA / 4096 + i) f) (fun _ _ => False) := by
      rcases hpages with ⟨hvacant, hleft⟩ | hall
      · have hleft₂ : 3 * k₂.fb.frames.length < k₂.mem.frames.available := by
          unfold backbufNeeds at hleft
          rcases hens.frames rfl with ⟨-, -, hmem⟩ | ⟨hnil, hlen', hcount⟩
          · rw [hlen, hmem]
            exact (Nat.le_add_left ..).trans_lt hleft
          · rw [if_pos (List.isEmpty_iff.2 hnil), show k.mem.frames.available = _ from hcount, ← hlen', hlen] at hleft
            rw [hlen]
            omega
        refine (mapBackbuf_vacant k₂.fb.frames 0 hva₂ hlow (hm₂.tree _ _ ha₂) hm₂.layout (hm₂.root ha₂)
          (fun x _ hx => ?_) hleft₂).imp_ok (fun _ _ h => ?_)
        · exact vacant_congr hm.layout (hwords hens) (hm.root ha) (hvacant x (by rwa [Nat.zero_add, hlen] at hx))
        · simpa only [Nat.zero_add] using h
      · refine (mapBackbuf_keeps k₂.fb.frames 0 hlow hm₂.layout (hm₂.root ha₂)).imp_ok ?_
        intro _ v' hkeep i f hi
        obtain ⟨hlt, -⟩ := List.getElem?_eq_some_iff.1 hi
        obtain ⟨f', hf', hgrant⟩ := hall i (hlen ▸ hlt)
        -- the back buffer is the one that was there
        have hsame : k₂.fb.frames = k.fb.frames := by
          rcases hens.frames rfl with ⟨-, hsame, -⟩ | ⟨hnil, -⟩
          · exact hsame
          · rw [show k.fb.frames = [] from hnil] at hf'
            cases hf'
        obtain rfl : f' = f := Option.some.inj (hf'.symm.trans (hsame ▸ hi))
        refine hkeep _ _ ?_
        unfold Granted
        rw [mmu_congr hm.layout (hm.root ha) (hwords hens)]
        exact hgrant
    refine (inCurrent_post hp₂ hmap).imp ?_ fun _ _ ⟨_, _, h⟩ => h
    rintro _ _ ⟨_, v, rfl, rfl, hgrants⟩
    exact ⟨rfl, hens.owner, hgrants⟩
  · cases (if_pos hptr).symm.trans hret

def fbMachine : Machine :=
  { bootMachine with kernel := { bootMachine.kernel with fb := { bootMachine.kernel.fb with geometry := some ⟨1, 4096⟩ } } }

theorem booted_fbMachine : Booted fbMachine 272 273 274 := { booted_bootMachine with }

def loadOne : List Event := [.spawn (some Fs.tinyImage) none, .runAll]

def acquireAndFork : List Event :=
  loadOne ++ [.syscall (.fbAcquire (Fs.USER_STACK_TOP - 4096)), .syscall .fork]

def Kernel.FirstReadOnly (k : Kernel) : Prop := ∃ a ∈ k.table.spaces[k.table.current]?, ∃ f ∈ k.fb.frames[0]?,
  mmu k.mem a.p4 (FB_USER_VA / 4096) = some ⟨f, false, true⟩
deriving Decidable

end RustKernel
