import RustKernel.Memory.Steady

/-!
# Address spaces side by side

`Roots m kind kernelP4 spaces` says that the address spaces `spaces`, whatever they are indexed
by, have level-4 tables of their own, distinct from each other and from that of the kernel.
It is kept when tables evolve, when a space is added, and when one is given back: `destroy`
returns the frames a space held the last references to, and its level-4 table, and no entry
of a table leads to any of these.
-/

namespace RustKernel.Memory

open Lib Exec
open Function (update_apply)

variable {F : ℕ → Prop} {ε : Type} {kind : ℕ → Kind} {f : ℕ}

/-! ### Giving a space back -/

structure Frees (m : PhysMem) (F : ℕ → Prop) (m' : PhysMem) : Prop where
  words : m'.words = m.words
  used : ∀ f, m'.isUsed f = true ↔ m.isUsed f = true ∧ ¬ F f

theorem Frees.trans {m m' m'' : PhysMem} {G : ℕ → Prop} (h : Frees m F m') (h' : Frees m' G m'') :
    Frees m (fun f => F f ∨ G f) m'' :=
  ⟨h'.words.trans h.words, fun f => by rw [h'.used, h.used, not_or, and_assoc]⟩

theorem freeFrame_post (m : PhysMem) (f : ℕ) : (freeFrame (ε := ε) f m).Post
    (fun _ m' => Frees m (· = f) m' ∧ m'.refcount = m.refcount) (fun _ _ => False) := by
  unfold freeFrame
  cases hd : m.frames.deallocateFrame f with
  | none => trivial
  | some a =>
    refine ⟨⟨rfl, fun g => ?_⟩, rfl⟩
    by_cases hf : m.frames.isUsed f = true
    · obtain ⟨-, rfl⟩ := BitmapFrameAllocator.deallocateFrame_some hd hf
      show bitGet (bitClear m.frames.bitmap f) g = true ↔ bitGet m.frames.bitmap g = true ∧ ¬ g = f
      simp [and_comm]
    · -- freeing a free frame does nothing
      have hb : bitGet m.frames.bitmap f = false := by simpa [BitmapFrameAllocator.isUsed] using hf
      simp only [BitmapFrameAllocator.deallocateFrame, hb, Bool.false_eq_true, if_false] at hd
      split_ifs at hd
      cases hd
      refine ⟨fun hg => ⟨hg, ?_⟩, fun hg => hg.1⟩
      rintro rfl
      exact hf hg

theorem freeAll_post : ∀ (l : List ℕ) (m : PhysMem), (l.forM (freeFrame (ε := ε)) m).Post
    (fun _ m' => Frees m (· ∈ l) m' ∧ m'.refcount = m.refcount) (fun _ _ => False)
  | [], m => ⟨⟨rfl, by simp⟩, rfl⟩
  | f :: fs, m => by
    refine post_bind (freeFrame_post m f) ?_
    rintro _ m₁ ⟨hfree, hrc⟩
    refine (freeAll_post fs m₁).imp_ok ?_
    rintro _ m' ⟨hfrees, hrc'⟩
    refine ⟨⟨hfrees.words.trans hfree.words, fun g => ?_⟩, hrc'.trans hrc⟩
    rw [hfrees.used, hfree.used, List.mem_cons, not_or, and_assoc]

theorem count_cons_eq (f : ℕ) (fs : List ℕ) (g : ℕ) : (f :: fs).count g = fs.count g + if g = f then 1 else 0 := by
  by_cases hg : g = f
  · simp [hg]
  · simp [hg, Ne.symm hg]

theorem releaseFrames_post : ∀ (l : List ℕ) (m : PhysMem),
    (AddressSpace.releaseFrames (ε := ε) l m).Post (fun _ m' => Frees m (fun f => f ∈ l ∧ m.refcount f ≤ l.count f) m' ∧
        ∀ f, m'.refcount f = m.refcount f - l.count f)
      (fun _ _ => False)
  | [], m => ⟨⟨rfl, fun f => by simp⟩, fun f => by simp⟩
  | f :: fs, m => by
    unfold AddressSpace.releaseFrames
    rw [modify_bind, get_bind]
    have hdec : ∀ g, (m.decRefcount f).refcount g = if g = f then m.refcount g - 1 else m.refcount g :=
      fun g => FrameRefcount.dec_apply m.refcount f g
    have hcount : ∀ g, (f :: fs).count g = fs.count g + if g = f then 1 else 0 := count_cons_eq f fs
    have hrc : ∀ g, (m.decRefcount f).refcount g - fs.count g = m.refcount g - (f :: fs).count g := fun g => by
      rw [hdec, hcount]
      split_ifs <;> omega
    have hzero : ∀ g, g ∉ fs → fs.count g = 0 := fun g => List.count_eq_zero.mpr
    split_ifs with h0
    · -- the last reference
      rw [hdec, if_pos rfl] at h0
      refine post_bind (freeFrame_post _ f) ?_
      rintro _ m₁ ⟨hfree, hrc₁⟩
      refine (releaseFrames_post fs m₁).imp_ok ?_
      rintro _ m' ⟨hfrees, hrc'⟩
      refine ⟨⟨hfrees.words.trans hfree.words, fun g => ?_⟩, fun g => by rw [hrc', hrc₁, hrc]⟩
      rw [hfrees.used, hfree.used, hrc₁, hdec, hcount, List.mem_cons]
      show (m.isUsed g = true ∧ _) ∧ _ ↔ _
      by_cases hg : g = f
      · subst hg
        simp only [not_true_eq_false, and_false, false_and, true_or, true_and, if_true, false_iff, not_and, not_not]
        omega
      · simp [hg]
    · refine (releaseFrames_post fs (m.decRefcount f)).imp_ok ?_
      rintro _ m' ⟨hfrees, hrc'⟩
      refine ⟨⟨hfrees.words, fun g => ?_⟩, fun g => by rw [hrc', hrc]⟩
      rw [hfrees.used, hdec, hcount, List.mem_cons]
      show m.isUsed g = true ∧ _ ↔ _
      by_cases hg : g = f
      · subst hg
        rw [hdec, if_pos rfl] at h0
        simp only [if_true, true_or, true_and, not_and]
        refine and_congr_right fun _ => ⟨fun h => ?_, fun h _ => by omega⟩
        by_cases hmem : g ∈ fs
        · have := h hmem
          omega
        · rw [hzero g hmem]
          omega
      · simp [hg]

def AddressSpace.frames (s : AddressSpace) : List ℕ := s.mappedPages.toList.map Prod.snd

namespace AddressSpace

variable {a : AddressSpace} {page f : ℕ}

theorem mem_frames : f ∈ a.frames ↔ ∃ page : ℕ, a.mappedPages[page]? = some f := by
  unfold frames
  rw [List.mem_map]
  constructor
  · rintro ⟨⟨page, g⟩, hmem, rfl⟩
    exact ⟨page, Std.ExtTreeMap.mem_toList_iff_getElem?_eq_some.mp hmem⟩
  · rintro ⟨page, hpage⟩
    exact ⟨(page, f), Std.ExtTreeMap.mem_toList_iff_getElem?_eq_some.mpr hpage, rfl⟩

theorem frames_replaceMapping (a : AddressSpace) (page g : ℕ) :
    (a.replaceMapping page g).frames.Perm (g :: (a.mappedPages.erase page).toList.map Prod.snd) :=
  (TreeMap.toList_insert_perm a.mappedPages page g).map Prod.snd

theorem count_frames_replaceMapping_new (h : a.mappedPages[page]? = none) (g f : ℕ) :
    (a.replaceMapping page g).frames.count f = a.frames.count f + if f = g then 1 else 0 := by
  rw [(frames_replaceMapping a page g).count_eq, TreeMap.erase_of_getElem?_eq_none h, count_cons_eq]
  rfl

theorem count_frames_replaceMapping {f₀ : ℕ} (h : a.mappedPages[page]? = some f₀) (g f : ℕ) :
    (a.replaceMapping page g).frames.count f + (if f = f₀ then 1 else 0) = a.frames.count f + if f = g then 1 else 0 := by
  have hold : a.frames.Perm (f₀ :: (a.mappedPages.erase page).toList.map Prod.snd) := (TreeMap.toList_perm h).map Prod.snd
  rw [(frames_replaceMapping a page g).count_eq, hold.count_eq, count_cons_eq, count_cons_eq]
  exact Nat.add_right_comm ..

theorem getElem?_replaceMapping {p g : ℕ} (h : (a.replaceMapping page f).mappedPages[p]? = some g) :
    p = page ∧ g = f ∨ a.mappedPages[p]? = some g := by
  rcases TreeMap.getElem?_insert_eq_some.mp h with ⟨hp, hg⟩ | ⟨-, hg⟩
  · exact .inl ⟨hp, hg.symm⟩
  · exact .inr hg

end AddressSpace

theorem destroy_post (s : AddressSpace) (m : PhysMem) : (s.destroy (ε := ε) m).Post
    (fun _ m' => Frees m (fun f => (f ∈ s.frames ∧ m.refcount f ≤ s.frames.count f) ∨ f = s.p4) m' ∧
      ∀ f, m'.refcount f = m.refcount f - s.frames.count f)
    (fun _ _ => False) := by
  refine post_bind (releaseFrames_post _ m) ?_
  rintro _ m₁ ⟨hfrees, hrc⟩
  refine (freeFrame_post m₁ s.p4).imp_ok ?_
  rintro _ m' ⟨hfrees', hrc'⟩
  exact ⟨hfrees.trans hfrees', fun f => by rw [hrc', hrc]; rfl⟩

open Classical in
noncomputable def freeKinds (kind : ℕ → Kind) (F : ℕ → Prop) : ℕ → Kind :=
  fun f => if F f ∨ ∃ level, kind f = .table (level + 5) then .other else kind f

theorem freeKinds_of_not (h : ¬ F f) (hk : ∀ level, kind f ≠ .table (level + 5)) : freeKinds kind F f = kind f := by
  refine if_neg ?_
  rintro (hF | ⟨level, hlevel⟩)
  · exact h hF
  · exact hk level hlevel

theorem freeKinds_eq {k : Kind} (hk : k ≠ .other)
    (h : freeKinds kind F f = k) : ¬ F f ∧ kind f = k ∧ ∀ level, k ≠ .table (level + 5) := by
  unfold freeKinds at h
  split_ifs at h with hc
  · exact absurd h.symm hk
  · obtain ⟨hF, hlevel⟩ := not_or.mp hc
    exact ⟨hF, h, fun level hl => hlevel ⟨level, h.trans hl⟩⟩

theorem Frees.layout {m m' : PhysMem} (h : Frees m F m') (hl : Layout m kind)
    (hF : ∀ f, F f → kind f = .data ∨ kind f = .table 4) : Layout m' (freeKinds kind F) := by
  refine ⟨fun f hf => ?_, fun t level i ht hi hne => ?_⟩
  · obtain ⟨hnot, hkind, -⟩ := freeKinds_eq hf rfl
    exact (h.used f).mpr ⟨hl.used f (hkind ▸ hf), hnot⟩
  · obtain ⟨-, hkind, hlevel⟩ := freeKinds_eq (by simp) ht
    rw [h.words] at hne ⊢
    have hleads := hl.entry t level i hkind hi hne
    refine ⟨hleads.present, fun hh => ?_, hleads.huge⟩
    have hnext := hleads.next hh
    have hlt : level < 3 := by
      by_contra hge
      exact hlevel (level - 3) (by congr 1; omega)
    have hnot : ¬ F (entryFrame (m.words t i)) := fun hFe => by
      rcases hF _ hFe with hk | hk
      · cases hnext.symm.trans hk
      · rw [hnext] at hk
        injection hk with hk
        omega
    rw [freeKinds_of_not hnot, hnext]
    intro l hl'
    rw [hnext] at hl'
    injection hl' with hl'
    omega

/-! ### The roots of several spaces -/

structure Roots (m : PhysMem) (kind : ℕ → Kind) (kernelP4 : ℕ) (spaces : ℕ → Option AddressSpace) : Prop where
  layout : Layout m kind
  kernel : kind kernelP4 = .table 4
  root : ∀ i a, spaces i = some a → kind a.p4 = .table 4
  ne : ∀ i a, spaces i = some a → a.p4 ≠ kernelP4
  inj : ∀ i j a b, spaces i = some a → spaces j = some b → a.p4 = b.p4 → i = j

def PagesMapped (m : PhysMem) (spaces : ℕ → Option AddressSpace) : Prop :=
  ∀ i a page f, spaces i = some a → a.mappedPages[page]? = some f → Mapped m a.p4 page

section Roots

variable {m m' : PhysMem} {kind kind' : ℕ → Kind} {kernelP4 i : ℕ} {a b : AddressSpace}
  {spaces : ℕ → Option AddressSpace}

theorem Roots.evolves (h : Roots m kind kernelP4 spaces) (he : Evolves m kind m' kind') : Roots m' kind' kernelP4 spaces :=
  ⟨he.target, he.kind_eq h.kernel, fun i a hi => he.kind_eq (h.root i a hi), h.ne, h.inj⟩

theorem PagesMapped.evolves (h : PagesMapped m spaces) (hr : Roots m kind kernelP4 spaces)
    (he : Evolves m kind m' kind') : PagesMapped m' spaces :=
  fun i a page f hi hf => he.mapped (hr.root i a hi) (h i a page f hi hf)

section

variable (h : Roots m kind kernelP4 spaces)
include h

theorem Roots.ne_of_not_isUsed {p4 : ℕ} (hp4 : m.isUsed p4 = false) :
    p4 ≠ kernelP4 ∧ ∀ i a, spaces i = some a → a.p4 ≠ p4 := by
  have hne : ∀ q, kind q = .table 4 → q ≠ p4 := fun q hq => PhysMem.ne_of_used hp4 (h.layout.isUsed hq)
  exact ⟨(hne kernelP4 h.kernel).symm, fun i a hi => hne a.p4 (h.root i a hi)⟩

theorem Roots.add (hk : kind a.p4 = .table 4) (hne : a.p4 ≠ kernelP4)
    (hother : ∀ j b, spaces j = some b → b.p4 ≠ a.p4) : Roots m kind kernelP4 (Function.update spaces i (some a)) := by
  refine ⟨h.layout, h.kernel, fun j b hj => ?_, fun j b hj => ?_, fun j k b c hj hk' hbc => ?_⟩
  · rw [update_apply] at hj
    split_ifs at hj
    · cases hj
      exact hk
    · exact h.root j b hj
  · rw [update_apply] at hj
    split_ifs at hj
    · cases hj
      exact hne
    · exact h.ne j b hj
  · rw [update_apply] at hj hk'
    split_ifs at hj hk' with h₁ h₂ h₂
    · rw [h₁, h₂]
    · cases hj
      exact absurd hbc.symm (hother k c hk')
    · cases hk'
      exact absurd hbc (hother j b hj)
    · exact h.inj j k b c hj hk' hbc

theorem Roots.set (hi : spaces i = some a) (hp4 : b.p4 = a.p4) :
    Roots m kind kernelP4 (Function.update spaces i (some b)) := by
  -- take the old space out, put the new one in
  have hout : Roots m kind kernelP4 (Function.update spaces i none) := by
    have hsub : ∀ j c, Function.update spaces i none j = some c → spaces j = some c := fun j c hj => by
      rw [update_apply] at hj
      split_ifs at hj
      exact hj
    exact ⟨h.layout, h.kernel, fun j c hj => h.root j c (hsub j c hj), fun j c hj => h.ne j c (hsub j c hj),
      fun j k c d hj hk => h.inj j k c d (hsub j c hj) (hsub k d hk)⟩
  have hin := hout.add (i := i) (a := b) (hp4 ▸ h.root i a hi) (hp4 ▸ h.ne i a hi) fun j c hj => by
    rw [update_apply] at hj
    split_ifs at hj with hji
    exact fun hc => hji (h.inj j i c a hj hi (hc.trans hp4))
  rwa [Function.update_idem] at hin

theorem Roots.remove (hi : spaces i = some a) (hfrees : Frees m F m')
    (hF : ∀ f, F f → kind f = .data ∨ f = a.p4) : Roots m' (freeKinds kind F) kernelP4 (Function.update spaces i none) := by
  have hlayout := hfrees.layout h.layout fun f hf => by
    rcases hF f hf with hk | rfl
    · exact .inl hk
    · exact .inr (h.root i a hi)
  have hkeep : ∀ f, kind f = .table 4 → f ≠ a.p4 → freeKinds kind F f = .table 4 := fun f hk hne => by
    rw [freeKinds_of_not, hk]
    · intro hf
      rcases hF f hf with hd | hd
      · cases hk.symm.trans hd
      · exact hne hd
    · intro level hl
      rw [hk] at hl
      injection hl with hl
      omega
  have hsub : ∀ j c, Function.update spaces i none j = some c → j ≠ i ∧ spaces j = some c := fun j c hj => by
    rw [update_apply] at hj
    split_ifs at hj with hji
    exact ⟨hji, hj⟩
  refine ⟨hlayout, hkeep kernelP4 h.kernel (h.ne i a hi).symm, fun j c hj => ?_,
    fun j c hj => h.ne j c (hsub j c hj).2, fun j k c d hj hk => h.inj j k c d (hsub j c hj).2 (hsub k d hk).2⟩
  obtain ⟨hji, hj'⟩ := hsub j c hj
  exact hkeep c.p4 (h.root j c hj') fun hc => hji (h.inj j i c a hj' hi hc)

end

theorem PagesMapped.update (h : PagesMapped m spaces) (ha : ∀ page f, a.mappedPages[page]? = some f → Mapped m a.p4 page) :
    PagesMapped m (Function.update spaces i (some a)) := by
  intro j b page f hj hf
  rw [update_apply] at hj
  split_ifs at hj
  · cases hj
    exact ha page f hf
  · exact h j b page f hj hf

theorem PagesMapped.remove (h : PagesMapped m spaces) (hw : m'.words = m.words) :
    PagesMapped m' (Function.update spaces i none) := by
  intro j b page f hj hf
  rw [update_apply] at hj
  split_ifs at hj
  have hmapped := h j b page f hj hf
  unfold Mapped walk at hmapped ⊢
  rwa [hw]

end Roots

end RustKernel.Memory
