import RustKernel.Lib.TreeMap
import RustKernel.Memory.AddressSpace
import RustKernel.Memory.Tables

/-!
# What the memory calls keep

Every call on an address space leaves the pages of all spaces alone: `Steady m kind m' kind'`
says that walks end where they did, that a mapped leaf keeps its frame and stays user
accessible, and that the contents of pages stay. `new_user`, `map_alloc`, `clone_cow` and the
in-place half of `try_resolve_cow` are steady. The copying half changes one leaf to a copy
of its frame: that is `Evolves`, where a mapped leaf may change its frame.
-/

namespace RustKernel.Memory

open Lib Exec
open PhysMem (write_words_of_ne write_words)
open Function (update_of_ne update_self)

variable {m : PhysMem} {kind : ℕ → Kind} {fl : PageTableFlags} {v : Vm} {f p4 src page : ℕ}

def Mapped (m : PhysMem) (p4 page : ℕ) : Prop :=
  ∃ p1 f, walk m p4 page = .ok p1 ∧ nextTable (m.words p1 (pageIndex 1 page)) = .ok f

def LowTable (m : PhysMem) (p4 p2 : ℕ) : Prop :=
  ∃ p3, nextTable (m.words p4 0) = .ok p3 ∧ nextTable (m.words p3 0) = .ok p2

/-- The tables above the leaves stay, and may grow. -/
structure Upper (m : PhysMem) (kind : ℕ → Kind) (m' : PhysMem) (kind' : ℕ → Kind) : Prop where
  source : Layout m kind
  target : Layout m' kind'
  used : ∀ f, m.isUsed f = true → m'.isUsed f = true
  kinds : ∀ f, m.isUsed f = true → kind' f = kind f
  entry : Extends m kind m'
  tree : ∀ p4, kind p4 = .table 4 → Tree m p4 → Tree m' p4

structure Evolves (m : PhysMem) (kind : ℕ → Kind) (m' : PhysMem) (kind' : ℕ → Kind) : Prop
    extends Upper m kind m' kind' where
  leaf : ∀ p1 i f, kind p1 = .table 1 → nextTable (m.words p1 i) = .ok f →
    ∃ f', nextTable (m'.words p1 i) = .ok f'

structure Steady (m : PhysMem) (kind : ℕ → Kind) (m' : PhysMem) (kind' : ℕ → Kind) : Prop
    extends Upper m kind m' kind' where
  leaf : ∀ p1 i f, kind p1 = .table 1 → nextTable (m.words p1 i) = .ok f → nextTable (m'.words p1 i) = .ok f
  user : ∀ p1 i, kind p1 = .table 1 → (m.words p1 i).getLsbD 2 = true → (m'.words p1 i).getLsbD 2 = true
  data : ∀ f, kind f = .data → m'.words f = m.words f

section Rules

variable {m m' m'' : PhysMem} {kind kind' kind'' : ℕ → Kind} {f : ℕ} {k : Kind}

section Upper

variable (h : Upper m kind m' kind') {p4 page p1 : ℕ}
include h

theorem Upper.kind_eq (hf : kind f = k) (hk : k ≠ .other := by simp) : kind' f = k := by
  rw [h.kinds f (h.source.isUsed hf hk), hf]

theorem Upper.trans (h' : Upper m' kind' m'' kind'') : Upper m kind m'' kind'' :=
  ⟨h.source, h'.target, fun f hf => h'.used f (h.used f hf), fun f hf => (h'.kinds f (h.used f hf)).trans (h.kinds f hf),
    h.entry.trans h.source (fun _ _ ht => h.kind_eq ht) h'.entry,
    fun p4 hk ht => h'.tree p4 (h.kind_eq hk) (h.tree p4 hk ht)⟩

theorem Upper.walk (hk : kind p4 = .table 4) (hw : walk m p4 page = .ok p1) : Memory.walk m' p4 page = .ok p1 :=
  h.entry.walk h.source hk hw

theorem Upper.userWalk (hk : kind p4 = .table 4) (hw : FlagWalk 2 m p4 page p1) : FlagWalk 2 m' p4 page p1 :=
  h.entry.flagWalk h.source hk (by decide) hw

theorem Upper.lowTable {p2 : ℕ} (hk : kind p4 = .table 4) (hlow : LowTable m p4 p2) : LowTable m' p4 p2 := by
  obtain ⟨p3, h3, h2⟩ := hlow
  have k3 := h.source.nextTable hk (by decide) h3
  exact ⟨p3, h.entry.nextTable hk (by decide) h3, h.entry.nextTable k3 (by decide) h2⟩

end Upper

theorem Steady.evolves (h : Steady m kind m' kind') : Evolves m kind m' kind' :=
  ⟨h.toUpper, fun p1 i f hk hf => ⟨f, h.leaf p1 i f hk hf⟩⟩

theorem Evolves.trans (h : Evolves m kind m' kind') (h' : Evolves m' kind' m'' kind'') : Evolves m kind m'' kind'' := by
  refine ⟨h.toUpper.trans h'.toUpper, fun p1 i f hk hf => ?_⟩
  obtain ⟨f', hf'⟩ := h.leaf p1 i f hk hf
  exact h'.leaf p1 i f' (h.kind_eq hk) hf'

theorem Steady.trans (h : Steady m kind m' kind') (h' : Steady m' kind' m'' kind'') : Steady m kind m'' kind'' :=
  ⟨h.toUpper.trans h'.toUpper, fun p1 i f hk hf => h'.leaf p1 i f (h.kind_eq hk) (h.leaf p1 i f hk hf),
    fun p1 i hk hu => h'.user p1 i (h.kind_eq hk) (h.user p1 i hk hu),
    fun f hf => (h'.data f (h.kind_eq hf)).trans (h.data f hf)⟩

theorem Steady.refl (hl : Layout m kind) : Steady m kind m kind :=
  ⟨⟨hl, hl, fun _ h => h, fun _ _ => rfl, .of_words fun _ _ _ => rfl, fun _ _ h => h⟩, fun _ _ _ _ h => h, fun _ _ _ h => h,
    fun _ _ => rfl⟩

theorem Evolves.mapped {p4 page : ℕ} (h : Evolves m kind m' kind') (hk : kind p4 = .table 4) (hm : Mapped m p4 page) :
    Mapped m' p4 page := by
  obtain ⟨p1, f, hw, hf⟩ := hm
  obtain ⟨f', hf'⟩ := h.leaf p1 _ f (h.source.walk hk hw) hf
  exact ⟨p1, f', h.walk hk hw, hf'⟩

theorem Grows.steady (h : Grows m kind m' kind') (hl : Layout m kind) (hl' : Layout m' kind') : Steady m kind m' kind' :=
  ⟨⟨hl, hl', h.used, h.kinds, h.entry, h.tree⟩, fun p1 i f hk hf => by rw [h.words_eq hl (.inl hk)]; exact hf,
    fun p1 i hk hu => by rw [h.words_eq hl (.inl hk)]; exact hu, fun f hf => h.words_eq hl (.inr hf)⟩

theorem Steady.of_same (hl : Layout m kind) (hl' : Layout m' kind') (hu : ∀ f, m.isUsed f = true → m'.isUsed f = true)
    (hk : ∀ f, m.isUsed f = true → kind' f = kind f) (hw : ∀ f, m.isUsed f = true → m'.words f = m.words f) :
    Steady m kind m' kind' := by
  have hw' : ∀ {f k}, k ≠ Kind.other → kind f = k → m'.words f = m.words f := fun hne hf => hw _ (hl.used _ (hf ▸ hne))
  have htables : ∀ t level, kind t = .table (level + 2) → m'.words t = m.words t := fun _ _ ht => hw' (by simp) ht
  exact ⟨⟨hl, hl', hu, hk, .of_words htables, fun p4 hp4 htree => htree.congr hl hp4 htables⟩,
    fun p1 i f hp1 hf => by rwa [hw' (by simp) hp1], fun p1 i hp1 hb => by rwa [hw' (by simp) hp1],
    fun f hf => hw' (by simp) hf⟩

theorem Layout.congr (hl : Layout m kind) (hw : m'.words = m.words) (hu : ∀ f, m'.isUsed f = m.isUsed f) : Layout m' kind :=
  ⟨fun f hf => (hu f).trans (hl.used f hf), fun t level i ht hi hne => by
    rw [hw] at hne ⊢
    exact hl.entry t level i ht hi hne⟩

theorem Steady.congr (hl : Layout m kind) (hw : m'.words = m.words) (hu : ∀ f, m'.isUsed f = m.isUsed f) :
    Steady m kind m' kind :=
  Steady.of_same hl (hl.congr hw hu) (fun f hf => (hu f).trans hf) (fun _ _ => rfl) fun _ _ => by rw [hw]

end Rules

/-! ### Changing a leaf -/

section Leaf

variable {m : PhysMem} {kind : ℕ → Kind} {t i : ℕ} {e : Word} {p4 : ℕ}

theorem ne_table_of_leaf (ht : kind t = .table 1) : ∀ level, kind t ≠ .table (level + 2) := by
  intro level h
  rw [ht] at h
  injection h with h
  omega

theorem write_words_of_table (ht : kind t = .table 1) {f level : ℕ} (hf : kind f = .table (level + 2)) :
    (m.write t i e).words f = m.words f :=
  write_words_of_ne fun h => ne_table_of_leaf ht level (h ▸ hf)

theorem Tree.write (h : Tree m p4) (hl : Layout m kind) (hp4 : kind p4 = .table 4) (ht : kind t = .table 1) :
    Tree (m.write t i e) p4 :=
  h.congr hl hp4 fun _ _ hf => write_words_of_table ht hf

theorem upper_write_leaf (hl : Layout m kind) (ht : kind t = .table 1) : Upper m kind (m.write t i e) kind :=
  ⟨hl, hl.write_leaf (ne_table_of_leaf ht), fun _ h => h, fun _ _ => rfl, .of_words fun _ _ hf => write_words_of_table ht hf,
    fun _ hp4 htree => htree.write hl hp4 ht⟩

theorem steady_write_leaf (hl : Layout m kind) (ht : kind t = .table 1)
    (he : ∀ f, nextTable (m.words t i) = .ok f → nextTable e = .ok f)
    (hu : (m.words t i).getLsbD 2 = true → e.getLsbD 2 = true) : Steady m kind (m.write t i e) kind := by
  refine ⟨upper_write_leaf hl ht, fun p1 j f _ h => ?_, fun p1 j _ h => ?_, fun f hf => ?_⟩
  · rw [write_words]
    split_ifs with hc
    · obtain ⟨rfl, rfl⟩ := hc
      exact he f h
    · exact h
  · rw [write_words]
    split_ifs with hc
    · obtain ⟨rfl, rfl⟩ := hc
      exact hu h
    · exact h
  · exact write_words_of_ne fun h => by rw [h, ht] at hf; cases hf

theorem steady_setFlags (hl : Layout m kind) (ht : kind t = .table 1) {fl : PageTableFlags}
    (hfl : IsFlags fl) (hb : ∀ j ∈ [0, 2, 7], fl.getLsbD j = (m.words t i).getLsbD j) :
    Steady m kind (m.write t i (setFlags (m.words t i) fl)) kind := by
  refine steady_write_leaf hl ht (fun f hf => ?_) fun hu => ?_
  · obtain ⟨a, b, c⟩ := nextTable_eq_ok.mp hf
    refine nextTable_eq_ok.mpr ⟨?_, ?_, (entryFrame_setFlags hfl).trans c⟩
    · rw [getLsbD_setFlags _ _ (by decide), hb 0 (by decide), a]
    · rw [getLsbD_setFlags _ _ (by decide), hb 7 (by decide), b]
  · rw [getLsbD_setFlags _ _ (by decide), hb 2 (by decide), hu]

end Leaf

/-! ### The tables of a new space -/

section CopyTables

variable {m m₁ m₂ : PhysMem} {kind : ℕ → Kind} {p4 p3 src : ℕ}
variable {f level : ℕ} {t : ℕ}

def newKinds (kind : ℕ → Kind) (p4 p3 : ℕ) : ℕ → Kind :=
  Function.update (Function.update kind p4 (.table 4)) p3 (.table 3)

structure Fresh (m : PhysMem) (p4 p3 : ℕ) (m' : PhysMem) : Prop where
  fresh : m.isUsed p4 = false ∧ m.isUsed p3 = false
  ne : p4 ≠ p3
  lt : p3 < IDENTITY_FRAMES
  words : ∀ f i, m'.words f i = if f = p4 ∨ f = p3 then 0#64 else m.words f i
  used : ∀ f, m'.isUsed f = true ↔ f = p4 ∨ f = p3 ∨ m.isUsed f = true
  refcount : m'.refcount = m.refcount

theorem Allocates.and_then (h₄ : Allocates m p4 m₁) (h₃ : Allocates m₁ p3 m₂) : Fresh m p4 p3 m₂ := by
  have hnot : ¬ m₁.isUsed p3 = true := by rw [h₃.fresh]; simp
  have hne : p4 ≠ p3 := fun h => hnot ((h₄.used p3).mpr (.inl h.symm))
  refine ⟨⟨h₄.fresh, by simpa using fun h => hnot ((h₄.used p3).mpr (.inr h))⟩, hne, h₃.lt, fun f i => ?_,
    fun f => ?_, h₃.refcount.trans h₄.refcount⟩
  · rw [h₃.words, h₄.words]
    by_cases h3 : f = p3
    · simp [h3]
    · simp [h3]
  · rw [h₃.used, h₄.used]
    exact or_left_comm

theorem Fresh.ne_of_used (h : Fresh m p4 p3 m₂) (hf : m.isUsed f = true) : f ≠ p4 ∧ f ≠ p3 :=
  ⟨PhysMem.ne_of_used h.fresh.1 hf, PhysMem.ne_of_used h.fresh.2 hf⟩

theorem copyTables_isUsed (m : PhysMem) (p4 p3 src f : ℕ) : (copyTables p4 p3 src m).isUsed f = m.isUsed f := by
  unfold copyTables
  dsimp only
  split_ifs <;> rfl

theorem copyTables_refcount (m : PhysMem) (p4 p3 src : ℕ) : (copyTables p4 p3 src m).refcount = m.refcount := by
  unfold copyTables
  dsimp only
  split_ifs <;> rfl

theorem Leads.newKinds {e : Word} (he : Leads kind level e) (h : Fresh m p4 p3 m₂)
    (hl : Layout m kind) : Leads (Memory.newKinds kind p4 p3) level e := by
  refine ⟨he.present, fun hh => ?_, he.huge⟩
  have hk := he.next hh
  obtain ⟨n4, n3⟩ := h.ne_of_used (hl.isUsed hk)
  rw [Memory.newKinds, update_of_ne n3, update_of_ne n4, hk]

theorem newKinds_p4 (h : p4 ≠ p3) : newKinds kind p4 p3 p4 = .table 4 := by
  rw [newKinds, update_of_ne h, update_self]

theorem newKinds_p3 : newKinds kind p4 p3 p3 = .table 3 := update_self ..

theorem newKinds_of_ne (h : f ≠ p4 ∧ f ≠ p3) : newKinds kind p4 p3 f = kind f := by
  rw [newKinds, update_of_ne h.2, update_of_ne h.1]

variable (h : Fresh m p4 p3 m₂) (hl : Layout m kind) (hsrc : kind src = .table 4)
include h hl hsrc

theorem Fresh.copyTables_words (f i : ℕ) : (copyTables p4 p3 src m₂).words f i =
      if f = p4 then if i = 0 then mkEntry p3 USER_RW else if i < 512 then m.words src i else 0#64
      else if f = p3 then
        if (m.words src 0).getLsbD 0 = true ∧ i < 512 then m.words (entryFrame (m.words src 0)) i else 0#64
      else m.words f i := by
  obtain ⟨s4, s3⟩ := h.ne_of_used (hl.isUsed hsrc)
  have hsrcw : ∀ i, m₂.words src i = m.words src i := fun i => by simp [h.words, s4, s3]
  have hp : hasFlags (entryFlags (m.words src 0)) PRESENT = (m.words src 0).getLsbD 0 := by
    rw [hasFlags_PRESENT, getLsbD_entryFlags _ (by decide)]
  by_cases hpres : (m.words src 0).getLsbD 0 = true
  · -- the source has a level-3 table, in use in `m`
    have hne : m.words src 0 ≠ 0#64 := ne_zero_of_getLsbD hpres
    have hleads := hl.entry src 2 0 hsrc (by decide) hne
    have hq : m.isUsed (entryFrame (m.words src 0)) = true := hl.isUsed (hleads.next hleads.not_huge)
    obtain ⟨q4, q3⟩ := h.ne_of_used hq
    simp only [copyTables, hsrcw, hp, hpres, if_true, PhysMem.copy, PhysMem.write]
    by_cases hf4 : f = p4
    · subst hf4
      by_cases hi : i = 0
      · simp [hi]
      · have hi' : 1 ≤ i := by omega
        simp [hi', hi, s3, h.ne, h.words]
    · by_cases hf3 : f = p3
      · simp [hf3, h.ne.symm, h.words, q4, q3]
      · simp [hf4, hf3, h.words]
  · simp only [copyTables, hsrcw, hp, hpres, PhysMem.copy]
    by_cases hf4 : f = p4
    · subst hf4
      by_cases hi : i = 0
      · simp [hi]
      · have hi' : 1 ≤ i := by omega
        simp [hi', hi, hsrcw, h.words]
    · by_cases hf3 : f = p3
      · simp [hf3, h.ne.symm, h.words]
      · simp [hf4, h.words]

theorem Fresh.words_of_used (hf : m.isUsed f = true) : (copyTables p4 p3 src m₂).words f = m.words f := by
  obtain ⟨n4, n3⟩ := h.ne_of_used hf
  funext i
  rw [h.copyTables_words hl hsrc, if_neg n4, if_neg n3]

theorem Fresh.steady : Steady m kind (copyTables p4 p3 src m₂) (newKinds kind p4 p3) := by
  have hwords := h.copyTables_words hl hsrc
  refine Steady.of_same hl ⟨fun f hf => ?_, fun t level i ht hi hne => ?_⟩ (fun f hf => ?_)
    (fun f hf => newKinds_of_ne (h.ne_of_used hf)) fun f hf => h.words_of_used hl hsrc hf
  · rw [copyTables_isUsed]
    by_cases hfp : f = p4 ∨ f = p3
    · exact (h.used f).mpr (by tauto)
    · rw [newKinds_of_ne (not_or.mp hfp)] at hf
      exact (h.used f).mpr (.inr (.inr (hl.used f hf)))
  · rw [hwords] at hne ⊢
    by_cases h4 : t = p4
    · -- the new level-4 table
      subst h4
      rw [newKinds_p4 h.ne] at ht
      obtain rfl : level = 2 := by injection ht with ht; omega
      rw [if_pos rfl] at hne ⊢
      by_cases hi0 : i = 0
      · rw [if_pos hi0]
        exact leads_mkEntry h.lt mapFlags_USER_RW newKinds_p3
      · rw [if_neg hi0, if_pos hi] at hne ⊢
        exact (hl.entry src 2 i hsrc hi hne).newKinds h hl
    · rw [if_neg h4] at hne ⊢
      by_cases h3 : t = p3
      · -- the new level-3 table
        subst h3
        rw [newKinds_p3] at ht
        obtain rfl : level = 1 := by injection ht with ht; omega
        rw [if_pos rfl] at hne ⊢
        split_ifs at hne ⊢ with hpres
        · have hleads := hl.entry src 2 0 hsrc (by decide) (ne_zero_of_getLsbD hpres.1)
          exact (hl.entry _ 1 i (hleads.next hleads.not_huge) hi hne).newKinds h hl
        · exact absurd rfl hne
      · rw [if_neg h3] at hne ⊢
        rw [newKinds_of_ne ⟨h4, h3⟩] at ht
        exact (hl.entry t level i ht hi hne).newKinds h hl
  · rw [copyTables_isUsed]
    exact (h.used f).mpr (.inr (.inr hf))

theorem Fresh.descends {i q3 : ℕ} (hi : i < 512) (h3 : nextTable (m.words src i) = .ok q3) : ∃ r3,
    nextTable ((copyTables p4 p3 src m₂).words p4 i) = .ok r3 ∧
      ((m.words src i).getLsbD 2 = true → ((copyTables p4 p3 src m₂).words p4 i).getLsbD 2 = true) ∧
      ∀ j < 512, (copyTables p4 p3 src m₂).words r3 j = m.words q3 j := by
  have hwords := h.copyTables_words hl hsrc
  by_cases hi0 : i = 0
  · -- the level-3 table of the source, copied
    subst hi0
    obtain ⟨hpres, -, hf⟩ := nextTable_eq_ok.mp h3
    refine ⟨p3, ?_, fun _ => ?_, fun j hj => ?_⟩
    · rw [hwords, if_pos rfl]
      exact nextTable_mkEntry h.lt mapFlags_USER_RW
    · rw [hwords, if_pos rfl, if_pos rfl, getLsbD_mkEntry _ _ (by decide)]
      decide
    · rw [hwords, if_neg h.ne.symm, if_pos rfl, if_pos ⟨hpres, hj⟩, hf]
  · rw [hwords, if_pos rfl, if_neg hi0, if_pos hi]
    exact ⟨q3, h3, id, fun j _ => by rw [h.words_of_used hl hsrc (hl.isUsed (hl.nextTable hsrc hi h3))]⟩

theorem Fresh.userWalk_and_walk {page p1 : ℕ} :
    (walk m src page = .ok p1 → walk (copyTables p4 p3 src m₂) p4 page = .ok p1) ∧
      (FlagWalk 2 m src page p1 → FlagWalk 2 (copyTables p4 p3 src m₂) p4 page p1) := by
  have hlow : ∀ q3 q2, nextTable (m.words src (pageIndex 4 page)) = .ok q3 →
      nextTable (m.words q3 (pageIndex 3 page)) = .ok q2 →
      (copyTables p4 p3 src m₂).words q2 = m.words q2 := fun q3 q2 h3 h2 =>
    h.words_of_used hl hsrc (hl.isUsed (hl.nextTable (hl.nextTable hsrc pageIndex_lt h3) pageIndex_lt h2))
  constructor
  · intro hw
    obtain ⟨q3, q2, h3, h2, h1⟩ := walk_eq_ok.mp hw
    obtain ⟨r3, e3, -, w3⟩ := h.descends hl hsrc pageIndex_lt h3
    exact walk_eq_ok.mpr ⟨r3, q2, e3, by rw [w3 _ pageIndex_lt]; exact h2, by rw [hlow q3 q2 h3 h2]; exact h1⟩
  · rintro ⟨q3, q2, ⟨h3, u3⟩, h2, h1⟩
    obtain ⟨r3, e3, hu, w3⟩ := h.descends hl hsrc pageIndex_lt h3
    exact ⟨r3, q2, ⟨e3, hu u3⟩, by rw [w3 _ pageIndex_lt]; exact h2, by rw [hlow q3 q2 h3 h2.1]; exact h1⟩

theorem Fresh.lowTable {p2 : ℕ} (hlow : LowTable m src p2) : LowTable (copyTables p4 p3 src m₂) p4 p2 := by
  obtain ⟨q3, h3, h2⟩ := hlow
  obtain ⟨r3, e3, -, w3⟩ := h.descends hl hsrc (by decide) h3
  exact ⟨r3, e3, by rw [w3 0 (by decide)]; exact h2⟩

def Origin (m : PhysMem) (p4 p3 src level t g : ℕ) : Prop :=
  t = p4 ∧ g = src ∧ level = 4 ∨ t = p3 ∧ level = 3 ∧ nextTable (m.words src 0) = .ok g ∨
    t = g ∧ level ≤ 3 ∧ m.isUsed t = true ∧ (level = 3 → ∃ i < 512, i ≠ 0 ∧ nextTable (m.words src i) = .ok t)

theorem Fresh.nextTable_origin {g i : ℕ} (ho : Origin m p4 p3 src level t g) (hi : i < 512)
    (hn : nextTable ((copyTables p4 p3 src m₂).words t i) = .ok f) :
    t = p4 ∧ i = 0 ∧ f = p3 ∨ (t = p4 → i ≠ 0) ∧ nextTable (m.words g i) = .ok f := by
  rw [h.copyTables_words hl hsrc] at hn
  rcases ho with ⟨rfl, rfl, -⟩ | ⟨rfl, -, hg⟩ | ⟨rfl, -, hused, -⟩
  · rw [if_pos rfl] at hn
    by_cases hi0 : i = 0
    · rw [if_pos hi0] at hn
      cases (nextTable_mkEntry h.lt mapFlags_USER_RW).symm.trans hn
      exact .inl ⟨rfl, hi0, rfl⟩
    · rw [if_neg hi0, if_pos hi] at hn
      exact .inr ⟨fun _ => hi0, hn⟩
  · obtain ⟨hp, -, hq⟩ := nextTable_eq_ok.1 hg
    rw [if_neg h.ne.symm, if_pos rfl, if_pos ⟨hp, hi⟩, hq] at hn
    exact .inr ⟨fun heq => absurd heq.symm h.ne, hn⟩
  · obtain ⟨n4, n3⟩ := h.ne_of_used hused
    rw [if_neg n4, if_neg n3] at hn
    exact .inr ⟨fun heq => absurd heq n4, hn⟩

theorem Fresh.origin (ht : TableOf (copyTables p4 p3 src m₂) p4 level t) :
    (t = p3 ∧ level = 3 ∧ ∀ i < 512, (copyTables p4 p3 src m₂).words t i = 0#64) ∨
      ∃ g, TableOf m src level g ∧ Origin m p4 p3 src level t g := by
  induction ht with
  | root => exact .inr ⟨src, .root, .inl ⟨rfl, rfl, rfl⟩⟩
  | @next l t i f _ hi hn ih =>
    rcases ih with ⟨rfl, -, hzero⟩ | ⟨g, hg, ho⟩
    · rw [hzero i hi] at hn
      cases hn
    rcases h.nextTable_origin hl hsrc ho hi hn with ⟨rfl, rfl, rfl⟩ | ⟨hne, hn'⟩
    · have hl4 : l = 2 := by
        rcases ho with ⟨-, -, hlev⟩ | ⟨heq, -⟩ | ⟨-, -, hused, -⟩
        · omega
        · exact absurd heq h.ne
        · exact absurd rfl (h.ne_of_used hused).1
      subst hl4
      by_cases hpres : (m.words src 0).getLsbD 0 = true
      · -- the source has a level-3 table 0
        have hleads := hl.entry src 2 0 hsrc (by decide) (ne_zero_of_getLsbD hpres)
        have hq : nextTable (m.words src 0) = .ok (entryFrame (m.words src 0)) :=
          nextTable_eq_ok.2 ⟨hpres, hleads.not_huge, rfl⟩
        exact .inr ⟨_, TableOf.root.next (by decide) hq, .inr (.inl ⟨rfl, rfl, hq⟩)⟩
      · refine .inl ⟨rfl, rfl, fun j hj => ?_⟩
        rw [h.copyTables_words hl hsrc, if_neg h.ne.symm, if_pos rfl, if_neg fun hc => hpres hc.1]
    · have hf := hg.next hi hn'
      have hused : m.isUsed f = true := hl.isUsed (hf.kind_eq hl hsrc)
      refine .inr ⟨f, hf, .inr (.inr ⟨rfl, ?_, hused, fun hl3 => ?_⟩)⟩
      · rcases ho with ⟨-, -, hlev⟩ | ⟨-, hlev, -⟩ | ⟨-, hlev, -⟩ <;> omega
      · rcases ho with ⟨rfl, rfl, -⟩ | ⟨-, hlev, -⟩ | ⟨-, hlev, -⟩
        · exact ⟨i, hi, hne rfl, hn'⟩
        · omega
        · omega

theorem Fresh.tree (htree : Tree m src) : Tree (copyTables p4 p3 src m₂) p4 := by
  -- an entry that is the source's leads to a table in use, which `p3` is not
  have hne : ∀ {l g i}, TableOf m src (l + 2) g → i < 512 → nextTable (m.words g i) ≠ .ok p3 := fun hg hi hn => by
    have hused := hl.isUsed ((hg.next hi hn).kind_eq hl hsrc)
    cases h.fresh.2.symm.trans hused
  refine ⟨fun {l t t' i i' f} ht ht' hi hi' hn hn' => ?_⟩
  obtain ⟨-, -, hzero⟩ | ⟨g, hg, ho⟩ := h.origin hl hsrc ht
  · rw [hzero i hi] at hn
    cases hn
  obtain ⟨-, -, hzero⟩ | ⟨g', hg', ho'⟩ := h.origin hl hsrc ht'
  · rw [hzero i' hi'] at hn'
    cases hn'
  obtain ⟨rfl, rfl, rfl⟩ | ⟨-, hold⟩ := h.nextTable_origin hl hsrc ho hi hn
  · obtain ⟨rfl, rfl, -⟩ | ⟨-, hold'⟩ := h.nextTable_origin hl hsrc ho' hi' hn'
    · exact ⟨rfl, rfl⟩
    · exact absurd hold' (hne hg' hi')
  · obtain ⟨rfl, rfl, rfl⟩ | ⟨-, hold'⟩ := h.nextTable_origin hl hsrc ho' hi' hn'
    · exact absurd hold (hne hg hi)
    obtain ⟨rfl, rfl⟩ := htree.unique hg hg' hi hi' hold hold'
    refine ⟨?_, rfl⟩
    -- the level-3 table 0 of the source is not a table of the new space
    have hlow : nextTable (m.words src 0) = .ok g → ¬ ∃ i < 512, i ≠ 0 ∧ nextTable (m.words src i) = .ok g := by
      rintro h0 ⟨j, hj, hj0, hjn⟩
      exact hj0 (htree.unique (TableOf.root) .root hj (by decide) hjn h0).2
    rcases ho with ⟨rfl, -, h4⟩ | ⟨rfl, h3, h0⟩ | ⟨rfl, h3, -, hj⟩
    · rcases ho' with ⟨rfl, -⟩ | ⟨-, h3', -⟩ | ⟨-, h3', -⟩
      · rfl
      · omega
      · omega
    · rcases ho' with ⟨-, -, h4'⟩ | ⟨rfl, -⟩ | ⟨rfl, -, -, hj'⟩
      · omega
      · rfl
      · exact absurd (hj' h3) (hlow h0)
    · rcases ho' with ⟨-, -, h4'⟩ | ⟨-, h3', h0'⟩ | ⟨rfl, -⟩
      · omega
      · exact absurd (hj h3') (hlow h0')
      · rfl

end CopyTables

/-! ### Building a space -/

theorem Allocates.steady {m' : PhysMem} (h : Allocates m f m') (hl : Layout m kind)
    (k : Kind) : Steady m kind m' (Function.update kind f k) :=
  (h.grows hl k).steady hl (h.layout hl k)

/-- A call that failed has changed nothing if there was no frame to take, and otherwise left a frame in use. -/
def Wasted (m m' : PhysMem) : Prop :=
  Exhausted m ∧ m' = m ∨ ¬ Exhausted m ∧ ∃ f, m.isUsed f = false ∧ m'.isUsed f = true

/-- `p4` is the root of a new space, made from the one below `src`. -/
structure Opens (m : PhysMem) (kind : ℕ → Kind) (src p4 : ℕ) (m' : PhysMem) (kind' : ℕ → Kind) : Prop where
  left : ¬ Exhausted m
  fresh : m.isUsed p4 = false
  steady : Steady m kind m' kind'
  root : kind' p4 = .table 4
  walk : ∀ {page p1}, walk m src page = .ok p1 → Memory.walk m' p4 page = .ok p1
  userWalk : ∀ {page p1}, FlagWalk 2 m src page p1 → FlagWalk 2 m' p4 page p1
  low : ∀ {p2}, LowTable m src p2 → LowTable m' p4 p2
  tree : Tree m src → Tree m' p4
  table : ∃ p3, m.isUsed p3 = false ∧ kind' p3 = .table 3

section Opens

variable {m' m'' : PhysMem} {kind' kind'' : ℕ → Kind}

theorem Opens.mapped (h : Opens m kind src p4 m' kind') (hsrc : kind src = .table 4) (hm : Mapped m src page) :
    Mapped m' p4 page := by
  obtain ⟨p1, f, hw, hf⟩ := hm
  exact ⟨p1, f, h.walk hw, h.steady.leaf p1 _ f (h.steady.source.walk hsrc hw) hf⟩

theorem Opens.trans (h : Opens m kind src p4 m' kind') (hs : Steady m' kind' m'' kind'') : Opens m kind src p4 m'' kind'' :=
  ⟨h.left, h.fresh, h.steady.trans hs, hs.kind_eq h.root, fun hw => hs.walk h.root (h.walk hw),
    fun hw => hs.userWalk h.root (h.userWalk hw), fun h2 => hs.lowTable h.root (h.low h2),
    fun htree => hs.tree _ h.root (h.tree htree), h.table.imp fun _ ht => ⟨ht.1, hs.kind_eq ht.2⟩⟩

end Opens

theorem newTables_post (hl : Layout m kind) (hsrc : kind src = .table 4) : (newTables src m).Post
    (fun p4 m' => m'.refcount = m.refcount ∧ ∃ kind', Opens m kind src p4 m' kind')
    (fun _ m' => m'.refcount = m.refcount ∧ (∃ kind', Steady m kind m' kind') ∧ Wasted m m') := by
  refine post_bind ((allocZeroedFrame_post m).imp_err ?_) ?_
  · rintro _ _ ⟨rfl, hnone⟩
    exact ⟨rfl, ⟨kind, Steady.refl hl⟩, .inl ⟨hnone, rfl⟩⟩
  intro p4 m₁ h₄
  refine post_bind ((allocZeroedFrame_post m₁).imp_err ?_) ?_
  · rintro _ _ ⟨rfl, -⟩
    exact ⟨h₄.refcount, ⟨_, h₄.steady hl .other⟩, .inr ⟨h₄.left, p4, h₄.fresh, (h₄.used p4).mpr (.inl rfl)⟩⟩
  intro p3 m₂ h₃
  have h := h₄.and_then h₃
  exact ⟨(copyTables_refcount ..).trans h.refcount, _, h₄.left, h.fresh.1, h.steady hl hsrc, newKinds_p4 h.ne,
    (h.userWalk_and_walk hl hsrc).1, (h.userWalk_and_walk hl hsrc).2, h.lowTable hl hsrc, h.tree hl hsrc,
    p3, h.fresh.2, Function.update_self ..⟩

theorem newUser_post {cr3 : ℕ} (hl : Layout m kind) (hcr3 : kind cr3 = .table 4) : (AddressSpace.newUser cr3 m).Post
    (fun s m' => s.mappedPages = ∅ ∧ m'.refcount = m.refcount ∧ ∃ kind', Opens m kind cr3 s.p4 m' kind')
    (fun _ m' => m'.refcount = m.refcount ∧ (∃ kind', Steady m kind m' kind') ∧ Wasted m m') :=
  post_bind (newTables_post hl hcr3) fun _ _ h => ⟨rfl, h⟩

theorem mapFlags_pageFlags (writable : Bool) : MapFlags (pageFlags writable) := by
  cases writable
  · exact ⟨isFlags_of_and (by decide), by decide, by decide⟩
  · exact ⟨isFlags_of_and (by decide), by decide, by decide⟩

structure MapsPage (m : PhysMem) (kind : ℕ → Kind) (p4 page frame : ℕ) (fl : PageTableFlags) (m' : PhysMem)
    (kind' : ℕ → Kind) (p1 : ℕ) : Prop where
  steady : Steady m kind m' kind'
  walk : walk m' p4 page = .ok p1
  userWalk : fl.getLsbD 2 = true → FlagWalk 2 m' p4 page p1
  leaf : m'.words p1 (pageIndex 1 page) = mkEntry frame fl
  unused : kind p1 = .table 1 → m.words p1 (pageIndex 1 page) = 0#64

theorem mapTo_mapsPage (page frame : ℕ)
    (hl : Layout m kind) (hp4 : kind p4 = .table 4) (hfl : MapFlags fl) :
    (mapTo p4 page frame fl m).Post (fun _ m' => m'.refcount = m.refcount ∧ ¬ Mapped m p4 page ∧
        ∃ kind' p1, MapsPage m kind p4 page frame fl m' kind' p1)
      (fun _ m' => m'.refcount = m.refcount ∧ (∃ kind', Steady m kind m' kind') ∧
        ∀ p1, walk m p4 page = .ok p1 → m.words p1 (pageIndex 1 page) ≠ 0#64) := by
  refine (mapTo_post hl hp4 hfl.parent).imp ?_ ?_
  · rintro _ m' ⟨m₁, kind', p1, hg, hl₁, hw, hu, hz, rfl⟩
    have hk := hl₁.walk (hg.kind_eq hl hp4) hw
    have hleaf : ∀ f, nextTable (m₁.words p1 (pageIndex 1 page)) = .ok f → nextTable (mkEntry frame fl) = .ok f := fun f h => by
      exact absurd hz (ne_zero_of_getLsbD (nextTable_eq_ok.mp h).1)
    have hs := steady_write_leaf hl₁ hk hleaf fun h => absurd hz (ne_zero_of_getLsbD h)
    have hk4 := hg.kind_eq hl hp4
    refine ⟨hg.refcount, ?_, kind', p1, (hg.steady hl hl₁).trans hs, hs.walk hk4 hw,
      fun h => hs.userWalk hk4 (hu 2 (by decide) h), by simp, fun h => ?_⟩
    · rintro ⟨q1, f, hq, hf⟩
      have hq' := hg.entry.walk hl hp4 hq
      cases hw.symm.trans hq'
      rw [← hg.words_eq hl (.inl (hl.walk hp4 hq)), hz] at hf
      cases hf
    · rw [← hg.words_eq hl (.inl h), hz]
  · rintro _ m' ⟨kind', hg, hl', hno⟩
    exact ⟨hg.refcount, ⟨kind', hg.steady hl hl'⟩, hno⟩

theorem steady_setRefcount (hl : Layout m kind) (f n : ℕ) :
    Steady m kind (m.setRefcount f n) kind := Steady.congr hl rfl fun _ => rfl

theorem post_inMem {ε α : Type} {x : Exec ε PhysMem α} {Q : α → PhysMem → Prop} {E : ε → PhysMem → Prop}
    (h : (x v.mem).Post Q E) : (inMem x v).Post (fun a v' => Q a v'.mem ∧ v'.space = v.space)
      (fun e v' => E e v'.mem ∧ v'.space = v.space) :=
  post_zoom (h.imp (fun _ _ h => ⟨h, rfl⟩) fun _ _ h => ⟨h, rfl⟩)

@[simp] theorem inMem_modify_bind {ε α : Type} (g : PhysMem → PhysMem) (k : Unit → Exec ε Vm α) (v : Vm) :
    (inMem (Exec.modify g) >>= k) v = k () { v with mem := g v.mem } := rfl

theorem post_addressSpace_mapTo {frame : ℕ} {Q : Unit → PhysMem → Prop} {E : PhysMem → Prop}
    (h : (mapTo v.space.p4 page frame fl v.mem).Post Q fun _ => E) : (AddressSpace.mapTo page frame fl v).Post
    (fun a v' => Q a v'.mem ∧ v'.space = v.space.replaceMapping page frame) (fun _ v' => E v'.mem ∧ v'.space = v.space) := by
  rw [AddressSpace.mapTo, get_bind]
  have hmap : (Exec.mapErr AddressSpace.mapToMessage (mapTo v.space.p4 page frame fl) v.mem).Post Q fun _ => E := post_mapErr h
  refine post_bind (post_inMem hmap) ?_
  rintro _ v₁ ⟨hq, hsp⟩
  exact ⟨hq, by rw [← hsp]⟩

theorem addressSpace_mapTo_post (page frame : ℕ)
    (hl : Layout v.mem kind) (hp4 : kind v.space.p4 = .table 4) (hfl : MapFlags fl) :
    (AddressSpace.mapTo page frame fl v).Post
      (fun _ v' => v'.space = v.space.replaceMapping page frame ∧ v'.mem.refcount = v.mem.refcount ∧
        ¬ Mapped v.mem v.space.p4 page ∧
        ∃ kind' p1, MapsPage v.mem kind v.space.p4 page frame fl v'.mem kind' p1)
      (fun _ v' => v'.space = v.space ∧ v'.mem.refcount = v.mem.refcount ∧ ∃ kind', Steady v.mem kind v'.mem kind') := by
  have hmap : (mapTo v.space.p4 page frame fl v.mem).Post
      (fun _ m' => m'.refcount = v.mem.refcount ∧ ¬ Mapped v.mem v.space.p4 page ∧
        ∃ kind' p1, MapsPage v.mem kind v.space.p4 page frame fl m' kind' p1)
      (fun _ m' => m'.refcount = v.mem.refcount ∧ ∃ kind', Steady v.mem kind m' kind') :=
    (mapTo_mapsPage page frame hl hp4 hfl).imp_err fun _ _ h => ⟨h.1, h.2.1⟩
  refine (post_addressSpace_mapTo hmap).imp ?_ fun _ _ h => ⟨h.2, h.1⟩
  rintro _ v' ⟨hmaps, hsp⟩
  exact ⟨hsp, hmaps⟩

theorem Allocates.counted {m₁ : PhysMem} (h : Allocates m f m₁) (hl : Layout m kind) :
    Steady m kind (m₁.setRefcount f 1) (Function.update kind f .data) :=
  (h.steady hl .data).trans (steady_setRefcount (h.steady hl .data).target f 1)

theorem post_mapAlloc {Q : ℕ → Vm → Prop} {E : Vm → Prop} (hnone : E v)
    (hmap : ∀ f m₁, Allocates v.mem f m₁ → (mapTo v.space.p4 page f fl (m₁.setRefcount f 1)).Post
      (fun _ m' => Q f ⟨m', v.space.replaceMapping page f⟩) (fun _ m' => E ⟨m', v.space⟩)) :
    (AddressSpace.mapAlloc page fl v).Post Q fun _ => E := by
  refine post_bind ((post_inMem (allocZeroedFrame_post v.mem)).imp_err ?_) ?_
  · rintro _ ⟨m', s⟩ ⟨hm, hsp⟩
    obtain rfl : m' = v.mem := hm.1
    obtain rfl : s = v.space := hsp
    exact hnone
  rintro f ⟨m₁, s⟩ ⟨halloc, hsp⟩
  obtain rfl : s = v.space := hsp
  rw [inMem_modify_bind]
  have hcall := post_addressSpace_mapTo (v := ⟨m₁.setRefcount f 1, v.space⟩) (hmap f m₁ halloc)
  refine post_bind (hcall.imp_err ?_) ?_
  · rintro _ ⟨m', s⟩ ⟨h, hsp⟩
    obtain rfl : s = v.space := hsp
    exact h
  · rintro _ ⟨m', s⟩ ⟨h, hsp⟩
    obtain rfl : s = v.space.replaceMapping page f := hsp
    exact h

theorem mapAlloc_post (page : ℕ) (hl : Layout v.mem kind)
    (hp4 : kind v.space.p4 = .table 4) (hfl : MapFlags fl) : (AddressSpace.mapAlloc page fl v).Post
      (fun f v' => v.mem.isUsed f = false ∧ f < IDENTITY_FRAMES ∧ v'.space = v.space.replaceMapping page f ∧
        ¬ Mapped v.mem v.space.p4 page ∧ v'.mem.refcount = v.mem.refcount.set f 1 ∧
        ∃ kind' p1, MapsPage v.mem kind v.space.p4 page f fl v'.mem kind' p1 ∧ kind' f = .data ∧ ∀ i, v'.mem.words f i = 0#64)
      (fun _ v' => v'.space = v.space ∧ (∃ kind', Steady v.mem kind v'.mem kind') ∧
        ∀ g, v.mem.isUsed g = true → v'.mem.refcount g = v.mem.refcount g) := by
  refine post_mapAlloc ⟨rfl, ⟨kind, Steady.refl hl⟩, fun _ _ => rfl⟩ fun f m₁ halloc => ?_
  have hs := halloc.counted hl
  have hrc : (m₁.setRefcount f 1).refcount = v.mem.refcount.set f 1 := by
    rw [← halloc.refcount]
    rfl
  refine (mapTo_mapsPage page f hs.target (hs.kind_eq hp4) hfl).imp ?_ ?_
  · rintro _ m₂ ⟨hrc₂, hnot, kind₂, p1, hmaps⟩
    have hdata : kind₂ f = .data := hmaps.steady.kind_eq (update_self ..)
    refine ⟨halloc.fresh, halloc.lt, rfl, fun h => hnot (hs.evolves.mapped hp4 h), hrc₂.trans hrc, kind₂, p1,
      ⟨hs.trans hmaps.steady, hmaps.walk, hmaps.userWalk, hmaps.leaf, fun h => ?_⟩, hdata, fun i => ?_⟩
    · have hu := hmaps.unused (hs.kind_eq h)
      rwa [show (m₁.setRefcount f 1).words = m₁.words from rfl, halloc.words_of_table hl h] at hu
    · exact (congrFun (hmaps.steady.data f (update_self ..)) i).trans (halloc.zero i)
  · rintro _ m₂ ⟨hrc₂, ⟨kind₂, hs₂⟩, -⟩
    refine ⟨rfl, ⟨kind₂, hs.trans hs₂⟩, fun g hg => ?_⟩
    rw [hrc₂.trans hrc, FrameRefcount.set, update_of_ne]
    rintro rfl
    cases halloc.fresh.symm.trans hg

/-! ### Cloning a space -/

def FrameRefcount.incAll (rc : FrameRefcount) (frames : List ℕ) : FrameRefcount := frames.foldl FrameRefcount.inc rc

section Clone

variable {m : PhysMem} {kind : ℕ → Kind} {p4 page : ℕ}

theorem Mapped.leaf (h : Mapped m p4 page) : ∃ p1 f, walk m p4 page = .ok p1 ∧ nextTable (m.words p1 (pageIndex 1 page)) =
    .ok f ∧ m.words p1 (pageIndex 1 page) ≠ 0#64 ∧ MapFlags (entryFlags (m.words p1 (pageIndex 1 page))) := by
  obtain ⟨p1, f, hw, hf⟩ := h
  obtain ⟨h0, h7, -⟩ := nextTable_eq_ok.mp hf
  exact ⟨p1, f, hw, hf, ne_zero_of_getLsbD h0, isFlags_entryFlags _,
    by rw [getLsbD_entryFlags _ (by decide), h0], by rw [getLsbD_entryFlags _ (by decide), h7]⟩

theorem downgrade_post (hl : Layout m kind) (hk : kind p4 = .table 4) (hm : Mapped m p4 page) :
    (AddressSpace.downgrade p4 page m).Post
    (fun _ m' => m'.refcount = m.refcount ∧ (∀ f, m'.isUsed f = m.isUsed f) ∧ Steady m kind m' kind) (fun _ _ => False) := by
  obtain ⟨p1, f, hw, -, hne, -⟩ := hm.leaf
  unfold AddressSpace.downgrade
  rw [bind_of_ok (translate_of_walk hw hne)]
  dsimp only
  split_ifs
  · refine post_bind (post_attempt (post_mapErr ?_)) fun _ _ h => h
    refine (updateFlags_post m p4 page _).imp ?_ ?_
    · rintro _ m' ⟨q1, hq, -, rfl⟩
      cases hw.symm.trans hq
      have hbit : ∀ i ∈ [0, 2, 7], (entryFlags (m.words p1 (pageIndex 1 page)) &&& ~~~WRITABLE ||| COW_MARKER).getLsbD i =
          (m.words p1 (pageIndex 1 page)).getLsbD i := by
        simp [getLsbD_WRITABLE, getLsbD_COW_MARKER, getLsbD_entryFlags, -BitVec.getLsbD_eq_getElem]
      exact ⟨rfl, fun _ => rfl,
        steady_setFlags hl (hl.walk hk hw) ((isFlags_entryFlags _).and.or (isFlags_of_and (by decide))) hbit⟩
    · rintro _ m' ⟨rfl, -⟩
      exact ⟨rfl, fun _ => rfl, Steady.refl hl⟩
  · exact ⟨rfl, fun _ => rfl, Steady.refl hl⟩

theorem collectFlags_post : ∀ {l : List (ℕ × ℕ)}, (∀ e ∈ l, Mapped m p4 e.1) →
    (AddressSpace.collectFlags p4 l m).Post
      (fun fls m' => m' = m ∧ fls.length = l.length ∧ ∀ fl ∈ fls, MapFlags fl) (fun _ _ => False)
  | [], _ => ⟨rfl, rfl, by simp⟩
  | e :: l, h => by
    obtain ⟨p1, f, hw, -, hne, hleaf⟩ := (h e (by simp)).leaf
    unfold AddressSpace.collectFlags
    rw [bind_of_ok (translate_of_walk hw hne)]
    refine post_bind (collectFlags_post fun e' he' => h e' (by simp [he'])) ?_
    rintro fls m' ⟨rfl, hlen, hall⟩
    refine ⟨rfl, by simp [hlen], fun fl hfl => ?_⟩
    rcases List.mem_cons.mp hfl with rfl | hfl
    · exact hleaf
    · exact hall fl hfl

theorem shareOne_post {e : (ℕ × ℕ) × PageTableFlags} (hl : Layout m kind) (hk : kind p4 = .table 4)
    (hm : Mapped m p4 e.1.1) (hfl : MapFlags e.2) : (AddressSpace.shareOne p4 e m).Post
      (fun _ m' => m'.refcount = m.refcount.inc e.1.2 ∧ ∃ kind', Steady m kind m' kind')
      (fun _ _ => False) := by
  refine post_bind (Q := fun _ m' => m'.refcount = m.refcount ∧ ∃ kind', Steady m kind m' kind')
    (post_attempt (post_mapErr ((mapTo_mapsPage e.1.1 e.1.2 hl hk hfl).imp ?_ ?_))) ?_
  · rintro _ m' ⟨-, hnot, -⟩
    exact absurd hm hnot
  · rintro _ m' ⟨hrc, hs, -⟩
    exact ⟨hrc, hs⟩
  · rintro _ m' ⟨hrc, kind', hs⟩
    refine ⟨?_, kind', hs.trans (Steady.congr hs.target rfl fun _ => rfl)⟩
    show m'.refcount.inc e.1.2 = _
    rw [hrc]

theorem forM_downgrade_post {l : List (ℕ × ℕ)} (hl : Layout m kind) (hk : kind p4 = .table 4) (hm : ∀ e ∈ l, Mapped m p4 e.1) :
    (l.forM (fun e => AddressSpace.downgrade p4 e.1) m).Post
    (fun _ m' => m'.refcount = m.refcount ∧ (∀ f, m'.isUsed f = m.isUsed f) ∧ Steady m kind m' kind) (fun _ _ => False) := by
  -- the invariant: what is left to treat was mapped at the start
  let I (rest : List (ℕ × ℕ)) (m' : PhysMem) : Prop :=
    (∀ e ∈ rest, Mapped m p4 e.1) ∧ m'.refcount = m.refcount ∧ (∀ f, m'.isUsed f = m.isUsed f) ∧ Steady m kind m' kind
  have hstart : I l m := ⟨hm, rfl, fun _ => rfl, Steady.refl hl⟩
  refine (post_forM hstart ?_).imp_ok (fun _ _ h => h.2)
  rintro e xs m' ⟨hall, hrc, hu, hs⟩
  have hmap : Mapped m' p4 e.1 := hs.evolves.mapped hk (hall e (List.mem_cons_self ..))
  refine (downgrade_post hs.target hk hmap).imp_ok ?_
  rintro _ m'' ⟨hrc', hu', hs'⟩
  exact ⟨fun e' he' => hall e' (by simp [he']), hrc'.trans hrc, fun f => (hu' f).trans (hu f), hs.trans hs'⟩

theorem forM_shareOne_post {l : List ((ℕ × ℕ) × PageTableFlags)} (hl : Layout m kind) (hk : kind p4 = .table 4)
    (hm : ∀ e ∈ l, Mapped m p4 e.1.1 ∧ MapFlags e.2) : (l.forM (AddressSpace.shareOne p4) m).Post
      (fun _ m' => m'.refcount = m.refcount.incAll (l.map fun e => e.1.2) ∧ ∃ kind', Steady m kind m' kind')
      (fun _ _ => False) := by
  -- the invariant: the increments still to come complete the list
  let I (rest : List ((ℕ × ℕ) × PageTableFlags)) (m' : PhysMem) : Prop :=
    (∀ e ∈ rest, Mapped m p4 e.1.1 ∧ MapFlags e.2) ∧
      m'.refcount.incAll (rest.map fun e => e.1.2) = m.refcount.incAll (l.map fun e => e.1.2) ∧
      ∃ kind', Steady m kind m' kind'
  have hstart : I l m := ⟨hm, rfl, kind, Steady.refl hl⟩
  refine (post_forM hstart ?_).imp_ok (fun _ _ h => h.2)
  rintro e xs m' ⟨hall, hrc, kind', hs⟩
  obtain ⟨hmap, hfl⟩ := hall e (List.mem_cons_self ..)
  have hmap' : Mapped m' p4 e.1.1 := hs.evolves.mapped hk hmap
  have hk' : kind' p4 = .table 4 := hs.kind_eq hk
  refine (shareOne_post hs.target hk' hmap' hfl).imp_ok ?_
  rintro _ m'' ⟨hrc', kind'', hs'⟩
  exact ⟨fun e' he' => hall e' (by simp [he']), by rw [hrc']; exact hrc, kind'', hs.trans hs'⟩

theorem cloneCow_post {s : AddressSpace} (hl : Layout m kind) (hk : kind s.p4 = .table 4)
    (hm : ∀ page f, s.mappedPages[page]? = some f → Mapped m s.p4 page) : (s.cloneCow m).Post
      (fun c m' => c.mappedPages = s.mappedPages ∧
        m'.refcount = m.refcount.incAll (s.mappedPages.toList.map Prod.snd) ∧ ∃ kind', Opens m kind s.p4 c.p4 m' kind')
      (fun _ m' => m'.refcount = m.refcount ∧ ∃ kind', Steady m kind m' kind') := by
  have hlist : ∀ e ∈ s.mappedPages.toList, Mapped m s.p4 e.1 := fun e he =>
    hm e.1 e.2 (Std.ExtTreeMap.mem_toList_iff_getElem?_eq_some.mp he)
  refine post_bind ((newTables_post hl hk).imp_err fun _ _ h => ⟨h.1, h.2.1⟩) ?_
  rintro newP4 m₁ ⟨hrc₁, kind₁, ho⟩
  have hs₁ := ho.steady
  have hlist₁ : ∀ e ∈ s.mappedPages.toList, Mapped m₁ s.p4 e.1 := fun e he => hs₁.evolves.mapped hk (hlist e he)
  have hparent : kind₁ s.p4 = .table 4 := hs₁.kind_eq hk
  refine post_bind ((forM_downgrade_post hs₁.target hparent hlist₁).never) ?_
  rintro _ m₂ ⟨hrc₂, -, hs₂⟩
  refine post_bind ((collectFlags_post fun e he => hs₂.evolves.mapped hparent (hlist₁ e he)).never) ?_
  rintro fls m₂' ⟨rfl, hlen, hfls⟩
  -- a page of the parent is mapped in the child, through the same leaf
  refine post_bind ((forM_shareOne_post hs₂.target (hs₂.kind_eq ho.root) fun e he =>
    ⟨hs₂.evolves.mapped ho.root (ho.mapped hk (hlist e.1 (List.of_mem_zip he).1)), hfls e.2 (List.of_mem_zip he).2⟩).never) ?_
  rintro _ m₃ ⟨hrc₃, kind₃, hs₃⟩
  have hframes : (s.mappedPages.toList.zip fls).map (fun e => e.1.2) = s.mappedPages.toList.map Prod.snd := by
    rw [show (fun e : (ℕ × ℕ) × PageTableFlags => e.1.2) = Prod.snd ∘ Prod.fst from rfl, ← List.map_map,
      List.map_fst_zip (by omega)]
  refine ⟨TreeMap.ofList_toList _, ?_, kind₃, (ho.trans hs₂).trans hs₃⟩
  rw [hrc₃, hframes, hrc₂, hrc₁]

end Clone

/-! ### Resolving a fault -/

structure Copies (m : PhysMem) (kind : ℕ → Kind) (p1 i f g : ℕ) (m' : PhysMem) (kind' : ℕ → Kind) : Prop where
  evolves : Evolves m kind m' kind'
  data : kind' g = .data
  copy : ∀ i < 512, m'.words g i = m.words f i
  fresh : m.isUsed g = false
  leaf : nextTable (m'.words p1 i) = .ok g
  user : (m'.words p1 i).getLsbD 2 = true
  other : ∀ q1 j h, kind q1 = .table 1 → ¬ (q1 = p1 ∧ j = i) → nextTable (m.words q1 j) = .ok h →
    nextTable (m'.words q1 j) = .ok h
  otherUser : ∀ q1 j, kind q1 = .table 1 → ¬ (q1 = p1 ∧ j = i) → (m.words q1 j).getLsbD 2 = true →
    (m'.words q1 j).getLsbD 2 = true
  pages : ∀ h, kind h = .data → m'.words h = m.words h

section Resolve

variable {m : PhysMem} {kind : ℕ → Kind} {cr3 page p1 f : ℕ} {m₁ : PhysMem}

theorem Allocates.steady_data {m₂ : PhysMem} (h : Allocates m f m₁) (hl : Layout m kind)
    (hw : ∀ g, g ≠ f → m₂.words g = m₁.words g) (hu : ∀ g, m₂.isUsed g = m₁.isUsed g) :
    Steady m kind m₂ (Function.update kind f .data) := by
  have hg := h.grows hl .data
  have hl₁ := h.layout hl .data
  refine Steady.of_same hl ⟨fun g hg' => (hu g).trans (hl₁.used g hg'), fun t level i ht hi hne' => ?_⟩
    (fun g hg' => (hu g).trans (hg.used g hg')) hg.kinds fun g hg' => ?_
  · rw [hw t (ne_of_kind ht (Function.update_self ..))] at hne' ⊢
    exact hl₁.entry t level i ht hi hne'
  · rw [hw g (h.ne_of_used hg')]
    funext i
    rw [h.words, if_neg (h.ne_of_used hg')]

theorem Allocates.steady_counted {g : ℕ} (h : Allocates m g m₁) (hl : Layout m kind) (f : ℕ) :
    Steady m kind (((m₁.copy g f 0).decRefcount f).setRefcount g 1) (Function.update kind g .data) := by
  have hcopy : ∀ k, k ≠ g → (m₁.copy g f 0).words k = m₁.words k := fun k hk => by simp [PhysMem.copy, hk]
  have hs := h.steady_data hl hcopy fun _ => rfl
  exact hs.trans (Steady.congr hs.target rfl fun _ => rfl)

theorem getLsbD_writableAgain (e : Word) :
    ∀ i ∈ [0, 2, 7], ((entryFlags e ||| WRITABLE) &&& ~~~COW_MARKER).getLsbD i = e.getLsbD i := by
  simp [getLsbD_WRITABLE, getLsbD_COW_MARKER, getLsbD_entryFlags, -BitVec.getLsbD_eq_getElem]

theorem isFlags_writableAgain (e : Word) : IsFlags ((entryFlags e ||| WRITABLE) &&& ~~~COW_MARKER) :=
  ((isFlags_entryFlags e).or (isFlags_of_and (by decide))).and

theorem mapFlags_writableAgain {e : Word} (h0 : e.getLsbD 0 = true) (h7 : e.getLsbD 7 = false) :
    MapFlags ((entryFlags e ||| WRITABLE) &&& ~~~COW_MARKER) :=
  ⟨isFlags_writableAgain _, (getLsbD_writableAgain e 0 (by decide)).trans h0,
    (getLsbD_writableAgain e 7 (by decide)).trans h7⟩

theorem copyOnWrite_post (hl : Layout m kind) (hk : kind cr3 = .table 4)
    (hw : walk m cr3 page = .ok p1) (hf : nextTable (m.words p1 (pageIndex 1 page)) = .ok f)
    (hused : m.isUsed f = true) (hfl : MapFlags fl) (hu : fl.getLsbD 2 = true) :
    (copyOnWrite cr3 page f fl m).Post
      (fun o m' => ∃ g, o = some g ∧ m'.refcount = (m.refcount.dec f).set g 1 ∧
        ∃ kind', Copies m kind p1 (pageIndex 1 page) f g m' kind')
      (fun _ m' => m' = m) := by
  refine post_bind ((allocZeroedFrame_post m).imp_err fun _ _ h => h.1) ?_
  intro g m₁ halloc
  have hfg := halloc.ne_of_used hused
  rw [modify_bind, modify_bind, modify_bind]
  have hs₃ := halloc.steady_counted hl f
  generalize hm₃ : ((m₁.copy g f 0).decRefcount f).setRefcount g 1 = m₃ at hs₃ ⊢
  have hrc₃ : m₃.refcount = (m.refcount.dec f).set g 1 := by
    rw [← hm₃, ← halloc.refcount]
    rfl
  have hg₃ : ∀ i < 512, m₃.words g i = m.words f i := fun i hi => by
    rw [← hm₃]
    simp [PhysMem.setRefcount, PhysMem.decRefcount, PhysMem.copy, halloc.words, hfg, hi]
  have hp1 := hl.walk hk hw
  have hp1₃ := hs₃.kind_eq hp1
  have hk₃ := hs₃.kind_eq hk
  have hw₃ := hs₃.walk hk hw
  -- the old leaf is taken away
  refine post_bind ((post_mapErr ((unmap_post m₃ cr3 page).imp_err ?_))) ?_
  · rintro _ m' ⟨-, hno⟩
    exact absurd (hs₃.leaf p1 _ f hp1 hf) (hno p1 f hw₃)
  rintro _ m₄ ⟨q1, hq, -, rfl⟩
  cases hw₃.symm.trans hq
  have hu₄ := upper_write_leaf (i := pageIndex 1 page) (e := 0#64) hs₃.target hp1₃
  have hw₄ := hu₄.walk hk₃ hw₃
  -- and a new one put in its place
  refine post_bind (post_mapErr ((mapTo_mapsPage page g hu₄.target hk₃ hfl).imp_err ?_)) ?_
  · rintro _ m' ⟨-, -, hno⟩
    exact absurd (by simp) (hno p1 hw₄)
  rintro _ m₅ ⟨hrc₅, -, kind₅, q1, hmaps⟩
  have hs₅ := hmaps.steady
  cases hmaps.walk.symm.trans (hs₅.walk hk₃ hw₄)
  have hother : ∀ q1 j, ¬ (q1 = p1 ∧ j = pageIndex 1 page) →
      (m₃.write p1 (pageIndex 1 page) 0#64).words q1 j = m₃.words q1 j := fun q1 j h => by
    rw [write_words, if_neg h]
  have hleaf : nextTable (m₅.words p1 (pageIndex 1 page)) = .ok g := by
    rw [hmaps.leaf]
    exact nextTable_mkEntry halloc.lt hfl
  refine ⟨g, rfl, hrc₅.trans hrc₃, kind₅, ?_⟩
  have hpage : ∀ h, Function.update kind g .data h = .data → m₅.words h = m₃.words h := fun h hh => by
    rw [hs₅.data h hh, write_words_of_ne (ne_of_kind hh hp1₃)]
  have hcopied : ∀ q1 j h, kind q1 = .table 1 → ¬ (q1 = p1 ∧ j = pageIndex 1 page) →
      nextTable (m.words q1 j) = .ok h → nextTable (m₅.words q1 j) = .ok h := fun q1 j h hq1 hne' hh =>
    hs₅.leaf q1 j h (hs₃.kind_eq hq1) ((hother q1 j hne').symm ▸ hs₃.leaf q1 j h hq1 hh)
  refine ⟨⟨hs₃.toUpper.trans (hu₄.trans hs₅.toUpper), fun q1 j h hq1 hh => ?_⟩, hs₅.kind_eq (update_self ..),
    fun i hi => by rw [hpage g (update_self ..), hg₃ i hi], halloc.fresh, hleaf, ?_, hcopied, fun q1 j hq1 hne' hb => ?_,
    fun h hh => ?_⟩
  · by_cases heq : q1 = p1 ∧ j = pageIndex 1 page
    · exact ⟨g, by rw [heq.1, heq.2]; exact hleaf⟩
    · exact ⟨h, hcopied q1 j h hq1 heq hh⟩
  · rw [hmaps.leaf, getLsbD_mkEntry _ _ (by decide), hu]
  · exact hs₅.user q1 j (hs₃.kind_eq hq1) ((hother q1 j hne').symm ▸ hs₃.user q1 j hq1 hb)
  · rw [hpage h (hs₃.kind_eq hh), hs₃.data h hh]

theorem tryResolveCow_post (hl : Layout m kind) (hk : kind cr3 = .table 4) (hw : walk m cr3 page = .ok p1)
    (hf : nextTable (m.words p1 (pageIndex 1 page)) = .ok f) (hused : m.isUsed f = true) :
    (tryResolveCow cr3 page m).Post
      (fun o m' => (o = none ∧ m.refcount f ≤ 1 ∧ m'.refcount = m.refcount ∧ Steady m kind m' kind) ∨
        ∃ g, o = some g ∧ 1 < m.refcount f ∧ m'.refcount = (m.refcount.dec f).set g 1 ∧
          ∃ kind', Copies m kind p1 (pageIndex 1 page) f g m' kind')
      (fun _ m' => m' = m) := by
  obtain ⟨h0, h7, hframe⟩ := nextTable_eq_ok.mp hf
  have hne := ne_zero_of_getLsbD h0
  unfold tryResolveCow
  rw [bind_of_ok (translate_of_walk hw hne)]
  dsimp only
  rw [hframe]
  split_ifs with hcow huser
  · rfl
  · rfl
  rw [get_bind]
  have hu : (m.words p1 (pageIndex 1 page)).getLsbD 2 = true := by
    rw [hasFlags_USER_ACCESSIBLE, getLsbD_entryFlags _ (by decide)] at huser
    simpa using huser
  split_ifs with hrc
  · -- in place
    refine post_bind (post_mapErr ((updateFlags_post m cr3 page _).imp_err ?_)) ?_
    · rintro _ m' ⟨rfl, -⟩
      rfl
    rintro _ m' ⟨q1, hq, -, rfl⟩
    cases hw.symm.trans hq
    exact .inl ⟨rfl, hrc, rfl, steady_setFlags hl (hl.walk hk hw) (isFlags_writableAgain _) (getLsbD_writableAgain _)⟩
  · refine (copyOnWrite_post hl hk hw hf hused (mapFlags_writableAgain h0 h7) ?_).imp_ok ?_
    · exact (getLsbD_writableAgain _ 2 (by decide)).trans hu
    · rintro o m' ⟨g, rfl, hrc', hcopies⟩
      exact .inr ⟨g, rfl, by omega, hrc', hcopies⟩

def cowFrame (m : PhysMem) (p4 page : ℕ) : Option ℕ :=
  match translate (ε := String) p4 page m with
  | .ok (.mapped f flags) _ =>
    if hasFlags flags COW_MARKER && hasFlags flags USER_ACCESSIBLE then some f else none
  | _ => none

theorem tryResolveCow_of_cowFrame_eq_none (h : cowFrame m cr3 page = none) :
    (tryResolveCow cr3 page m).Post (fun _ _ => False) (fun _ m' => m' = m) := by
  have hpost := translate_post (ε := String) m cr3 page
  unfold cowFrame at h
  unfold tryResolveCow
  rw [bind_apply]
  cases ht : translate (ε := String) cr3 page m with
  | ok r m' =>
    obtain rfl := hpost.ok ht
    cases r with
    | notMapped => rfl
    | mapped g flags =>
      rw [ht] at h
      dsimp only at h ⊢
      split_ifs with hcow huser
      · rfl
      · rfl
      · rw [Bool.not_eq_true', Bool.not_eq_false] at hcow huser
        rw [hcow, huser] at h
        cases h
  | err e m' => exact (hpost.err ht).elim
  | panic => trivial
  | diverge => trivial

theorem nextTable_of_cowFrame (hm : Mapped m cr3 page) (h : cowFrame m cr3 page = some f) :
    ∃ p1, walk m cr3 page = .ok p1 ∧ nextTable (m.words p1 (pageIndex 1 page)) = .ok f := by
  obtain ⟨p1, g, hw, hg, hne, -⟩ := hm.leaf
  unfold cowFrame at h
  rw [translate_of_walk hw hne] at h
  dsimp only at h
  split_ifs at h
  cases h
  obtain ⟨-, -, rfl⟩ := nextTable_eq_ok.mp hg
  exact ⟨p1, hw, hg⟩

end Resolve

end RustKernel.Memory
