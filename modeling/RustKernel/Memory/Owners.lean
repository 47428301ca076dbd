import RustKernel.Memory.Privacy

/-!
# Who holds which frame

Frames are held in two ways. The pages that address spaces record are counted in `FRAME_REFCOUNT`; the
frames of shared-memory regions and of the back buffer, the *pool*, are kept by other means, and spaces may
record them too. `Sound` is what the calls on memory keep while these two do not meet: every space has its
own level-4 table, what it records is mapped for ring 3, and the count of a frame outside the pool is at
least the number of pages that record it.
-/

namespace RustKernel.Memory

open Lib Fs
open Std.ExtTreeMap (mem_toList_iff_getElem?_eq_some getElem?_insert_self)
open AddressSpace (mem_frames getElem?_replaceMapping)

/-! ### Pages of ring 3 -/

def UserMapped (m : PhysMem) (p4 page : ℕ) : Prop :=
  ∃ p1 f, FlagWalk 2 m p4 page p1 ∧ nextTable (m.words p1 (pageIndex 1 page)) = .ok f ∧
    (m.words p1 (pageIndex 1 page)).getLsbD 2 = true

section UserMapped

variable {m m' : PhysMem} {kind kind' : ℕ → Kind} {p4 page : ℕ} {f : ℕ}

theorem UserMapped.mapped (h : UserMapped m p4 page) : Mapped m p4 page := by
  obtain ⟨p1, f, hw, hf, -⟩ := h
  exact ⟨p1, f, hw.walk, hf⟩

theorem UserMapped.mmu (h : UserMapped m p4 page) : ∃ a, Memory.mmu m p4 page = some a ∧ a.user = true := by
  obtain ⟨p1, f, hw, hf, hu⟩ := h
  obtain ⟨a, ha, -, huser⟩ := mmu_of_userWalk hw (nextTable_eq_ok.mp hf).1
  exact ⟨a, ha, huser.trans hu⟩

structure Keeps (m : PhysMem) (kind : ℕ → Kind) (m' : PhysMem) (kind' : ℕ → Kind) : Prop where
  evolves : Evolves m kind m' kind'
  user : ∀ p4 page, kind p4 = .table 4 → UserMapped m p4 page → UserMapped m' p4 page

theorem Steady.keeps (h : Steady m kind m' kind') : Keeps m kind m' kind' := by
  refine ⟨h.evolves, fun p4 page hk hu => ?_⟩
  obtain ⟨p1, f, hw, hf, hb⟩ := hu
  have hp1 := h.source.walk hk hw.walk
  exact ⟨p1, f, h.userWalk hk hw, h.leaf p1 _ f hp1 hf, h.user p1 _ hp1 hb⟩

theorem Copies.keeps {p1 i g : ℕ} (h : Copies m kind p1 i f g m' kind') : Keeps m kind m' kind' := by
  refine ⟨h.evolves, fun p4 page hk hu => ?_⟩
  obtain ⟨q1, f', hw, hf, hb⟩ := hu
  have hq1 := h.evolves.source.walk hk hw.walk
  by_cases hsame : q1 = p1 ∧ pageIndex 1 page = i
  · obtain ⟨rfl, hi⟩ := hsame
    exact ⟨q1, g, h.evolves.userWalk hk hw, by rw [hi]; exact h.leaf, by rw [hi]; exact h.user⟩
  · exact ⟨q1, f', h.evolves.userWalk hk hw, h.other q1 _ f' hq1 hsame hf, h.otherUser q1 _ hq1 hsame hb⟩

theorem Keeps.of_tables (hl : Layout m kind) (hw : ∀ t level, kind t = .table level → m'.words t = m.words t)
    (hu : ∀ f, m'.isUsed f = m.isUsed f) : Keeps m kind m' kind := by
  have hl' : Layout m' kind := ⟨fun f hf => (hu f).trans (hl.used f hf), fun t level i ht hi hne => by
    rw [hw t _ ht] at hne ⊢
    exact hl.entry t level i ht hi hne⟩
  have hup : Upper m kind m' kind := ⟨hl, hl', fun f hf => (hu f).trans hf, fun _ _ => rfl, .of_words fun t _ ht => hw t _ ht,
    fun p4 hk htree => htree.congr hl hk fun t level ht => hw t _ ht⟩
  refine ⟨⟨hup, fun p1 i f hk hf => ⟨f, by rwa [hw p1 _ hk]⟩⟩, fun p4 page hk h => ?_⟩
  obtain ⟨p1, f, hp1, hf, hb⟩ := h
  have k1 := hl.walk hk hp1.walk
  exact ⟨p1, f, hup.userWalk hk hp1, by rwa [hw p1 _ k1], by rwa [hw p1 _ k1]⟩

theorem Keeps.writeBytes (hl : Layout m kind) (hf : kind f = .data) (off : ℕ) (bs : List Byte) :
    Keeps m kind (m.writeBytes f off bs) kind := by
  exact Keeps.of_tables hl (fun t level ht => writeBytes_words_of_ne (ne_of_kind ht hf) bs off m)
    (writeBytes_isUsed f bs off m)

end UserMapped

/-! ### Counting -/

def holders (spaces : Std.ExtTreeMap ℕ AddressSpace) (f : ℕ) : ℕ :=
  (spaces.toList.map fun x => x.2.frames.count f).sum

section Holders

variable {spaces : Std.ExtTreeMap ℕ AddressSpace} {i f : ℕ} {a : AddressSpace}

theorem holders_split (h : spaces[i]? = some a) (f : ℕ) : holders spaces f = a.frames.count f + holders (spaces.erase i) f :=
  TreeMap.sum_toList h fun x => x.2.frames.count f

theorem holders_insert (spaces : Std.ExtTreeMap ℕ AddressSpace) (i : ℕ) (a : AddressSpace) (f : ℕ) :
    holders (spaces.insert i a) f = a.frames.count f + holders (spaces.erase i) f :=
  TreeMap.sum_toList_insert spaces i a fun x => x.2.frames.count f

theorem holders_eq_zero : holders spaces f = 0 ↔ ∀ (i : ℕ) (a : AddressSpace), spaces[i]? = some a → f ∉ a.frames := by
  constructor
  · intro h i a hi hf
    have hpos := List.count_pos_iff.mpr hf
    have hsplit := holders_split hi f
    omega
  · intro h
    refine List.sum_eq_zero fun n hn => ?_
    obtain ⟨⟨i, a⟩, hmem, rfl⟩ := List.mem_map.mp hn
    exact List.count_eq_zero.mpr (h i a (mem_toList_iff_getElem?_eq_some.mp hmem))

theorem FrameRefcount.le_incAll : ∀ (l : List ℕ) (rc : FrameRefcount) (f : ℕ),
    min (rc f + l.count f) 255 ≤ rc.incAll l f
  | [], rc, f => by
    show min (rc f + 0) 255 ≤ rc f
    omega
  | g :: l, rc, f => by
    have hinc : min (rc f + if f = g then 1 else 0) 255 ≤ rc.inc g f := by
      rw [FrameRefcount.inc_apply]
      split_ifs <;> omega
    have htail := le_incAll l (rc.inc g) f
    show _ ≤ (rc.inc g).incAll l f
    rw [count_cons_eq]
    omega

theorem FrameRefcount.incAll_of_not_mem : ∀ {l : List ℕ} {rc : FrameRefcount}, f ∉ l → rc.incAll l f = rc f
  | [], _, _ => rfl
  | g :: l, rc, h => by
    rw [List.mem_cons, not_or] at h
    show (rc.inc g).incAll l f = rc f
    rw [incAll_of_not_mem h.2, FrameRefcount.inc_apply, if_neg h.1]

theorem FrameRefcount.le_incAll_self : ∀ (l : List ℕ) (rc : FrameRefcount) (f : ℕ), rc f ≤ rc.incAll l f
  | [], _, _ => le_rfl
  | g :: l, rc, f => by
    have hinc : rc f ≤ rc.inc g f := by
      rw [FrameRefcount.inc_apply]
      split_ifs <;> omega
    exact hinc.trans (le_incAll_self l (rc.inc g) f)

end Holders

/-! ### Soundness -/

structure Sound (kernelP4 p2 : ℕ) (m : PhysMem) (spaces : Std.ExtTreeMap ℕ AddressSpace) (pool : List ℕ)
    (kind : ℕ → Kind) : Prop where
  roots : Roots m kind kernelP4 fun i : ℕ => spaces[i]?
  sealed : Sealed m p2
  kernelLow : LowTable m kernelP4 p2
  low : ∀ (i : ℕ) (a : AddressSpace), spaces[i]? = some a → LowTable m a.p4 p2
  kernelTree : Tree m kernelP4
  tree : ∀ (i : ℕ) (a : AddressSpace), spaces[i]? = some a → Tree m a.p4
  pages : ∀ (i : ℕ) (a : AddressSpace) (page f : ℕ), spaces[i]? = some a → a.mappedPages[page]? = some f →
    UserMapped m a.p4 page
  data : ∀ (i : ℕ) (a : AddressSpace) (f : ℕ), spaces[i]? = some a → f ∈ a.frames → kind f = .data
  lent : ∀ f ∈ pool, kind f = .data
  lentLow : ∀ f ∈ pool, f < IDENTITY_FRAMES
  count : ∀ f, f ∉ pool → holders spaces f ≤ m.refcount f

namespace Sound

variable {kernelP4 p2 : ℕ} {m m' : PhysMem} {spaces spaces' : Std.ExtTreeMap ℕ AddressSpace} {pool pool' : List ℕ}
  {kind kind' : ℕ → Kind} {i : ℕ} {a b : AddressSpace} (h : Sound kernelP4 p2 m spaces pool kind)
variable {f : ℕ}

include h

theorem layout : Layout m kind := h.roots.layout

theorem root (hi : spaces[i]? = some a) : kind a.p4 = .table 4 :=
  h.roots.root i a hi

theorem used_of_mem (hi : spaces[i]? = some a)
    (hf : f ∈ a.frames) : m.isUsed f = true := h.layout.isUsed (h.data i a f hi hf)

theorem holders_of_free (hf : m.isUsed f = false) : holders spaces f = 0 :=
  holders_eq_zero.mpr fun i a hi hmem => by
    cases (h.used_of_mem hi hmem).symm.trans hf

theorem not_mem_pool (hf : m.isUsed f = false) : f ∉ pool :=
  fun hmem => by
    cases (h.layout.isUsed (h.lent f hmem)).symm.trans hf

theorem sealed_keeps (he : Evolves m kind m' kind') : Sealed m' p2 :=
  h.sealed.evolves he h.roots.kernel h.kernelLow

theorem keeps (hk : Keeps m kind m' kind')
    (hrc : ∀ f, m.isUsed f = true → m.refcount f ≤ m'.refcount f) : Sound kernelP4 p2 m' spaces pool kind' where
  roots := h.roots.evolves hk.evolves
  sealed := h.sealed_keeps hk.evolves
  kernelLow := hk.evolves.lowTable h.roots.kernel h.kernelLow
  low i a hi := hk.evolves.lowTable (h.root hi) (h.low i a hi)
  kernelTree := hk.evolves.tree kernelP4 h.roots.kernel h.kernelTree
  tree i a hi := hk.evolves.tree a.p4 (h.root hi) (h.tree i a hi)
  pages i a page f hi hf := hk.user a.p4 page (h.root hi) (h.pages i a page f hi hf)
  data i a f hi hf := hk.evolves.kind_eq (h.data i a f hi hf)
  lent f hf := hk.evolves.kind_eq (h.lent f hf)
  lentLow := h.lentLow
  count f hf := by
    cases hu : m.isUsed f with
    | true => exact (h.count f hf).trans (hrc f hu)
    | false => rw [h.holders_of_free hu]; exact Nat.zero_le _

theorem insert (hk : Keeps m kind m' kind')
    (hroots : Roots m' kind' kernelP4 (Function.update (fun j : ℕ => spaces[j]?) i (some b))) (hlow : LowTable m' b.p4 p2)
    (htree : Tree m' b.p4) (hb : ∀ page f : ℕ, b.mappedPages[page]? = some f → UserMapped m' b.p4 page ∧ kind' f = .data)
    (hrc : ∀ f, f ∉ pool → b.frames.count f + holders (spaces.erase i) f ≤ m'.refcount f) :
    Sound kernelP4 p2 m' (spaces.insert i b) pool kind' := by
  have hcases : ∀ {j : ℕ} {c : AddressSpace}, (spaces.insert i b)[j]? = some c → c = b ∨ spaces[j]? = some c :=
    fun hj => (TreeMap.getElem?_insert_eq_some.mp hj).imp (fun h => h.2.symm) fun h => h.2
  refine ⟨?_, h.sealed_keeps hk.evolves, hk.evolves.lowTable h.roots.kernel h.kernelLow, fun j c hj => ?_,
    hk.evolves.tree kernelP4 h.roots.kernel h.kernelTree, fun j c hj => ?_, fun j c page f hj hf => ?_,
    fun j c f hj hf => ?_, fun f hf => hk.evolves.kind_eq (h.lent f hf), h.lentLow, fun f hf => ?_⟩
  · rw [TreeMap.getElem?_insert_eq_update]
    exact hroots
  · rcases hcases hj with rfl | hj
    · exact hlow
    · exact hk.evolves.lowTable (h.root hj) (h.low j c hj)
  · rcases hcases hj with rfl | hj
    · exact htree
    · exact hk.evolves.tree c.p4 (h.root hj) (h.tree j c hj)
  · rcases hcases hj with rfl | hj
    · exact (hb page f hf).1
    · exact hk.user c.p4 page (h.root hj) (h.pages j c page f hj hf)
  · rcases hcases hj with rfl | hj
    · obtain ⟨page, hpage⟩ := mem_frames.mp hf
      exact (hb page f hpage).2
    · exact hk.evolves.kind_eq (h.data j c f hj hf)
  · rw [holders_insert]
    exact hrc f hf

theorem add (hi : spaces[i]? = none) (hk : kind a.p4 = .table 4) (hne : a.p4 ≠ kernelP4)
    (hother : ∀ (j : ℕ) (b : AddressSpace), spaces[j]? = some b → b.p4 ≠ a.p4) (hlow : LowTable m a.p4 p2) (htree : Tree m a.p4)
    (ha : ∀ page f : ℕ, a.mappedPages[page]? = some f → UserMapped m a.p4 page ∧ kind f = .data)
    (hrc : ∀ f, f ∉ pool → holders spaces f + a.frames.count f ≤ m.refcount f) :
    Sound kernelP4 p2 m (spaces.insert i a) pool kind := by
  refine h.insert (Steady.refl h.layout).keeps (h.roots.add hk hne hother) hlow htree ha fun f hf => ?_
  rw [TreeMap.erase_of_getElem?_eq_none hi, Nat.add_comm]
  exact hrc f hf

theorem set (hk : Keeps m kind m' kind') (hi : spaces[i]? = some a)
    (hp4 : b.p4 = a.p4)
    (hb : ∀ page f : ℕ, b.mappedPages[page]? = some f → UserMapped m' b.p4 page ∧ kind' f = .data)
    (hrc : ∀ f, f ∉ pool → holders spaces f + b.frames.count f ≤ m'.refcount f + a.frames.count f) :
    Sound kernelP4 p2 m' (spaces.insert i b) pool kind' := by
  refine h.insert hk ((h.roots.evolves hk.evolves).set hi hp4) ?_ ?_ hb fun f hf => ?_
  · rw [hp4]
    exact hk.evolves.lowTable (h.root hi) (h.low i a hi)
  · rw [hp4]
    exact hk.evolves.tree a.p4 (h.root hi) (h.tree i a hi)
  · have hsplit := holders_split hi f
    have := hrc f hf
    omega

theorem free {F : ℕ → Prop} (hfrees : Frees m F m')
    (hsub : ∀ (j : ℕ) (b : AddressSpace), spaces'[j]? = some b → spaces[j]? = some b)
    (hkind : ∀ f, F f → kind f = .data ∨ kind f = .table 4 ∧ f ≠ kernelP4)
    (hF : ∀ f, F f → ∀ (j : ℕ) (b : AddressSpace), spaces'[j]? = some b → f ≠ b.p4 ∧ f ∉ b.frames)
    (hpool : ∀ f ∈ pool', f ∈ pool ∧ ¬ F f) (hrc : ∀ f, f ∉ pool' → holders spaces' f ≤ m'.refcount f) :
    Sound kernelP4 p2 m' spaces' pool' (freeKinds kind F) := by
  have hkeep : ∀ {f k}, ¬ F f → kind f = k → k = .data ∨ k = .table 4 → freeKinds kind F f = k := by
    rintro f _ hnot rfl hk
    refine freeKinds_of_not hnot fun level hlevel => ?_
    rw [hlevel] at hk
    rcases hk with hk | hk
    · cases hk
    · injection hk with hk
      omega
  have hK : ¬ F kernelP4 := fun hf => by
    rcases hkind _ hf with hd | hd
    · cases h.roots.kernel.symm.trans hd
    · exact hd.2 rfl
  have hlayout := hfrees.layout h.layout fun f hf => (hkind f hf).imp_right And.left
  have hwords := hfrees.words
  refine ⟨⟨hlayout, hkeep hK h.roots.kernel (.inr rfl), fun j b hj => ?_, fun j b hj => h.roots.ne j b (hsub j b hj),
    fun j k b c hj hk => h.roots.inj j k b c (hsub j b hj) (hsub k c hk)⟩, ?_, ?_, fun j b hj => ?_,
    h.kernelTree.congr h.layout h.roots.kernel fun _ _ _ => by rw [hwords], fun j b hj => ?_,
    fun j b page f hj hf => ?_, fun j b f hj hf => ?_, fun f hf => ?_, fun f hf => h.lentLow f (hpool f hf).1, hrc⟩
  · exact hkeep (fun hf => (hF _ hf j b hj).1 rfl) (h.root (hsub j b hj)) (.inr rfl)
  · unfold Sealed
    rw [hwords]
    exact h.sealed
  · unfold LowTable
    rw [hwords]
    exact h.kernelLow
  · unfold LowTable
    rw [hwords]
    exact h.low j b (hsub j b hj)
  · exact (h.tree j b (hsub j b hj)).congr h.layout (h.root (hsub j b hj)) fun _ _ _ => by rw [hwords]
  · unfold UserMapped FlagWalk
    rw [hwords]
    exact h.pages j b page f (hsub j b hj) hf
  · exact hkeep (fun hff => (hF f hff j b hj).2 hf) (h.data j b f (hsub j b hj) hf) (.inl rfl)
  · exact hkeep (hpool f hf).2 (h.lent f (hpool f hf).1) (.inl rfl)

theorem lend (hsub : ∀ f ∈ pool, f ∈ pool')
    (hnew : ∀ f ∈ pool', f ∈ pool ∨ kind f = .data ∧ f < IDENTITY_FRAMES) : Sound kernelP4 p2 m spaces pool' kind :=
  { h with
    lent := fun f hf => (hnew f hf).elim (h.lent f) And.left
    lentLow := fun f hf => (hnew f hf).elim (h.lentLow f) And.right
    count := fun f hf => h.count f fun hmem => hf (hsub f hmem) }

theorem congr_pool (hpool : ∀ f, f ∈ pool' ↔ f ∈ pool) : Sound kernelP4 p2 m spaces pool' kind :=
  h.lend (fun f hf => (hpool f).mpr hf) fun f hf => .inl ((hpool f).mp hf)

end Sound

/-! ### Taking a leaf away -/

def leafOf (m : PhysMem) (p4 page : ℕ) : Option (ℕ × ℕ) :=
  match walk m p4 page with
  | .ok p1 => some (p1, pageIndex 1 page)
  | .error _ => none

variable {m : PhysMem}

theorem leafOf_of_walk {p4 page p1 : ℕ} (h : walk m p4 page = .ok p1) : leafOf m p4 page = some (p1, pageIndex 1 page) := by
  unfold leafOf
  rw [h]

def Alone (m : PhysMem) (spaces : Std.ExtTreeMap ℕ AddressSpace) (i page : ℕ) : Prop :=
  ∀ a ∈ spaces[i]?, ∀ x ∈ spaces.toList, ∀ y ∈ x.2.mappedPages.toList, ¬ (x.1 = i ∧ y.1 = page) →
    leafOf m x.2.p4 y.1 ≠ leafOf m a.p4 page
deriving Decidable

theorem alone_iff {spaces : Std.ExtTreeMap ℕ AddressSpace} {i page : ℕ} {a : AddressSpace}
    (hi : spaces[i]? = some a) : Alone m spaces i page ↔ ∀ (j : ℕ) (b : AddressSpace) (page' f : ℕ), spaces[j]? = some b →
    b.mappedPages[page']? = some f → ¬ (j = i ∧ page' = page) → leafOf m b.p4 page' ≠ leafOf m a.p4 page := by
  constructor
  · intro h j b page' f hj hf hne
    exact h a hi (j, b) (mem_toList_iff_getElem?_eq_some.mpr hj) (page', f) (mem_toList_iff_getElem?_eq_some.mpr hf) hne
  · rintro h a' ha' ⟨j, b⟩ hj ⟨page', f⟩ hf hne
    obtain rfl : a = a' := Option.some.inj (hi.symm.trans ha')
    exact h j b page' f (mem_toList_iff_getElem?_eq_some.mp hj) (mem_toList_iff_getElem?_eq_some.mp hf) hne

section Unmap

variable {m : PhysMem} {kind : ℕ → Kind} {t i p4 page : ℕ} {e : Word}

theorem walk_write_eq (hl : Layout m kind) (ht : kind t = .table 1) (hk : kind p4 = .table 4) :
    walk (m.write t i e) p4 page = walk m p4 page := by
  unfold walk
  rw [write_words_of_table ht hk]
  cases h3 : nextTable (m.words p4 (pageIndex 4 page)) with
  | error _ => rfl
  | ok p3 =>
    have k3 := hl.nextTable hk pageIndex_lt h3
    dsimp only [bind, Except.bind]
    rw [write_words_of_table ht k3]
    cases h2 : nextTable (m.words p3 (pageIndex 3 page)) with
    | error _ => rfl
    | ok p2 =>
      dsimp only
      rw [write_words_of_table ht (hl.nextTable k3 pageIndex_lt h2)]

theorem UserMapped.write (h : UserMapped m p4 page) (hl : Layout m kind) (ht : kind t = .table 1)
    (hk : kind p4 = .table 4) (hne : leafOf m p4 page ≠ some (t, i)) : UserMapped (m.write t i e) p4 page := by
  obtain ⟨p1, f, hw, hf, hb⟩ := h
  have hother : ¬ (p1 = t ∧ pageIndex 1 page = i) := by
    rintro ⟨rfl, rfl⟩
    exact hne (leafOf_of_walk hw.walk)
  refine ⟨p1, f, (upper_write_leaf hl ht).userWalk hk hw, ?_, ?_⟩
  · rwa [PhysMem.write_words, if_neg hother]
  · rwa [PhysMem.write_words, if_neg hother]

def AddressSpace.without (a : AddressSpace) (page : ℕ) : AddressSpace :=
  { a with mappedPages := a.mappedPages.erase page }

theorem AddressSpace.getElem?_without {a : AddressSpace} {p f : ℕ} :
    (a.without page).mappedPages[p]? = some f ↔ p ≠ page ∧ a.mappedPages[p]? = some f :=
  TreeMap.getElem?_erase_eq_some

theorem AddressSpace.count_without_le (a : AddressSpace) (page f : ℕ) : (a.without page).frames.count f ≤ a.frames.count f := by
  unfold AddressSpace.frames AddressSpace.without
  cases h : a.mappedPages[page]? with
  | none => rw [TreeMap.erase_of_getElem?_eq_none h]
  | some g =>
    rw [((TreeMap.toList_perm h).map Prod.snd).count_eq, List.map_cons, count_cons_eq]
    exact Nat.le_add_right ..

variable {kernelP4 p2 : ℕ} {spaces : Std.ExtTreeMap ℕ AddressSpace} {pool : List ℕ} {a : AddressSpace} {j : ℕ}

theorem getElem?_insert_without {k : ℕ} {b : AddressSpace} (hj : spaces[j]? = some a)
    (hk : (spaces.insert j (a.without page))[k]? = some b) : ∃ c, spaces[k]? = some c ∧ b.p4 = c.p4 ∧
      ∀ p f, b.mappedPages[p]? = some f → c.mappedPages[p]? = some f ∧ ¬ (k = j ∧ p = page) := by
  rcases TreeMap.getElem?_insert_eq_some.mp hk with ⟨rfl, rfl⟩ | ⟨hne, hk⟩
  · exact ⟨a, hj, rfl, fun p f hf => ⟨(AddressSpace.getElem?_without.mp hf).2, fun hp =>
      (AddressSpace.getElem?_without.mp hf).1 hp.2⟩⟩
  · exact ⟨b, hk, rfl, fun p f hf => ⟨hf, fun hp => hne hp.1⟩⟩

theorem Sound.clear (h : Sound kernelP4 p2 m spaces pool kind) (hj : spaces[j]? = some a) (ht : kind t = .table 1)
    (hleaf : leafOf m a.p4 page = some (t, i)) (halone : Alone m spaces j page) :
    Sound kernelP4 p2 (m.write t i 0#64) (spaces.insert j (a.without page)) pool kind := by
  have hlow : ∀ {p}, kind p = .table 4 → LowTable m p p2 → LowTable (m.write t i 0#64) p p2 := by
    rintro p hp ⟨p3, h3, h2⟩
    exact ⟨p3, by rwa [write_words_of_table ht hp],
      by rwa [write_words_of_table ht (h.layout.nextTable hp (by decide) h3)]⟩
  obtain ⟨q3, h3, h2⟩ := h.kernelLow
  have k2 := h.layout.nextTable (h.layout.nextTable h.roots.kernel (by decide) h3) (by decide) h2
  have hset : Roots m kind kernelP4 fun k : ℕ => (spaces.insert j (a.without page))[k]? := by
    rw [TreeMap.getElem?_insert_eq_update]
    exact h.roots.set hj rfl
  refine ⟨⟨h.layout.write_leaf (ne_table_of_leaf ht), hset.kernel, hset.root, hset.ne, hset.inj⟩, ?_,
    hlow h.roots.kernel h.kernelLow, fun k b hk => ?_, h.kernelTree.write h.layout h.roots.kernel ht, fun k b hk => ?_,
    fun k b p f hk hf => ?_, fun k b f hk hf => ?_, h.lent, h.lentLow,
    fun f hf => ?_⟩
  · unfold Sealed
    rw [write_words_of_table ht k2]
    exact h.sealed
  · obtain ⟨c, hc, hp4, -⟩ := getElem?_insert_without hj hk
    rw [hp4]
    exact hlow (h.root hc) (h.low k c hc)
  · obtain ⟨c, hc, hp4, -⟩ := getElem?_insert_without hj hk
    rw [hp4]
    exact (h.tree k c hc).write h.layout (h.root hc) ht
  · obtain ⟨c, hc, hp4, hmem⟩ := getElem?_insert_without hj hk
    obtain ⟨hf', hne⟩ := hmem p f hf
    rw [hp4]
    refine (h.pages k c p f hc hf').write h.layout ht (h.root hc) ?_
    rw [← hleaf]
    exact (alone_iff hj).mp halone k c p f hc hf' hne
  · obtain ⟨c, hc, -, hmem⟩ := getElem?_insert_without hj hk
    obtain ⟨p, hp⟩ := AddressSpace.mem_frames.mp hf
    exact h.data k c f hc (AddressSpace.mem_frames.mpr ⟨p, (hmem p f hp).1⟩)
  · have hle := a.count_without_le page f
    have hsplit := holders_split hj f
    have := h.count f hf
    rw [holders_insert]
    show _ ≤ m.refcount f
    omega

end Unmap

/-! ### The calls -/

section Calls

variable {kernelP4 p2 : ℕ} {m : PhysMem} {spaces : Std.ExtTreeMap ℕ AddressSpace} {pool : List ℕ} {kind : ℕ → Kind}
  {v : Vm} {a : AddressSpace} {i page : ℕ}
variable {m' : PhysMem} {kind' : ℕ → Kind} {f p1 : ℕ} {writable : Bool} {ε : Type}

theorem pageFlags_user (writable : Bool) : (pageFlags writable).getLsbD 2 = true := by cases writable <;> decide

theorem MapsPage.userMapped {p4 : ℕ}
    (h : MapsPage m kind p4 page f (pageFlags writable) m' kind' p1) : UserMapped m' p4 page := by
  have hfl := mapFlags_pageFlags writable
  refine ⟨p1, _, h.userWalk (pageFlags_user writable), nextTable_eq_ok.mpr ⟨?_, ?_, rfl⟩, ?_⟩
  · rw [h.leaf, getLsbD_mkEntry _ _ (by decide), hfl.present]
  · rw [h.leaf, getLsbD_mkEntry _ _ (by decide), hfl.huge]
  · rw [h.leaf, getLsbD_mkEntry _ _ (by decide), pageFlags_user]

theorem Sound.not_recorded (h : Sound kernelP4 p2 m spaces pool kind) (hi : spaces[i]? = some a)
    (hnot : ¬ Mapped m a.p4 page) : a.mappedPages[page]? = none := by
  exact Option.eq_none_iff_forall_not_mem.mpr fun f hf => hnot (h.pages i a page f hi hf).mapped

theorem Sound.record
    (h : Sound kernelP4 p2 m spaces pool kind) (hi : spaces[i]? = some a) (hnot : ¬ Mapped m a.p4 page)
    (hmaps : MapsPage m kind a.p4 page f (pageFlags writable) m' kind' p1) (hf : kind' f = .data)
    (hrc : ∀ g, g ∉ pool → holders spaces g + (if g = f then 1 else 0) ≤ m'.refcount g) :
    Sound kernelP4 p2 m' (spaces.insert i (a.replaceMapping page f)) pool kind' := by
  refine h.set hmaps.steady.keeps hi rfl (fun p g hg => ?_) fun g hg => ?_
  · rcases getElem?_replaceMapping hg with ⟨rfl, rfl⟩ | hg
    · exact ⟨hmaps.userMapped, hf⟩
    · exact ⟨hmaps.steady.keeps.user a.p4 p (h.root hi) (h.pages i a p g hi hg),
        hmaps.steady.kind_eq (h.data i a g hi (mem_frames.mpr ⟨p, hg⟩))⟩
  · rw [AddressSpace.count_frames_replaceMapping_new (h.not_recorded hi hnot)]
    have := hrc g hg
    omega

def SoundVm (kernelP4 p2 : ℕ) (spaces : Std.ExtTreeMap ℕ AddressSpace) (i : ℕ) (pool : List ℕ) (v : Vm) : Prop :=
  (∃ kind, Sound kernelP4 p2 v.mem (spaces.insert i v.space) pool kind) ∧ ∀ f ∈ v.space.frames, f ∉ pool

theorem mapAlloc_sound (v : Vm) (page : ℕ) (writable : Bool) (hv : SoundVm kernelP4 p2 spaces i pool v) :
    (AddressSpace.mapAlloc page (pageFlags writable) v).Post (fun _ => SoundVm kernelP4 p2 spaces i pool)
      (fun _ => SoundVm kernelP4 p2 spaces i pool) := by
  obtain ⟨⟨kind, h⟩, hown⟩ := hv
  have hi : (spaces.insert i v.space)[i]? = some v.space := getElem?_insert_self
  refine (mapAlloc_post page h.layout (h.root hi) (mapFlags_pageFlags writable)).imp ?_ ?_
  · rintro f v' ⟨hfresh, -, hsp, hnot, hrc, kind', p1, hmaps, hdata, -⟩
    rw [SoundVm, hsp, ← TreeMap.insert_insert spaces i v.space]
    refine ⟨⟨kind', h.record hi hnot hmaps hdata fun g hg => ?_⟩, fun g hg => ?_⟩
    · rw [hrc, FrameRefcount.set, Function.update_apply]
      split_ifs with hgf
      · rw [hgf, h.holders_of_free hfresh]
      · exact h.count g hg
    · obtain ⟨p, hp⟩ := mem_frames.mp hg
      rcases getElem?_replaceMapping hp with ⟨-, rfl⟩ | hp
      · exact h.not_mem_pool hfresh
      · exact hown g (mem_frames.mpr ⟨p, hp⟩)
  · rintro _ v' ⟨hsp, ⟨kind', hs⟩, hrc⟩
    rw [SoundVm, hsp]
    exact ⟨⟨kind', h.keeps hs.keeps fun g hg => (hrc g hg).ge⟩, hown⟩

theorem SoundVm.writeBytes (off : ℕ) (bs : List Byte) (hv : SoundVm kernelP4 p2 spaces i pool v)
    (hf : v.space.mappedPages[page]? = some f) :
    SoundVm kernelP4 p2 spaces i pool { v with mem := v.mem.writeBytes f off bs } := by
  obtain ⟨⟨kind, h⟩, hown⟩ := hv
  have hdata := h.data i v.space f getElem?_insert_self (mem_frames.mpr ⟨page, hf⟩)
  exact ⟨⟨kind, h.keeps (.writeBytes h.layout hdata off bs) fun g _ => by rw [writeBytes_refcount]⟩, hown⟩

theorem drop_sound (h : Sound kernelP4 p2 m spaces pool kind) (hi : spaces[i]? = some a)
    (hown : ∀ f ∈ a.frames, f ∉ pool) : (a.drop (ε := ε) m).Post
      (fun _ m' => ∃ kind', Sound kernelP4 p2 m' (spaces.erase i) pool kind') (fun _ _ => False) := by
  have hsub : ∀ j b, (spaces.erase i)[j]? = some b → spaces[j]? = some b := fun j b hj =>
    (TreeMap.getElem?_erase_eq_some.mp hj).2
  unfold AddressSpace.drop
  split_ifs with hempty
  · -- nothing is given back, not even the table
    refine ⟨_, h.free (F := fun _ => False) ⟨rfl, by simp⟩ hsub (by simp) (by simp) (by simp) fun f hf => ?_⟩
    have hsplit := holders_split hi f
    have := h.count f hf
    omega
  refine (destroy_post a m).imp_ok ?_
  rintro _ m' ⟨hfrees, hrc⟩
  -- a frame with its last counted pages in `a` is recorded nowhere else
  have hlast : ∀ f, f ∈ a.frames → m.refcount f ≤ a.frames.count f → holders (spaces.erase i) f = 0 :=
    fun f hf hle => by
      have hsplit := holders_split hi f
      have := h.count f (hown f hf)
      omega
  refine ⟨_, h.free hfrees hsub (fun f hf => ?_) (fun f hf j b hj => ?_) (fun f hf => ⟨hf, ?_⟩) fun f hf => ?_⟩
  · rcases hf with hf | rfl
    · exact .inl (h.data i a f hi hf.1)
    · exact .inr ⟨h.root hi, h.roots.ne i a hi⟩
  · rcases hf with hf | rfl
    · exact ⟨ne_of_kind (h.data i a f hi hf.1) (h.root (hsub j b hj)), holders_eq_zero.mp (hlast f hf.1 hf.2) j b hj⟩
    · exact ⟨fun hp4 => (TreeMap.getElem?_erase_eq_some.mp hj).1 (h.roots.inj j i b a (hsub j b hj) hi hp4.symm),
        fun hmem => absurd rfl (ne_of_kind (h.root hi) (h.data j b _ (hsub j b hj) hmem))⟩
  · rintro (hF | rfl)
    · exact hown f hF.1 hf
    · cases (h.root hi).symm.trans (h.lent _ hf)
  · have hsplit := holders_split hi f
    have := h.count f hf
    rw [hrc]
    omega

theorem spawnSpace_sound {cr3 : ℕ} (bin : List Byte) (h : Sound kernelP4 p2 m spaces pool kind) (hi : spaces[i]? = none)
    (hcr3 : kind cr3 = .table 4) (hlow : LowTable m cr3 p2) (htree : Tree m cr3) :
    (spawnSpace cr3 bin m).Post (fun r m' => ∃ kind', Sound kernelP4 p2 m' (spaces.insert i r.1) pool kind')
    (fun _ m' => ∃ kind', Sound kernelP4 p2 m' spaces pool kind') := by
  refine Exec.post_bind ((newUser_post h.layout hcr3).imp_err ?_) ?_
  · rintro _ m' ⟨hrc, ⟨kind', hs⟩, -⟩
    exact ⟨kind', h.keeps hs.keeps fun f _ => by rw [hrc]⟩
  rintro a m₁ ⟨hempty, hrc, kind₁, ho⟩
  obtain ⟨hne, hother⟩ := h.roots.ne_of_not_isUsed ho.fresh
  have hnil : a.frames = [] := by simp [AddressSpace.frames, hempty]
  have h₁ : Sound kernelP4 p2 m₁ (spaces.insert i a) pool kind₁ := by
    refine (h.keeps ho.steady.keeps fun f _ => by rw [hrc]).add hi ho.root hne hother (ho.low hlow) (ho.tree htree)
      (fun page f hf => ?_) fun f hf => ?_
    · simp [hempty] at hf
    · rw [hnil, hrc]
      exact h.count f hf
  have hload := loadProgram_post mapAlloc_sound (fun _ _ _ off bs hv hf => hv.writeBytes off bs hf) (fun _ h => h) bin
    ⟨m₁, a⟩ ⟨⟨kind₁, h₁⟩, by simp [hnil]⟩
  unfold withSpace
  cases hres : loadProgram bin ⟨m₁, a⟩ with
  | ok r v => exact (hload.ok hres).1
  | err e v =>
    obtain ⟨⟨kind', hv⟩, hown⟩ := hload.err hres
    refine Exec.post_bind ((drop_sound hv getElem?_insert_self hown).never) ?_
    rintro _ m' ⟨kind'', h'⟩
    rw [TreeMap.erase_insert_of_getElem?_eq_none hi] at h'
    exact ⟨kind'', h'⟩
  | panic => trivial
  | diverge => trivial

theorem cloneCow_sound {j : ℕ} (h : Sound kernelP4 p2 m spaces pool kind) (hi : spaces[i]? = some a) (hj : spaces[j]? = none)
    (hcount : ∀ f ∈ a.frames, f ∉ pool → holders spaces f + a.frames.count f ≤ 255) :
    (a.cloneCow m).Post (fun c m' => ∃ kind', Sound kernelP4 p2 m' (spaces.insert j c) pool kind')
    (fun _ m' => ∃ kind', Sound kernelP4 p2 m' spaces pool kind') := by
  have hk := h.root hi
  refine (cloneCow_post h.layout hk fun page f hf => (h.pages i a page f hi hf).mapped).imp ?_ ?_
  · rintro c m' ⟨hpages, hrc, kind', ho⟩
    have hs := ho.steady
    obtain ⟨hne, hother⟩ := h.roots.ne_of_not_isUsed ho.fresh
    have hframes : c.frames = a.frames := by rw [AddressSpace.frames, hpages]; rfl
    have hle : ∀ f, f ∉ pool → holders spaces f + c.frames.count f ≤ m'.refcount f := fun f hf => by
      have hinc := FrameRefcount.le_incAll (a.mappedPages.toList.map Prod.snd) m.refcount f
      have hold := h.count f hf
      rw [hrc, hframes]
      show _ + (a.mappedPages.toList.map Prod.snd).count f ≤ _
      by_cases hmem : f ∈ a.frames
      · have h255 : holders spaces f + (a.mappedPages.toList.map Prod.snd).count f ≤ 255 := hcount f hmem hf
        omega
      · have hzero : (a.mappedPages.toList.map Prod.snd).count f = 0 := List.count_eq_zero.mpr hmem
        have hsame : m.refcount.incAll _ _ = m.refcount _ := FrameRefcount.incAll_of_not_mem hmem
        rw [AddressSpace.frames] at hsame
        omega
    have hkept : Sound kernelP4 p2 m' spaces pool kind' := h.keeps hs.keeps fun f _ => by
      rw [hrc]
      exact FrameRefcount.le_incAll_self _ _ f
    refine ⟨kind', hkept.add hj ho.root hne hother (ho.low (h.low i a hi)) (ho.tree (h.tree i a hi)) (fun page f hf => ?_) hle⟩
    rw [hpages] at hf
    obtain ⟨p1, g, hw, hg, hb⟩ := h.pages i a page f hi hf
    have hp1 := h.layout.walk hk hw.walk
    exact ⟨⟨p1, g, ho.userWalk hw, hs.leaf p1 _ g hp1 hg, hs.user p1 _ hp1 hb⟩,
      hs.kind_eq (h.data i a f hi (mem_frames.mpr ⟨page, hf⟩))⟩
  · rintro _ m' ⟨hrc, kind', hs⟩
    exact ⟨kind', h.keeps hs.keeps fun f _ => by rw [hrc]⟩

theorem tryResolveCow_sound (h : Sound kernelP4 p2 m spaces pool kind) (hi : spaces[i]? = some a)
    (hexact : ∀ f ∈ cowFrame m a.p4 page, a.mappedPages[page]? = some f) : (tryResolveCow a.p4 page m).Post
      (fun o m' => ∃ kind', Sound kernelP4 p2 m' (match o with
        | none => spaces
        | some g => spaces.insert i (a.replaceMapping page g)) pool kind')
      (fun _ m' => m' = m) := by
  cases hcow : cowFrame m a.p4 page with
  | none => exact (tryResolveCow_of_cowFrame_eq_none hcow).imp_ok (fun _ _ h => h.elim)
  | some f =>
    have hrec := hexact f hcow
    have hmem : f ∈ a.frames := mem_frames.mpr ⟨page, hrec⟩
    obtain ⟨p1, hw, hf⟩ := nextTable_of_cowFrame (h.pages i a page f hi hrec).mapped hcow
    refine (tryResolveCow_post h.layout (h.root hi) hw hf (h.used_of_mem hi hmem)).imp_ok ?_
    rintro o m' (⟨rfl, -, hrc, hs⟩ | ⟨g, rfl, -, hrc, kind', hcopies⟩)
    · exact ⟨kind, h.keeps hs.keeps fun f _ => by rw [hrc]⟩
    · have hk := hcopies.keeps
      have hg := h.holders_of_free hcopies.fresh
      refine ⟨kind', h.set hk hi rfl (fun p k hk' => ?_) fun k hkp => ?_⟩
      · rcases getElem?_replaceMapping hk' with ⟨rfl, rfl⟩ | hk'
        · exact ⟨hk.user a.p4 p (h.root hi) (h.pages i a p f hi hrec), hcopies.data⟩
        · exact ⟨hk.user a.p4 p (h.root hi) (h.pages i a p k hi hk'),
            hk.evolves.kind_eq (h.data i a k hi (mem_frames.mpr ⟨p, hk'⟩))⟩
      · have hcount := AddressSpace.count_frames_replaceMapping hrec g k
        have hold := h.count k hkp
        rw [hrc, FrameRefcount.set, Function.update_apply, FrameRefcount.dec_apply]
        by_cases hkg : k = g
        · rw [if_pos hkg] at hcount ⊢
          rw [hkg] at hcount ⊢
          omega
        · rw [if_neg hkg] at hcount ⊢
          split_ifs at hcount ⊢ <;> omega

theorem Sound.alone_of_maps {fl : PageTableFlags} (h : Sound kernelP4 p2 m spaces pool kind) (hi : spaces[i]? = some a)
    (hmaps : MapsPage m kind a.p4 page f fl m' kind' p1) : Alone m' (spaces.insert i (a.replaceMapping page f)) i page ∧ ∀ p g :
    ℕ, a.mappedPages[p]? = some g → Alone m spaces i p → p ≠ page →
    Alone m' (spaces.insert i (a.replaceMapping page f)) i p := by
  have hself : (spaces.insert i (a.replaceMapping page f))[i]? = some (a.replaceMapping page f) :=
    Std.ExtTreeMap.getElem?_insert_self
  -- a page recorded before has a leaf in use, which is not the new one
  have hold : ∀ (j : ℕ) b p g, spaces[j]? = some b → b.mappedPages[p]? = some g →
      leafOf m' b.p4 p = leafOf m b.p4 p ∧ leafOf m b.p4 p ≠ some (p1, pageIndex 1 page) := by
    intro j b p g hj hg
    obtain ⟨q1, g', hw, hf', -⟩ := h.pages j b p g hj hg
    rw [leafOf_of_walk (hmaps.steady.walk (h.root hj) hw.walk), leafOf_of_walk hw.walk]
    refine ⟨rfl, fun heq => ?_⟩
    obtain ⟨rfl, hidx⟩ := Prod.mk.inj (Option.some.inj heq)
    have hzero := hmaps.unused (h.layout.walk (h.root hj) hw.walk)
    rw [← hidx] at hzero
    exact ne_zero_of_getLsbD (nextTable_eq_ok.mp hf').1 hzero
  have hnew : leafOf m' a.p4 page = some (p1, pageIndex 1 page) := leafOf_of_walk hmaps.walk
  have hcases : ∀ j b p g, (spaces.insert i (a.replaceMapping page f))[j]? = some b →
      b.mappedPages[p]? = some g → ¬ (j = i ∧ p = page) →
      ∃ c, spaces[j]? = some c ∧ b.p4 = c.p4 ∧ c.mappedPages[p]? = some g := by
    intro j b p g hj hg hne
    rcases TreeMap.getElem?_insert_eq_some.mp hj with ⟨rfl, rfl⟩ | ⟨-, hj⟩
    · rcases AddressSpace.getElem?_replaceMapping hg with ⟨rfl, -⟩ | hg
      · exact absurd ⟨rfl, rfl⟩ hne
      · exact ⟨a, hi, rfl, hg⟩
    · exact ⟨b, hj, rfl, hg⟩
  refine ⟨(alone_iff hself).mpr fun j b p g hj hg hne => ?_, fun p g hg halone hp =>
    (alone_iff hself).mpr fun j b p' g' hj hg' hne => ?_⟩
  · obtain ⟨c, hc, hp4, hg⟩ := hcases j b p g hj hg hne
    obtain ⟨hsame, hother⟩ := hold j c p g hc hg
    rw [hp4, hsame]
    exact fun heq => hother (heq.trans hnew)
  · obtain ⟨hsame, hother⟩ := hold i a p g hi hg
    by_cases hpage : j = i ∧ p' = page
    · obtain ⟨rfl, rfl⟩ := hpage
      cases hself.symm.trans hj
      rw [show leafOf m' (a.replaceMapping p' f).p4 p = leafOf m a.p4 p from hsame]
      exact fun heq => hother (heq.symm.trans hnew)
    · obtain ⟨c, hc, hp4, hg'⟩ := hcases j b p' g' hj hg' hpage
      rw [hp4, (hold j c p' g' hc hg').1, show leafOf m' (a.replaceMapping page f).p4 p = leafOf m a.p4 p from hsame]
      exact (alone_iff hi).mp halone j c p' g' hc hg' hne

theorem mapTo_sound (page : ℕ) (writable : Bool) (h : Sound kernelP4 p2 v.mem spaces pool kind)
    (hi : spaces[i]? = some v.space) (hf : f ∈ pool) : (AddressSpace.mapTo page f (pageFlags writable) v).Post
      (fun _ v' => v'.space = v.space.replaceMapping page f ∧ v.space.mappedPages[page]? = none ∧
        ∃ kind' p1, Sound kernelP4 p2 v'.mem (spaces.insert i v'.space) pool kind' ∧
          MapsPage v.mem kind v.space.p4 page f (pageFlags writable) v'.mem kind' p1)
      (fun _ v' => v'.space = v.space ∧ ∃ kind', Sound kernelP4 p2 v'.mem spaces pool kind' ∧
        Steady v.mem kind v'.mem kind') := by
  refine (addressSpace_mapTo_post page f h.layout (h.root hi) (mapFlags_pageFlags writable)).imp ?_ ?_
  · rintro _ v' ⟨hsp, hrc, hnot, kind', p1, hmaps⟩
    refine ⟨hsp, h.not_recorded hi hnot, kind', p1, ?_, hmaps⟩
    rw [hsp]
    refine h.record hi hnot hmaps (hmaps.steady.kind_eq (h.lent f hf)) fun g hg => ?_
    have hgf : g ≠ f := fun heq => hg (heq ▸ hf)
    rw [if_neg hgf, hrc]
    exact h.count g hg
  · rintro _ v' ⟨hsp, hrc, kind', hs⟩
    exact ⟨hsp, kind', h.keeps hs.keeps fun g _ => by rw [hrc], hs⟩

theorem Sound.alone_steady (h : Sound kernelP4 p2 m spaces pool kind) (hi : spaces[i]? = some a) (hs : Steady m kind m' kind')
    (hf : a.mappedPages[page]? = some f) (halone : Alone m spaces i page) : Alone m' spaces i page := by
  have hsame : ∀ (j : ℕ) b p g, spaces[j]? = some b → b.mappedPages[p]? = some g →
      leafOf m' b.p4 p = leafOf m b.p4 p := by
    intro j b p g hj hg
    obtain ⟨p1, -, hw, -⟩ := h.pages j b p g hj hg
    rw [leafOf_of_walk (hs.walk (h.root hj) hw.walk), leafOf_of_walk hw.walk]
  refine (alone_iff hi).mpr fun j b p g hj hg hne => ?_
  rw [hsame j b p g hj hg, hsame i a page f hi hf]
  exact (alone_iff hi).mp halone j b p g hj hg hne

theorem Sound.alone_without (h : Sound kernelP4 p2 m spaces pool kind) (hi : spaces[i]? = some a)
    (hleaf : ∀ p4 page, kind p4 = .table 4 → leafOf m' p4 page = leafOf m p4 page) (page' : ℕ)
    (halone : Alone m spaces i page) : Alone m' (spaces.insert i (a.without page')) i page := by
  refine (alone_iff Std.ExtTreeMap.getElem?_insert_self).mpr fun j b p g hj hg hne => ?_
  obtain ⟨c, hc, hp4, hsub⟩ := getElem?_insert_without hi hj
  have hsame : leafOf m' (a.without page').p4 page = leafOf m a.p4 page := hleaf a.p4 page (h.root hi)
  rw [hp4, hleaf _ _ (h.root hc), hsame]
  exact (alone_iff hi).mp halone j c p g hc (hsub p g hg).1 hne

theorem virtAddrNew_of_lt {σ : Type} {addr : ℕ} (h : addr < 2 ^ 47) : (virtAddrNew addr : Exec ε σ ℕ) = pure addr :=
  if_pos h

theorem unmapVa_post {vaddr : ℕ} (hlt : vaddr < 2 ^ 47) : (AddressSpace.unmapVa vaddr v).Post
    (fun _ v' => v'.space = v.space.without (vaddr / 4096) ∧ ∃ p1, walk v.mem v.space.p4 (vaddr / 4096) = .ok p1 ∧
      v'.mem = v.mem.write p1 (pageIndex 1 (vaddr / 4096)) 0)
    (fun _ v' => v' = v ∧ ¬ Mapped v.mem v.space.p4 (vaddr / 4096)) := by
  have haddr : vaddr / 4096 * 4096 < 2 ^ 47 := lt_of_le_of_lt (Nat.div_mul_le_self ..) hlt
  unfold AddressSpace.unmapVa
  rw [virtAddrNew_of_lt haddr, Exec.pure_bind, Exec.get_bind, Nat.mul_div_cancel _ (by decide)]
  have hunmap : (Exec.mapErr (fun _ => "unmap_va: page non mappée") (unmap v.space.p4 (vaddr / 4096)) v.mem).Post
      (fun _ m' => ∃ p1, walk v.mem v.space.p4 (vaddr / 4096) = .ok p1 ∧
        m' = v.mem.write p1 (pageIndex 1 (vaddr / 4096)) 0)
      (fun _ m' => m' = v.mem ∧ ¬ Mapped v.mem v.space.p4 (vaddr / 4096)) := by
    refine Exec.post_mapErr ((unmap_post v.mem v.space.p4 (vaddr / 4096)).imp ?_ ?_)
    · rintro _ m' ⟨p1, hw, -, hm⟩
      exact ⟨p1, hw, hm⟩
    · rintro _ m' ⟨hm, hno⟩
      refine ⟨hm, ?_⟩
      rintro ⟨p1, f, hw, hf⟩
      exact hno p1 f hw hf
  refine Exec.post_bind ((post_inMem hunmap).imp_err ?_) ?_
  · rintro _ v' ⟨⟨hm, hnot⟩, hsp⟩
    refine ⟨?_, hnot⟩
    cases v
    cases hm
    cases hsp
    rfl
  · rintro _ v' ⟨hm, hsp⟩
    exact ⟨by rw [← hsp]; rfl, hm⟩

theorem unmapVa_sound {vaddr : ℕ} (hlt : vaddr < 2 ^ 47) (h : Sound kernelP4 p2 v.mem spaces pool kind)
    (hi : spaces[i]? = some v.space) (halone : Alone v.mem spaces i (vaddr / 4096)) :
    (AddressSpace.unmapVa vaddr v).Post (fun _ v' => v'.space = v.space.without (vaddr / 4096) ∧
        Sound kernelP4 p2 v'.mem (spaces.insert i v'.space) pool kind ∧
        ∀ p4 page, kind p4 = .table 4 → leafOf v'.mem p4 page = leafOf v.mem p4 page)
      (fun _ v' => v' = v ∧ v.space.mappedPages[vaddr / 4096]? = none) := by
  refine (unmapVa_post hlt).imp ?_ fun _ _ hno => ⟨hno.1, h.not_recorded hi hno.2⟩
  rintro _ v' ⟨hsp, p1, hw, hm⟩
  have hp1 := h.layout.walk (h.root hi) hw
  refine ⟨hsp, ?_, fun p4 page hk => ?_⟩
  · rw [hm, hsp]
    exact h.clear hi hp1 (leafOf_of_walk hw) halone
  · unfold leafOf
    rw [hm, walk_write_eq h.layout hp1 hk]

end Calls

end RustKernel.Memory
