import RustKernel.Memory.Tree

/-!
# The contents of an address space

What a program finds at an address is behind the page tables; the kernel writes to the frames it has recorded for the
pages. The two are the same memory as long as every recorded page has a frame of its own behind its leaf (`Paged`).
-/

namespace RustKernel.Memory

open Lib
open Option (map_some)

variable {kind : ℕ → Kind} {v : Vm} {m : PhysMem}

/-! ### Bytes of frames -/

def PhysMem.byteAt (m : PhysMem) (frame off : ℕ) : Byte := getByte (m.words frame (off / 8)) (off % 8)

theorem getLsbD_getByte (w : Word) {k i : ℕ} (hi : i < 8) : (getByte w k).getLsbD i = w.getLsbD (8 * k + i) := by
  rw [getByte]
  simp [hi]

theorem getByte_putByte (w : Word) (b : Byte) {j k : ℕ} (hj : j < 8) :
    getByte (putByte w k b) j = if j = k then b else getByte w j := by
  have hff : ∀ i, (0xff#64).getLsbD i = decide (i < 8) := fun i => by
    have hones : (0xff#64) = BitVec.ofNat 64 (2 ^ 8 - 1) := rfl
    rw [hones, BitVec.getLsbD_ofNat, Nat.testBit_two_pow_sub_one]
    by_cases hi : i < 8
    · simp [hi, show i < 64 by omega]
    · simp [hi]
  refine BitVec.eq_of_getLsbD_eq fun i hi => ?_
  have hlt : 8 * j + i < 64 := by omega
  rw [getLsbD_getByte _ hi, putByte, BitVec.getLsbD_or, BitVec.getLsbD_and, BitVec.getLsbD_not, BitVec.getLsbD_shiftLeft,
    BitVec.getLsbD_shiftLeft, BitVec.getLsbD_setWidth, hff]
  by_cases hjk : j = k
  · subst hjk
    simp [hlt, hi, show i < 64 by omega, show ¬ 8 * j + i < 8 * j by omega]
  · rw [if_neg hjk, getLsbD_getByte _ hi]
    rcases Nat.lt_or_gt_of_ne hjk with h | h
    · simp [hlt, show 8 * j + i < 8 * k by omega]
    · have hge : 8 ≤ 8 * j + i - 8 * k := by omega
      simp [hlt, show ¬ 8 * j + i < 8 * k by omega, show ¬ 8 * j + i - 8 * k < 8 by omega, BitVec.getLsbD_of_ge b _ hge]

theorem byteAt_writeByte (m : PhysMem) (f off g k : ℕ) (b : Byte) :
    (m.writeByte f off b).byteAt g k = if g = f ∧ k = off then b else m.byteAt g k := by
  unfold PhysMem.byteAt PhysMem.writeByte PhysMem.write
  dsimp only
  by_cases hword : g = f ∧ k / 8 = off / 8
  · rw [if_pos hword, getByte_putByte _ _ (Nat.mod_lt k (by decide))]
    have hiff : k % 8 = off % 8 ↔ g = f ∧ k = off := by omega
    simp only [hiff, hword.1, hword.2]
  · rw [if_neg hword, if_neg fun h => hword ⟨h.1, by rw [h.2]⟩]

theorem byteAt_writeBytes (f g k : ℕ) : ∀ (bs : List Byte) (off : ℕ) (m : PhysMem), (m.writeBytes f off bs).byteAt g k =
    if g = f ∧ off ≤ k ∧ k < off + bs.length then bs.getD (k - off) 0 else m.byteAt g k
  | [], off, m => by
    rw [if_neg (by rw [List.length_nil]; omega)]
    rfl
  | b :: bs, off, m => by
    rw [PhysMem.writeBytes, byteAt_writeBytes f g k bs (off + 1), byteAt_writeByte, List.length_cons]
    by_cases hg : g = f
    · by_cases hk : k = off
      · rw [if_neg (by omega), if_pos ⟨hg, hk⟩, if_pos (by omega), hk, Nat.sub_self]
        rfl
      · by_cases hin : off + 1 ≤ k ∧ k < off + 1 + bs.length
        · rw [if_pos ⟨hg, hin⟩, if_pos (by omega), show k - off = k - (off + 1) + 1 by omega, List.getD_cons_succ]
        · rw [if_neg fun h => hin h.2, if_neg fun h => hk h.2, if_neg (by omega)]
    · rw [if_neg fun h => hg h.1, if_neg fun h => hg h.1, if_neg fun h => hg h.1]

/-! ### Pages -/

def virtByte (m : PhysMem) (p4 addr : ℕ) : Option Byte :=
  (mmu m p4 (addr / 4096)).map fun a => m.byteAt a.frame (addr % 4096)

def Vm.contents (v : Vm) (addr : ℕ) : Option Byte :=
  (v.space.mappedPages[addr / 4096]?).map fun f => v.mem.byteAt f (addr % 4096)

structure Paged (v : Vm) (kind : ℕ → Kind) : Prop where
  layout : Layout v.mem kind
  root : kind v.space.p4 = .table 4
  tree : Tree v.mem v.space.p4
  data : ∀ (page : ℕ) f, v.space.mappedPages[page]? = some f → kind f = .data
  leaf : ∀ (page : ℕ) f, v.space.mappedPages[page]? = some f → ∃ p1, FlagWalk 2 v.mem v.space.p4 page p1 ∧
    nextTable (v.mem.words p1 (pageIndex 1 page)) = .ok f ∧ (v.mem.words p1 (pageIndex 1 page)).getLsbD 2 = true
  own : ∀ (page page' : ℕ) f, v.space.mappedPages[page]? = some f → v.space.mappedPages[page']? = some f → page = page'

theorem Paged.virtByte (h : Paged v kind) {addr : ℕ} {b : Byte}
    (hb : v.contents addr = some b) : virtByte v.mem v.space.p4 addr = some b := by
  obtain ⟨f, hf, rfl⟩ := Option.map_eq_some_iff.1 hb
  obtain ⟨p1, hw, hleaf, -⟩ := h.leaf _ _ hf
  obtain ⟨hpres, -, hframe⟩ := nextTable_eq_ok.1 hleaf
  obtain ⟨a, ha, haf, -⟩ := mmu_of_userWalk hw hpres
  rw [Memory.virtByte, ha, map_some, haf, hframe]

theorem Paged.userMapped (h : Paged v kind) {page f : ℕ}
    (hf : v.space.mappedPages[page]? = some f) : UserMapped v.mem v.space.p4 page := by
  obtain ⟨p1, hw, hleaf, hu⟩ := h.leaf page f hf
  exact ⟨p1, f, hw, hleaf, hu⟩

section Tables

variable {m m' : PhysMem} {kind : ℕ → Kind} {p4 : ℕ}

theorem mmu_congr {page : ℕ} (hl : Layout m kind) (hp4 : kind p4 = .table 4)
    (hsame : ∀ t level, kind t = .table level → m'.words t = m.words t) : mmu m' p4 page = mmu m p4 page := by
  have hnext : ∀ {t level : ℕ}, kind t = .table (level + 2) → (m.words t (pageIndex (level + 2) page)).getLsbD 0 = true →
      (m.words t (pageIndex (level + 2) page)).getLsbD 7 = false →
      m'.words (entryFrame (m.words t (pageIndex (level + 2) page))) =
          m.words (entryFrame (m.words t (pageIndex (level + 2) page))) ∧
        kind (entryFrame (m.words t (pageIndex (level + 2) page))) = .table (level + 1) := fun ht hp hh => by
    have hk := (hl.entry _ _ _ ht pageIndex_lt (ne_zero_of_getLsbD hp)).next hh
    exact ⟨hsame _ _ hk, hk⟩
  simp only [mmu, hsame p4 4 hp4]
  refine ite_congr rfl (fun _ => rfl) fun h4 => ?_
  simp only [Bool.or_eq_true, Bool.not_eq_true', not_or, Bool.not_eq_false, Bool.not_eq_true] at h4
  obtain ⟨w3, k3⟩ := hnext hp4 h4.1 h4.2
  rw [w3]
  refine ite_congr rfl (fun _ => rfl) fun p3 => ite_congr rfl (fun _ => rfl) fun h3 => ?_
  simp only [Bool.not_eq_true', Bool.not_eq_false, Bool.not_eq_true] at p3 h3
  obtain ⟨w2, k2⟩ := hnext k3 p3 h3
  rw [w2]
  refine ite_congr rfl (fun _ => rfl) fun p2 => ite_congr rfl (fun _ => rfl) fun h2 => ?_
  simp only [Bool.not_eq_true', Bool.not_eq_false, Bool.not_eq_true] at p2 h2
  obtain ⟨w1, -⟩ := hnext k2 p2 h2
  rw [w1]

end Tables

/-! ### Calls on a space -/

def OnlyMaps (v : Vm) (page : ℕ) (v' : Vm) : Prop :=
  ∀ page', (mmu v'.mem v.space.p4 page').isSome → (mmu v.mem v.space.p4 page').isSome ∨ page' % 512 ^ 4 = page % 512 ^ 4

section Calls

variable {v : Vm} {kind : ℕ → Kind} {fl : PageTableFlags}
variable {page f : ℕ}

theorem mapAlloc_tree (page : ℕ) (htree : Tree v.mem v.space.p4) (hl : Layout v.mem kind)
    (hp4 : kind v.space.p4 = .table 4) (hfl : MapFlags fl) : (AddressSpace.mapAlloc page fl v).Post
      (fun _ v' => Tree v'.mem v.space.p4 ∧ OnlyMaps v page v') (fun _ _ => True) := by
  refine post_mapAlloc trivial fun f m₁ halloc => ?_
  have hwords : ∀ t level, kind t = .table level → (m₁.setRefcount f 1).words t = v.mem.words t :=
    fun t level ht => halloc.words_of_table hl ht
  have hs := halloc.counted hl
  have htree' : Tree (m₁.setRefcount f 1) v.space.p4 := htree.congr hl hp4 fun t level ht => hwords t _ ht
  refine (mapTo_tree htree' hs.target (hs.kind_eq hp4) hfl).imp_ok ?_
  rintro _ m₂ ⟨htree₂, hpres⟩
  refine ⟨htree₂, fun page' h => (hpres page' h).imp (fun hsome => ?_) id⟩
  exact mmu_congr hl hp4 hwords ▸ hsome

theorem mapAlloc_paged (page : ℕ) (h : Paged v kind) (hfl : MapFlags fl) (huser : fl.getLsbD 2 = true) :
    (AddressSpace.mapAlloc page fl v).Post (fun f v' => (∃ kind', Paged v' kind' ∧ Evolves v.mem kind v'.mem kind') ∧
        v'.space = v.space.replaceMapping page f ∧
        v.space.mappedPages[page]? = none ∧
        (∀ addr, v'.contents addr = if addr / 4096 = page then some 0 else v.contents addr) ∧ OnlyMaps v page v')
      (fun _ _ => True) := by
  refine ((mapAlloc_post page h.layout h.root hfl).and (mapAlloc_tree page h.tree h.layout h.root hfl)).imp ?_
    fun _ _ _ => trivial
  rintro f v' ⟨⟨hfree, hlt, hsp, hnot, -, kind', p1, hmaps, hdata, hzero⟩, htree, honly⟩
  have hs := hmaps.steady
  -- the page was not recorded, and its frame was not
  have hnone : v.space.mappedPages[page]? = none := Option.eq_none_iff_forall_not_mem.mpr fun g hg =>
    hnot (h.userMapped hg).mapped
  have hframe : ∀ (q g : ℕ), v.space.mappedPages[q]? = some g → g ≠ f := fun q g hg =>
    PhysMem.ne_of_used hfree (h.layout.isUsed (h.data q g hg))
  have hnew : ∀ q g, v'.space.mappedPages[q]? = some g →
      q = page ∧ g = f ∨ q ≠ page ∧ v.space.mappedPages[q]? = some g := by
    intro q g hg
    rw [hsp] at hg
    by_cases hq : q = page
    · subst hq
      rw [AddressSpace.replaceMapping, Std.ExtTreeMap.getElem?_insert_self] at hg
      exact .inl ⟨rfl, (Option.some.inj hg).symm⟩
    · rcases AddressSpace.getElem?_replaceMapping hg with ⟨hpage, -⟩ | hold
      · exact absurd hpage hq
      · exact .inr ⟨hq, hold⟩
  have hp4 : v'.space.p4 = v.space.p4 := by rw [hsp]; rfl
  refine ⟨⟨kind', ⟨hs.target, ?_, ?_, fun q g hg => ?_, fun q g hg => ?_, fun q q' g hg hg' => ?_⟩, hs.evolves⟩, hsp,
    hnone, fun addr => ?_, honly⟩
  · rw [hp4]
    exact hs.kind_eq h.root
  · rw [hp4]
    exact htree
  · rcases hnew q g hg with ⟨-, rfl⟩ | ⟨-, hold⟩
    · exact hdata
    · exact hs.kind_eq (h.data q g hold)
  · rw [hp4]
    rcases hnew q g hg with ⟨rfl, rfl⟩ | ⟨-, hold⟩
    · refine ⟨p1, hmaps.userWalk huser, ?_⟩
      rw [hmaps.leaf, getLsbD_mkEntry _ _ (by decide)]
      exact ⟨nextTable_mkEntry hlt hfl, huser⟩
    · obtain ⟨q1, hw, hq, hu⟩ := h.leaf q g hold
      have hq1 := h.layout.walk h.root hw.walk
      exact ⟨q1, hs.userWalk h.root hw, hs.leaf _ _ _ hq1 hq, hs.user _ _ hq1 hu⟩
  · rcases hnew q g hg with ⟨rfl, rfl⟩ | ⟨hq, hold⟩
    · rcases hnew q' g hg' with ⟨rfl, -⟩ | ⟨-, hold'⟩
      · rfl
      · exact absurd rfl (hframe _ _ hold')
    · rcases hnew q' g hg' with ⟨rfl, rfl⟩ | ⟨-, hold'⟩
      · exact absurd rfl (hframe _ _ hold)
      · exact h.own _ _ _ hold hold'
  · unfold Vm.contents
    rw [hsp]
    by_cases hpage : addr / 4096 = page
    · rw [if_pos hpage, hpage, AddressSpace.replaceMapping, Std.ExtTreeMap.getElem?_insert_self, Option.map_some,
        PhysMem.byteAt, hzero]
      simp [getByte]
    · have hsame : (v.space.replaceMapping page f).mappedPages[addr / 4096]? = v.space.mappedPages[addr / 4096]? :=
        (congrFun (Lib.TreeMap.getElem?_insert_eq_update v.space.mappedPages page f) _).trans
          (Function.update_of_ne hpage ..)
      rw [if_neg hpage, hsame]
      cases hq : v.space.mappedPages[addr / 4096]? with
      | none => rfl
      | some g =>
        rw [Option.map_some, PhysMem.byteAt, hs.data g (h.data _ _ hq)]
        rfl

section

variable (h : Paged v kind)
include h

theorem Paged.words_of_table (hf : v.space.mappedPages[page]? = some f) (off : ℕ)
    (bs : List Byte) (t level : ℕ) (ht : kind t = .table level) : (v.mem.writeBytes f off bs).words t = v.mem.words t := by
  exact writeBytes_words_of_ne (ne_of_kind ht (h.data page f hf)) bs off v.mem

theorem Paged.writeBytes (hf : v.space.mappedPages[page]? = some f) (off : ℕ)
    (bs : List Byte) : Paged { v with mem := v.mem.writeBytes f off bs } kind where
  layout := h.layout.writeBytes (h.data page f hf) off bs
  root := h.root
  tree := h.tree.congr h.layout h.root fun t level ht => h.words_of_table hf off bs t _ ht
  data := h.data
  leaf := fun q g hg => by
    obtain ⟨q1, hw, hleaf⟩ := h.leaf q g hg
    have he : Extends v.mem kind (v.mem.writeBytes f off bs) := .of_words fun t _ ht => h.words_of_table hf off bs t _ ht
    refine ⟨q1, he.flagWalk h.layout h.root (by decide) hw, ?_⟩
    rw [h.words_of_table hf off bs q1 1 (h.layout.walk h.root hw.walk)]
    exact hleaf
  own := h.own

theorem Paged.contents_writeBytes (hf : v.space.mappedPages[page]? = some f) {off : ℕ}
    {bs : List Byte} (hfit : off + bs.length ≤ 4096) (addr : ℕ) :
    Vm.contents { v with mem := v.mem.writeBytes f off bs } addr =
      if page * 4096 + off ≤ addr ∧ addr < page * 4096 + off + bs.length then some (bs.getD (addr - (page * 4096 + off)) 0)
      else v.contents addr := by
  unfold Vm.contents
  by_cases hpage : addr / 4096 = page
  · rw [hpage, hf, map_some, map_some, byteAt_writeBytes]
    have hsub : addr % 4096 - off = addr - (page * 4096 + off) := by omega
    by_cases hin : page * 4096 + off ≤ addr ∧ addr < page * 4096 + off + bs.length
    · rw [if_pos hin, if_pos ⟨rfl, by omega, by omega⟩, hsub]
    · rw [if_neg hin, if_neg fun h => hin (by omega)]
  · rw [if_neg fun h => hpage (by omega)]
    cases hq : v.space.mappedPages[addr / 4096]? with
    | none => rfl
    | some g =>
      have hne : ¬ (g = f ∧ off ≤ addr % 4096 ∧ addr % 4096 < off + bs.length) := by
        rintro ⟨rfl, -⟩
        exact hpage (h.own _ _ _ hq hf)
      rw [map_some, map_some, byteAt_writeBytes, if_neg hne]

theorem Paged.mmu_writeBytes (hf : v.space.mappedPages[page]? = some f) (off : ℕ) (bs : List Byte)
    (page' : ℕ) (hsome : (mmu (v.mem.writeBytes f off bs) v.space.p4 page').isSome) : (mmu v.mem v.space.p4 page').isSome :=
  mmu_congr h.layout h.root (h.words_of_table hf off bs) ▸ hsome

end

end Calls

theorem Sealed.isSome_mmu {p4 p2 page : ℕ} (h : Sealed m p2) (hlow : LowTable m p4 p2)
    (hlt : page < IDENTITY_FRAMES) : (mmu m p4 page).isSome := by
  obtain ⟨p3, h3, h2⟩ := hlow
  obtain ⟨i4, i3⟩ := pageIndex_eq_zero hlt
  obtain ⟨a3, b3, rfl⟩ := nextTable_eq_ok.1 h3
  obtain ⟨a2, b2, rfl⟩ := nextTable_eq_ok.1 h2
  obtain ⟨a1, b1⟩ := h (pageIndex 2 page) pageIndex_lt
  simp only [mmu, i4, i3, a3, b3, a2, b2, a1, b1, Bool.not_true, Bool.or_false, Bool.false_eq_true, if_false, if_true,
    Option.isSome_some]

/-! ### A new space -/

theorem newUser_paged {cr3 : ℕ} (hl : Layout m kind) (hcr3 : kind cr3 = .table 4)
    (htree : Tree m cr3) : (AddressSpace.newUser cr3 m).Post
      (fun s m' => s.mappedPages = ∅ ∧ ∃ kind', Paged ⟨m', s⟩ kind' ∧ Steady m kind m' kind' ∧
        ∀ p2, LowTable m cr3 p2 → LowTable m' s.p4 p2) (fun _ _ => True) := by
  refine (newUser_fresh m cr3).imp_ok ?_
  rintro s _ ⟨p3, m₂, hfresh, rfl, hempty⟩
  have hs := hfresh.steady hl hcr3
  refine ⟨hempty, _, ⟨hs.target, newKinds_p4 hfresh.ne, hfresh.tree hl hcr3 htree, ?_, ?_, ?_⟩, hs,
    fun p2 => hfresh.lowTable hl hcr3⟩
  · intro page f hf
    simp [hempty] at hf
  · intro page f hf
    simp [hempty] at hf
  · intro page page' f hf
    simp [hempty] at hf

end RustKernel.Memory
