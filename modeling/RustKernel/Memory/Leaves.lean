import RustKernel.Memory.Contents

/-!
# Writable and read-only pages

A page of ring 3 is writable if its leaf is, and the entries on the way to it. `map_to` gives the tables on the way the
flags of the leaf, and flags of tables are never taken back; so a leaf that has been mapped with a flag stays a leaf
with that flag, whatever is mapped later.
-/

namespace RustKernel.Memory

open Lib

structure Leaf (m : PhysMem) (p4 page p1 frame : ℕ) (writable : Bool) : Prop where
  walk : FlagWalk 2 m p4 page p1
  writeWalk : writable = true → FlagWalk 1 m p4 page p1
  frame : nextTable (m.words p1 (pageIndex 1 page)) = .ok frame
  user : (m.words p1 (pageIndex 1 page)).getLsbD 2 = true
  write : (m.words p1 (pageIndex 1 page)).getLsbD 1 = writable

section Leaf

variable {m m' : PhysMem} {kind kind' : ℕ → Kind} {p4 page p1 frame : ℕ} {writable : Bool}

section

variable (h : Leaf m p4 page p1 frame writable)
include h

theorem Leaf.mmu : mmu m p4 page = some ⟨frame, writable, true⟩ := by
  obtain ⟨p3, p2, ⟨h3, u3⟩, ⟨h2, u2⟩, h1, u1⟩ := h.walk
  have hwrite : writable = true → (m.words p4 (pageIndex 4 page)).getLsbD 1 = true ∧
      (m.words p3 (pageIndex 3 page)).getLsbD 1 = true ∧ (m.words p2 (pageIndex 2 page)).getLsbD 1 = true := fun hw => by
    obtain ⟨q3, q2, ⟨e3, w3⟩, ⟨e2, w2⟩, -, w1⟩ := h.writeWalk hw
    obtain rfl := Except.ok.inj (h3.symm.trans e3)
    obtain rfl := Except.ok.inj (h2.symm.trans e2)
    exact ⟨w3, w2, w1⟩
  obtain ⟨a3, b3, rfl⟩ := nextTable_eq_ok.mp h3
  obtain ⟨a2, b2, rfl⟩ := nextTable_eq_ok.mp h2
  obtain ⟨a1, b1, rfl⟩ := nextTable_eq_ok.mp h1
  obtain ⟨hp, -, hf⟩ := nextTable_eq_ok.mp h.frame
  simp only [Memory.mmu, a3, b3, a2, b2, a1, b1, hp, Bool.not_true, Bool.or_false, Bool.false_eq_true, if_false,
    Access.through, u3, u2, u1, h.user, h.write, hf, Bool.and_true, Bool.true_and, Option.some.injEq, Access.mk.injEq,
    true_and]
  cases writable with
  | false => simp
  | true =>
    obtain ⟨w3, w2, w1⟩ := hwrite rfl
    simp [w3, w2, w1]

theorem Leaf.of_words (he : Extends m kind m') (hl : Layout m kind) (hp4 : kind p4 = .table 4)
    (hleaf : m'.words p1 (pageIndex 1 page) = m.words p1 (pageIndex 1 page)) : Leaf m' p4 page p1 frame writable :=
  ⟨he.flagWalk hl hp4 (by decide) h.walk, fun hw => he.flagWalk hl hp4 (by decide) (h.writeWalk hw), by rw [hleaf]; exact h.frame,
    by rw [hleaf]; exact h.user, by rw [hleaf]; exact h.write⟩

theorem Leaf.congr (hl : Layout m kind) (hp4 : kind p4 = .table 4)
    (hsame : ∀ t level, kind t = .table level → m'.words t = m.words t) : Leaf m' p4 page p1 frame writable :=
  h.of_words (.of_words fun t _ ht => hsame t _ ht) hl hp4
    (by rw [hsame p1 1 (hl.walk hp4 h.walk.walk)])

theorem Leaf.grows (hg : Grows m kind m' kind') (hl : Layout m kind)
    (hp4 : kind p4 = .table 4) : Leaf m' p4 page p1 frame writable :=
  h.of_words hg.entry hl hp4 (by rw [hg.words_eq hl (.inl (hl.walk hp4 h.walk.walk))])

end

theorem Leaf.write_unused {q1 i : ℕ} {e : Word} (h : Leaf m p4 page p1 frame writable) (hl : Layout m kind)
    (hp4 : kind p4 = .table 4) (hq1 : kind q1 = .table 1) (hz : m.words q1 i = 0#64) :
    Leaf (m.write q1 i e) p4 page p1 frame writable := by
  refine h.of_words (upper_write_leaf hl hq1).entry hl hp4 ?_
  rw [PhysMem.write_words, if_neg]
  rintro ⟨rfl, rfl⟩
  exact ne_zero_of_getLsbD h.user hz

theorem pageFlags_write (writable : Bool) : (pageFlags writable).getLsbD 1 = writable := by cases writable <;> decide

theorem mapTo_leaf (page : ℕ) (writable : Bool) (hl : Layout m kind) (hp4 : kind p4 = .table 4)
    (hframe : frame < IDENTITY_FRAMES) : (mapTo p4 page frame (pageFlags writable) m).Post
      (fun _ m' => (∃ p1, Leaf m' p4 page p1 frame writable) ∧
        ∀ page' p1 f w, Leaf m p4 page' p1 f w → Leaf m' p4 page' p1 f w) (fun _ _ => True) := by
  have hfl := mapFlags_pageFlags writable
  refine (mapTo_post hl hp4 hfl.parent).imp ?_ fun _ _ _ => trivial
  rintro _ _ ⟨m₁, kind₁, p1, hg, hl₁, hw, hflags, hz, rfl⟩
  have k4 := hg.kind_eq hl hp4
  have k1 := hl₁.walk k4 hw
  have habove := (upper_write_leaf (i := pageIndex 1 page) (e := mkEntry frame (pageFlags writable)) hl₁ k1).entry
  refine ⟨⟨p1, ?_, fun hwrite => ?_, ?_, ?_, ?_⟩, fun page' q1 f w h => (h.grows hg hl hp4).write_unused hl₁ k4 k1 hz⟩
  · exact habove.flagWalk hl₁ k4 (by decide) (hflags 2 (by decide) (pageFlags_user writable))
  · exact habove.flagWalk hl₁ k4 (by decide) (hflags 1 (by decide) ((pageFlags_write writable).trans hwrite))
  · rw [PhysMem.write_words, if_pos ⟨rfl, rfl⟩]
    exact nextTable_mkEntry hframe hfl
  · rw [PhysMem.write_words, if_pos ⟨rfl, rfl⟩, getLsbD_mkEntry _ _ (by decide), pageFlags_user]
  · rw [PhysMem.write_words, if_pos ⟨rfl, rfl⟩, getLsbD_mkEntry _ _ (by decide), pageFlags_write]

end Leaf

/-! ### The pages of a space -/

def Permits (w : ℕ → Bool) (v : Vm) : Prop :=
  ∀ (page : ℕ) f, v.space.mappedPages[page]? = some f → ∃ p1, Leaf v.mem v.space.p4 page p1 f (w page)

section Permits

variable {v : Vm} {kind : ℕ → Kind} {w : ℕ → Bool}

theorem mapAlloc_permits {page : ℕ} (h : Permits w v) (hl : Layout v.mem kind) (hp4 : kind v.space.p4 = .table 4) :
    (AddressSpace.mapAlloc page (pageFlags (w page)) v).Post (fun _ v' => Permits w v') (fun _ _ => True) := by
  refine post_mapAlloc trivial fun f m₁ halloc => ?_
  have hs := halloc.counted hl
  refine (mapTo_leaf page (w page) hs.target (hs.kind_eq hp4) halloc.lt).imp_ok ?_
  rintro _ m₂ ⟨hpage, hothers⟩ q g hg
  rcases AddressSpace.getElem?_replaceMapping hg with ⟨rfl, rfl⟩ | hold
  · exact hpage
  · obtain ⟨p1, hleaf⟩ := h q g hold
    exact ⟨p1, hothers q p1 g _ (hleaf.congr hl hp4 fun t level ht => halloc.words_of_table hl ht)⟩

theorem Permits.writeBytes (h : Permits w v) (hp : Paged v kind) {page f : ℕ} (hf : v.space.mappedPages[page]? = some f)
    (off : ℕ) (bs : List Byte) : Permits w { v with mem := v.mem.writeBytes f off bs } := by
  intro q g hg
  obtain ⟨p1, hleaf⟩ := h q g hg
  exact ⟨p1, hleaf.congr hp.layout hp.root (hp.words_of_table hf off bs)⟩

end Permits

end RustKernel.Memory
