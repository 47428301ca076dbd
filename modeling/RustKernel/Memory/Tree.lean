import RustKernel.Memory.Owners

/-!
# The page tables of a space are a tree

The tables below a level-4 table form a tree as long as no two entries lead to the same table (`Tree`). Then mapping a
page maps that page only: the tables `map_to` creates are empty, and its leaf is the leaf of no other page.
-/

namespace RustKernel.Memory

open Lib

variable {m : PhysMem} {page : ℕ}

/-! ### Pages that are present -/

def Reaches (m : PhysMem) (page : ℕ) : ℕ → ℕ → Prop
  | 0, _ => True
  | level + 1, t =>
    (m.words t (pageIndex (level + 1) page)).getLsbD 0 = true ∧
      if level ≠ 0 ∧ (m.words t (pageIndex (level + 1) page)).getLsbD 7 = true then level ≠ 3
      else Reaches m page level (entryFrame (m.words t (pageIndex (level + 1) page)))

theorem isSome_mmu {p4 : ℕ} : (mmu m p4 page).isSome ↔ Reaches m page 4 p4 := by
  simp only [mmu, Reaches]
  generalize m.words p4 (pageIndex 4 page) = e4
  generalize m.words (entryFrame e4) (pageIndex 3 page) = e3
  generalize m.words (entryFrame e3) (pageIndex 2 page) = e2
  cases e4.getLsbD 0 with
  | false => simp
  | true =>
    cases e4.getLsbD 7 with
    | true => simp
    | false =>
      cases e3.getLsbD 0 with
      | false => simp
      | true =>
        cases e3.getLsbD 7 with
        | true => simp
        | false =>
          cases e2.getLsbD 0 with
          | false => simp
          | true => cases e2.getLsbD 7 <;> simp

theorem not_reaches_zero {level t : ℕ} (h : ∀ j, m.words t j = 0#64) : ¬ Reaches m page (level + 1) t := by
  rintro ⟨hpres, -⟩
  rw [h] at hpres
  cases hpres

theorem Reaches.of_gains {m' : PhysMem} {level t : ℕ} (h : Reaches m' page (level + 1) t)
    (hgain : Gains (m.words t (pageIndex (level + 1) page)) (m'.words t (pageIndex (level + 1) page)))
    (hpres : (m.words t (pageIndex (level + 1) page)).getLsbD 0 = true)
    (hrest : (level ≠ 0 → (m.words t (pageIndex (level + 1) page)).getLsbD 7 = false) →
      Reaches m' page level (entryFrame (m.words t (pageIndex (level + 1) page))) →
      Reaches m page level (entryFrame (m.words t (pageIndex (level + 1) page)))) : Reaches m page (level + 1) t := by
  have hbelow := h.2
  rw [hgain.huge, hgain.frame] at hbelow
  refine ⟨hpres, ?_⟩
  split_ifs at hbelow ⊢ with hhuge
  · exact hbelow
  · refine hrest (fun hlevel => ?_) hbelow
    rw [not_and, Bool.not_eq_true] at hhuge
    exact hhuge hlevel

section Present

variable {m m' : PhysMem} {kind : ℕ → Kind} {page : ℕ}

theorem Layout.kind_entryFrame (hl : Layout m kind) {t level i : ℕ} (ht : kind t = .table (level + 1)) (hi : i < 512)
    (hlevel : level ≠ 0) (hpres : (m.words t i).getLsbD 0 = true) (hhuge : (m.words t i).getLsbD 7 = false) :
    kind (entryFrame (m.words t i)) = .table level := by
  obtain ⟨l, rfl⟩ := Nat.exists_eq_succ_of_ne_zero hlevel
  exact (hl.entry t l i ht hi (ne_zero_of_getLsbD hpres)).next hhuge

theorem Fills.reaches {t level i next : ℕ} {fl : PageTableFlags} (h : Fills m t i fl next m') (hl : Layout m kind)
    (ht : kind t = .table (level + 2)) (hi : i < 512) :
    ∀ {l g : ℕ}, kind g = .table l → Reaches m' page l g → Reaches m page l g
  | 0, _, _, _ => trivial
  | l + 1, g, hg, hr => by
    have hused : m.isUsed g = true := hl.isUsed hg
    have hrest : (m.words g (pageIndex (l + 1) page)).getLsbD 0 = true →
        (l ≠ 0 → (m.words g (pageIndex (l + 1) page)).getLsbD 7 = false) →
        Reaches m' page l (entryFrame (m.words g (pageIndex (l + 1) page))) →
        Reaches m page l (entryFrame (m.words g (pageIndex (l + 1) page))) := by
      intro hpres hhuge hbelow
      by_cases hl0 : l = 0
      · subst hl0
        trivial
      · exact h.reaches hl ht hi (hl.kind_entryFrame hg pageIndex_lt hl0 hpres (hhuge hl0)) hbelow
    by_cases hgj : g = t ∧ pageIndex (l + 1) page = i
    · obtain ⟨rfl, rfl⟩ := hgj
      obtain rfl : l = level + 1 := by
        rw [ht] at hg
        injection hg with hg
        omega
      by_cases hz : m.words g (pageIndex (level + 1 + 1) page) = 0#64
      · -- the fresh table is empty
        obtain ⟨-, hhuge, hframe⟩ := nextTable_eq_ok.1 h.carries.next
        have hbelow := hr.2
        rw [hhuge, hframe] at hbelow
        exact absurd hbelow (not_reaches_zero (h.zero hz))
      · have hpres := (hl.entry g level _ ht hi hz).present
        exact hr.of_gains (h.gains hz) hpres (hrest hpres)
    · have hsame := h.words hused hgj
      have hpres : (m.words g (pageIndex (l + 1) page)).getLsbD 0 = true := hsame ▸ hr.1
      exact hr.of_gains (hsame ▸ Gains.refl _) hpres (hrest hpres)

end Present

section Leaf

variable {m : PhysMem} {kind : ℕ → Kind} {p4 p1 idx : ℕ} {e : Word}

theorem reaches_write {page : ℕ} (hl : Layout m kind) (h1 : kind p1 = .table 1) :
    ∀ {l g : ℕ}, kind g = .table l → Reaches (m.write p1 idx e) page l g →
      Reaches m page l g ∨ Passes m page p1 l g ∧ pageIndex 1 page = idx
  | 0, _, _, _ => .inl trivial
  | 1, g, _, hr => by
    by_cases hg : g = p1 ∧ pageIndex 1 page = idx
    · exact .inr hg
    · refine .inl ⟨?_, by simp [Reaches]⟩
      have hpres := hr.1
      simp only [PhysMem.write, if_neg hg] at hpres
      exact hpres
  | l + 2, g, hg, hr => by
    have hsame : (m.write p1 idx e).words g = m.words g := write_words_of_table h1 hg
    obtain ⟨hpres, hbelow⟩ := hr
    rw [hsame] at hpres hbelow
    by_cases hhuge : l + 1 ≠ 0 ∧ (m.words g (pageIndex (l + 2) page)).getLsbD 7 = true
    · rw [if_pos hhuge] at hbelow
      exact .inl ⟨hpres, by rw [if_pos hhuge]; exact hbelow⟩
    · rw [if_neg hhuge] at hbelow
      have hno : (m.words g (pageIndex (l + 2) page)).getLsbD 7 = false := by simpa using hhuge
      have hk := hl.kind_entryFrame hg pageIndex_lt (Nat.succ_ne_zero l) hpres hno
      rcases reaches_write hl h1 hk hbelow with hr | ⟨hp, hi⟩
      · exact .inl ⟨hpres, by rw [if_neg hhuge]; exact hr⟩
      · exact .inr ⟨⟨_, nextTable_eq_ok.2 ⟨hpres, hno, rfl⟩, hp⟩, hi⟩

theorem Tree.page_eq (h : Tree m p4) {page page' : ℕ} (hw : walk m p4 page = .ok p1) (hw' : walk m p4 page' = .ok p1)
    (hidx : pageIndex 1 page = pageIndex 1 page') : page % 512 ^ 4 = page' % 512 ^ 4 := by
  obtain ⟨p3, p2, h3, h2, h1⟩ := walk_eq_ok.1 hw
  obtain ⟨q3, q2, g3, g2, g1⟩ := walk_eq_ok.1 hw'
  have t3 : TableOf m p4 3 p3 := TableOf.root.next pageIndex_lt h3
  have t3' : TableOf m p4 3 q3 := TableOf.root.next pageIndex_lt g3
  have t2 : TableOf m p4 2 p2 := t3.next pageIndex_lt h2
  have t2' : TableOf m p4 2 q2 := t3'.next pageIndex_lt g2
  obtain ⟨rfl, i2⟩ := h.unique t2 t2' pageIndex_lt pageIndex_lt h1 g1
  obtain ⟨rfl, i3⟩ := h.unique t3 t3' pageIndex_lt pageIndex_lt h2 g2
  obtain ⟨-, i4⟩ := h.unique (TableOf.root (m := m)) .root pageIndex_lt pageIndex_lt h3 g3
  unfold pageIndex at hidx i2 i3 i4
  omega

end Leaf

/-! ### Mapping a page -/

section MapTo

variable {m m' : PhysMem} {kind : ℕ → Kind} {p4 page frame t level : ℕ} {fl : PageTableFlags}

theorem Paves.reaches (h : Paves p4 page fl m level t m') (hl : Layout m kind) (hp4 : kind p4 = .table 4) {page' : ℕ}
    (hr : Reaches m' page' 4 p4) : Reaches m page' 4 p4 := by
  induction h with
  | root => exact hr
  | next h hf ih =>
    obtain ⟨kind₁, hg, hl₁, -, hk⟩ := h.grows hl hp4
    exact ih (hf.reaches hl₁ hk pageIndex_lt (hg.kind_eq hl hp4) hr)

theorem mapTo_tree (htree : Tree m p4) (hl : Layout m kind) (hp4 : kind p4 = .table 4) (hfl : MapFlags fl) :
    (mapTo p4 page frame fl m).Post
    (fun _ m' => Tree m' p4 ∧ ∀ page', (mmu m' p4 page').isSome → (mmu m p4 page').isSome ∨ page' % 512 ^ 4 = page % 512 ^ 4)
    (fun _ _ => True) := by
  refine (mapTo_paves hl hp4 hfl.parent).imp ?_ fun _ _ _ => trivial
  rintro _ _ ⟨m₁, p1, hpaves, -, rfl⟩
  obtain ⟨kind₁, hg, hl₁, -, hk1⟩ := hpaves.grows hl hp4
  have k₁ := hg.kind_eq hl hp4
  have tree₁ := hg.tree p4 hp4 htree
  have hw := (hpaves.flagWalk hl hp4 (by decide) hfl.parent.present).walk
  refine ⟨tree₁.write hl₁ k₁ hk1, fun page' h => ?_⟩
  rcases reaches_write hl₁ hk1 k₁ (isSome_mmu.1 h) with hr | ⟨hp, hidx⟩
  · exact .inl (isSome_mmu.2 (hpaves.reaches hl hp4 hr))
  · exact .inr (tree₁.page_eq (passes_iff_walk.1 hp) hw hidx)

end MapTo

end RustKernel.Memory
