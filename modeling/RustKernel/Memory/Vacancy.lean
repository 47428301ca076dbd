import RustKernel.Memory.Tree

/-!
# Mapping a vacant page

When does `map_to` fail? A page is `Vacant` if its walk meets an unused entry. Mapping it then wants nothing but frames
for the tables that are missing, and in a tree of tables it leaves every other vacant page vacant.
-/

namespace RustKernel.Memory

open Lib

def Vacant (m : PhysMem) (page : ℕ) : ℕ → ℕ → Prop
  | 0, _ => False
  | level + 1, t => m.words t (pageIndex (level + 1) page) = 0#64 ∨
      ∃ next ∈ (nextTable (m.words t (pageIndex (level + 1) page))).toOption, Vacant m page level next

instance decidableVacant (m : PhysMem) (page : ℕ) : ∀ level t, Decidable (Vacant m page level t)
  | 0, _ => inferInstanceAs (Decidable False)
  | level + 1, t =>
    have := decidableVacant m page level
    inferInstanceAs (Decidable (_ ∨ ∃ next ∈ (nextTable (m.words t (pageIndex (level + 1) page))).toOption,
      Vacant m page level next))

theorem mem_toOption_nextTable {e : Word} {next : ℕ} : next ∈ (nextTable e).toOption ↔ nextTable e = .ok next := by
  cases nextTable e with
  | ok t => simp [Except.toOption]
  | error _ => simp [Except.toOption]

theorem vacant_succ {m : PhysMem} {page level t : ℕ} : Vacant m page (level + 1) t ↔ m.words t (pageIndex (level + 1) page) =
    0#64 ∨ ∃ next, nextTable (m.words t (pageIndex (level + 1) page)) = .ok next ∧ Vacant m page level next := by
  simp only [Vacant, mem_toOption_nextTable]

theorem vacant_of_zero {m : PhysMem} {page level t : ℕ} (h : ∀ j, m.words t j = 0#64) : Vacant m page (level + 1) t :=
  vacant_succ.2 (.inl (h _))

section Vacant

variable {m m' : PhysMem} {kind : ℕ → Kind} {p4 page page' t level i next frame : ℕ} {fl : PageTableFlags}

theorem Fills.vacant (h : Fills m t i fl next m') (hl : Layout m kind) (ht : kind t = .table (level + 2)) :
    ∀ {l g : ℕ}, kind g = .table l → Vacant m page l g → Vacant m' page l g
  | 0, _, _, hv => hv
  | l + 1, g, hg, hv => by
    have hused : m.isUsed g = true := hl.isUsed hg
    have hrest : ∀ {f}, nextTable (m.words g (pageIndex (l + 1) page)) = .ok f → Vacant m page l f → Vacant m' page l f := by
      intro f hf hbelow
      cases l with
      | zero => exact hbelow.elim
      | succ l => exact h.vacant hl ht (hl.nextTable hg pageIndex_lt hf) hbelow
    by_cases hgj : g = t ∧ pageIndex (l + 1) page = i
    · obtain ⟨rfl, rfl⟩ := hgj
      obtain rfl : l = level + 1 := by
        rw [ht] at hg
        injection hg with hg
        omega
      by_cases hz : m.words g (pageIndex (level + 1 + 1) page) = 0#64
      · exact vacant_succ.2 (.inr ⟨next, h.carries.next, vacant_of_zero (h.zero hz)⟩)
      · obtain ⟨f, hf, hbelow⟩ := (vacant_succ.1 hv).resolve_left hz
        exact vacant_succ.2 (.inr ⟨f, (h.gains hz).nextTable hf, hrest hf hbelow⟩)
    · have hsame := h.words hused hgj
      rcases vacant_succ.1 hv with hz | ⟨f, hf, hbelow⟩
      · exact vacant_succ.2 (.inl (hsame.trans hz))
      · exact vacant_succ.2 (.inr ⟨f, hsame ▸ hf, hrest hf hbelow⟩)

theorem Vacant.write {p1 idx : ℕ} {e : Word} (hl : Layout m kind) (h1 : kind p1 = .table 1) :
    ∀ {l g : ℕ}, kind g = .table l → Vacant m page l g → ¬ (Passes m page p1 l g ∧ pageIndex 1 page = idx) →
      Vacant (m.write p1 idx e) page l g
  | 0, _, _, hv, _ => hv
  | 1, g, _, hv, hnot => by
    have hne : ¬ (g = p1 ∧ pageIndex (0 + 1) page = idx) := hnot
    rcases vacant_succ.1 hv with hz | ⟨_, -, hbelow⟩
    · refine vacant_succ.2 (.inl ?_)
      rw [PhysMem.write_words, if_neg hne]
      exact hz
    · exact hbelow.elim
  | l + 2, g, hg, hv, hnot => by
    have hsame : (m.write p1 idx e).words g = m.words g := write_words_of_table h1 hg
    rcases vacant_succ.1 hv with hz | ⟨f, hf, hbelow⟩
    · exact vacant_succ.2 (.inl (by rw [hsame]; exact hz))
    · refine vacant_succ.2 (.inr ⟨f, by rw [hsame]; exact hf, ?_⟩)
      exact hbelow.write hl h1 (hl.nextTable hg pageIndex_lt hf) fun hp => hnot ⟨⟨f, hf, hp.1⟩, hp.2⟩

/-- Entries that are in use stay in use, and lead where they led. -/
theorem Vacant.of_later (hl : Layout m kind) (hleaf : ∀ t i, kind t = .table 1 → m'.words t i = 0#64 → m.words t i = 0#64)
    (htable : ∀ t l i, kind t = .table (l + 2) → i < 512 → m.words t i ≠ 0#64 → Gains (m.words t i) (m'.words t i)) :
    ∀ {l g : ℕ}, kind g = .table l → Vacant m' page l g → Vacant m page l g
  | 0, _, _, hv => hv
  | 1, g, hg, hv => by
    rcases vacant_succ.1 hv with hz | ⟨_, -, hbelow⟩
    · exact vacant_succ.2 (.inl (hleaf g _ hg hz))
    · exact hbelow.elim
  | l + 2, g, hg, hv => by
    refine vacant_succ.2 (or_iff_not_imp_left.2 fun hz => ?_)
    have hlead := hl.entry g l _ hg pageIndex_lt hz
    have hgain := htable g l _ hg pageIndex_lt hz
    obtain ⟨next, hn, hbelow⟩ := (vacant_succ.1 hv).resolve_left (hgain.ne_zero hlead)
    obtain ⟨-, hhuge, hframe⟩ := nextTable_eq_ok.1 hn
    have hn' : nextTable (m.words g (pageIndex (l + 2) page)) = .ok next :=
      nextTable_eq_ok.2 ⟨hlead.present, hgain.huge ▸ hhuge, hgain.frame ▸ hframe⟩
    exact ⟨next, hn', hbelow.of_later hl hleaf htable (hl.nextTable hg pageIndex_lt hn')⟩

/-! ### `map_to` -/

/-- Only a vacant page is mapped, and no page becomes vacant. -/
theorem mapTo_of_vacant (hl : Layout m kind) (hp4 : kind p4 = .table 4) (hfl : MapFlags fl) :
    (mapTo p4 page frame fl m).Post
      (fun _ m' => Vacant m page 4 p4 ∧ ∀ page', Vacant m' page' 4 p4 → Vacant m page' 4 p4) (fun _ _ => True) := by
  refine (mapTo_post hl hp4 hfl.parent).imp ?_ fun _ _ _ => trivial
  rintro _ _ ⟨m₁, kind₁, p1, hg, hl₁, hw, -, hz, rfl⟩
  have k4 := hg.kind_eq hl hp4
  have k1 := hl₁.walk k4 hw
  have hnew : mkEntry frame fl ≠ 0#64 := ne_zero_of_getLsbD ((getLsbD_mkEntry _ _ (by decide)).trans hfl.present)
  have hv₁ : Vacant m₁ page 4 p4 := by
    obtain ⟨p3, p2, h3, h2, h1⟩ := walk_eq_ok.1 hw
    exact vacant_succ.2 (.inr ⟨p3, h3, vacant_succ.2 (.inr ⟨p2, h2, vacant_succ.2 (.inr ⟨p1, h1, vacant_succ.2 (.inl hz)⟩)⟩)⟩)
  have hgrown : ∀ {page'}, Vacant m₁ page' 4 p4 → Vacant m page' 4 p4 := fun h =>
    h.of_later hl (fun t i ht h0 => by rwa [hg.words_eq hl (.inl ht)] at h0) hg.entry hp4
  refine ⟨hgrown hv₁, fun page' h => hgrown (h.of_later hl₁ (fun t i _ h0 => ?_) (fun t l i ht _ _ => ?_) k4)⟩
  · rw [PhysMem.write_words] at h0
    split_ifs at h0
    · exact absurd h0 hnew
    · exact h0
  · rw [write_words_of_table k1 ht]
    exact Gains.refl _

theorem Paves.vacant (h : Paves p4 page fl m level t m') (hl : Layout m kind) (hp4 : kind p4 = .table 4)
    (hv : Vacant m page' 4 p4) : Vacant m' page' 4 p4 := by
  induction h with
  | root => exact hv
  | next h hf ih =>
    obtain ⟨kind₁, hg, hl₁, -, hk⟩ := h.grows hl hp4
    exact hf.vacant hl₁ hk (hg.kind_eq hl hp4) ih

theorem Paves.vacant_below (h : Paves p4 page fl m level t m') (hl : Layout m kind) (hp4 : kind p4 = .table 4)
    (hv : Vacant m page 4 p4) : Vacant m' page level t := by
  induction h with
  | root => exact hv
  | next h hf ih =>
    obtain ⟨kind₁, -, hl₁, -, hk⟩ := h.grows hl hp4
    have hn := hf.carries.next
    rcases vacant_succ.1 (hf.vacant hl₁ hk hk ih) with hz | ⟨next', hn', hbelow⟩
    · rw [hz] at hn
      cases hn
    · obtain rfl := Except.ok.inj (hn.symm.trans hn')
      exact hbelow

/-- A vacant page is mapped unless frames run out, and the other pages stay vacant. -/
theorem mapTo_vacant (htree : Tree m p4) (hl : Layout m kind) (hp4 : kind p4 = .table 4) (hfl : MapFlags fl) :
    (mapTo p4 page frame fl m).Post
      (fun _ m' => ∀ page', page' % 512 ^ 4 ≠ page % 512 ^ 4 → Vacant m page' 4 p4 → Vacant m' page' 4 p4)
      (fun _ m' => Vacant m page 4 p4 → Exhausted m') := by
  refine (mapTo_paves hl hp4 hfl.parent).imp ?_ ?_
  · rintro _ _ ⟨m₁, p1, hpaves, -, rfl⟩ page' hne h
    obtain ⟨kind₁, hg, hl₁, -, hk1⟩ := hpaves.grows hl hp4
    have hw := (hpaves.flagWalk hl hp4 (by decide) hfl.parent.present).walk
    -- the leaf that is set is that of no other page
    refine (hpaves.vacant hl hp4 h).write hl₁ hk1 (hg.kind_eq hl hp4) ?_
    rintro ⟨hp, hidx⟩
    exact hne ((hg.tree p4 hp4 htree).page_eq (passes_iff_walk.1 hp) hw hidx)
  · rintro _ m' ⟨level, t, m₁, hpaves, hblocked⟩ hv
    have hv₁ := hpaves.vacant_below hl hp4 hv
    cases hblocked with
    | leaf hne =>
      obtain ⟨_, -, hbelow⟩ := (vacant_succ.1 hv₁).resolve_left hne
      exact hbelow.elim
    | table hstuck =>
      cases hstuck with
      | exhausted _ hex => exact hex
      | huge hne hgain hno =>
        obtain ⟨next, hn, -⟩ := (vacant_succ.1 hv₁).resolve_left hne
        exact absurd (hgain.nextTable hn) (hno next)

end Vacant

end RustKernel.Memory
