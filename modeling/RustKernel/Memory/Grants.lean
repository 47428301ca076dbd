import RustKernel.Memory.Leaves
import RustKernel.Memory.Vacancy

/-!
# Pages that ring 3 may write

What the processor finds at a page depends on the entries of four tables. `Granted` says that ring 3 may read and write a
frame there: all of them are present, writable and user-accessible.
-/

namespace RustKernel.Memory

open Lib Exec

def Granted (m : PhysMem) (p4 page frame : ℕ) : Prop := mmu m p4 page = some ⟨frame, true, true⟩
deriving Decidable

structure Open (e : Word) : Prop where
  present : e.getLsbD 0 = true
  writable : e.getLsbD 1 = true
  user : e.getLsbD 2 = true

theorem Open.ne_zero {e : Word} (h : Open e) : e ≠ 0#64 := ne_zero_of_getLsbD h.present

theorem Gains.isOpen {e e' : Word} (h : Gains e e') (ho : Open e) : Open e' :=
  ⟨h.flags 0 (by decide) ho.present, h.flags 1 (by decide) ho.writable, h.flags 2 (by decide) ho.user⟩

section Granted

variable {m m' : PhysMem} {kind kind' : ℕ → Kind} {p4 page frame p1 : ℕ} {fl : PageTableFlags}

theorem granted_iff : Granted m p4 page frame ↔
    Open (m.words p4 (pageIndex 4 page)) ∧ (m.words p4 (pageIndex 4 page)).getLsbD 7 = false ∧
    let e3 := m.words (entryFrame (m.words p4 (pageIndex 4 page))) (pageIndex 3 page)
    Open e3 ∧ (e3.getLsbD 7 = true ∧ entryFrame e3 / 2 ^ 18 * 2 ^ 18 + page % 2 ^ 18 = frame ∨ e3.getLsbD 7 = false ∧
      let e2 := m.words (entryFrame e3) (pageIndex 2 page)
      Open e2 ∧ (e2.getLsbD 7 = true ∧ entryFrame e2 / 2 ^ 9 * 2 ^ 9 + page % 2 ^ 9 = frame ∨
        e2.getLsbD 7 = false ∧ Open (m.words (entryFrame e2) (pageIndex 1 page)) ∧
          entryFrame (m.words (entryFrame e2) (pageIndex 1 page)) = frame)) := by
  have hopen : ∀ e : Word, Open e ↔ e.getLsbD 0 = true ∧ e.getLsbD 1 = true ∧ e.getLsbD 2 = true :=
    fun e => ⟨fun h => ⟨h.1, h.2, h.3⟩, fun h => ⟨h.1, h.2.1, h.2.2⟩⟩
  simp only [Granted, mmu, Access.through]
  grind

theorem Grows.granted (h : Grows m kind m' kind') (hl : Layout m kind) (hp4 : kind p4 = .table 4)
    (hg : Granted m p4 page frame) : Granted m' p4 page frame := by
  obtain ⟨o4, h4, o3, hrest⟩ := granted_iff.1 hg
  have g4 := h.entry p4 2 _ hp4 pageIndex_lt o4.ne_zero
  have k3 := (hl.entry p4 2 _ hp4 pageIndex_lt o4.ne_zero).next h4
  have g3 := h.entry _ 1 _ k3 pageIndex_lt o3.ne_zero
  refine granted_iff.2 ⟨g4.isOpen o4, g4.huge.trans h4, ?_⟩
  rw [g4.frame]
  refine ⟨g3.isOpen o3, hrest.imp (fun ⟨hh, hf⟩ => ⟨g3.huge.trans hh, by rw [g3.frame]; exact hf⟩) ?_⟩
  rintro ⟨h3, o2, hrest⟩
  have k2 := (hl.entry _ 1 _ k3 pageIndex_lt o3.ne_zero).next h3
  have g2 := h.entry _ 0 _ k2 pageIndex_lt o2.ne_zero
  refine ⟨g3.huge.trans h3, ?_⟩
  rw [g3.frame]
  refine ⟨g2.isOpen o2, hrest.imp (fun ⟨hh, hf⟩ => ⟨g2.huge.trans hh, by rw [g2.frame]; exact hf⟩) ?_⟩
  rintro ⟨h2, o1, hf⟩
  have k1 := (hl.entry _ 0 _ k2 pageIndex_lt o2.ne_zero).next h2
  rw [g2.frame, h.words_eq hl (.inl k1)]
  exact ⟨g2.huge.trans h2, o1, hf⟩

theorem vacant_congr (hl : Layout m kind) (hsame : ∀ t level, kind t = .table level → m'.words t = m.words t) :
    ∀ {l t : ℕ}, kind t = .table l → Vacant m page l t → Vacant m' page l t
  | 0, _, _, h => h
  | l + 1, t, ht, h => by
    refine vacant_succ.2 ?_
    rw [hsame t _ ht]
    refine (vacant_succ.1 h).imp_right ?_
    rintro ⟨next, hn, hbelow⟩
    cases l with
    | zero => exact hbelow.elim
    | succ l => exact ⟨next, hn, vacant_congr hl hsame (hl.nextTable ht pageIndex_lt hn) hbelow⟩

theorem Granted.write_leaf {i : ℕ} {e : Word} (h : Granted m p4 page frame) (hl : Layout m kind) (hp4 : kind p4 = .table 4)
    (hp1 : kind p1 = .table 1) (hz : m.words p1 i = 0#64) : Granted (m.write p1 i e) p4 page frame := by
  obtain ⟨o4, h4, o3, hrest⟩ := granted_iff.1 h
  have k3 := (hl.entry p4 2 _ hp4 pageIndex_lt o4.ne_zero).next h4
  refine granted_iff.2 ?_
  rw [write_words_of_table hp1 hp4, write_words_of_table hp1 k3]
  refine ⟨o4, h4, o3, hrest.imp_right ?_⟩
  rintro ⟨h3, o2, hrest⟩
  have k2 := (hl.entry _ 1 _ k3 pageIndex_lt o3.ne_zero).next h3
  rw [write_words_of_table hp1 k2]
  refine ⟨h3, o2, hrest.imp_right ?_⟩
  rintro ⟨h2, o1, hf⟩
  -- the leaf of a granted page is in use
  rw [PhysMem.write_words, if_neg]
  · exact ⟨h2, o1, hf⟩
  · rintro ⟨rfl, rfl⟩
    exact o1.ne_zero hz

theorem mapTo_granted (page : ℕ) (hl : Layout m kind) (hp4 : kind p4 = .table 4) (hframe : frame < IDENTITY_FRAMES) :
    (mapTo p4 page frame USER_RW m).Post
      (fun _ m' => Granted m' p4 page frame ∧ ∀ page' f, Granted m p4 page' f → Granted m' p4 page' f)
      (fun _ m' => ∀ page' f, Granted m p4 page' f → Granted m' p4 page' f) := by
  refine ((mapTo_post hl hp4 (mapFlags_pageFlags true).parent).and (mapTo_leaf page true hl hp4 hframe)).imp ?_ ?_
  · rintro _ _ ⟨⟨m₁, kind₁, p1, hg, hl₁, hw, -, hz, rfl⟩, ⟨_, hleaf⟩, -⟩
    have k4 := hg.kind_eq hl hp4
    exact ⟨hleaf.mmu, fun page' f h => (hg.granted hl hp4 h).write_leaf hl₁ k4 (hl₁.walk k4 hw) hz⟩
  · rintro _ _ ⟨⟨kind₁, hg, -, -⟩, -⟩ page' f h
    exact hg.granted hl hp4 h

end Granted

/-! ### Frames that are left -/

section Available

variable {m : PhysMem}

/-- Each table that `map_to` creates takes one frame. -/
theorem createNextTable_available (t i : ℕ) (fl : PageTableFlags) :
    (createNextTable t i fl m).Post (fun _ m' => m.frames.available ≤ m'.frames.available + 1)
      (fun _ m' => m.frames.available ≤ m'.frames.available + 1) := by
  have hinsert : (insertEntry t i fl m).Post (fun _ m' => m.frames.available ≤ m'.frames.available + 1)
      (fun _ m' => m.frames.available ≤ m'.frames.available + 1) := by
    rw [insertEntry, get_bind]
    split_ifs
    · refine post_bind ((allocateFrame_post m).never) fun o m₁ h => ?_
      cases o with
      | none =>
        rw [h.1]
        exact Nat.le_succ _
      | some f => exact h.available.le
    · exact Nat.le_succ _
    · exact Nat.le_succ _
  refine post_bind hinsert fun created m₁ h₁ => ?_
  rw [get_bind]
  cases nextTable (m₁.words t i) with
  | error e =>
    cases e with
    | notMapped => trivial
    | mappedToHugePage => exact h₁
  | ok next =>
    cases created with
    | false => exact h₁
    | true => exact h₁

theorem mapTo_available (p4 page frame : ℕ) (fl : PageTableFlags) :
    (mapTo p4 page frame fl m).Post (fun _ m' => m.frames.available ≤ m'.frames.available + 3)
      (fun _ m' => m.frames.available ≤ m'.frames.available + 3) := by
  refine post_bind ((createNextTable_available _ _ _).imp_err fun _ _ h => by omega) fun p3 m₁ h₁ => ?_
  refine post_bind ((createNextTable_available _ _ _).imp_err fun _ _ h => by omega) fun p2 m₂ h₂ => ?_
  refine post_bind ((createNextTable_available _ _ _).imp_err fun _ _ h => by omega) fun p1 m₃ h₃ => ?_
  have hsum : m.frames.available ≤ m₃.frames.available + 3 := by omega
  rw [get_bind]
  split_ifs
  · exact hsum
  · exact hsum

end Available

end RustKernel.Memory
