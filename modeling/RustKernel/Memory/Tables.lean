import RustKernel.Memory.Paging

/-!
# The shape of the page tables

The mapper works on words of physical memory. What makes its walks meaningful is that each
frame is used for one thing: a page table of one level, the data of a page, or something
else. `Layout m kind` says that memory fits such an assignment `kind`: the frames used for
something are marked used in the allocator, and an entry of a table of level `k + 1` is
unused, maps a huge page, or points to a table of level `k`. The leaves of level-1 tables
are not constrained.

`Grows` is what the mapper does to the tables above the leaves: entries are added and gain
flags, nothing else changes. Walks survive it (`Extends.walk`).
-/

namespace RustKernel.Memory

open Lib
open Exec (get_bind modify_bind post_bind pure_apply)
open Function (update_of_ne)

/-- What a frame is used for. -/
inductive Kind where
  | other
  | data
  | table (level : ℕ)
deriving DecidableEq

variable {kind : ℕ → Kind} {e e' : Word} {level t : ℕ} {m : PhysMem} {p4 page p1 : ℕ} {m' : PhysMem} {ε : Type} {f : ℕ}
  {fl : PageTableFlags} {i : ℕ}

theorem ne_of_kind {k k' : Kind} (ht : kind t = k) (hf : kind f = k') (hk : k ≠ k' := by simp) : t ≠ f := fun h =>
  hk (by rw [← ht, h, hf])

/-- A used entry of a table of level `level + 1`. -/
structure Leads (kind : ℕ → Kind) (level : ℕ) (e : Word) : Prop where
  present : e.getLsbD 0 = true
  next : e.getLsbD 7 = false → kind (entryFrame e) = .table level
  huge : e.getLsbD 7 = true → level < 3

theorem Leads.not_huge (h : Leads kind 3 e) : e.getLsbD 7 = false := by
  cases hb : e.getLsbD 7 with
  | false => rfl
  | true => exact absurd (h.huge hb) (by decide)

/-- The words of memory and the bitmap fit the uses of the frames. -/
structure Layout (m : PhysMem) (kind : ℕ → Kind) : Prop where
  used : ∀ f, kind f ≠ .other → m.isUsed f = true
  entry : ∀ t level i, kind t = .table (level + 2) → i < 512 → m.words t i ≠ 0#64 →
    Leads kind (level + 1) (m.words t i)

theorem Layout.isUsed (hl : Layout m kind) {k : Kind} (hf : kind f = k) (hk : k ≠ .other := by simp) :
    m.isUsed f = true := hl.used f (hf ▸ hk)

/-- An entry gains flags, and leads where it led. -/
structure Gains (e e' : Word) : Prop where
  frame : entryFrame e' = entryFrame e
  huge : e'.getLsbD 7 = e.getLsbD 7
  flags : ∀ i < 12, e.getLsbD i = true → e'.getLsbD i = true

theorem Gains.refl (e : Word) : Gains e e := ⟨rfl, rfl, fun _ _ h => h⟩

theorem Gains.trans {e'' : Word} (h : Gains e e') (h' : Gains e' e'') : Gains e e'' :=
  ⟨h'.frame.trans h.frame, h'.huge.trans h.huge, fun i hi hb => h'.flags i hi (h.flags i hi hb)⟩

theorem Gains.ne_zero (h : Gains e e') (hl : Leads kind level e) :
    e' ≠ 0#64 := ne_zero_of_getLsbD (h.flags 0 (by decide) hl.present)

theorem nextTable_eq_ok : nextTable e = .ok t ↔ e.getLsbD 0 = true ∧ e.getLsbD 7 = false ∧ entryFrame e = t := by
  unfold nextTable
  rw [hasFlags_PRESENT, hasFlags_HUGE_PAGE, getLsbD_entryFlags e (by decide), getLsbD_entryFlags e (by decide)]
  cases e.getLsbD 0 <;> cases e.getLsbD 7 <;> simp

theorem nextTable_eq_notMapped : nextTable e = .error .notMapped ↔ e.getLsbD 0 = false := by
  unfold nextTable
  rw [hasFlags_PRESENT, hasFlags_HUGE_PAGE, getLsbD_entryFlags e (by decide), getLsbD_entryFlags e (by decide)]
  cases e.getLsbD 0 <;> cases e.getLsbD 7 <;> simp

theorem Gains.nextTable (h : Gains e e') (ht : nextTable e = .ok t) : Memory.nextTable e' = .ok t := by
  obtain ⟨hp, hh, hf⟩ := nextTable_eq_ok.mp ht
  exact nextTable_eq_ok.mpr ⟨h.flags 0 (by decide) hp, h.huge.trans hh, h.frame.trans hf⟩

theorem Layout.nextTable {next : ℕ} (hl : Layout m kind) (ht : kind t = .table (level + 2)) (hi : i < 512)
    (h : nextTable (m.words t i) = .ok next) : kind next = .table (level + 1) := by
  obtain ⟨hp, hh, hf⟩ := nextTable_eq_ok.mp h
  rw [← hf]
  exact (hl.entry t level i ht hi (ne_zero_of_getLsbD hp)).next hh

theorem walk_eq_ok : walk m p4 page = .ok p1 ↔ ∃ p3 p2, nextTable (m.words p4 (pageIndex 4 page)) = .ok p3 ∧
    nextTable (m.words p3 (pageIndex 3 page)) = .ok p2 ∧ nextTable (m.words p2 (pageIndex 2 page)) = .ok p1 := by
  unfold walk
  constructor
  · intro h
    cases h3 : nextTable (m.words p4 (pageIndex 4 page)) with
    | error e => simp [h3, bind, Except.bind] at h
    | ok p3 =>
      cases h2 : nextTable (m.words p3 (pageIndex 3 page)) with
      | error e => simp [h3, h2, bind, Except.bind] at h
      | ok p2 => exact ⟨p3, p2, rfl, h2, by simpa [h3, h2, bind, Except.bind] using h⟩
  · rintro ⟨p3, p2, h3, h2, h1⟩
    simp [h3, h2, h1, bind, Except.bind]

theorem Layout.walk (hl : Layout m kind) (hp4 : kind p4 = .table 4) (h : walk m p4 page = .ok p1) : kind p1 = .table 1 := by
  obtain ⟨p3, p2, h3, h2, h1⟩ := walk_eq_ok.mp h
  have k3 := hl.nextTable hp4 pageIndex_lt h3
  have k2 := hl.nextTable k3 pageIndex_lt h2
  exact hl.nextTable k2 pageIndex_lt h1

/-- The walk of `page` passes the table `t` of a level, and ends at `p1`. -/
def Passes (m : PhysMem) (page p1 : ℕ) : ℕ → ℕ → Prop
  | 0, _ => False
  | 1, t => t = p1
  | level + 2, t => ∃ next, nextTable (m.words t (pageIndex (level + 2) page)) = .ok next ∧ Passes m page p1 (level + 1) next

theorem passes_iff_walk : Passes m page p1 4 p4 ↔ walk m p4 page = .ok p1 := by
  rw [walk_eq_ok]
  constructor
  · rintro ⟨p3, h3, p2, h2, _, h1, rfl⟩
    exact ⟨p3, p2, h3, h2, h1⟩
  · rintro ⟨p3, p2, h3, h2, h1⟩
    exact ⟨p3, h3, p2, h2, p1, h1, rfl⟩

/-- No entry above the leaves is lost; entries may gain flags. -/
def Extends (m : PhysMem) (kind : ℕ → Kind) (m' : PhysMem) : Prop :=
  ∀ t level i, kind t = .table (level + 2) → i < 512 → m.words t i ≠ 0#64 → Gains (m.words t i) (m'.words t i)

theorem Extends.of_words (hw : ∀ t level, kind t = .table (level + 2) → m'.words t = m.words t) : Extends m kind m' :=
  fun t level i ht _ _ => by rw [hw t level ht]; exact Gains.refl _

section Extends

variable (he : Extends m kind m')
include he

theorem Extends.trans {kind' : ℕ → Kind} {m'' : PhysMem} (hl : Layout m kind)
    (hk : ∀ t level, kind t = .table (level + 2) → kind' t = .table (level + 2)) (he' : Extends m' kind' m'') :
    Extends m kind m'' := by
  intro t level i ht hi hne
  have hg := he t level i ht hi hne
  exact hg.trans (he' t level i (hk t level ht) hi (hg.ne_zero (hl.entry t level i ht hi hne)))

theorem Extends.nextTable {next : ℕ} (ht : kind t = .table (level + 2)) (hi : i < 512)
    (hn : nextTable (m.words t i) = .ok next) : Memory.nextTable (m'.words t i) = .ok next :=
  (he t level i ht hi (ne_zero_of_getLsbD (nextTable_eq_ok.mp hn).1)).nextTable hn

theorem Extends.passes (hl : Layout m kind) :
    ∀ {level t : ℕ}, kind t = .table level → Passes m page p1 level t → Passes m' page p1 level t
  | 1, _, _, h => h
  | _ + 2, _, ht, ⟨next, hn, h⟩ =>
    ⟨next, he.nextTable ht pageIndex_lt hn, Extends.passes hl (hl.nextTable ht pageIndex_lt hn) h⟩

theorem Extends.walk (hl : Layout m kind) (hp4 : kind p4 = .table 4) (hw : walk m p4 page = .ok p1) :
    Memory.walk m' p4 page = .ok p1 :=
  passes_iff_walk.1 (he.passes hl hp4 (passes_iff_walk.2 hw))

end Extends

/-! ### Trees of tables -/

/-- The tables that are reached from `p4`, by level. -/
inductive TableOf (m : PhysMem) (p4 : ℕ) : ℕ → ℕ → Prop
  | root : TableOf m p4 4 p4
  | next {level t i f : ℕ} : TableOf m p4 (level + 2) t → i < 512 → nextTable (m.words t i) = .ok f →
      TableOf m p4 (level + 1) f

/-- No table is reached through two entries. -/
structure Tree (m : PhysMem) (p4 : ℕ) : Prop where
  unique : ∀ {level t t' i i' f : ℕ}, TableOf m p4 (level + 2) t → TableOf m p4 (level + 2) t' → i < 512 → i' < 512 →
    nextTable (m.words t i) = .ok f → nextTable (m.words t' i') = .ok f → t = t' ∧ i = i'

/-- The only new step is the one to `next`, a frame that was free and is an empty table now. -/
def Sprouts (m : PhysMem) (kind : ℕ → Kind) (t i next : ℕ) (m' : PhysMem) : Prop :=
  ∀ level g j f, kind g = .table (level + 2) → j < 512 → nextTable (m'.words g j) = .ok f →
    nextTable (m.words g j) = .ok f ∨ (g = t ∧ j = i) ∧ f = next ∧ m.isUsed next = false ∧ ∀ j, m'.words next j = 0#64

section Tree

variable {m m' : PhysMem} {kind : ℕ → Kind} {p4 t i next : ℕ}
variable {f : ℕ}

theorem TableOf.kind_eq (h : TableOf m p4 level f) (hl : Layout m kind) (hp4 : kind p4 = .table 4) : kind f = .table level := by
  induction h with
  | root => exact hp4
  | next _ hi hn ih => exact hl.nextTable ih hi hn

theorem TableOf.mono (h : TableOf m p4 level f) (he : Extends m kind m') (hl : Layout m kind)
    (hp4 : kind p4 = .table 4) : TableOf m' p4 level f := by
  induction h with
  | root => exact .root
  | next ht hi hn ih => exact ih.next hi (he.nextTable (ht.kind_eq hl hp4) hi hn)

theorem Sprouts.tableOf (h : Sprouts m kind t i next m') (hl : Layout m kind) (hp4 : kind p4 = .table 4) {l : ℕ}
    (hf : TableOf m' p4 l f) : TableOf m p4 l f ∨ f = next ∧ m.isUsed next = false ∧ ∀ j, m'.words next j = 0#64 := by
  induction hf with
  | root => exact .inl .root
  | @next l g j f _ hj hn ih =>
    rcases ih with hg | ⟨rfl, hfree, hzero⟩
    · rcases h l g j f (hg.kind_eq hl hp4) hj hn with hn' | ⟨-, hnew⟩
      · exact .inl (hg.next hj hn')
      · exact .inr hnew
    · rw [hzero j] at hn
      cases hn

theorem Tree.sprouts (h : Tree m p4) (hs : Sprouts m kind t i next m') (hl : Layout m kind) (hp4 : kind p4 = .table 4) :
    Tree m' p4 := by
  -- a fresh table has no entries
  have hold : ∀ {l g j f : ℕ}, TableOf m' p4 (l + 2) g → nextTable (m'.words g j) = .ok f → TableOf m p4 (l + 2) g := by
    intro l g j f hg hn
    rcases hs.tableOf hl hp4 hg with hg | ⟨rfl, -, hzero⟩
    · exact hg
    · rw [hzero] at hn
      cases hn
  -- an entry that was there leads to a frame that was in use
  have hused : ∀ {l g j f : ℕ}, TableOf m p4 (l + 2) g → j < 512 → nextTable (m.words g j) = .ok f →
      m.isUsed f = true := fun hg hj hn =>
    hl.isUsed (hl.nextTable (hg.kind_eq hl hp4) hj hn)
  refine ⟨fun {l g g' j j' f} hg hg' hj hj' hn hn' => ?_⟩
  have hg₀ := hold hg hn
  have hg₀' := hold hg' hn'
  rcases hs l g j f (hg₀.kind_eq hl hp4) hj hn with hn₀ | ⟨⟨rfl, rfl⟩, rfl, hfree, -⟩
  · rcases hs l g' j' f (hg₀'.kind_eq hl hp4) hj' hn' with hn₀' | ⟨-, rfl, hfree, -⟩
    · exact h.unique hg₀ hg₀' hj hj' hn₀ hn₀'
    · cases (hused hg₀ hj hn₀).symm.trans hfree
  · rcases hs l g' j' f (hg₀'.kind_eq hl hp4) hj' hn' with hn₀' | ⟨⟨rfl, rfl⟩, -⟩
    · cases (hused hg₀' hj' hn₀').symm.trans hfree
    · exact ⟨rfl, rfl⟩

theorem Tree.mono (h : Tree m p4) (hl : Layout m kind) (hp4 : kind p4 = .table 4)
    (hsub : ∀ level g j f, kind g = .table (level + 2) → j < 512 → nextTable (m'.words g j) = .ok f →
      nextTable (m.words g j) = .ok f) : Tree m' p4 :=
  h.sprouts (fun l g j f hg hj hn => .inl (hsub l g j f hg hj hn) : Sprouts m kind 0 0 0 m') hl hp4

theorem Tree.congr (h : Tree m p4) (hl : Layout m kind) (hp4 : kind p4 = .table 4)
    (hw : ∀ t level, kind t = .table (level + 2) → m'.words t = m.words t) : Tree m' p4 :=
  h.mono hl hp4 fun l g j f hg _ hn => by rwa [hw g l hg] at hn

end Tree

/-! ### Growing -/

/-- What the mapper does above the leaves. -/
structure Grows (m : PhysMem) (kind : ℕ → Kind) (m' : PhysMem) (kind' : ℕ → Kind) : Prop where
  used : ∀ f, m.isUsed f = true → m'.isUsed f = true
  kinds : ∀ f, m.isUsed f = true → kind' f = kind f
  words : ∀ f, m.isUsed f = true → (∀ level, kind f ≠ .table (level + 2)) → m'.words f = m.words f
  entry : Extends m kind m'
  news : ∀ t level i, kind' t = .table (level + 2) → i < 512 → m'.words t i ≠ 0#64 →
    (m.isUsed t = true → m.words t i = 0#64) → m.isUsed (entryFrame (m'.words t i)) = false
  refcount : m'.refcount = m.refcount
  tree : ∀ p4, kind p4 = .table 4 → Tree m p4 → Tree m' p4

section Grows

variable {m m' m'' : PhysMem} {kind kind' kind'' : ℕ → Kind}
variable {f : ℕ}

theorem Grows.refl (hl : Layout m kind) : Grows m kind m kind :=
  ⟨fun _ h => h, fun _ _ => rfl, fun _ _ _ => rfl, fun _ _ _ _ _ _ => Gains.refl _,
    fun t level i ht _ hne hz => absurd (hz (hl.isUsed ht)) hne, rfl, fun _ _ h => h⟩

section

variable (h : Grows m kind m' kind')
include h

theorem Grows.kind_eq (hl : Layout m kind) {k : Kind} (hf : kind f = k)
    (hk : k ≠ .other := by simp) : kind' f = k := by
  rw [h.kinds f (hl.isUsed hf hk), hf]

theorem Grows.trans (hl : Layout m kind) (h' : Grows m' kind' m'' kind'') :
    Grows m kind m'' kind'' := by
  have hfree : ∀ f, m'.isUsed f = false → m.isUsed f = false := fun f hf => by
    by_contra hused
    cases (h.used f (by simpa using hused)).symm.trans hf
  refine ⟨fun f hf => h'.used f (h.used f hf), fun f hf => (h'.kinds f (h.used f hf)).trans (h.kinds f hf),
    fun f hf hk => ?_, h.entry.trans hl (fun _ _ ht => h.kind_eq hl ht) h'.entry, fun t level i ht hi hne hz => ?_,
    h'.refcount.trans h.refcount, fun p4 hk ht => h'.tree p4 (h.kind_eq hl hk) (h.tree p4 hk ht)⟩
  · have hk' : ∀ level, kind' f ≠ .table (level + 2) := fun level => by rw [h.kinds f hf]; exact hk level
    rw [h'.words f (h.used f hf) hk', h.words f hf hk]
  · -- the entry came in the second half, or in the first
    by_cases hmid : m'.isUsed t = true ∧ m'.words t i ≠ 0#64
    · have ht' : kind' t = .table (level + 2) := (h'.kinds t hmid.1).symm.trans ht
      rw [(h'.entry t level i ht' hi hmid.2).frame]
      exact h.news t level i ht' hi hmid.2 hz
    · exact hfree _ (h'.news t level i ht hi hne fun hused => by
        by_contra hne'
        exact hmid ⟨hused, hne'⟩)

theorem Grows.words_eq (hl : Layout m kind)
    (hf : kind f = .table 1 ∨ kind f = .data) : m'.words f = m.words f := by
  have hne : kind f ≠ .other := by rcases hf with hf | hf <;> rw [hf] <;> simp
  refine h.words f (hl.used f hne) fun level => ?_
  rcases hf with hf | hf <;> rw [hf] <;> simp

end

end Grows

/-! ### Taking a frame -/

/-- No frame can be taken. -/
def Exhausted (m : PhysMem) : Prop := m.frames.allocateFrame.1 = none
deriving Decidable

theorem Exhausted.available (h : Exhausted m) : m.frames.available = 0 :=
  BitmapFrameAllocator.available_of_none (Prod.ext h rfl)

/-- The frame `f` was free, and is taken and cleared. -/
structure Allocates (m : PhysMem) (f : ℕ) (m' : PhysMem) : Prop where
  available : m.frames.available = m'.frames.available + 1
  fresh : m.isUsed f = false
  lt : f < IDENTITY_FRAMES
  words : ∀ g i, m'.words g i = if g = f then 0#64 else m.words g i
  used : ∀ g, m'.isUsed g = true ↔ g = f ∨ m.isUsed g = true
  refcount : m'.refcount = m.refcount

theorem allocateFrame_post (m : PhysMem) : (allocateFrame (ε := ε) m).Post
    (fun o m' => match o with
      | some f => Allocates m f m'
      | none => m' = m ∧ Exhausted m) (fun _ _ => False) := by
  unfold allocateFrame
  cases ha : m.frames.allocateFrame with
  | mk o a =>
    cases o with
    | none =>
      obtain ⟨rfl, -⟩ := BitmapFrameAllocator.allocateFrame_none ha
      exact ⟨rfl, congrArg Prod.fst ha⟩
    | some f =>
      obtain ⟨⟨-, -, hclear, -⟩, rfl⟩ := BitmapFrameAllocator.allocateFrame_some ha
      by_cases hf : f < IDENTITY_FRAMES
      · simp only [hf]
        exact ⟨BitmapFrameAllocator.available_of_some ha, hclear, hf, fun g i => rfl, fun g => by simp [PhysMem.isUsed, PhysMem.zero, BitmapFrameAllocator.isUsed], rfl⟩
      · simp only [hf]
        trivial

theorem PhysMem.zero_eq (h : ∀ i, m.words f i = 0#64) : m.zero f = m := by
  have hw : (m.zero f).words = m.words := by
    funext g i
    by_cases hg : g = f
    · simp [PhysMem.zero, hg, h]
    · simp [PhysMem.zero, hg]
  simp only [PhysMem.zero] at hw ⊢
  rw [hw]

theorem PhysMem.ne_of_used {g : ℕ} (hf : m.isUsed f = false) (hg : m.isUsed g = true) : g ≠ f := by
  rintro rfl
  cases hf.symm.trans hg

theorem Allocates.ne_of_used (h : Allocates m f m') {g : ℕ} (hg : m.isUsed g = true) : g ≠ f :=
  PhysMem.ne_of_used h.fresh hg

theorem Allocates.left (h : Allocates m f m') : ¬ Exhausted m := fun hnone => by
  have hzero := hnone.available
  cases h.available.symm.trans hzero

theorem Allocates.zero (h : Allocates m f m') (i : ℕ) : m'.words f i = 0#64 := by rw [h.words, if_pos rfl]

theorem allocZeroedFrame_post (m : PhysMem) : (allocZeroedFrame m).Post (fun f m' => Allocates m f m')
    (fun _ m' => m' = m ∧ Exhausted m) := by
  have halloc : (allocFrame m).Post (fun f m' => Allocates m f m') (fun _ m' => m' = m ∧ Exhausted m) := by
    refine post_bind ((allocateFrame_post m).imp_err (fun _ _ h => h.elim)) fun o m' h => ?_
    cases o with
    | none => exact h
    | some f => exact h
  refine post_bind halloc fun f m' h => ?_
  show Allocates m f (m'.zero f)
  rw [PhysMem.zero_eq h.zero]
  exact h

section Allocates

variable {m m' : PhysMem} {kind : ℕ → Kind} {f : ℕ}

theorem Allocates.kind_eq_other (h : Allocates m f m') (hl : Layout m kind) : kind f = .other := by
  by_contra hne
  have := hl.used f hne
  rw [h.fresh] at this
  cases this

theorem Allocates.words_of_table (h : Allocates m f m') (hl : Layout m kind) (ht : kind t = .table level) :
    m'.words t = m.words t := by
  funext i
  rw [h.words, if_neg (h.ne_of_used (hl.isUsed ht))]

theorem Allocates.grows (h : Allocates m f m') (hl : Layout m kind) (k : Kind) :
    Grows m kind m' (Function.update kind f k) := by
  refine ⟨fun g hg => (h.used g).mpr (.inr hg), fun g hg => Function.update_of_ne (h.ne_of_used hg) _ _,
    fun g hg _ => ?_, fun g level i hk _ _ => ?_, fun t level i ht _ hw hz => ?_, h.refcount,
    fun p4 hk ht => ht.congr hl hk fun g level hg => h.words_of_table hl hg⟩
  · funext i
    rw [h.words, if_neg (h.ne_of_used hg)]
  · rw [h.words_of_table hl hk]
    exact Gains.refl _
  · rw [h.words] at hw
    split_ifs at hw with htf
    · exact absurd rfl hw
    · rw [Function.update_of_ne htf] at ht
      exact absurd (hz (hl.isUsed ht)) hw

theorem Leads.update {k : Kind} (h : Leads kind level e) (hf : kind f = .other) : Leads (Function.update kind f k) level e := by
  refine ⟨h.present, fun hh => ?_, h.huge⟩
  rw [Function.update_of_ne (ne_of_kind (h.next hh) hf), h.next hh]

theorem Allocates.layout (h : Allocates m f m') (hl : Layout m kind) (k : Kind) : Layout m' (Function.update kind f k) := by
  have hother := h.kind_eq_other hl
  refine ⟨fun g hg => ?_, fun t level i ht hi hne => ?_⟩
  · by_cases hgf : g = f
    · exact (h.used g).mpr (.inl hgf)
    · rw [update_of_ne hgf] at hg
      exact (h.used g).mpr (.inr (hl.used g hg))
  · rw [h.words] at hne ⊢
    by_cases htf : t = f
    · simp [htf] at hne
    · rw [if_neg htf] at hne ⊢
      rw [update_of_ne htf] at ht
      exact (hl.entry t level i ht hi hne).update hother

end Allocates

/-! ### Setting an entry -/

@[simp] theorem PhysMem.write_words (m : PhysMem) (t i : ℕ) (w : Word) (f j : ℕ) :
    (m.write t i w).words f j = if f = t ∧ j = i then w else m.words f j := rfl

theorem PhysMem.write_words_of_ne {w : Word} (h : f ≠ t) : (m.write t i w).words f = m.words f := by
  funext j
  simp [h]

theorem PhysMem.write_self (m : PhysMem) (t i : ℕ) : m.write t i (m.words t i) = m := by
  have hw : (m.write t i (m.words t i)).words = m.words := by
    funext f j
    rw [write_words]
    split_ifs with h
    · rw [h.1, h.2]
    · rfl
  simp only [PhysMem.write] at hw ⊢
  rw [hw]

theorem Gains.leads (h : Gains e e') (hl : Leads kind level e) : Leads kind level e' := by
  refine ⟨h.flags 0 (by decide) hl.present, fun hh => ?_, fun hh => hl.huge (h.huge ▸ hh)⟩
  rw [h.frame]
  exact hl.next (h.huge ▸ hh)

section Write

variable {m : PhysMem} {kind : ℕ → Kind} {t level i : ℕ} {e : Word}

theorem grows_write (hl : Layout m kind) (ht : kind t = .table (level + 2)) (hne : m.words t i ≠ 0#64)
    (hg : Gains (m.words t i) e) : Grows m kind (m.write t i e) kind := by
  refine ⟨fun f hf => hf, fun f _ => rfl, fun f _ hk => ?_, fun f lv j _ _ _ => ?_, fun f lv j hk _ hw hz => ?_, rfl,
    fun p4 hk htree => htree.mono hl hk fun lv g j f hgk hj hn => ?_⟩
  · exact PhysMem.write_words_of_ne fun hft => hk level (hft ▸ ht)
  · by_cases hfj : f = t ∧ j = i
    · obtain ⟨rfl, rfl⟩ := hfj
      simpa using hg
    · rw [PhysMem.write_words, if_neg hfj]
      exact Gains.refl _
  · have hzero := hz (hl.isUsed hk)
    rw [PhysMem.write_words] at hw
    split_ifs at hw with hfj
    · obtain ⟨rfl, rfl⟩ := hfj
      exact absurd hzero hne
    · exact absurd hzero hw
  · rw [PhysMem.write_words] at hn
    split_ifs at hn with hgj
    · obtain ⟨rfl, rfl⟩ := hgj
      obtain ⟨-, hhuge, hframe⟩ := nextTable_eq_ok.mp hn
      exact nextTable_eq_ok.mpr ⟨(hl.entry g lv j hgk hj hne).present, hg.huge ▸ hhuge, hg.frame ▸ hframe⟩
    · exact hn

theorem Allocates.grows_entry {m₁ : PhysMem} (h : Allocates m f m₁) (hl : Layout m kind)
    (ht : kind t = .table (level + 2)) (hz : m.words t i = 0#64) (he : entryFrame e = f) (k : Kind) :
    Grows m kind (m₁.write t i e) (Function.update kind f k) := by
  have hg := h.grows hl k
  have hsprouts : Sprouts m kind t i f (m₁.write t i e) := fun lv g j next hgk hj hn => by
    rw [PhysMem.write_words] at hn
    split_ifs at hn with hgj
    · refine .inr ⟨hgj, (nextTable_eq_ok.mp hn).2.2.symm.trans he, h.fresh, fun j => ?_⟩
      rw [PhysMem.write_words_of_ne (h.ne_of_used (hl.isUsed ht)).symm, h.zero]
    · rw [h.words_of_table hl hgk] at hn
      exact .inl hn
  refine ⟨hg.used, hg.kinds, fun g hused hk => ?_, fun g lv j hk hj hne => ?_, fun g lv j hk hj hw hz' => ?_,
    hg.refcount, fun p4 hk htree => htree.sprouts hsprouts hl hk⟩
  · have hgt : g ≠ t := fun hgt => hk level (hgt ▸ ht)
    rw [PhysMem.write_words_of_ne hgt]
    exact hg.words g hused hk
  · rw [PhysMem.write_words]
    split_ifs with hgj
    · obtain ⟨rfl, rfl⟩ := hgj
      exact absurd hz hne
    · exact hg.entry g lv j hk hj hne
  · rw [PhysMem.write_words] at hw ⊢
    split_ifs at hw ⊢ with hgj
    · rw [he]
      exact h.fresh
    · exact hg.news g lv j hk hj hw hz'

theorem Layout.write (hl : Layout m kind) (ht : kind t = .table (level + 2)) (he : Leads kind (level + 1) e) :
    Layout (m.write t i e) kind := by
  refine ⟨hl.used, fun f lv j hk hj hne => ?_⟩
  by_cases hfj : f = t ∧ j = i
  · obtain ⟨rfl, rfl⟩ := hfj
    have hlv : lv = level := by
      rw [ht] at hk
      injection hk with hk
      omega
    simpa [hlv] using he
  · rw [PhysMem.write_words, if_neg hfj] at hne ⊢
    exact hl.entry f lv j hk hj hne

theorem Layout.write_leaf (hl : Layout m kind) (ht : ∀ level, kind t ≠ .table (level + 2)) : Layout (m.write t i e) kind := by
  refine ⟨hl.used, fun f lv j hk hj hne => ?_⟩
  have hft : f ≠ t := fun h => ht lv (h ▸ hk)
  rw [PhysMem.write_words_of_ne hft] at hne ⊢
  exact hl.entry f lv j hk hj hne

end Write

/-! ### The mapper above the leaves -/

/-- The flags of an entry that leads to a table or a page of 4 KiB. -/
structure MapFlags (fl : PageTableFlags) : Prop where
  isFlags : IsFlags fl
  present : fl.getLsbD 0 = true
  huge : fl.getLsbD 7 = false

theorem mapFlags_USER_RW : MapFlags USER_RW := ⟨isFlags_of_and (by decide), by decide, by decide⟩

theorem MapFlags.parent (h : MapFlags fl) : MapFlags (fl &&& USER_RW) :=
  ⟨h.isFlags.and, by rw [BitVec.getLsbD_and, h.present]; decide, by rw [BitVec.getLsbD_and, h.huge]; rfl⟩

theorem nextTable_mkEntry (hf : f < IDENTITY_FRAMES) (h : MapFlags fl) : nextTable (mkEntry f fl) = .ok f := by
  refine nextTable_eq_ok.mpr ⟨?_, ?_, entryFrame_mkEntry (lt_trans hf (by decide)) h.isFlags⟩
  · rw [getLsbD_mkEntry _ _ (by decide), h.present]
  · rw [getLsbD_mkEntry _ _ (by decide), h.huge]

section Create

variable {m : PhysMem} {kind : ℕ → Kind} {t level i : ℕ} {fl : PageTableFlags}

theorem getLsbD_setFlags_or (e : Word) (fl : PageTableFlags) {j : ℕ} (hj : j < 12) :
    (setFlags e (entryFlags e ||| fl)).getLsbD j = (e.getLsbD j || fl.getLsbD j) := by
  rw [getLsbD_setFlags _ _ hj, BitVec.getLsbD_or, getLsbD_entryFlags _ hj]

theorem gains_setFlags_or (e : Word) (hfl : MapFlags fl) : Gains e (setFlags e (entryFlags e ||| fl)) := by
  refine ⟨entryFrame_setFlags ((isFlags_entryFlags e).or hfl.isFlags), ?_, fun j hj hb => ?_⟩
  · rw [getLsbD_setFlags_or e fl (by decide), hfl.huge, Bool.or_false]
  · rw [getLsbD_setFlags_or e fl hj, hb, Bool.true_or]

theorem leads_of_nextTable (hn : nextTable e = .ok f) (hk : kind f = .table level) : Leads kind level e := by
  obtain ⟨hp, hh, rfl⟩ := nextTable_eq_ok.mp hn
  refine ⟨hp, fun _ => hk, fun h => ?_⟩
  cases hh.symm.trans h

theorem leads_mkEntry (hf : f < IDENTITY_FRAMES) (hfl : MapFlags fl)
    (hk : kind f = .table level) : Leads kind level (mkEntry f fl) :=
  leads_of_nextTable (nextTable_mkEntry hf hfl) hk

/-- The entry leads to `next` with the flags `fl`, and perhaps more. -/
structure Carries (fl : PageTableFlags) (next : ℕ) (e : Word) : Prop where
  next : nextTable e = .ok next
  flags : ∀ j < 12, fl.getLsbD j = true → e.getLsbD j = true

/-- `create_next_table` gives `next`: the table that is there, or a new one. -/
inductive Fills (m : PhysMem) (t i : ℕ) (fl : PageTableFlags) (next : ℕ) : PhysMem → Prop
  | old {e : Word} : m.words t i ≠ 0#64 → Gains (m.words t i) e → Carries fl next e → Fills m t i fl next (m.write t i e)
  | new {e : Word} {m₁ : PhysMem} : m.words t i = 0#64 → Allocates m next m₁ → t ≠ next → Carries fl next e →
      Fills m t i fl next (m₁.write t i e)

/-- `create_next_table` fails: no frame is free, or a huge page is in the way. -/
inductive Stuck (m : PhysMem) (t i : ℕ) : PhysMem → Prop
  | exhausted : m.words t i = 0#64 → Exhausted m → Stuck m t i m
  | huge {e : Word} : m.words t i ≠ 0#64 → Gains (m.words t i) e → (∀ next, nextTable e ≠ .ok next) →
      Stuck m t i (m.write t i e)

theorem insertEntry_post (hfl : MapFlags fl) : (insertEntry t i fl m).Post
    (fun created m' =>
      (created = false ∧ m.words t i ≠ 0#64 ∧ ∃ e, Gains (m.words t i) e ∧
        (∀ j < 12, fl.getLsbD j = true → e.getLsbD j = true) ∧ m' = m.write t i e) ∨
      created = true ∧ m.words t i = 0#64 ∧ ∃ f m₁, Allocates m f m₁ ∧ m' = m₁.write t i (mkEntry f fl))
    (fun _ m' => m' = m ∧ m.words t i = 0#64 ∧ Exhausted m) := by
  rw [insertEntry, get_bind]
  by_cases hz : m.words t i = 0#64
  · simp only [hz]
    refine post_bind ((allocateFrame_post m).never) fun o m₁ h => ?_
    cases o with
    | none => exact ⟨h.1, trivial, h.2⟩
    | some f => exact .inr ⟨rfl, trivial, f, m₁, h, rfl⟩
  · simp only [hz]
    by_cases hc : (fl != 0#64 && !hasFlags (entryFlags (m.words t i)) fl) = true
    · -- some flags are missing
      simp only [hc]
      refine .inl ⟨rfl, hz, _, gains_setFlags_or (m.words t i) hfl, fun j hj hb => ?_, rfl⟩
      rw [getLsbD_setFlags_or _ _ hj, hb, Bool.or_true]
    · simp only [hc]
      have hhas : hasFlags (entryFlags (m.words t i)) fl = true := by
        have hne : fl ≠ 0#64 := ne_zero_of_getLsbD hfl.present
        simpa [hne] using hc
      refine .inl ⟨rfl, hz, m.words t i, Gains.refl _, fun j hj hb => ?_, (m.write_self t i).symm⟩
      rw [← getLsbD_entryFlags _ hj]
      exact hasFlags_iff.mp hhas j (by omega) hb

theorem createNextTable_post (ht : m.isUsed t = true) (hfl : MapFlags fl) : (createNextTable t i fl m).Post
    (fun next m' => Fills m t i fl next m') (fun _ m' => Stuck m t i m') := by
  refine post_bind ((insertEntry_post hfl).imp_err ?_) ?_
  · rintro _ _ ⟨rfl, hz, hex⟩
    exact .exhausted hz hex
  rintro created _ (⟨rfl, hne, e, hg, hflags, rfl⟩ | ⟨rfl, hz, f, m₁, halloc, rfl⟩)
  · rw [get_bind, PhysMem.write_words, if_pos ⟨rfl, rfl⟩]
    cases hn : nextTable e with
    | error err =>
      cases err with
      | notMapped => trivial
      | mappedToHugePage => exact .huge hne hg (by simp [hn])
    | ok next => exact .old hne hg ⟨hn, hflags⟩
  · have hft := halloc.ne_of_used ht
    have hn := nextTable_mkEntry halloc.lt hfl
    rw [get_bind, PhysMem.write_words, if_pos ⟨rfl, rfl⟩, hn]
    simp only [modify_bind]
    rw [PhysMem.zero_eq fun j => by rw [PhysMem.write_words_of_ne hft.symm, halloc.zero]]
    exact .new hz halloc hft ⟨hn, fun j hj hb => by rw [getLsbD_mkEntry _ _ hj, hb]⟩

end Create

section Fills

variable {m m' : PhysMem} {kind : ℕ → Kind} {t level i next : ℕ} {fl : PageTableFlags}

section

variable (h : Fills m t i fl next m')
include h

theorem Fills.carries : Carries fl next (m'.words t i) := by
  cases h with
  | old _ _ hc => simpa using hc
  | new _ _ _ hc => simpa using hc

theorem Fills.gains (hne : m.words t i ≠ 0#64) : Gains (m.words t i) (m'.words t i) := by
  cases h with
  | old _ hg _ => simpa using hg
  | new hz _ _ _ => exact absurd hz hne

theorem Fills.zero (hz : m.words t i = 0#64) (j : ℕ) : m'.words next j = 0#64 := by
  cases h with
  | old hne _ _ => exact absurd hz hne
  | new _ ha hne _ => rw [PhysMem.write_words_of_ne hne.symm, ha.zero]

theorem Fills.words {g j : ℕ} (hg : m.isUsed g = true) (hgj : ¬ (g = t ∧ j = i)) :
    m'.words g j = m.words g j := by
  cases h with
  | old _ _ _ => rw [PhysMem.write_words, if_neg hgj]
  | new _ ha _ _ =>
    rw [PhysMem.write_words, if_neg hgj, ha.words, if_neg (ha.ne_of_used hg)]

theorem Fills.grows (hl : Layout m kind) (ht : kind t = .table (level + 2))
    (hi : i < 512) : ∃ kind', Grows m kind m' kind' ∧ Layout m' kind' := by
  cases h with
  | old hne hg _ => exact ⟨kind, grows_write hl ht hne hg, hl.write ht (hg.leads (hl.entry t level i ht hi hne))⟩
  | new hz ha _ hc =>
    have hframe := (nextTable_eq_ok.mp hc.next).2.2
    have hleads := leads_of_nextTable hc.next (Function.update_self next (Kind.table (level + 1)) kind)
    exact ⟨_, ha.grows_entry hl ht hz hframe (.table (level + 1)),
      (ha.layout hl _).write ((ha.grows hl _).kind_eq hl ht) hleads⟩

end

theorem Stuck.nextTable_ne (h : Stuck m t i m') : nextTable (m.words t i) ≠ .ok next := fun hn => by
  cases h with
  | exhausted hz _ => exact ne_zero_of_getLsbD (nextTable_eq_ok.mp hn).1 hz
  | huge _ hg hno => exact hno next (hg.nextTable hn)

end Fills

/-! ### Mapping a page -/

/-- `map_to` has come down to a table, making what was missing. -/
inductive Paves (p4 page : ℕ) (fl : PageTableFlags) (m : PhysMem) : ℕ → ℕ → PhysMem → Prop
  | root : Paves p4 page fl m 4 p4 m
  | next {level t next : ℕ} {m₁ m₂ : PhysMem} : Paves p4 page fl m (level + 2) t m₁ →
      Fills m₁ t (pageIndex (level + 2) page) fl next m₂ → Paves p4 page fl m (level + 1) next m₂

/-- `map_to` fails at a table. -/
inductive Blocked (m : PhysMem) (page : ℕ) : ℕ → ℕ → PhysMem → Prop
  | leaf {t : ℕ} : m.words t (pageIndex 1 page) ≠ 0#64 → Blocked m page 1 t m
  | table {level t : ℕ} {m' : PhysMem} : Stuck m t (pageIndex (level + 2) page) m' → Blocked m page (level + 2) t m'

/-- A walk through entries that have the flag `j`. -/
def FlagWalk (j : ℕ) (m : PhysMem) (p4 page p1 : ℕ) : Prop :=
  ∃ p3 p2, (nextTable (m.words p4 (pageIndex 4 page)) = .ok p3 ∧
      (m.words p4 (pageIndex 4 page)).getLsbD j = true) ∧
    (nextTable (m.words p3 (pageIndex 3 page)) = .ok p2 ∧ (m.words p3 (pageIndex 3 page)).getLsbD j = true) ∧
    nextTable (m.words p2 (pageIndex 2 page)) = .ok p1 ∧ (m.words p2 (pageIndex 2 page)).getLsbD j = true

theorem FlagWalk.walk {j : ℕ} (h : FlagWalk j m p4 page p1) : walk m p4 page = .ok p1 := by
  obtain ⟨p3, p2, ⟨h3, -⟩, ⟨h2, -⟩, h1, -⟩ := h
  exact walk_eq_ok.mpr ⟨p3, p2, h3, h2, h1⟩

section MapTo

variable {m m' m₁ : PhysMem} {kind kind' : ℕ → Kind} {p4 page frame p1 t level i next : ℕ} {fl : PageTableFlags}
variable {j : ℕ}

theorem Extends.flag (he : Extends m kind m') (ht : kind t = .table (level + 2)) (hi : i < 512) (hj : j < 12)
    (hn : Memory.nextTable (m.words t i) = .ok next ∧ (m.words t i).getLsbD j = true) :
    Memory.nextTable (m'.words t i) = .ok next ∧ (m'.words t i).getLsbD j = true :=
  ⟨he.nextTable ht hi hn.1, (he _ _ _ ht hi (ne_zero_of_getLsbD hn.2)).flags j hj hn.2⟩

theorem Extends.flagWalk (he : Extends m kind m') (hl : Layout m kind) (hp4 : kind p4 = .table 4) (hj : j < 12)
    (hw : FlagWalk j m p4 page p1) : FlagWalk j m' p4 page p1 := by
  obtain ⟨p3, p2, h3, h2, h1⟩ := hw
  have k3 := hl.nextTable hp4 pageIndex_lt h3.1
  have k2 := hl.nextTable k3 pageIndex_lt h2.1
  exact ⟨p3, p2, he.flag hp4 pageIndex_lt hj h3, he.flag k3 pageIndex_lt hj h2, he.flag k2 pageIndex_lt hj h1⟩

theorem Paves.grows (h : Paves p4 page fl m level t m₁) (hl : Layout m kind) (hp4 : kind p4 = .table 4) :
    ∃ kind₁, Grows m kind m₁ kind₁ ∧ Layout m₁ kind₁ ∧ TableOf m₁ p4 level t ∧ kind₁ t = .table level := by
  induction h with
  | root => exact ⟨kind, Grows.refl hl, hl, .root, hp4⟩
  | next _ hf ih =>
    obtain ⟨kind₁, hg₁, hl₁, htable, hk⟩ := ih
    have hp4₁ := hg₁.kind_eq hl hp4
    obtain ⟨kind₂, hg₂, hl₂⟩ := hf.grows hl₁ hk pageIndex_lt
    have hnext := (htable.mono hg₂.entry hl₁ hp4₁).next pageIndex_lt hf.carries.next
    exact ⟨kind₂, hg₁.trans hl hg₂, hl₂, hnext, hnext.kind_eq hl₂ (hg₂.kind_eq hl₁ hp4₁)⟩

theorem Paves.level_le (h : Paves p4 page fl m level t m₁) : level ≤ 4 := by
  induction h with
  | root => exact le_rfl
  | next _ _ ih => omega

theorem Paves.prev (h : Paves p4 page fl m (level + 1) t m₁) (hlt : level < 3) : ∃ s m₀,
    Paves p4 page fl m (level + 2) s m₀ ∧ Fills m₀ s (pageIndex (level + 2) page) fl t m₁ := by
  cases h with
  | root => omega
  | next h hf => exact ⟨_, _, h, hf⟩

theorem Paves.eq_root (h : Paves p4 page fl m 4 t m₁) : t = p4 ∧ m₁ = m := by
  cases h with
  | root => exact ⟨rfl, rfl⟩
  | next h _ => exact absurd h.level_le (by decide)

theorem Paves.flagWalk (h : Paves p4 page fl m 1 p1 m₁) (hl : Layout m kind) (hp4 : kind p4 = .table 4)
    (hj : j < 12) (hb : fl.getLsbD j = true) : FlagWalk j m₁ p4 page p1 := by
  obtain ⟨p2, m₂, h₂, f₂⟩ := h.prev (by decide)
  obtain ⟨p3, m₃, h₃, f₃⟩ := h₂.prev (by decide)
  obtain ⟨_, _, h₄, f₄⟩ := h₃.prev (by decide)
  obtain ⟨rfl, rfl⟩ := h₄.eq_root
  obtain ⟨kind₃, hg₃, hl₃⟩ := f₄.grows hl hp4 pageIndex_lt
  have k4 := hg₃.kind_eq hl hp4
  have k3 := hl₃.nextTable k4 pageIndex_lt f₄.carries.next
  obtain ⟨kind₂, hg₂, hl₂⟩ := f₃.grows hl₃ k3 pageIndex_lt
  have k3₂ := hg₂.kind_eq hl₃ k3
  obtain ⟨kind₁, hg₁, -⟩ := f₂.grows hl₂ (hl₂.nextTable k3₂ pageIndex_lt f₃.carries.next) pageIndex_lt
  exact ⟨p3, p2, (hg₂.trans hl₃ hg₁).entry.flag k4 pageIndex_lt hj ⟨f₄.carries.next, f₄.carries.flags j hj hb⟩,
    hg₁.entry.flag k3₂ pageIndex_lt hj ⟨f₃.carries.next, f₃.carries.flags j hj hb⟩, f₂.carries.next, f₂.carries.flags j hj hb⟩

theorem Paves.passes (h : Paves p4 page fl m level t m₁) (hl : Layout m kind) (hp4 : kind p4 = .table 4)
    (hw : walk m p4 page = .ok p1) : Passes m₁ page p1 level t := by
  induction h with
  | root => exact passes_iff_walk.2 hw
  | next h hf ih =>
    obtain ⟨kind₁, -, hl₁, -, hk⟩ := h.grows hl hp4
    obtain ⟨kind₂, hg, -⟩ := hf.grows hl₁ hk pageIndex_lt
    obtain ⟨next', hn, hrest⟩ := hg.entry.passes hl₁ hk ih
    obtain rfl := Except.ok.inj (hn.symm.trans hf.carries.next)
    exact hrest

theorem Blocked.grows (h : Blocked m page level t m') (hl : Layout m kind) (hk : kind t = .table level) :
    Grows m kind m' kind ∧ Layout m' kind := by
  cases h with
  | leaf _ => exact ⟨Grows.refl hl, hl⟩
  | table h =>
    cases h with
    | exhausted _ _ => exact ⟨Grows.refl hl, hl⟩
    | huge hne hg _ => exact ⟨grows_write hl hk hne hg, hl.write hk (hg.leads (hl.entry _ _ _ hk pageIndex_lt hne))⟩

theorem mapTo_paves (hl : Layout m kind) (hp4 : kind p4 = .table 4) (hfl : MapFlags (fl &&& USER_RW)) :
    (mapTo p4 page frame fl m).Post
      (fun _ m' => ∃ m₁ p1, Paves p4 page (fl &&& USER_RW) m 1 p1 m₁ ∧ m₁.words p1 (pageIndex 1 page) = 0#64 ∧
        m' = m₁.write p1 (pageIndex 1 page) (mkEntry frame fl))
      (fun _ m' => ∃ level t m₁, Paves p4 page (fl &&& USER_RW) m level t m₁ ∧ Blocked m₁ page level t m') := by
  have hstep : ∀ {level t m₁}, Paves p4 page (fl &&& USER_RW) m (level + 2) t m₁ →
      (createNextTable t (pageIndex (level + 2) page) (fl &&& USER_RW) m₁).Post
        (fun next m₂ => Paves p4 page (fl &&& USER_RW) m (level + 1) next m₂)
        (fun _ m' => ∃ level t m₁, Paves p4 page (fl &&& USER_RW) m level t m₁ ∧ Blocked m₁ page level t m') := fun h => by
    obtain ⟨kind₁, -, hl₁, -, hk⟩ := h.grows hl hp4
    refine (createNextTable_post (hl₁.isUsed hk) hfl).imp (fun _ _ hf => h.next hf) fun _ _ hs => ?_
    exact ⟨_, _, _, h, .table hs⟩
  refine post_bind (hstep .root) fun p3 m₁ h₁ => ?_
  refine post_bind (hstep h₁) fun p2 m₂ h₂ => ?_
  refine post_bind (hstep h₂) fun p1 m₃ h₃ => ?_
  rw [get_bind]
  split_ifs with hz
  · exact ⟨m₃, p1, h₃, hz, rfl⟩
  · exact ⟨1, p1, m₃, h₃, .leaf hz⟩

theorem mapTo_post (hl : Layout m kind) (hp4 : kind p4 = .table 4) (hfl : MapFlags (fl &&& USER_RW)) :
    (mapTo p4 page frame fl m).Post
      (fun _ m' => ∃ m₁ kind' p1, Grows m kind m₁ kind' ∧ Layout m₁ kind' ∧ walk m₁ p4 page = .ok p1 ∧
        (∀ j < 3, fl.getLsbD j = true → FlagWalk j m₁ p4 page p1) ∧ m₁.words p1 (pageIndex 1 page) = 0#64 ∧
        m' = m₁.write p1 (pageIndex 1 page) (mkEntry frame fl))
      (fun _ m' => ∃ kind', Grows m kind m' kind' ∧ Layout m' kind' ∧
        ∀ p1, walk m p4 page = .ok p1 → m.words p1 (pageIndex 1 page) ≠ 0#64) := by
  -- the parents get the first three flags
  have hparent : ∀ j < 3, fl.getLsbD j = true → (fl &&& USER_RW).getLsbD j = true := fun j hj h => by
    have huser : ∀ j < 3, USER_RW.getLsbD j = true := by decide
    rw [BitVec.getLsbD_and, h, huser j hj]
    rfl
  refine (mapTo_paves hl hp4 hfl).imp ?_ ?_
  · rintro _ _ ⟨m₁, p1, hp, hz, rfl⟩
    obtain ⟨kind₁, hg, hl₁, -⟩ := hp.grows hl hp4
    exact ⟨m₁, kind₁, p1, hg, hl₁, (hp.flagWalk hl hp4 (by decide) hfl.present).walk,
      fun j hj h => hp.flagWalk hl hp4 (by omega) (hparent j hj h), hz, rfl⟩
  · rintro _ m' ⟨level, t, m₁, hp, hb⟩
    obtain ⟨kind₁, hg, hl₁, -, hk⟩ := hp.grows hl hp4
    obtain ⟨hg', hl'⟩ := hb.grows hl₁ hk
    refine ⟨kind₁, hg.trans hl hg', hl', fun p1 hw => ?_⟩
    have hpass := hp.passes hl hp4 hw
    cases hb with
    | leaf hne =>
      obtain rfl : t = p1 := hpass
      rwa [hg.words_eq hl (.inl (hl.walk hp4 hw))] at hne
    | table hs =>
      obtain ⟨next, hn, -⟩ := hpass
      exact absurd hn hs.nextTable_ne

end MapTo

/-! ### The leaf of a page -/

theorem updateFlags_post (m : PhysMem) (p4 page : ℕ) (fl : PageTableFlags) : (updateFlags p4 page fl m).Post
    (fun _ m' => ∃ p1, walk m p4 page = .ok p1 ∧ m.words p1 (pageIndex 1 page) ≠ 0#64 ∧
      m' = m.write p1 (pageIndex 1 page) (setFlags (m.words p1 (pageIndex 1 page)) fl))
    (fun _ m' => m' = m ∧ ∀ p1, walk m p4 page = .ok p1 → m.words p1 (pageIndex 1 page) = 0#64) := by
  rw [updateFlags, get_bind]
  cases hw : walk m p4 page with
  | error e => exact ⟨rfl, fun p1 h => by cases h⟩
  | ok p1 =>
    by_cases hz : m.words p1 (pageIndex 1 page) = 0#64
    · simp only [hz]
      exact ⟨rfl, fun q1 h => by cases h; exact hz⟩
    · simp only [hz]
      exact ⟨p1, rfl, hz, rfl⟩

theorem unmap_post (m : PhysMem) (p4 page : ℕ) : (unmap p4 page m).Post
    (fun f m' => ∃ p1, walk m p4 page = .ok p1 ∧ nextTable (m.words p1 (pageIndex 1 page)) = .ok f ∧
      m' = m.write p1 (pageIndex 1 page) 0#64)
    (fun _ m' => m' = m ∧ ∀ p1 f, walk m p4 page = .ok p1 → nextTable (m.words p1 (pageIndex 1 page)) ≠ .ok f) := by
  rw [unmap, get_bind]
  cases hw : walk m p4 page with
  | error e => exact ⟨rfl, fun p1 f h => by cases h⟩
  | ok p1 =>
    cases hn : nextTable (m.words p1 (pageIndex 1 page)) with
    | error e =>
      simp only [hn]
      refine ⟨rfl, fun q1 f h => ?_⟩
      cases h
      rw [hn]
      simp
    | ok f =>
      simp only [hn]
      exact ⟨p1, rfl, hn, rfl⟩

theorem translate_of_walk (hw : walk m p4 page = .ok p1) (hne : m.words p1 (pageIndex 1 page) ≠ 0#64) : translate (ε := ε) p4
    page m = .ok (.mapped (entryFrame (m.words p1 (pageIndex 1 page))) (entryFlags (m.words p1 (pageIndex 1 page)))) m := by
  obtain ⟨p3, p2, h3, h2, h1⟩ := walk_eq_ok.mp hw
  rw [translate, get_bind]
  simp [h3, h2, h1, hne]

theorem translate_post (m : PhysMem) (p4 page : ℕ) :
    (translate (ε := ε) p4 page m).Post (fun _ m' => m' = m) (fun _ _ => False) := by
  rw [translate, get_bind]
  cases nextTable (m.words p4 (pageIndex 4 page)) with
  | error e => cases e <;> trivial
  | ok p3 =>
    dsimp only
    cases nextTable (m.words p3 (pageIndex 3 page)) with
    | error e => cases e <;> rfl
    | ok p2 =>
      dsimp only
      cases nextTable (m.words p2 (pageIndex 2 page)) with
      | error e => cases e <;> rfl
      | ok p1 =>
        dsimp only
        split_ifs <;> rfl

theorem mmu_of_userWalk (hw : FlagWalk 2 m p4 page p1) (hp : (m.words p1 (pageIndex 1 page)).getLsbD 0 = true) :
    ∃ a, mmu m p4 page = some a ∧ a.frame = entryFrame (m.words p1 (pageIndex 1 page)) ∧
    a.user = (m.words p1 (pageIndex 1 page)).getLsbD 2 := by
  obtain ⟨p3, p2, ⟨h3, u3⟩, ⟨h2, u2⟩, h1, u1⟩ := hw
  obtain ⟨a3, b3, rfl⟩ := nextTable_eq_ok.mp h3
  obtain ⟨a2, b2, rfl⟩ := nextTable_eq_ok.mp h2
  obtain ⟨a1, b1, rfl⟩ := nextTable_eq_ok.mp h1
  refine ⟨_, by simp only [mmu, a3, b3, a2, b2, a1, b1, hp, Bool.not_true, Bool.or_false,
    Bool.false_eq_true, if_false]; rfl, ?_, ?_⟩
  · rfl
  · simp [Access.through, u3, u2, u1]

end RustKernel.Memory
