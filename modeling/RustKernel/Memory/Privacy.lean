import RustKernel.Fs.Elf
import RustKernel.Memory.Boot
import RustKernel.Memory.Roots

/-!
# Is a new address space private?

`new_user` takes the tables active in CR3 as its pattern: it copies the entries of their
level-3 table 0, and the level-4 entries above it, so the new space shares every table below
those. Whether it is private therefore depends on what the active tables map.

`KernelOnly m cr3 p3` is the situation after boot, as long as no device is mapped: the level-4 table has one entry, and every
entry of the level-3 table leads to a level-2 table of 512 kernel huge pages, through which
nothing can be mapped.
-/

namespace RustKernel.Memory

open Lib Exec Fs

variable {m : PhysMem} {kind : ℕ → Kind} {p4 p2 p3 cr3 cr3' : ℕ}

/-! ### Tables that map the kernel only -/

def Sealed (m : PhysMem) (p2 : ℕ) : Prop :=
  ∀ i < 512, (m.words p2 i).getLsbD 0 = true ∧ (m.words p2 i).getLsbD 7 = true

structure KernelOnly (m : PhysMem) (cr3 p3 : ℕ) : Prop where
  low : nextTable (m.words cr3 0) = .ok p3
  high : ∀ i, 0 < i → i < 512 → m.words cr3 i = 0#64
  sealed : ∀ i < 512, m.words p3 i ≠ 0#64 → ∃ p2, nextTable (m.words p3 i) = .ok p2 ∧ Sealed m p2 ∧
    -- none of them accessible to ring 3
    ∀ j < 512, (m.words p2 j).getLsbD 2 = false

/-- A page is open to ring 3 as far as the tables below the level-3 table `p3` are concerned. -/
def userBelow (m : PhysMem) (page p3 : ℕ) : Bool :=
  let e3 := m.words p3 (pageIndex 3 page)
  let e2 := m.words (entryFrame e3) (pageIndex 2 page)
  let e1 := m.words (entryFrame e2) (pageIndex 1 page)
  e3.getLsbD 0 && e3.getLsbD 2 && (e3.getLsbD 7 || e2.getLsbD 0 && e2.getLsbD 2 && (e2.getLsbD 7 || e1.getLsbD 0 && e1.getLsbD 2))

/-- `new_user` would take over a page that is open to ring 3. It opens the level-4 entry 0 itself. -/
def Copied (m : PhysMem) (cr3 page : ℕ) : Prop :=
  let e4 := m.words cr3 (pageIndex 4 page)
  e4.getLsbD 0 = true ∧ (pageIndex 4 page ≠ 0 → e4.getLsbD 2 = true) ∧ userBelow m page (entryFrame e4) = true

theorem exists_mmu_user {page : ℕ} : (∃ a, mmu m p4 page = some a ∧ a.user = true) ↔
    (m.words p4 (pageIndex 4 page)).getLsbD 0 = true ∧ (m.words p4 (pageIndex 4 page)).getLsbD 7 = false ∧
      (m.words p4 (pageIndex 4 page)).getLsbD 2 = true ∧
      userBelow m page (entryFrame (m.words p4 (pageIndex 4 page))) = true := by
  simp only [mmu, userBelow, Access.through]
  generalize m.words p4 (pageIndex 4 page) = e4
  generalize m.words (entryFrame e4) (pageIndex 3 page) = e3
  generalize m.words (entryFrame e3) (pageIndex 2 page) = e2
  split_ifs <;> grind

theorem Sealed.gains {m' : PhysMem} (h : Sealed m p2)
    (hg : ∀ i < 512, m.words p2 i ≠ 0#64 → Gains (m.words p2 i) (m'.words p2 i)) : Sealed m' p2 := fun i hi => by
  obtain ⟨hp, hh⟩ := h i hi
  have hgains := hg i hi (ne_zero_of_getLsbD hp)
  exact ⟨hgains.flags 0 (by decide) hp, hgains.huge.trans hh⟩

theorem Sealed.nextTable_ne (h : Sealed m p2) {page p1 : ℕ} : nextTable (m.words p2 (pageIndex 2 page)) ≠ .ok p1 := by
  intro hn
  cases (h _ pageIndex_lt).2.symm.trans (nextTable_eq_ok.mp hn).2.1

theorem Sealed.evolves {m' : PhysMem} {kind' : ℕ → Kind} (h : Sealed m p2)
    (he : Evolves m kind m' kind') (hk : kind p4 = .table 4) (hlow : LowTable m p4 p2) : Sealed m' p2 := by
  obtain ⟨p3, h3, h2⟩ := hlow
  have k3 := he.source.nextTable hk (by decide) h3
  have k2 := he.source.nextTable k3 (by decide) h2
  exact h.gains fun i hi hne => he.entry p2 0 i k2 hi hne

theorem Sealed.page_ge {page : ℕ} (h : Sealed m p2) (hlow : LowTable m p4 p2)
    (hm : Mapped m p4 page) : IDENTITY_FRAMES ≤ page := by
  by_contra hlt
  obtain ⟨h4, h3⟩ := pageIndex_eq_zero (not_le.mp hlt)
  obtain ⟨p1, g, hw, -⟩ := hm
  obtain ⟨q3, q2, e3, e2, e1⟩ := walk_eq_ok.mp hw
  obtain ⟨p3, l3, l2⟩ := hlow
  rw [h4, l3] at e3
  cases e3
  rw [h3, l2] at e2
  cases e2
  exact h.nextTable_ne e1

section

variable (h : BootTables m p4 p3 p2)
include h

theorem BootTables.kernelOnly : KernelOnly m p4 p3 := by
  obtain ⟨n43, n42, n32⟩ := h.ne
  have hentry : ∀ {f}, f < IDENTITY_FRAMES → nextTable (mkEntry f (PRESENT ||| WRITABLE)) = .ok f := fun hf =>
    nextTable_mkEntry hf ⟨isFlags_of_and (by decide), by decide, by decide⟩
  refine ⟨?_, fun i h0 hi => ?_, fun i hi hne => ?_⟩
  · rw [h.words p4 (.inl rfl) 0 (by decide), setupPageTables, if_pos rfl]
    exact hentry h.lt.1
  · rw [h.words p4 (.inl rfl) i hi, setupPageTables, if_pos rfl, if_neg (by omega)]
  · rw [h.words p3 (.inr (.inl rfl)) i hi, setupPageTables, if_neg n43.symm, if_pos rfl] at hne ⊢
    split_ifs at hne ⊢ with hi0
    · have hhuge : ∀ j < 512, ∀ b < 12, (m.words p2 j).getLsbD b = (PRESENT ||| WRITABLE ||| HUGE_PAGE).getLsbD b := by
        intro j hj b hb
        rw [h.words p2 (.inr (.inr rfl)) j hj, setupPageTables, if_neg n42.symm, if_neg n32.symm, if_pos rfl,
          getLsbD_mkEntry _ _ hb]
      exact ⟨p2, hentry h.lt.2, fun j hj => ⟨hhuge j hj 0 (by decide), hhuge j hj 7 (by decide)⟩,
        fun j hj => hhuge j hj 2 (by decide)⟩
    · exact absurd rfl hne

theorem BootTables.lowEntries :
    nextTable (m.words p4 0) = .ok p3 ∧ nextTable (m.words p3 0) = .ok p2 := by
  refine ⟨h.kernelOnly.low, ?_⟩
  rw [h.words p3 (.inr (.inl rfl)) 0 (by decide), setupPageTables, if_neg h.ne.1.symm, if_pos rfl]
  exact nextTable_mkEntry h.lt.2 ⟨isFlags_of_and (by decide), by decide, by decide⟩

theorem BootTables.lowTable : LowTable m p4 p2 ∧ Sealed m p2 := by
  have hentry := h.lowEntries.2
  obtain ⟨p2', hp2', hsealed, -⟩ := h.kernelOnly.sealed 0 (by decide) (ne_zero_of_getLsbD (nextTable_eq_ok.mp hentry).1)
  obtain rfl : p2 = p2' := Except.ok.inj (hentry.symm.trans hp2')
  exact ⟨⟨p3, h.lowEntries⟩, hsealed⟩

theorem BootTables.tree : Tree m p4 := by
  -- entry 0 is the only one that leads to a table
  have hentry : ∀ {level t i f : ℕ}, TableOf m p4 (level + 2) t → i < 512 → nextTable (m.words t i) = .ok f →
      i = 0 ∧ (level = 2 ∧ t = p4 ∨ level = 1 ∧ t = p3) := by
    intro level t i f ht hi hn
    obtain ⟨hpres, hhuge, -⟩ := nextTable_eq_ok.1 hn
    have hk := ht.kind_eq h.layout bootKinds_p4
    unfold bootKinds at hk
    split_ifs at hk with h4 h3 h2
    · rw [h.words t (.inl h4) i hi, setupPageTables] at hpres
      split_ifs at hpres with hi0
      · injection hk with hk
        exact ⟨hi0, .inl ⟨by omega, h4⟩⟩
      · cases hpres
    · rw [h.words t (.inr (.inl h3)) i hi, setupPageTables] at hpres
      split_ifs at hpres with hi0
      · injection hk with hk
        exact ⟨hi0, .inr ⟨by omega, h3⟩⟩
      · cases hpres
    · rw [h.words t (.inr (.inr h2)) i hi, setupPageTables, if_neg h4, if_neg h3, if_pos h2,
        getLsbD_mkEntry _ _ (by decide)] at hhuge
      exact absurd hhuge (by decide)
  refine ⟨fun {level t t' i i' f} ht ht' hi hi' hn hn' => ?_⟩
  obtain ⟨rfl, hcase⟩ := hentry ht hi hn
  obtain ⟨rfl, hcase'⟩ := hentry ht' hi' hn'
  refine ⟨?_, rfl⟩
  rcases hcase with ⟨rfl, rfl⟩ | ⟨rfl, rfl⟩
  · rcases hcase' with ⟨-, rfl⟩ | ⟨h21, -⟩
    · rfl
    · omega
  · rcases hcase' with ⟨h12, -⟩ | ⟨-, rfl⟩
    · omega
    · rfl

end

/-! ### Devices -/

/-- What is relied on of the tables there are after boot: of those of `boot.asm`, and of those `map_mmio` adds to them. -/
structure KernelTables (m : PhysMem) (p4 p3 p2 : ℕ) : Prop where
  layout : ∃ kind, Layout m kind ∧ kind p4 = .table 4
  low : nextTable (m.words p4 0) = .ok p3 ∧ nextTable (m.words p3 0) = .ok p2
  sealed : Sealed m p2
  tree : Tree m p4

theorem BootTables.kernelTables (h : BootTables m p4 p3 p2) : KernelTables m p4 p3 p2 :=
  ⟨⟨_, h.layout, bootKinds_p4⟩, h.lowEntries, h.lowTable.2, h.tree⟩

/-- The flags of a page of registers: present, writable, write-through and not cached. -/
def MMIO_FLAGS : PageTableFlags := PRESENT ||| WRITABLE ||| 0x18#64

def physAddrNew {ε σ : Type} (addr : ℕ) : Exec ε σ ℕ := if addr < 2 ^ 52 then pure addr else Exec.panic

/-- `map_mmio` maps the registers of a device in the kernel's tables, at their physical address. -/
def mapMmio (p4 physAddr size : ℕ) : Exec String PhysMem ℕ := do
  let stop ← Exec.add 64 physAddr size
  let stop ← Exec.add 64 stop 0xfff
  (List.range' (physAddr / 4096) (stop / 4096 - physAddr / 4096)).forM fun cur => do
    let frame ← physAddrNew (cur * 4096)
    let page ← virtAddrNew (cur * 4096)
    match ← Exec.attempt (mapTo p4 (page / 4096) (frame / 4096) MMIO_FLAGS) with
    | .ok () => pure ()
    | .error (.pageAlreadyMapped _) => pure ()
    | .error _ => Exec.throw "map_mmio: map_to a échoué"
  pure physAddr

theorem KernelTables.steady {m' : PhysMem} {kind' : ℕ → Kind} (h : KernelTables m p4 p3 p2) (hk : kind p4 = .table 4)
    (hs : Steady m kind m' kind') : KernelTables m' p4 p3 p2 := by
  have hk3 := hs.source.nextTable hk (by decide) h.low.1
  exact ⟨⟨kind', hs.target, hs.kind_eq hk⟩,
    ⟨hs.entry.nextTable hk (by decide) h.low.1, hs.entry.nextTable hk3 (by decide) h.low.2⟩,
    h.sealed.evolves hs.evolves hk ⟨p3, h.low⟩, hs.tree p4 hk h.tree⟩

theorem KernelTables.mapMmio (h : KernelTables m p4 p3 p2) (physAddr size : ℕ) : (Memory.mapMmio p4 physAddr size m).Post
    (fun _ m' => KernelTables m' p4 p3 p2) (fun _ m' => KernelTables m' p4 p3 p2) := by
  refine post_bind (post_add ..) ?_
  rintro _ _ ⟨-, rfl⟩
  refine post_bind (post_add ..) ?_
  rintro _ _ ⟨-, rfl⟩
  refine post_bind (post_forM (I := fun _ m' => KernelTables m' p4 p3 p2) h fun cur _ m₁ h₁ => ?_) fun _ _ h => h
  obtain ⟨kind, hl, hk⟩ := h₁.layout
  have hphys : (physAddrNew (cur * 4096) m₁ : Outcome String PhysMem ℕ).Post (fun _ m' => m' = m₁) (fun _ _ => False) := by
    unfold physAddrNew
    split_ifs <;> trivial
  refine post_bind hphys.never ?_
  rintro frame _ rfl
  refine post_bind (virtAddrNew_post ..) ?_
  rintro page _ rfl
  refine post_attempt_bind (mapTo_mapsPage (page / 4096) (frame / 4096) hl hk
    ⟨isFlags_of_and (by decide), by decide, by decide⟩) ?_ ?_
  · rintro _ m₂ ⟨-, -, kind', p1, hmaps⟩
    exact h₁.steady hk hmaps.steady
  · rintro e m₂ ⟨-, ⟨kind', hs⟩, -⟩
    cases e with
    | _ => exact h₁.steady hk hs

/-! ### Tables of one's own -/

structure OwnTables (m₀ m : PhysMem) (kind : ℕ → Kind) : Prop where
  used : ∀ f, m₀.isUsed f = true → m.isUsed f = true
  entry : ∀ t level i, kind t = .table (level + 2) → m₀.isUsed t = false → i < 512 → m.words t i ≠ 0#64 →
    m₀.isUsed (entryFrame (m.words t i)) = false ∨
      kind (entryFrame (m.words t i)) = .table 2 ∧ Sealed m (entryFrame (m.words t i))

def PrivateWalks (m₀ m : PhysMem) (p4 : ℕ) : Prop :=
  ∀ page p3 p2 p1, nextTable (m.words p4 (pageIndex 4 page)) = .ok p3 →
    nextTable (m.words p3 (pageIndex 3 page)) = .ok p2 → nextTable (m.words p2 (pageIndex 2 page)) = .ok p1 →
    m₀.isUsed p3 = false ∧ m₀.isUsed p2 = false ∧ m₀.isUsed p1 = false

section Own

variable {m₀ m m' : PhysMem} {kind kind' : ℕ → Kind} {p4 : ℕ}

section

variable (h : OwnTables m₀ m kind)
include h

theorem OwnTables.next {t level i next : ℕ} (ht : kind t = .table (level + 2))
    (hfree : m₀.isUsed t = false) (hi : i < 512) (hn : nextTable (m.words t i) = .ok next) :
    m₀.isUsed next = false ∨ kind next = .table 2 ∧ Sealed m next := by
  obtain ⟨hp, -, rfl⟩ := nextTable_eq_ok.mp hn
  exact h.entry t level i ht hfree hi (ne_zero_of_getLsbD hp)

theorem OwnTables.privateWalks (hl : Layout m kind) (hp4 : kind p4 = .table 4)
    (hfree : m₀.isUsed p4 = false) : PrivateWalks m₀ m p4 := by
  intro page p3 p2 p1 h3 h2 h1
  have k3 := hl.nextTable hp4 pageIndex_lt h3
  have k2 := hl.nextTable k3 pageIndex_lt h2
  have k1 := hl.nextTable k2 pageIndex_lt h1
  have f3 : m₀.isUsed p3 = false := by
    refine (h.next hp4 hfree pageIndex_lt h3).resolve_right fun hs => ?_
    rw [k3] at hs
    cases hs.1
  have f2 : m₀.isUsed p2 = false := (h.next k3 f3 pageIndex_lt h2).resolve_right fun hs => hs.2.nextTable_ne h1
  have f1 : m₀.isUsed p1 = false := by
    refine (h.next k2 f2 pageIndex_lt h1).resolve_right fun hs => ?_
    rw [k1] at hs
    cases hs.1
  exact ⟨f3, f2, f1⟩

theorem OwnTables.grows (hl : Layout m kind) (hg : Grows m kind m' kind') :
    OwnTables m₀ m' kind' := by
  refine ⟨fun f hf => hg.used f (h.used f hf), fun t level i ht hfree hi hne => ?_⟩
  by_cases hold : m.isUsed t = true ∧ m.words t i ≠ 0#64
  · have ht' : kind t = .table (level + 2) := (hg.kinds t hold.1).symm.trans ht
    rw [(hg.entry t level i ht' hi hold.2).frame]
    refine (h.entry t level i ht' hfree hi hold.2).imp id fun ⟨hk, hs⟩ => ⟨hg.kind_eq hl hk, ?_⟩
    exact hs.gains fun j hj hne => hg.entry _ 0 j hk hj hne
  · have hnew := hg.news t level i ht hi hne fun hused => by
      by_contra hne'
      exact hold ⟨hused, hne'⟩
    refine .inl ?_
    by_contra hused
    cases (h.used _ (by simpa using hused)).symm.trans hnew

theorem OwnTables.congr (hu : ∀ f, m'.isUsed f = m.isUsed f)
    (hw : ∀ t level, kind t = .table (level + 2) → m'.words t = m.words t) : OwnTables m₀ m' kind := by
  refine ⟨fun f hf => (hu f).trans (h.used f hf), fun t level i ht hfree hi hne => ?_⟩
  rw [hw t level ht] at hne ⊢
  refine (h.entry t level i ht hfree hi hne).imp id fun ⟨hk, hs⟩ => ⟨hk, fun j hj => ?_⟩
  rw [hw _ 0 hk]
  exact hs j hj

end

end Own

/-! ### A new space -/

section NewUser

variable {m m₂ : PhysMem} {kind : ℕ → Kind} {cr3 q3 p4 p3 : ℕ}

section

variable (h : Fresh m p4 p3 m₂) (hl : Layout m kind)
include h hl

theorem Fresh.words_eq (hcr3 : kind cr3 = .table 4) {t : ℕ} {k : Kind}
    (hk : k ≠ .other) (ht : kind t = k) : (copyTables p4 p3 cr3 m₂).words t = m.words t := by
  obtain ⟨n4, n3⟩ := h.ne_of_used (hl.used t (ht ▸ hk))
  funext i
  rw [h.copyTables_words hl hcr3, if_neg n4, if_neg n3]

theorem Fresh.ownTables (hcr3 : kind cr3 = .table 4)
    (hk : KernelOnly m cr3 q3) : OwnTables m (copyTables p4 p3 cr3 m₂) (newKinds kind p4 p3) := by
  have hwords := h.copyTables_words hl hcr3
  have hs := h.steady hl hcr3
  refine ⟨hs.used, fun t level i ht hfree hi hne => ?_⟩
  rw [hwords] at hne ⊢
  by_cases h4 : t = p4
  · rw [if_pos h4] at hne ⊢
    split_ifs at hne ⊢ with hi0
    · rw [entryFrame_mkEntry (lt_trans h.lt (by decide)) mapFlags_USER_RW.isFlags]
      exact .inl h.fresh.2
    · exact absurd (hk.high i (by omega) hi) hne
  by_cases h3 : t = p3
  · rw [if_pos h3] at hne ⊢
    split_ifs at hne ⊢ with hc
    · -- a copied entry leads to a table of huge pages
      have hq : entryFrame (m.words cr3 0) = q3 := (nextTable_eq_ok.mp hk.low).2.2
      rw [hq] at hne ⊢
      obtain ⟨p2, h2, hsealed, -⟩ := hk.sealed i hi hne
      have k2 := hl.nextTable (hl.nextTable hcr3 (by decide) hk.low) hi h2
      rw [(nextTable_eq_ok.mp h2).2.2]
      refine .inr ⟨hs.kind_eq k2, fun j hj => ?_⟩
      rw [h.words_eq hl hcr3 (by simp) k2]
      exact hsealed j hj
    · exact absurd rfl hne
  · -- any other table was in use before
    rw [newKinds_of_ne ⟨h4, h3⟩] at ht
    cases (hl.isUsed ht).symm.trans hfree

theorem Fresh.userBelow_eq (hcr3 : kind cr3 = .table 4) {t t' page : ℕ}
    (ht : kind t = .table 3)
    (heq : (copyTables p4 p3 cr3 m₂).words t' (pageIndex 3 page) = m.words t (pageIndex 3 page)) :
    userBelow (copyTables p4 p3 cr3 m₂) page t' = userBelow m page t := by
  unfold userBelow
  dsimp only
  rw [heq]
  by_cases hz : m.words t (pageIndex 3 page) = 0#64
  · simp [hz]
  have hlead := hl.entry t 1 _ ht pageIndex_lt hz
  cases hh : (m.words t (pageIndex 3 page)).getLsbD 7 with
  | true => simp only [Bool.true_or]
  | false =>
    have k2 := hlead.next hh
    rw [h.words_eq hl hcr3 (by simp) k2]
    generalize entryFrame (m.words t (pageIndex 3 page)) = p2 at k2
    by_cases hz2 : m.words p2 (pageIndex 2 page) = 0#64
    · simp [hz2]
    have hlead2 := hl.entry p2 0 _ k2 pageIndex_lt hz2
    cases hh2 : (m.words p2 (pageIndex 2 page)).getLsbD 7 with
    | true => simp only [Bool.true_or]
    | false => rw [h.words_eq hl hcr3 (by simp) (hlead2.next hh2)]

/-- **A new space shows no user page exactly if the tables it copies do not.** -/
theorem Fresh.shows_iff (hcr3 : kind cr3 = .table 4) :
    (∀ page a, mmu (copyTables p4 p3 cr3 m₂) p4 page = some a → a.user = false) ↔ ∀ page, ¬ Copied m cr3 page := by
  refine forall_congr' fun page => ?_
  have hnot : (∀ a, mmu (copyTables p4 p3 cr3 m₂) p4 page = some a → a.user = false) ↔
      ¬ ∃ a, mmu (copyTables p4 p3 cr3 m₂) p4 page = some a ∧ a.user = true := by simp
  rw [hnot, exists_mmu_user, not_iff_not, Copied, h.copyTables_words hl hcr3, if_pos rfl, if_pos pageIndex_lt]
  by_cases hi : pageIndex 4 page = 0
  · -- an entry 0 that is not present leaves the new level-3 table empty
    have hbits : (mkEntry p3 USER_RW).getLsbD 0 = true ∧ (mkEntry p3 USER_RW).getLsbD 7 = false ∧
        (mkEntry p3 USER_RW).getLsbD 2 = true := by
      rw [getLsbD_mkEntry _ _ (by decide), getLsbD_mkEntry _ _ (by decide), getLsbD_mkEntry _ _ (by decide)]
      decide
    rw [if_pos hi, entryFrame_mkEntry (lt_trans h.lt (by decide)) mapFlags_USER_RW.isFlags, hi]
    by_cases hp : (m.words cr3 0).getLsbD 0 = true
    · have hlead := hl.entry cr3 2 0 hcr3 (by decide) (ne_zero_of_getLsbD hp)
      rw [h.userBelow_eq hl hcr3 (hlead.next hlead.not_huge)
        (by rw [h.copyTables_words hl hcr3, if_neg h.ne.symm, if_pos rfl, if_pos ⟨hp, pageIndex_lt⟩])]
      simp only [hbits, hp, ne_eq, not_true_eq_false, false_imp_iff, true_and]
    · have hzero : userBelow (copyTables p4 p3 cr3 m₂) page p3 = false := by
        rw [userBelow, h.copyTables_words hl hcr3, if_neg h.ne.symm, if_pos rfl, if_neg fun hc => hp hc.1]
        rfl
      simp only [hzero, hp, Bool.false_eq_true, and_false, false_and]
  · rw [if_neg hi]
    by_cases hz : m.words cr3 (pageIndex 4 page) = 0#64
    · simp [hz]
    have hlead := hl.entry cr3 2 _ hcr3 pageIndex_lt hz
    have k3 := hlead.next hlead.not_huge
    rw [h.userBelow_eq hl hcr3 k3 (by rw [h.words_eq hl hcr3 (by simp) k3])]
    simp only [hlead.not_huge, hi, ne_eq, not_false_eq_true, true_imp_iff, true_and]

end

theorem KernelOnly.not_copied (h : KernelOnly m cr3 q3) (page : ℕ) : ¬ Copied m cr3 page := by
  rintro ⟨hpres, -, hbelow⟩
  by_cases hi : pageIndex 4 page = 0
  · rw [hi, (nextTable_eq_ok.mp h.low).2.2, userBelow] at hbelow
    by_cases hz : m.words q3 (pageIndex 3 page) = 0#64
    · simp [hz] at hbelow
    obtain ⟨p2, h2, -, huser⟩ := h.sealed _ pageIndex_lt hz
    obtain ⟨-, h7, rfl⟩ := nextTable_eq_ok.mp h2
    simp only [h7, huser _ pageIndex_lt, Bool.and_false, Bool.false_and, Bool.or_false] at hbelow
    cases hbelow
  · rw [h.high _ (by omega) pageIndex_lt] at hpres
    cases hpres

theorem Fresh.kernelOnly (h : Fresh m p4 p3 m₂) (hl : Layout m kind) (hcr3 : kind cr3 = .table 4) (hk : KernelOnly m cr3 q3) :
    KernelOnly (copyTables p4 p3 cr3 m₂) cr3 q3 ∧ KernelOnly (copyTables p4 p3 cr3 m₂) p4 p3 ∧
    ∀ i < 512, (copyTables p4 p3 cr3 m₂).words q3 i = (copyTables p4 p3 cr3 m₂).words p3 i := by
  have hwords := h.copyTables_words hl hcr3
  obtain ⟨hp, -, hq⟩ := nextTable_eq_ok.mp hk.low
  have k3 := hl.nextTable hcr3 (by decide) hk.low
  have hlow : ∀ i < 512, (copyTables p4 p3 cr3 m₂).words p3 i = m.words q3 i := fun i hi => by
    rw [hwords, if_neg h.ne.symm, if_pos rfl, if_pos ⟨hp, hi⟩, hq]
  have hsealed : ∀ i < 512, m.words q3 i ≠ 0#64 → ∃ p2, nextTable (m.words q3 i) = .ok p2 ∧
      Sealed (copyTables p4 p3 cr3 m₂) p2 ∧ ∀ j < 512, ((copyTables p4 p3 cr3 m₂).words p2 j).getLsbD 2 = false := by
    intro i hi hne
    obtain ⟨p2, h2, hs, hu⟩ := hk.sealed i hi hne
    have k2 := hl.nextTable k3 hi h2
    refine ⟨p2, h2, fun j hj => ?_, fun j hj => ?_⟩
    · rw [h.words_eq hl hcr3 (by simp) k2]
      exact hs j hj
    · rw [h.words_eq hl hcr3 (by simp) k2]
      exact hu j hj
  refine ⟨⟨?_, fun i h0 hi => ?_, fun i hi hne => ?_⟩, ⟨?_, fun i h0 hi => ?_, fun i hi hne => ?_⟩, fun i hi => ?_⟩
  · rw [h.words_eq hl hcr3 (by simp) hcr3]
    exact hk.low
  · rw [h.words_eq hl hcr3 (by simp) hcr3]
    exact hk.high i h0 hi
  · rw [h.words_eq hl hcr3 (by simp) k3] at hne ⊢
    exact hsealed i hi hne
  · rw [hwords, if_pos rfl]
    exact nextTable_mkEntry h.lt mapFlags_USER_RW
  · rw [hwords, if_pos rfl, if_neg (by omega), if_pos hi]
    exact hk.high i h0 hi
  · rw [hlow i hi] at hne ⊢
    exact hsealed i hi hne
  · rw [hlow i hi, h.words_eq hl hcr3 (by simp) k3]

end NewUser

/-! ### Loading into it -/

def OwnSpace (m₀ : PhysMem) (v : Vm) : Prop :=
  m₀.isUsed v.space.p4 = false ∧ ∃ kind, Layout v.mem kind ∧ kind v.space.p4 = .table 4 ∧
    OwnTables m₀ v.mem kind ∧ ∀ page f : ℕ, v.space.mappedPages[page]? = some f → kind f = .data

section Load

variable {m₀ : PhysMem}
variable {f : ℕ} {g : ℕ}

theorem mapAlloc_ownSpace (v : Vm) (page : ℕ) (writable : Bool) (hv : OwnSpace m₀ v) :
    (AddressSpace.mapAlloc page (pageFlags writable) v).Post (fun _ => OwnSpace m₀) (fun _ => OwnSpace m₀) := by
  obtain ⟨hfree, kind, hl, hp4, hown, hdata⟩ := hv
  have hfl := mapFlags_pageFlags writable
  refine post_mapAlloc ⟨hfree, kind, hl, hp4, hown, hdata⟩ fun f m₁ halloc => ?_
  have hg := halloc.grows hl .data
  have hl₂ := (halloc.counted hl).target
  have hown₂ : OwnTables m₀ (m₁.setRefcount f 1) (Function.update kind f .data) :=
    (hown.grows hl hg).congr (fun _ => rfl) fun _ _ _ => rfl
  have hp4₂ := hg.kind_eq hl hp4
  -- whatever `map_to` does, it grows the tables
  have hpages : ∀ {m' kind'}, Grows (m₁.setRefcount f 1) (Function.update kind f .data) m' kind' →
      ∀ p g : ℕ, v.space.mappedPages[p]? = some g → kind' g = .data := fun h p g hpg =>
    h.kind_eq hl₂ (hg.kind_eq hl (hdata p g hpg))
  refine (mapTo_post hl₂ hp4₂ hfl.parent).imp ?_ ?_
  · rintro _ _ ⟨m₃, kind₃, p1, hg₃, hl₃, hw, -, -, rfl⟩
    have hp4₃ := hg₃.kind_eq hl₂ hp4₂
    have hne := ne_table_of_leaf (hl₃.walk hp4₃ hw)
    refine ⟨hfree, kind₃, hl₃.write_leaf hne, hp4₃, (hown₂.grows hl₂ hg₃).congr (fun _ => rfl) fun t level ht => ?_,
      fun p g hpg => ?_⟩
    · exact write_words_of_table (hl₃.walk hp4₃ hw) ht
    · rcases AddressSpace.getElem?_replaceMapping hpg with ⟨-, rfl⟩ | hpg
      · exact hg₃.kind_eq hl₂ (Function.update_self ..)
      · exact hpages hg₃ p g hpg
  · rintro _ m' ⟨kind₃, hg₃, hl₃, -⟩
    exact ⟨hfree, kind₃, hl₃, hg₃.kind_eq hl₂ hp4₂, hown₂.grows hl₂ hg₃, hpages hg₃⟩

theorem writeByte_words_of_ne {off : ℕ} {b : Byte} (h : g ≠ f) :
    (m.writeByte f off b).words g = m.words g := PhysMem.write_words_of_ne h

theorem writeBytes_words_of_ne (h : g ≠ f) : ∀ (bs : List Byte) (off : ℕ) (m : PhysMem),
    (m.writeBytes f off bs).words g = m.words g
  | [], _, _ => rfl
  | _ :: bs, off, _ => (writeBytes_words_of_ne h bs (off + 1) _).trans (writeByte_words_of_ne h)

theorem writeBytes_isUsed (f : ℕ) : ∀ (bs : List Byte) (off : ℕ) (m : PhysMem) (g : ℕ),
    (m.writeBytes f off bs).isUsed g = m.isUsed g
  | [], _, _, _ => rfl
  | _ :: bs, off, _, g => writeBytes_isUsed f bs (off + 1) _ g

theorem writeBytes_refcount (f : ℕ) : ∀ (bs : List Byte) (off : ℕ) (m : PhysMem),
    (m.writeBytes f off bs).refcount = m.refcount
  | [], _, _ => rfl
  | _ :: bs, off, _ => writeBytes_refcount f bs (off + 1) _

theorem Layout.writeBytes (hl : Layout m kind) (hf : kind f = .data)
    (off : ℕ) (bs : List Byte) : Layout (m.writeBytes f off bs) kind := by
  refine ⟨fun g hg => (writeBytes_isUsed ..).trans (hl.used g hg), fun t level i ht hi hne => ?_⟩
  rw [writeBytes_words_of_ne (ne_of_kind ht hf)] at hne ⊢
  exact hl.entry t level i ht hi hne

theorem writeBytes_ownSpace (v : Vm) (page f off : ℕ) (bs : List Byte) (hv : OwnSpace m₀ v)
    (hf : v.space.mappedPages[page]? = some f) : OwnSpace m₀ { v with mem := v.mem.writeBytes f off bs } := by
  obtain ⟨hfree, kind, hl, hp4, hown, hdata⟩ := hv
  have hk := hdata page f hf
  exact ⟨hfree, kind, hl.writeBytes hk off bs, hp4, hown.congr (writeBytes_isUsed f bs off v.mem) fun t level ht =>
    writeBytes_words_of_ne (ne_of_kind ht hk) bs off v.mem, hdata⟩

end Load

/-! ### The same for every creator -/

/-- Entry `i` of the level-3 table behind the level-4 entry 0, as `new_user` copies it. -/
def lowEntry (m : PhysMem) (cr3 i : ℕ) : Word :=
  if (m.words cr3 0).getLsbD 0 = true then m.words (entryFrame (m.words cr3 0)) i else 0#64

/-- `new_user` copies the same entries from both tables. -/
def SamePattern (m : PhysMem) (cr3 cr3' : ℕ) : Prop :=
  ∀ i < 512, lowEntry m cr3 i = lowEntry m cr3' i ∧ (0 < i → m.words cr3 i = m.words cr3' i)

theorem Fresh.copyTables_eq_iff {m₂ : PhysMem} (h : Fresh m p4 p3 m₂) (hl : Layout m kind) (hk : kind cr3 = .table 4)
    (hk' : kind cr3' = .table 4) : copyTables p4 p3 cr3 m₂ = copyTables p4 p3 cr3' m₂ ↔ SamePattern m cr3 cr3' := by
  have hlow : ∀ {src i : ℕ}, kind src = .table 4 → i < 512 → (copyTables p4 p3 src m₂).words p3 i = lowEntry m src i :=
    fun hsrc hi => by
      simp only [h.copyTables_words hl hsrc, if_neg h.ne.symm, if_true, hi, and_true, lowEntry]
  constructor
  · intro heq i hi
    refine ⟨by rw [← hlow hk hi, ← hlow hk' hi, heq], fun h0 => ?_⟩
    have hword := congrArg (fun m => PhysMem.words m p4 i) heq
    simp only [h.copyTables_words hl hk, h.copyTables_words hl hk', if_pos, if_neg (show i ≠ 0 by omega), hi] at hword
    exact hword
  · intro hs
    have hwords : (copyTables p4 p3 cr3 m₂).words = (copyTables p4 p3 cr3' m₂).words := by
      funext f i
      by_cases h3 : f = p3 ∧ i < 512
      · rw [h3.1, hlow hk h3.2, hlow hk' h3.2, (hs i h3.2).1]
      rw [h.copyTables_words hl hk, h.copyTables_words hl hk']
      split_ifs with h4 hi hlt hf3 hc
      · rfl
      · exact (hs i hlt).2 (by omega)
      all_goals tauto
    have hext : ∀ src, copyTables p4 p3 src m₂ =
        { words := (copyTables p4 p3 src m₂).words, frames := m₂.frames, refcount := m₂.refcount } := fun src => by
      unfold copyTables
      dsimp only
      split_ifs <;> rfl
    rw [hext cr3, hext cr3', hwords]

/-- The part of `new_user` that does not look at the active tables. -/
def newFrames : Exec String PhysMem (ℕ × ℕ) := do
  let p4 ← allocZeroedFrame
  let p3 ← allocZeroedFrame
  pure (p4, p3)

theorem newFrames_post (m : PhysMem) : (newFrames m).Post (fun q m₂ => Fresh m q.1 q.2 m₂) fun _ _ => True := by
  refine post_bind ((allocZeroedFrame_post m).imp_err fun _ _ _ => trivial) fun p4 m₁ h₄ => ?_
  exact post_bind ((allocZeroedFrame_post m₁).imp_err fun _ _ _ => trivial) fun p3 m₂ h₃ => h₄.and_then h₃

theorem newUser_eq (m : PhysMem) (cr3 : ℕ) : AddressSpace.newUser cr3 m = (do
    let q ← newFrames
    Exec.modify (copyTables q.1 q.2 cr3)
    pure { p4 := q.1, mappedPages := ∅ } : Exec String PhysMem AddressSpace) m := by
  unfold AddressSpace.newUser newTables newFrames
  simp only [bind_apply]
  cases allocZeroedFrame m with
  | ok p4 m₁ =>
    dsimp only
    cases allocZeroedFrame m₁ <;> rfl
  | err e m₁ => rfl
  | panic => rfl
  | diverge => rfl

theorem newUser_fresh (m : PhysMem) (cr3 : ℕ) : (AddressSpace.newUser cr3 m).Post
    (fun s m' => ∃ p3 m₂, Fresh m s.p4 p3 m₂ ∧ m' = copyTables s.p4 p3 cr3 m₂ ∧ s.mappedPages = ∅) (fun _ _ => True) := by
  rw [newUser_eq]
  exact post_bind (newFrames_post m) fun q m₂ hfresh => ⟨q.2, m₂, hfresh, rfl, rfl⟩

/-- **Programs are spawned alike under two tables exactly if `new_user` copies the same entries from them**, or fails. -/
theorem spawnSpace_eq_iff (hl : Layout m kind) (hk : kind cr3 = .table 4) (hk' : kind cr3' = .table 4) :
    (∀ bin, spawnSpace cr3 bin m = spawnSpace cr3' bin m) ↔
      ((AddressSpace.newUser cr3 m).Returns (fun _ _ => True) → SamePattern m cr3 cr3') := by
  simp only [spawnSpace, bind_apply, newUser_eq, Exec.modify]
  have hpost := newFrames_post m
  cases hnew : newFrames m with
  | ok q m₂ =>
    rw [hnew] at hpost
    have hiff := hpost.copyTables_eq_iff hl hk hk'
    refine ⟨fun h _ => hiff.mp ?_, fun h bin => ?_⟩
    · -- a file that is refused leaves the entries in the memory
      injection h []
    · dsimp only
      rw [hiff.mpr (h ⟨_, _, rfl, trivial⟩)]
  | _ =>
    refine ⟨fun _ h => ?_, fun _ _ => rfl⟩
    obtain ⟨_, _, h, -⟩ := h
    cases h

theorem newUser_kernelOnly {q3 : ℕ} (hl : Layout m kind) (hk : kind cr3 = .table 4) (h : KernelOnly m cr3 q3) :
    (AddressSpace.newUser cr3 m).Post (fun s m' => OwnSpace m ⟨m', s⟩) (fun _ _ => True) := by
  refine (newUser_fresh m cr3).imp_ok ?_
  rintro s _ ⟨p3, m₂, hfresh, rfl, hempty⟩
  refine ⟨hfresh.fresh.1, newKinds kind s.p4 p3, (hfresh.steady hl hk).target, newKinds_p4 hfresh.ne,
    hfresh.ownTables hl hk h, fun page f hf => ?_⟩
  simp [hempty] at hf

/-! ### Spawning -/

/-- **When a new address space is private, whoever creates it.** It shows no user page exactly if the active tables have none
that would be copied, and `spawn_from_elf` does the same under two tables exactly if the entries to be copied are the same.
If the active tables map the kernel only, both are so for all such tables with the same level-3 entries, and a page mapped in
the new space is found through tables that were free before, as is every page of a program loaded into it. -/
theorem spawnSpace_private (hl : Layout m kind) (hk : kind cr3 = .table 4) (hk' : kind cr3' = .table 4) :
    (∀ s m', AddressSpace.newUser cr3 m = .ok s m' →
      ((∀ page a, mmu m' s.p4 page = some a → a.user = false) ↔ ∀ page, ¬ Copied m cr3 page)) ∧
    ((∀ bin, spawnSpace cr3 bin m = spawnSpace cr3' bin m) ↔
      ((AddressSpace.newUser cr3 m).Returns (fun _ _ => True) → SamePattern m cr3 cr3')) ∧
    ∀ q3, KernelOnly m cr3 q3 → (∀ page, ¬ Copied m cr3 page) ∧
      (∀ q3', KernelOnly m cr3' q3' → (∀ i < 512, m.words q3 i = m.words q3' i) → SamePattern m cr3 cr3') ∧
      (∀ s m', AddressSpace.newUser cr3 m = .ok s m' → ∀ page frame writable m'',
        mapTo s.p4 page frame (pageFlags writable) m' = .ok () m'' → PrivateWalks m m'' s.p4) ∧
      ∀ bin s r m', spawnSpace cr3 bin m = .ok (s, r) m' → PrivateWalks m m' s.p4 := by
  refine ⟨fun s m' hok => ?_, spawnSpace_eq_iff hl hk hk', fun q3 h => ⟨h.not_copied, fun q3' h' hsame i hi => ?_,
    fun s m' hok page frame writable m'' hmap => ?_, fun bin s r m' hok => ?_⟩⟩
  · obtain ⟨p3, m₂, hfresh, rfl, -⟩ := (newUser_fresh m cr3).ok hok
    exact hfresh.shows_iff hl hk
  · obtain ⟨hp, -, hq⟩ := nextTable_eq_ok.mp h.low
    obtain ⟨hp', -, hq'⟩ := nextTable_eq_ok.mp h'.low
    rw [lowEntry, lowEntry, if_pos hp, if_pos hp', hq, hq']
    exact ⟨hsame i hi, fun h0 => (h.high i h0 hi).trans (h'.high i h0 hi).symm⟩
  · obtain ⟨hfree, kind', hl', hp4, hown, -⟩ := (newUser_kernelOnly hl hk h).ok hok
    obtain ⟨m₁, kind₁, p1, hg, hl₁, hw, -, -, rfl⟩ :=
      (mapTo_post hl' hp4 (mapFlags_pageFlags writable).parent).ok hmap
    have hp4₁ := hg.kind_eq hl' hp4
    have hne := ne_table_of_leaf (hl₁.walk hp4₁ hw)
    have hown₁ : OwnTables m (m₁.write p1 (pageIndex 1 page) (mkEntry frame (pageFlags writable))) kind₁ :=
      (hown.grows hl' hg).congr (fun _ => rfl) fun t level ht =>
        PhysMem.write_words_of_ne fun hp => hne level (hp ▸ ht)
    exact hown₁.privateWalks (hl₁.write_leaf hne) hp4₁ hfree
  · obtain ⟨a, m₁, hok₁, hload⟩ := bind_eq_ok.mp hok
    have hown := (newUser_kernelOnly hl hk h).ok hok₁
    have hpost := loadProgram_post mapAlloc_ownSpace writeBytes_ownSpace (fun _ h => h) bin ⟨m₁, a⟩ hown
    unfold withSpace at hload
    cases hres : loadProgram bin ⟨m₁, a⟩ with
    | ok r' v =>
      rw [hres] at hload
      cases hload
      obtain ⟨hfree, kind', hl', hp4, hown', -⟩ := hpost.ok hres
      exact hown'.privateWalks hl' hp4 hfree
    | err e v =>
      rw [hres] at hload
      obtain ⟨_, _, -, hthrow⟩ := bind_eq_ok.mp hload
      cases hthrow
    | panic => simp [hres] at hload
    | diverge => simp [hres] at hload

/-- After boot, the kernel's tables and those of an empty space load a program alike. -/
theorem spawnSpace_private_small : ∃ s m, AddressSpace.newUser 272 smallMachine = .ok s m ∧ s.p4 ≠ 272 ∧
    spawnSpace 272 tinyImage m = spawnSpace s.p4 tinyImage m := by
  have hok : (AddressSpace.newUser 272 smallMachine).Returns fun _ _ => True := by decide +kernel
  have hl := bootTables_smallMachine.layout
  have hk := bootTables_smallMachine.kernelOnly
  have hk4 : bootKinds 272 273 274 272 = .table 4 := bootKinds_p4
  obtain ⟨s, m, hnew, -⟩ := hok
  obtain ⟨p3, m₂, hfresh, rfl, -⟩ := (newUser_fresh smallMachine 272).ok hnew
  have hs := hfresh.steady hl hk4
  obtain ⟨h, h', hsame⟩ := hfresh.kernelOnly hl hk4 hk
  have hne : s.p4 ≠ 272 := fun heq => (hfresh.ne_of_used (hl.isUsed hk4)).1 heq.symm
  obtain ⟨-, hiff, honly⟩ := spawnSpace_private hs.target (hs.kind_eq hk4) (newKinds_p4 hfresh.ne)
  exact ⟨s, _, hnew, hne, hiff.mpr (fun _ => (honly _ h).2.1 _ h' hsame) tinyImage⟩

/-- **A new space is not private under the tables of a process.** A program that was spawned cannot
be spawned again by the process it became, though the kernel can spawn it: the tables of the
new space already map its pages, and ring 3 could read them there. -/
theorem spawnSpace_depends_on_cr3 : ∃ s r m, spawnSpace 272 tinyImage smallMachine = .ok (s, r) m ∧
    (spawnSpace s.p4 tinyImage m).answer.map (fun r => r.map fun _ => ()) = some (.error "page déjà mappée") ∧
    (spawnSpace 272 tinyImage m).answer.map (fun r => r.map fun _ => ()) = some (.ok ()) ∧
    ∃ a m' x, AddressSpace.newUser s.p4 m = .ok a m' ∧ mmu m' a.p4 0x40000 = some x ∧ x.user = true := by
  have hspawn : (spawnSpace 272 tinyImage smallMachine).Returns fun q m =>
      (spawnSpace q.1.p4 tinyImage m).answer.map (fun r => r.map fun _ => ()) = some (.error "page déjà mappée") ∧
      (spawnSpace 272 tinyImage m).answer.map (fun r => r.map fun _ => ()) = some (.ok ()) ∧
      (AddressSpace.newUser q.1.p4 m).Returns fun a m' => ∃ x ∈ mmu m' a.p4 0x40000, x.user = true := by
    decide +kernel
  obtain ⟨⟨s, r⟩, m, hspawn, herr, hok, a, m', hnew, x, hx, huser⟩ := hspawn
  exact ⟨s, r, m, hspawn, herr, hok, a, m', x, hnew, hx, huser⟩

end RustKernel.Memory
