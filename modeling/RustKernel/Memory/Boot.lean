import RustKernel.Memory.Tables

/-!
# The tables of the boot code

`setup_page_tables` of `boot.asm`: entry 0 of the level-4 table leads to a level-3 table whose
entry 0 leads to a level-2 table of 512 huge pages, the first GiB onto itself. Everything else
is unused, and nothing is user-accessible.
-/

namespace RustKernel.Memory

def setupPageTables (p4 p3 p2 : ℕ) : ℕ → ℕ → Word := fun f i =>
  if f = p4 then if i = 0 then mkEntry p3 (PRESENT ||| WRITABLE) else 0#64
  else if f = p3 then if i = 0 then mkEntry p2 (PRESENT ||| WRITABLE) else 0#64
  else if f = p2 then mkEntry (i * 512) (PRESENT ||| WRITABLE ||| HUGE_PAGE)
  else 0#64

structure BootTables (m : PhysMem) (p4 p3 p2 : ℕ) : Prop where
  used : m.isUsed p4 = true ∧ m.isUsed p3 = true ∧ m.isUsed p2 = true
  ne : p4 ≠ p3 ∧ p4 ≠ p2 ∧ p3 ≠ p2
  lt : p3 < IDENTITY_FRAMES ∧ p2 < IDENTITY_FRAMES
  words : ∀ f, f = p4 ∨ f = p3 ∨ f = p2 → ∀ i < 512, m.words f i = setupPageTables p4 p3 p2 f i

def bootKinds (p4 p3 p2 : ℕ) : ℕ → Kind := fun f =>
  if f = p4 then .table 4 else if f = p3 then .table 3 else if f = p2 then .table 2 else .other

variable {m : PhysMem} {p4 p3 p2 : ℕ}

theorem BootTables.layout (h : BootTables m p4 p3 p2) : Layout m (bootKinds p4 p3 p2) := by
  obtain ⟨n43, n42, n32⟩ := h.ne
  have hflags : MapFlags (PRESENT ||| WRITABLE) := ⟨isFlags_of_and (by decide), by decide, by decide⟩
  refine ⟨fun f hf => ?_, fun t level i ht hi hne => ?_⟩
  · unfold bootKinds at hf
    split_ifs at hf with h4 h3 h2
    · rw [h4]; exact h.used.1
    · rw [h3]; exact h.used.2.1
    · rw [h2]; exact h.used.2.2
    · exact absurd rfl hf
  · unfold bootKinds at ht
    split_ifs at ht with h4 h3 h2
    · -- level 4
      subst h4
      obtain rfl : level = 2 := by injection ht with ht; omega
      rw [h.words t (.inl rfl) i hi, setupPageTables, if_pos rfl] at hne ⊢
      split_ifs at hne ⊢ with hi0
      · exact leads_mkEntry h.lt.1 hflags (by simp [bootKinds, n43.symm])
      · exact absurd rfl hne
    · subst h3
      obtain rfl : level = 1 := by injection ht with ht; omega
      rw [h.words t (.inr (.inl rfl)) i hi, setupPageTables, if_pos rfl] at hne ⊢
      split_ifs at hne ⊢ with hi0
      · exact leads_mkEntry h.lt.2 hflags (by simp [bootKinds, n42.symm, n32.symm])
      · exact absurd rfl hne
    · -- the level-2 table maps huge pages
      subst h2
      obtain rfl : level = 0 := by injection ht with ht; omega
      rw [h.words t (.inr (.inr rfl)) i hi, setupPageTables, if_neg h4, if_neg h3, if_pos rfl]
      refine ⟨by rw [getLsbD_mkEntry _ _ (by decide)]; decide, fun hh => ?_, fun _ => by decide⟩
      rw [getLsbD_mkEntry _ _ (by decide)] at hh
      exact absurd hh (by decide)

theorem bootKinds_p4 : bootKinds p4 p3 p2 p4 = .table 4 := if_pos rfl

/-! ### A small machine -/

def smallMachine : PhysMem where
  words := setupPageTables 272 273 274
  frames :=
    { bitmap := fun byte => if 512 ≤ byte ∧ byte < 544 then 0x00#8 else 0xff#8
      numFrames := 4352
      nextFree := 4096
      used := 4096 }
  refcount := fun _ => 0

theorem bootTables_smallMachine : BootTables smallMachine 272 273 274 :=
  ⟨by decide +kernel, by decide, by decide, fun _ _ _ _ => rfl⟩

end RustKernel.Memory
