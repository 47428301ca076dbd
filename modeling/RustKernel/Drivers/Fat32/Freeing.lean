import Mathlib.Data.Finset.Card
import Mathlib.Data.Finset.Range
import Mathlib.Logic.Relation
import RustKernel.Drivers.Fat32.Chain

/-!
# Freeing a chain of any FAT

`free_chain` follows links that it destroys itself: it reads the entry of a cluster, clears it in every copy of the FAT and
goes on to the cluster the entry named.
-/

namespace RustKernel.Drivers.Fat32

open Lib Exec Ata

variable {fs : Fat32} {fault : ℕ → ℕ → Option String} {s s' s'' : ℕ → Sector}
variable {c : ℕ} {cs : List ℕ}

/-! ### Clearing entries -/

def Clears (fs : Fat32) (s s' : ℕ → Sector) : Prop := ∀ c, fs.fat s' c = fs.fat s c ∨ fs.fat s' c = 0

theorem Clears.refl (fs : Fat32) (s : ℕ → Sector) : Clears fs s s := fun _ => .inl rfl

theorem Clears.trans (h : Clears fs s s') (h' : Clears fs s' s'') : Clears fs s s'' := by
  intro c
  rcases h' c with heq | hz
  · rw [heq]
    exact h c
  · exact .inr hz

theorem Clears.zero (h : Clears fs s s') (hz : fs.fat s c = 0) : fs.fat s' c = 0 := by
  rcases h c with heq | hz'
  · rw [heq, hz]
  · exact hz'

theorem Clears.link (h : Clears fs s s') {n : ℕ} (hn : link (fs.fat s' c) = some n) : Fat32.link (fs.fat s c) = some n := by
  rcases h c with heq | hz
  · rw [← heq]
    exact hn
  · rw [hz] at hn
    cases hn

theorem Clears.of_patched (fs : Fat32) (s : ℕ → Sector) (lba c : ℕ) :
    Clears fs s (stored s lba 1 (patched (Sector.toBytes (s lba)) c 0)) := by
  intro c'
  rw [fat_stored_patched]
  split_ifs
  · exact .inr rfl
  · exact .inl rfl

theorem Accessible.runs_clear (h : fs.Accessible fault c) : ∀ (n idx : ℕ) (s : ℕ → Sector),
    idx + n ≤ fs.bpb.numFats →
      ∃ s', Runs fault (fs.setFatLoop (c * 4 % SECTOR_SIZE) (c * 4 / SECTOR_SIZE) 0 idx n) s () s' ∧ Clears fs s s'
  | 0, _, s, _ => ⟨s, Runs.pure, .refl fs s⟩
  | n + 1, idx, s, hle => by
    obtain ⟨s', hrun, hclears⟩ := h.runs_clear n (idx + 1)
      (stored s (fs.copyLba c idx) 1 (patched (Sector.toBytes (s (fs.copyLba c idx))) c 0)) (by omega)
    exact ⟨s', h.runs_setFat_turn (by omega) 0 hrun, (Clears.of_patched fs s _ c).trans hclears⟩

theorem Accessible.runs_clearEntry (h : fs.Accessible fault c) (s : ℕ → Sector) :
    ∃ s', Runs fault (fs.setFatEntry c 0) s () s' ∧ Clears fs s s' ∧ fs.fat s' c = 0 := by
  have hfats := h.fats
  -- the first turn clears it in the first FAT, the others do not bring it back
  obtain ⟨s', hrun, hclears⟩ := h.runs_clear (fs.bpb.numFats - 1) 1
    (stored s (fs.copyLba c 0) 1 (patched (Sector.toBytes (s (fs.copyLba c 0))) c 0)) (by omega)
  have hfirst : fs.fat (stored s (fs.copyLba c 0) 1 (patched (Sector.toBytes (s (fs.copyLba c 0))) c 0)) c = 0 := by
    rw [fat_stored_patched, if_pos ⟨(copyLba_zero fs c).symm, rfl⟩]
    rfl
  refine ⟨s', ?_, (Clears.of_patched fs s _ c).trans hclears, hclears.zero hfirst⟩
  have hturn := h.runs_setFat_turn h.fats 0 hrun
  rw [Nat.sub_add_cancel hfats] at hturn
  unfold setFatEntry
  rw [mul_four_eq h.lt]
  exact Runs.pure.bind hturn

/-! ### It ends -/

def LinksTo (fs : Fat32) (s : ℕ → Sector) (c n : ℕ) : Prop := link (fs.fat s c) = some n

def used (fs : Fat32) (s : ℕ → Sector) : ℕ := {c ∈ Finset.range (2 ^ 28) | fs.fat s c ≠ 0}.card

theorem used_le (fs : Fat32) (s : ℕ → Sector) : fs.used s ≤ 2 ^ 28 :=
  (Finset.card_filter_le _ _).trans (Finset.card_range _).le

theorem Clears.used_lt (h : Clears fs s s') (hc : c < 2 ^ 28) (hne : fs.fat s c ≠ 0) (hz : fs.fat s' c = 0) :
    fs.used s' < fs.used s := by
  refine Finset.card_lt_card (Finset.ssubset_iff_of_subset ?_ |>.2 ⟨c, ?_, ?_⟩)
  · intro x hx
    rw [Finset.mem_filter] at hx ⊢
    exact ⟨hx.1, fun hzero => hx.2 (h.zero hzero)⟩
  · exact Finset.mem_filter.2 ⟨Finset.mem_range.2 hc, hne⟩
  · exact fun hmem => (Finset.mem_filter.1 hmem).2 hz

theorem freeChainLoop_returns {fuel cur : ℕ}
    (hacc : ∀ c, Relation.ReflTransGen (LinksTo fs s) cur c → fs.Accessible fault c) (hfuel : fs.used s < fuel) :
    ∃ s', Runs fault (fs.freeChainLoop fuel cur) s () s' := by
  induction fuel generalizing cur s with
  | zero => exact absurd hfuel (Nat.not_lt_zero _)
  | succ fuel ih =>
    have hcur := hacc cur .refl
    obtain ⟨s₁, hset, hclears, hz⟩ := hcur.runs_clearEntry s
    have hrun := hcur.runs_nextCluster (s := s)
    cases hnext : link (fs.fat s cur) with
    | none =>
      rw [hnext] at hrun
      exact ⟨s₁, hrun.bind (hset.bind Runs.pure)⟩
    | some n =>
      rw [hnext] at hrun
      have hne : fs.fat s cur ≠ 0 := by
        have := link_eq_some_iff.1 hnext
        omega
      have hless : fs.used s₁ < fuel := lt_of_lt_of_le (hclears.used_lt hcur.lt hne hz) (Nat.le_of_lt_succ hfuel)
      -- what can be reached after the turn could be reached before it
      have hacc₁ : ∀ c, Relation.ReflTransGen (LinksTo fs s₁) n c → fs.Accessible fault c := fun c hc =>
        hacc c (.head hnext (Relation.ReflTransGen.mono (fun _ _ hab => hclears.link hab) _ _ hc))
      obtain ⟨s', hrest⟩ := ih hacc₁ hless
      exact ⟨s', hrun.bind (hset.bind hrest)⟩

/-! ### What it frees -/

def Freed (fs : Fat32) (s s' : ℕ → Sector) (cs : List ℕ) : Prop := ∀ i < fs.bpb.numFats, ∀ c < fs.numClusters,
  fs.entryAt s' i c = if c ∈ cs then fs.entryAt s i c &&& 0xF0000000 else fs.entryAt s i c

theorem Freed.nil (fs : Fat32) (s : ℕ → Sector) : Freed fs s s [] := by
  intro i _ c _
  rw [if_neg List.not_mem_nil]

theorem Freed.cons (hset : CopiesSet fs s s' c 0 0 fs.bpb.numFats) (hc : c < fs.numClusters)
    (h : Freed fs s' s'' cs) : Freed fs s s'' (c :: cs) := by
  intro i hi x hx
  rw [h i hi x hx, hset.entryAt_eq hc hi hx, Nat.zero_and, Nat.or_zero]
  by_cases hxc : x = c
  · subst hxc
    rw [if_pos rfl, if_pos (List.mem_cons_self ..), Nat.and_assoc, Nat.and_self, ite_self]
  · have hiff : x ∈ c :: cs ↔ x ∈ cs := List.mem_cons.trans (or_iff_right hxc)
    simp only [if_neg hxc, hiff]

theorem Cleared.freed (h : Cleared fs s s' cs) : Freed fs s s' cs := by
  induction h with
  | nil => exact .nil fs _
  | cons hc hcopies _ ih => exact .cons hcopies hc ih

theorem Path.reachable (h : Path fs.numClusters (fs.fat s) c cs) : ∀ x ∈ cs, Relation.ReflTransGen (LinksTo fs s) c x := by
  induction h with
  | last =>
    intro x hx
    rw [List.mem_singleton.1 hx]
  | next _ _ hlink _ ih =>
    intro x hx
    rcases List.mem_cons.1 hx with rfl | hx
    · exact .refl
    · exact .head hlink (ih x hx)

/-- **`free_chain` ends on every FAT and frees exactly one chain.** The accesses succeed: each cluster that the links lead
to has its entry in a sector that can be read and written, in every copy of the FAT, of which there is at least one. -/
theorem freeChain_frees_chain {first fuel k : ℕ} (h2 : 2 ≤ first)
    (hacc : ∀ c, Relation.ReflTransGen (LinksTo fs s) first c → fs.Accessible fault c) (hfuel : 2 ^ 28 < fuel) :
    ∃ d, fs.freeChain fuel first ⟨s, k, fault⟩ = .ok () d ∧
      ∀ cs, Path fs.numClusters (fs.fat s) first cs → Freed fs s d.sectors cs := by
  obtain ⟨s', hrun⟩ := freeChainLoop_returns hacc (lt_of_le_of_lt (used_le fs s) hfuel)
  obtain ⟨k', hk⟩ := hrun k
  refine ⟨⟨s', k', fault⟩, ?_, fun cs hpath => ?_⟩
  · rw [freeChain, if_neg (by omega)]
    exact hk
  · obtain ⟨s₁, k₁, hd, hcleared⟩ :=
      (hpath.post_freeChainLoop (fun x hx => hacc x (hpath.reachable x hx)) fun _ _ => rfl).ok hk
    cases hd
    exact hcleared.freed

/-- The cycle of `2` and `3` does not hold it up, and the chain of `4` and `5` is freed. -/
theorem freeChain_looped : (∃ d, twoFats.freeChain (2 ^ 28 + 1) 2 ⟨looped, 0, fun _ _ => none⟩ = .ok () d) ∧
    ∃ d, twoFats.freeChain (2 ^ 28 + 1) 4 ⟨looped, 0, fun _ _ => none⟩ = .ok () d ∧
      Freed twoFats looped d.sectors [4, 5] := by
  have hacc : ∀ first < 2 ^ 28, ∀ c, Relation.ReflTransGen (LinksTo twoFats looped) first c →
      twoFats.Accessible (fun _ _ => none) c := by
    intro first hfirst c hc
    cases hc with
    | refl => exact accessible_twoFats hfirst
    | tail _ hlink =>
      have hrange := link_eq_some_iff.1 hlink
      exact accessible_twoFats (by omega)
  have hchain : ChainOf twoFats looped 4 [4, 5] := by decide +kernel
  have hpath := hchain.path (by decide)
  obtain ⟨d₂, hd₂, -⟩ := freeChain_frees_chain le_rfl (hacc 2 (by decide)) (Nat.lt_succ_self (2 ^ 28)) (k := 0)
  obtain ⟨d₄, hd₄, hfreed⟩ :=
    freeChain_frees_chain (by decide) (hacc 4 (by decide)) (Nat.lt_succ_self (2 ^ 28)) (k := 0)
  exact ⟨⟨d₂, hd₂⟩, d₄, hd₄, hfreed _ hpath⟩

end RustKernel.Drivers.Fat32
