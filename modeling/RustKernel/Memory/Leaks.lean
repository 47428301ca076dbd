import RustKernel.Memory.Owners

/-!
# Tables that do not come back

A new address space takes frames for its level-4 table, for the tables below it and for its pages. `destroy` knows the
pages, which are recorded, and the level-4 table; the level-3 table stays in use.
-/

namespace RustKernel.Memory

open Lib Fs
open AddressSpace (mem_frames getElem?_replaceMapping)

/-- A space that records data frames, in a memory where `t` is a level-3 table. -/
structure Keeping (t : ℕ) (m : PhysMem) (a : AddressSpace) (kind : ℕ → Kind) : Prop where
  layout : Layout m kind
  root : kind a.p4 = .table 4
  pages : ∀ page f : ℕ, a.mappedPages[page]? = some f → Mapped m a.p4 page ∧ kind f = .data
  table : kind t = .table 3

section Keeping

variable {t page : ℕ} {m m' : PhysMem} {a : AddressSpace} {kind kind' : ℕ → Kind}

/-- What `destroy` frees is a data frame or a level-4 table. -/
theorem Keeping.drop {ε : Type} (h : Keeping t m a kind) : (a.drop (ε := ε) m).Post (fun _ m' => m'.isUsed t = true)
    (fun _ _ => False) := by
  have hused : m.isUsed t = true := h.layout.isUsed h.table
  unfold AddressSpace.drop
  split_ifs
  · exact hused
  refine (destroy_post a m).imp_ok ?_
  rintro _ m' ⟨hfrees, -⟩
  refine (hfrees.used t).mpr ⟨hused, ?_⟩
  have htable := h.table
  rintro (⟨hmem, -⟩ | rfl)
  · obtain ⟨page, hpage⟩ := mem_frames.mp hmem
    cases ((h.pages page t hpage).2).symm.trans htable
  · cases h.root.symm.trans htable

theorem Keeping.evolves (h : Keeping t m a kind) (he : Evolves m kind m' kind') : Keeping t m' a kind' where
  layout := he.target
  root := he.kind_eq h.root
  pages := fun page f hf => by
    obtain ⟨hm, hd⟩ := h.pages page f hf
    exact ⟨he.mapped h.root hm, he.kind_eq hd⟩
  table := he.kind_eq h.table

theorem Keeping.record {g : ℕ} (h : Keeping t m a kind) (he : Evolves m kind m' kind') (hmapped : Mapped m' a.p4 page)
    (hdata : kind' g = .data) : Keeping t m' (a.replaceMapping page g) kind' := by
  have h' := h.evolves he
  refine ⟨h'.layout, h'.root, fun p f hp => ?_, h'.table⟩
  rcases getElem?_replaceMapping hp with ⟨rfl, rfl⟩ | hp
  · exact ⟨hmapped, hdata⟩
  · exact h'.pages p f hp

theorem mapAlloc_keeping {v : Vm} {fl : PageTableFlags} (h : Keeping t v.mem v.space kind) (hfl : MapFlags fl) :
    (AddressSpace.mapAlloc page fl v).Post (fun _ v' => ∃ kind', Keeping t v'.mem v'.space kind')
      (fun _ v' => ∃ kind', Keeping t v'.mem v'.space kind') := by
  refine (mapAlloc_post page h.layout h.root hfl).imp ?_ ?_
  · rintro f v' ⟨-, hlt, hsp, -, -, kind', p1, hmaps, hdata, -⟩
    rw [hsp]
    exact ⟨kind', h.record hmaps.steady.evolves ⟨p1, f, hmaps.walk, by rw [hmaps.leaf]; exact nextTable_mkEntry hlt hfl⟩ hdata⟩
  · rintro _ v' ⟨hsp, ⟨kind', hs⟩, -⟩
    rw [hsp]
    exact ⟨kind', h.evolves hs.evolves⟩

theorem Keeping.resolve (h : Keeping t m a kind) (hrec : ∀ f ∈ cowFrame m a.p4 page, a.mappedPages[page]? = some f) :
    (tryResolveCow a.p4 page m).Post
      (fun o m' => ∃ kind', Keeping t m' (match o with
        | none => a
        | some g => a.replaceMapping page g) kind') (fun _ m' => m' = m) := by
  cases hcow : cowFrame m a.p4 page with
  | none => exact (tryResolveCow_of_cowFrame_eq_none hcow).imp_ok (fun _ _ h => h.elim)
  | some f =>
    obtain ⟨hmapped, hdata⟩ := h.pages page f (hrec f hcow)
    obtain ⟨p1, hw, hf⟩ := nextTable_of_cowFrame hmapped hcow
    refine (tryResolveCow_post h.layout h.root hw hf (h.layout.isUsed hdata)).imp_ok ?_
    rintro o m' (⟨rfl, -, -, hs⟩ | ⟨g, rfl, -, -, kind', hc⟩)
    · exact ⟨kind, h.evolves hs.evolves⟩
    · exact ⟨kind', h.record hc.evolves (hc.evolves.mapped h.root hmapped) hc.data⟩

end Keeping

/-! ### Creating a space -/

/-- A space with a level-3 table that was a free frame of `m`. -/
def Leaking (m : PhysMem) (a : AddressSpace) (m' : PhysMem) : Prop :=
  ∃ t kind, m.isUsed t = false ∧ Keeping t m' a kind

section Creating

variable {m : PhysMem} {kind : ℕ → Kind} {a : AddressSpace}

theorem spawnSpace_leaking {cr3 : ℕ} (bin : List Byte) (hl : Layout m kind) (hcr3 : kind cr3 = .table 4) :
    (spawnSpace cr3 bin m).Post (fun r m' => Leaking m r.1 m') (fun _ m' => Wasted m m') := by
  refine Exec.post_bind ((newUser_post hl hcr3).imp_err fun _ _ h => h.2.2) ?_
  rintro a m₁ ⟨hempty, -, kind₁, ho⟩
  obtain ⟨t, hfree, ht⟩ := ho.table
  have h₁ : Keeping t m₁ a kind₁ := ⟨ho.steady.target, ho.root, fun page f hf => by simp [hempty] at hf, ht⟩
  let I (v : Vm) : Prop := ∃ kind', Keeping t v.mem v.space kind'
  have hmap : ∀ v page writable, I v →
      (AddressSpace.mapAlloc page (pageFlags writable) v).Post (fun _ => I) (fun _ => I) := by
    rintro v page writable ⟨kind', hv⟩
    exact mapAlloc_keeping hv (mapFlags_pageFlags writable)
  have hwrite : ∀ (v : Vm) (page f off : ℕ) (bs : List Byte), I v → v.space.mappedPages[page]? = some f →
      I { v with mem := v.mem.writeBytes f off bs } := by
    rintro v page f off bs ⟨kind', hv⟩ hf
    exact ⟨kind', hv.evolves (Keeps.writeBytes hv.layout (hv.pages page f hf).2 off bs).evolves⟩
  have hload := loadProgram_post hmap hwrite (fun _ h => h) bin ⟨m₁, a⟩ ⟨kind₁, h₁⟩
  unfold withSpace
  cases hres : loadProgram bin ⟨m₁, a⟩ with
  | ok r v =>
    obtain ⟨kind', hv⟩ := hload.ok hres
    exact ⟨t, kind', hfree, hv⟩
  | err e v =>
    obtain ⟨kind', hv⟩ := hload.err hres
    refine Exec.post_bind hv.drop.never ?_
    exact fun _ m' hused => .inr ⟨ho.left, t, hfree, hused⟩
  | panic => trivial
  | diverge => trivial

theorem cloneCow_leaking (hl : Layout m kind) (hk : kind a.p4 = .table 4)
    (hm : ∀ page f : ℕ, a.mappedPages[page]? = some f → Mapped m a.p4 page ∧ kind f = .data) :
    (a.cloneCow m).Post (fun c m' => Leaking m c m') (fun _ _ => True) := by
  refine (cloneCow_post hl hk fun page f hf => (hm page f hf).1).imp ?_ fun _ _ _ => trivial
  rintro c m' ⟨hpages, -, kind', ho⟩
  obtain ⟨t, hfree, ht⟩ := ho.table
  refine ⟨t, kind', hfree, ho.steady.target, ho.root, fun page f hf => ?_, ht⟩
  rw [hpages] at hf
  obtain ⟨hmapped, hd⟩ := hm page f hf
  exact ⟨ho.mapped hk hmapped, ho.steady.kind_eq hd⟩

end Creating

end RustKernel.Memory
