import RustKernel.Memory.Boot
import RustKernel.Memory.Roots

/-!
# Frame reference counts

The four operations that change `FRAME_REFCOUNT` — `map_alloc`, `clone_cow`,
`try_resolve_cow` and `destroy` — over any number of address spaces.
-/

namespace RustKernel.Memory

open Lib
open AddressSpace (mem_frames getElem?_replaceMapping)

/-! ### The system -/

structure Spaces where
  mem : PhysMem
  kernelP4 : ℕ
  spaces : Std.ExtTreeMap ℕ AddressSpace
  handed : Finset ℕ

inductive Op where
  | newUser (i : ℕ) (creator : Option ℕ)
  | mapAlloc (i page : ℕ) (writable : Bool)
  | cloneCow (i j : ℕ)
  | fault (i page : ℕ)
  | destroy (i : ℕ)

namespace Spaces

def cr3 (s : Spaces) : Option ℕ → Option ℕ
  | none => some s.kernelP4
  | some i => (s.spaces[i]?).map AddressSpace.p4

def step (s : Spaces) : Op → Option Spaces
  | .newUser i creator =>
    if s.spaces.contains i then none
    else (s.cr3 creator).bind fun cr3 =>
      (AddressSpace.newUser cr3 s.mem).next (fun a m => { s with mem := m, spaces := s.spaces.insert i a })
        (fun _ m => { s with mem := m })
  | .mapAlloc i page writable =>
    (s.spaces[i]?).bind fun a =>
      (AddressSpace.mapAlloc page (pageFlags writable) ⟨s.mem, a⟩).next
        (fun f v => { s with mem := v.mem, spaces := s.spaces.insert i v.space, handed := insert f s.handed })
        (fun _ v => { s with mem := v.mem, spaces := s.spaces.insert i v.space })
  | .cloneCow i j =>
    if s.spaces.contains j then none
    else (s.spaces[i]?).bind fun a =>
      (a.cloneCow s.mem).next (fun c m => { s with mem := m, spaces := s.spaces.insert j c })
        (fun _ m => { s with mem := m })
  | .fault i page =>
    (s.spaces[i]?).bind fun a =>
      (tryResolveCow a.p4 page s.mem).next
        (fun o m => match o with
          | none => { s with mem := m }
          | some g =>
            { s with mem := m, spaces := s.spaces.insert i (a.replaceMapping page g), handed := insert g s.handed })
        (fun _ m => { s with mem := m })
  | .destroy i =>
    (s.spaces[i]?).bind fun a =>
      (a.destroy (ε := Empty) s.mem).next
        (fun _ m => { s with mem := m, spaces := s.spaces.erase i, handed := s.handed.filter (m.isUsed ·) })
        (fun e _ => nomatch e)

def holders (s : Spaces) (f : ℕ) : ℕ := (s.spaces.toList.map fun x => x.2.frames.count f).sum

def Booted (s : Spaces) : Prop :=
  s.spaces = ∅ ∧ s.handed = ∅ ∧ ∃ kind, Layout s.mem kind ∧ kind s.kernelP4 = .table 4

def Exact (s : Spaces) : Op → Prop
  | .fault i page => ∀ a ∈ s.spaces[i]?, ∀ f ∈ cowFrame s.mem a.p4 page, a.mappedPages[page]? = some f
  | .cloneCow i _ => ∀ a ∈ s.spaces[i]?, ∀ f ∈ a.frames, s.holders f + a.frames.count f ≤ 255
  | _ => True

/-! ### The invariant -/

structure Inv (s : Spaces) (kind : ℕ → Kind) : Prop where
  roots : Roots s.mem kind s.kernelP4 fun i : ℕ => s.spaces[i]?
  mapped : PagesMapped s.mem fun i : ℕ => s.spaces[i]?
  recorded : ∀ (i : ℕ) (a : AddressSpace) (f : ℕ), s.spaces[i]? = some a → f ∈ a.frames → f ∈ s.handed
  data : ∀ f ∈ s.handed, kind f = .data
  count : ∀ f ∈ s.handed, s.mem.refcount f = s.holders f

variable {s s' : Spaces} {kind kind' : ℕ → Kind} {m : PhysMem} {i page f : ℕ} {a b : AddressSpace}

theorem holders_eq (h : s.spaces[i]? = some a) (f : ℕ) : s.holders f =
    a.frames.count f + ((s.spaces.erase i).toList.map fun x => x.2.frames.count f).sum :=
  TreeMap.sum_toList h fun x => x.2.frames.count f

theorem Inv.count_eq_zero (h : Inv s kind) (hf : f ∉ s.handed) (hi : s.spaces[i]? = some a) : a.frames.count f = 0 :=
  List.count_eq_zero.mpr fun hmem => hf (h.recorded i a f hi hmem)

theorem Inv.holders_eq_zero (h : Inv s kind) (hf : f ∉ s.handed) : s.holders f = 0 := by
  refine List.sum_eq_zero fun n hn => ?_
  obtain ⟨⟨i, a⟩, hmem, rfl⟩ := List.mem_map.mp hn
  exact h.count_eq_zero hf (Std.ExtTreeMap.mem_toList_iff_getElem?_eq_some.mp hmem)

theorem Inv.not_mem_handed (h : Inv s kind) (hf : s.mem.isUsed f = false) : f ∉ s.handed := by
  intro hmem
  have := h.roots.layout.isUsed (h.data f hmem)
  rw [hf] at this
  cases this

/-! ### What each call keeps -/

theorem Inv.evolves (h : Inv s kind) (he : Evolves s.mem kind m kind')
    (hrc : ∀ f ∈ s.handed, m.refcount f = s.mem.refcount f) : Inv { s with mem := m } kind' :=
  ⟨h.roots.evolves he, h.mapped.evolves h.roots he, h.recorded, fun f hf => he.kind_eq (h.data f hf),
    fun f hf => (hrc f hf).trans (h.count f hf)⟩

theorem Inv.add (h : Inv s kind) (he : Evolves s.mem kind m kind') (hi : s.spaces[i]? = none)
    (hfresh : s.mem.isUsed a.p4 = false) (hk : kind' a.p4 = .table 4)
    (ha : ∀ page f : ℕ, a.mappedPages[page]? = some f → Mapped m a.p4 page ∧ f ∈ s.handed)
    (hrc : ∀ f ∈ s.handed, m.refcount f = s.mem.refcount f + a.frames.count f) :
    Inv { s with mem := m, spaces := s.spaces.insert i a } kind' := by
  obtain ⟨hne, hother⟩ := h.roots.ne_of_not_isUsed hfresh
  refine ⟨?_, ?_, fun j b f hj hf => ?_, fun f hf => he.kind_eq (h.data f hf), fun f hf => ?_⟩
  · rw [TreeMap.getElem?_insert_eq_update]
    exact (h.roots.evolves he).add hk hne hother
  · rw [TreeMap.getElem?_insert_eq_update]
    exact (h.mapped.evolves h.roots he).update fun page f hf => (ha page f hf).1
  · rcases TreeMap.getElem?_insert_eq_some.mp hj with ⟨-, rfl⟩ | ⟨-, hj⟩
    · obtain ⟨page, hpage⟩ := mem_frames.mp hf
      exact (ha page f hpage).2
    · exact h.recorded j b f hj hf
  · have hsum := TreeMap.sum_toList_insert s.spaces i a fun x => x.2.frames.count f
    rw [TreeMap.erase_of_getElem?_eq_none hi] at hsum
    rw [hrc f hf, h.count f hf, Nat.add_comm]
    exact hsum.symm

theorem Inv.set {handed : Finset ℕ} (h : Inv s kind) (he : Evolves s.mem kind m kind') (hi : s.spaces[i]? = some a)
    (hp4 : b.p4 = a.p4) (hb : ∀ page f : ℕ, b.mappedPages[page]? = some f → Mapped m b.p4 page ∧ f ∈ handed)
    (hsub : s.handed ⊆ handed) (hdata : ∀ f ∈ handed, kind' f = .data)
    (hrc : ∀ f ∈ handed, m.refcount f + a.frames.count f = s.holders f + b.frames.count f) :
    Inv { s with mem := m, spaces := s.spaces.insert i b, handed := handed } kind' := by
  refine ⟨?_, ?_, fun j c f hj hf => ?_, hdata, fun f hf => ?_⟩
  · rw [TreeMap.getElem?_insert_eq_update]
    exact (h.roots.evolves he).set hi hp4
  · rw [TreeMap.getElem?_insert_eq_update]
    exact (h.mapped.evolves h.roots he).update fun page f hf => (hb page f hf).1
  · rcases TreeMap.getElem?_insert_eq_some.mp hj with ⟨-, rfl⟩ | ⟨-, hj⟩
    · obtain ⟨page, hpage⟩ := mem_frames.mp hf
      exact (hb page f hpage).2
    · exact hsub (h.recorded j c f hj hf)
  · have hold := holders_eq hi f
    have hsum := TreeMap.sum_toList_insert s.spaces i b fun x => x.2.frames.count f
    have := hrc f hf
    dsimp only at hsum
    show m.refcount f = ((s.spaces.insert i b).toList.map fun x => x.2.frames.count f).sum
    omega

theorem incAll_apply : ∀ (l : List ℕ) (rc : FrameRefcount) (f : ℕ), (f ∈ l → rc f + l.count f ≤ 255) →
    rc.incAll l f = rc f + l.count f
  | [], rc, f, _ => rfl
  | g :: l, rc, f, h => by
    have hinc : rc.inc g f = rc f + if f = g then 1 else 0 := by
      rw [FrameRefcount.inc_apply]
      split_ifs with hfg hlt
      · rfl
      · have := h (by rw [hfg]; exact List.mem_cons_self ..)
        rw [count_cons_eq, if_pos hfg] at this
        omega
      · rfl
    have htail : f ∈ l → rc.inc g f + l.count f ≤ 255 := fun hmem => by
      have := h (List.mem_cons_of_mem _ hmem)
      rw [count_cons_eq] at this
      omega
    show (rc.inc g).incAll l f = _
    rw [incAll_apply l _ f htail, count_cons_eq]
    omega

theorem getElem?_eq_none_of_not_contains (h : ¬ s.spaces.contains i = true) : s.spaces[i]? = none := by simpa using h

theorem Inv.newUser {creator : Option ℕ} (h : Inv s kind) (hs : s.step (.newUser i creator) = some s') :
    ∃ kind', Inv s' kind' := by
  simp only [step] at hs
  split_ifs at hs with hc
  obtain ⟨cr3, hcr3, hnext⟩ := Option.bind_eq_some_iff.mp hs
  have hk : kind cr3 = .table 4 := by
    cases creator with
    | none =>
      cases hcr3
      exact h.roots.kernel
    | some j =>
      obtain ⟨a, ha, rfl⟩ := Option.map_eq_some_iff.mp hcr3
      exact h.roots.root j a ha
  rcases (newUser_post h.roots.layout hk).next hnext with
    ⟨a, m, -, ⟨hempty, hrc, kind', ho⟩, rfl⟩ | ⟨e, m, -, ⟨hrc, ⟨kind', hsteady⟩, -⟩, rfl⟩
  · refine ⟨kind', h.add ho.steady.evolves (getElem?_eq_none_of_not_contains hc) ho.fresh ho.root ?_ fun f _ => ?_⟩
    · intro page f hf
      simp [hempty] at hf
    · have hnil : a.frames = [] := by simp [AddressSpace.frames, hempty]
      rw [hrc, hnil, List.count_nil, Nat.add_zero]
  · exact ⟨kind', h.evolves hsteady.evolves fun f _ => by rw [hrc]⟩

theorem Inv.mapAlloc {writable : Bool} (h : Inv s kind) (hs : s.step (.mapAlloc i page writable) = some s') :
    ∃ kind', Inv s' kind' := by
  obtain ⟨a, hi, hnext⟩ := Option.bind_eq_some_iff.mp hs
  have hroot := h.roots.root i a hi
  rcases (mapAlloc_post (v := ⟨s.mem, a⟩) page h.roots.layout hroot (mapFlags_pageFlags writable)).next hnext with
    ⟨f, v, -, ⟨hfresh, hlt, hsp, hnot, hrc, kind', p1, hmaps, hdata, -⟩, rfl⟩ |
    ⟨e, v, -, ⟨hsp, ⟨kind', hsteady⟩, hrc⟩, rfl⟩
  · have hf := h.not_mem_handed hfresh
    have hnone : a.mappedPages[page]? = none := by
      by_contra hsome
      obtain ⟨g, hg⟩ := Option.ne_none_iff_exists'.mp hsome
      exact hnot (h.mapped i a page g hi hg)
    have he := hmaps.steady.evolves
    refine ⟨kind', h.set he hi (by rw [hsp]; rfl) ?_ (Finset.subset_insert ..) ?_ fun g hg => ?_⟩
    · intro p g hg
      rw [hsp] at hg ⊢
      rcases getElem?_replaceMapping hg with ⟨rfl, rfl⟩ | hg
      · refine ⟨⟨p1, g, hmaps.walk, ?_⟩, Finset.mem_insert_self ..⟩
        rw [hmaps.leaf]
        exact nextTable_mkEntry hlt (mapFlags_pageFlags writable)
      · exact ⟨he.mapped hroot (h.mapped i a p g hi hg),
          Finset.mem_insert_of_mem (h.recorded i a g hi (mem_frames.mpr ⟨p, hg⟩))⟩
    · intro g hg
      rcases Finset.mem_insert.mp hg with rfl | hg
      · exact hdata
      · exact he.kind_eq (h.data g hg)
    · rw [hsp, hrc, AddressSpace.count_frames_replaceMapping_new hnone]
      by_cases hgf : g = f
      · subst hgf
        rw [h.count_eq_zero hf hi, h.holders_eq_zero hf]
        simp [FrameRefcount.set]
      · have hmem := (Finset.mem_insert.mp hg).resolve_left hgf
        rw [← h.count g hmem]
        simp [FrameRefcount.set, hgf]
  · -- the frame taken, if any, was not handed out
    rw [hsp, TreeMap.insert_of_getElem?_eq_some hi]
    exact ⟨kind', h.evolves hsteady.evolves fun g hg => hrc g (h.roots.layout.isUsed (h.data g hg))⟩

theorem Inv.cloneCow {j : ℕ} (h : Inv s kind) (hex : s.Exact (.cloneCow i j))
    (hs : s.step (.cloneCow i j) = some s') : ∃ kind', Inv s' kind' := by
  simp only [step] at hs
  split_ifs at hs with hc
  obtain ⟨a, hi, hnext⟩ := Option.bind_eq_some_iff.mp hs
  have hmapped : ∀ page f, a.mappedPages[page]? = some f → Mapped s.mem a.p4 page := fun page f hf => h.mapped i a page f hi hf
  rcases (cloneCow_post h.roots.layout (h.roots.root i a hi) hmapped).next hnext with
    ⟨c, m, -, ⟨hpages, hrc, kind', ho⟩, rfl⟩ | ⟨e, m, -, ⟨hrc, kind', hsteady⟩, rfl⟩
  · have hframes : c.frames = a.frames := by rw [AddressSpace.frames, hpages]; rfl
    refine ⟨kind', h.add ho.steady.evolves (getElem?_eq_none_of_not_contains hc) ho.fresh ho.root ?_ fun f hf => ?_⟩
    · intro page f hf
      rw [hpages] at hf
      exact ⟨ho.mapped (h.roots.root i a hi) (hmapped page f hf), h.recorded i a f hi (mem_frames.mpr ⟨page, hf⟩)⟩
    · rw [hrc, hframes]
      refine incAll_apply _ _ _ fun hmem => ?_
      rw [h.count f hf]
      exact hex a hi f hmem
  · exact ⟨kind', h.evolves hsteady.evolves fun f _ => by rw [hrc]⟩

section

variable (h : Inv s kind)
include h

theorem Inv.cowFrame (hex : s.Exact (.fault i page)) (hi : s.spaces[i]? = some a)
    (hcow : cowFrame s.mem a.p4 page = some f) : a.mappedPages[page]? = some f ∧ f ∈ s.handed ∧
      ∃ p1, walk s.mem a.p4 page = .ok p1 ∧ nextTable (s.mem.words p1 (pageIndex 1 page)) = .ok f := by
  have hrec := hex a hi f hcow
  exact ⟨hrec, h.recorded i a f hi (mem_frames.mpr ⟨page, hrec⟩), nextTable_of_cowFrame (h.mapped i a page f hi hrec) hcow⟩

theorem Inv.fault (hex : s.Exact (.fault i page)) (hs : s.step (.fault i page) = some s') :
    ∃ kind', Inv s' kind' := by
  obtain ⟨a, hi, hnext⟩ := Option.bind_eq_some_iff.mp hs
  cases hcow : Memory.cowFrame s.mem a.p4 page with
  | none =>
    rcases (tryResolveCow_of_cowFrame_eq_none hcow).next hnext with ⟨_, _, -, hfalse, -⟩ | ⟨e, m, -, rfl, rfl⟩
    · exact hfalse.elim
    · exact ⟨kind, h⟩
  | some f =>
    obtain ⟨hrec, hmem, p1, hw, hf⟩ := h.cowFrame hex hi hcow
    have hroot := h.roots.root i a hi
    have hused : s.mem.isUsed f = true := h.roots.layout.isUsed (h.data f hmem)
    rcases (tryResolveCow_post h.roots.layout hroot hw hf hused).next hnext with
      ⟨o, m, -, ⟨rfl, -, hrc, hsteady⟩ | ⟨g, rfl, hgt, hrc, kind', hcopies⟩, rfl⟩ | ⟨e, m, -, rfl, rfl⟩
    · exact ⟨kind, h.evolves hsteady.evolves fun f _ => by rw [hrc]⟩
    · -- the page moves to the copy
      have he := hcopies.evolves
      have hg := h.not_mem_handed hcopies.fresh
      have hgf : g ≠ f := fun heq => hg (heq ▸ hmem)
      refine ⟨kind', h.set he hi rfl ?_ (Finset.subset_insert ..) ?_ fun k hk => ?_⟩
      · intro p k hk
        rcases getElem?_replaceMapping hk with ⟨rfl, rfl⟩ | hk
        · exact ⟨he.mapped hroot (h.mapped i a p f hi hrec), Finset.mem_insert_self ..⟩
        · exact ⟨he.mapped hroot (h.mapped i a p k hi hk),
            Finset.mem_insert_of_mem (h.recorded i a k hi (mem_frames.mpr ⟨p, hk⟩))⟩
      · intro k hk
        rcases Finset.mem_insert.mp hk with rfl | hk
        · exact hcopies.data
        · exact he.kind_eq (h.data k hk)
      · have hcount := AddressSpace.count_frames_replaceMapping hrec g k
        rw [hrc]
        by_cases hkg : k = g
        · subst hkg
          rw [if_neg hgf, if_pos rfl, h.count_eq_zero hg hi] at hcount
          rw [h.holders_eq_zero hg, h.count_eq_zero hg hi, FrameRefcount.set, Function.update_self]
          omega
        · have hset : ((s.mem.refcount.dec f).set g 1) k = if k = f then s.mem.refcount k - 1
              else s.mem.refcount k := by
            rw [FrameRefcount.set, Function.update_of_ne hkg, FrameRefcount.dec_apply]
          have hrck := h.count k ((Finset.mem_insert.mp hk).resolve_left hkg)
          rw [if_neg hkg] at hcount
          rw [hset]
          by_cases hkf : k = f
          · subst hkf
            rw [if_pos rfl] at hcount ⊢
            omega
          · rw [if_neg hkf] at hcount ⊢
            omega
    · exact ⟨kind, h⟩

theorem Inv.frees (hi : s.spaces[i]? = some a) {f : ℕ} (hf : f ∈ s.handed) :
    ((f ∈ a.frames ∧ s.mem.refcount f ≤ a.frames.count f) ∨ f = a.p4) ↔
      0 < a.frames.count f ∧ ((s.spaces.erase i).toList.map fun x => x.2.frames.count f).sum = 0 := by
  have hne := ne_of_kind (h.data f hf) (h.roots.root i a hi)
  rw [h.count f hf, holders_eq hi, List.count_pos_iff]
  constructor
  · rintro (⟨hmem, hle⟩ | hp4)
    · exact ⟨hmem, by omega⟩
    · exact absurd hp4 hne
  · rintro ⟨hmem, hzero⟩
    exact .inl ⟨hmem, by omega⟩

theorem Inv.destroy (hs : s.step (.destroy i) = some s') : ∃ kind', Inv s' kind' := by
  obtain ⟨a, hi, hnext⟩ := Option.bind_eq_some_iff.mp hs
  rcases (destroy_post a s.mem).next hnext with ⟨_, m, -, ⟨hfrees, hrc⟩, rfl⟩ | ⟨e, -⟩
  swap
  · exact e.elim
  have hdata : ∀ f ∈ a.frames, kind f = .data := fun f hf => h.data f (h.recorded i a f hi hf)
  have hsub : ∀ {j : ℕ} {b : AddressSpace}, (s.spaces.erase i)[j]? = some b → s.spaces[j]? = some b := fun hj =>
    (TreeMap.getElem?_erase_eq_some.mp hj).2
  -- what another space records stays in use
  have hkeep : ∀ (j : ℕ) (b : AddressSpace) (f : ℕ), (s.spaces.erase i)[j]? = some b → f ∈ b.frames →
      m.isUsed f = true := fun j b f hj hf => by
    have hmem := h.recorded j b f (hsub hj) hf
    refine (hfrees.used f).mpr ⟨h.roots.layout.isUsed (h.data f hmem), fun hF => ?_⟩
    have hzero := ((h.frees hi hmem).mp hF).2
    rw [TreeMap.sum_toList hj] at hzero
    have hpos := List.count_pos_iff.mpr hf
    dsimp only at hzero
    omega
  have hroots := h.roots.remove hi hfrees fun f hf => hf.imp (fun hf => hdata f hf.1) id
  rw [← TreeMap.getElem?_erase_eq_update] at hroots
  refine ⟨_, hroots, ?_, fun j b f hj hf => ?_, fun f hf => ?_, fun f hf => ?_⟩
  · rw [TreeMap.getElem?_erase_eq_update]
    exact h.mapped.remove hfrees.words
  · exact Finset.mem_filter.mpr ⟨h.recorded j b f (hsub hj) hf, hkeep j b f hj hf⟩
  · obtain ⟨hmem, hused⟩ := Finset.mem_filter.mp hf
    have hk := h.data f hmem
    rw [freeKinds_of_not ((hfrees.used f).mp hused).2, hk]
    intro level hlevel
    cases hk.symm.trans hlevel
  · obtain ⟨hmem, -⟩ := Finset.mem_filter.mp hf
    have hcount := h.count f hmem
    rw [holders_eq hi] at hcount
    show m.refcount f = ((s.spaces.erase i).toList.map fun x => x.2.frames.count f).sum
    rw [hrc]
    omega

end

theorem Inv.step {op : Op} (h : Inv s kind) (hex : s.Exact op) (hs : s.step op = some s') : ∃ kind', Inv s' kind' := by
  cases op with
  | newUser i creator => exact h.newUser hs
  | mapAlloc i page writable => exact h.mapAlloc hs
  | cloneCow i j => exact h.cloneCow hex hs
  | fault i page => exact h.fault hex hs
  | destroy i => exact h.destroy hs

theorem Booted.inv (h : Booted s) : ∃ kind, Inv s kind := by
  obtain ⟨hspaces, hhanded, kind, hl, hk⟩ := h
  have hnone : ∀ (i : ℕ) (a : AddressSpace), ¬ s.spaces[i]? = some a := fun i a hi => by simp [hspaces] at hi
  exact ⟨kind, ⟨hl, hk, fun i a hi => absurd hi (hnone i a), fun i a hi => absurd hi (hnone i a),
    fun i j a b hi => absurd hi (hnone i a)⟩, fun i a _ _ hi => absurd hi (hnone i a),
    fun i a f hi => absurd hi (hnone i a), by simp [hhanded], by simp [hhanded]⟩

end Spaces

open Spaces

/-- **Exact reference counts.** After any run of exact calls from boot, the count of every frame
handed out is the number of pages recorded with it; hence `destroy` frees such a frame
exactly when its last mapping disappears, and `try_resolve_cow` takes the in-place path only
when the faulting space is the sole holder. -/
theorem refcount_eq_holders {s₀ s : Spaces} {tr : List (Spaces × Op)} (hboot : s₀.Booted)
    (hrun : Run Spaces.step s₀ tr s) (hexact : ∀ x ∈ tr, x.1.Exact x.2) :
    (∀ f ∈ s.handed, s.mem.isUsed f = true ∧ s.mem.refcount f = s.holders f) ∧
    (∀ i s', s.step (.destroy i) = some s' → ∀ f ∈ s.handed,
      (s'.mem.isUsed f = false ↔ 0 < s.holders f ∧ s'.holders f = 0)) ∧
    (∀ i a page m, s.spaces[i]? = some a → s.Exact (.fault i page) →
      tryResolveCow a.p4 page s.mem = .ok none m → ∃ f, a.mappedPages[page]? = some f ∧ s.holders f = 1) := by
  obtain ⟨kind, h⟩ : ∃ kind, Inv s kind :=
    hrun.invariant (I := fun s => ∃ kind, Inv s kind) hboot.inv hexact fun _ _ _ ⟨_, h⟩ hex hs => h.step hex hs
  have hused : ∀ f ∈ s.handed, s.mem.isUsed f = true := fun f hf =>
    h.roots.layout.isUsed (h.data f hf)
  refine ⟨fun f hf => ⟨hused f hf, h.count f hf⟩, fun i s' hs f hf => ?_, fun i a page m hi hex hok => ?_⟩
  · obtain ⟨a, hi, hnext⟩ := Option.bind_eq_some_iff.mp hs
    rcases (destroy_post a s.mem).next hnext with ⟨_, m, -, ⟨hfrees, -⟩, rfl⟩ | ⟨e, -⟩
    · show m.isUsed f = false ↔ _ ∧ ((s.spaces.erase i).toList.map fun x => x.2.frames.count f).sum = 0
      rw [← Bool.not_eq_true, hfrees.used, and_iff_right (hused f hf), h.frees hi hf, holders_eq hi]
      omega
    · exact e.elim
  · cases hcow : Memory.cowFrame s.mem a.p4 page with
    | none => exact ((tryResolveCow_of_cowFrame_eq_none hcow).ok hok).elim
    | some f =>
      obtain ⟨hrec, hmem, p1, hw, hf⟩ := h.cowFrame hex hi hcow
      have hpost := (tryResolveCow_post h.roots.layout (h.roots.root i a hi) hw hf (hused f hmem)).ok hok
      rcases hpost with ⟨-, hle, -⟩ | ⟨g, hg, -⟩
      · have hpos : 0 < a.frames.count f := List.count_pos_iff.mpr (AddressSpace.mem_frames.mpr ⟨page, hrec⟩)
        have hcount := h.count f hmem
        have hsplit := holders_eq hi f
        exact ⟨f, hrec, by omega⟩
      · cases hg

def smallSpaces : Spaces := { mem := smallMachine, kernelP4 := 272, spaces := ∅, handed := ∅ }

theorem booted_smallSpaces : smallSpaces.Booted :=
  ⟨rfl, rfl, bootKinds 272 273 274, bootTables_smallMachine.layout, bootKinds_p4⟩

instance (s : Spaces) (op : Op) : Decidable (s.Exact op) := by
  unfold Spaces.Exact
  split <;> infer_instance

def forkAndWrite : List Op := [.newUser 0 none, .mapAlloc 0 0x40000 true, .cloneCow 0 1, .fault 0 0x40000]

/-- After a fork and a write of the parent, each of the two frames has its one holder. -/
theorem refcount_eq_holders_forkAndWrite : ∃ s tr, smallSpaces.Booted ∧ Run Spaces.step smallSpaces tr s ∧
    (∀ x ∈ tr, x.1.Exact x.2) ∧ s.handed = {4098, 4103} ∧ s.mem.refcount 4103 = s.holders 4103 ∧
    s.holders 4103 = 1 := by
  have hexec : (exec Spaces.step Spaces.Exact smallSpaces forkAndWrite).any fun s =>
      s.handed = {4098, 4103} ∧ s.holders 4103 = 1 := by
    decide +kernel
  obtain ⟨s, hrun, hexact, hhanded, hone⟩ := run_of_any hexec
  have h := (refcount_eq_holders booted_smallSpaces hrun hexact).1 4103 (by rw [hhanded]; decide)
  exact ⟨s, _, booted_smallSpaces, hrun, hexact, hhanded, h.2, hone⟩

def forkTwice : List Op := forkAndWrite ++ [.cloneCow 0 2, .fault 1 0x40000]

/-- **The counts are not exact in general.** The first child's fault finds in the leaf it shares
with its parent the frame the parent was given, and drops a reference to it: the frame is
counted once and recorded by the parent and its second child. -/
theorem refcount_lt_holders : ∃ s tr, smallSpaces.Booted ∧ Run Spaces.step smallSpaces tr s ∧
    4103 ∈ s.handed ∧ s.mem.refcount 4103 = 1 ∧ s.holders 4103 = 2 := by
  have hexec : (exec Spaces.step (fun _ _ => True) smallSpaces forkTwice).any fun s =>
      4103 ∈ s.handed ∧ s.mem.refcount 4103 = 1 ∧ s.holders 4103 = 2 := by
    decide +kernel
  obtain ⟨s, hrun, -, hs⟩ := run_of_any hexec
  exact ⟨s, _, booted_smallSpaces, hrun, hs⟩

end RustKernel.Memory
