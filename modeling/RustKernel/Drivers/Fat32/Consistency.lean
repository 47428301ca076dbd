import Mathlib.Data.List.Forall2
import RustKernel.Drivers.Fat32.WriteRead
import RustKernel.Lib.Run

/-!
# The shape of a volume

A volume is a root directory and the files its entries name, each a chain of clusters. A layout of the volume
is the list of these chains; it is consistent when no cluster occurs twice in them.
-/

namespace RustKernel.Drivers.Fat32

open Lib Exec Ata
open List (length_cons length_drop length_take mem_append_right append_assoc mem_append mem_append_left nodup_append'
  mem_cons filter_append append_nil)

variable {d : Disk} {fs : Fat32} {d' : Disk} {op : FileOp}

section Geometry

variable {fs : Fat32} {fault : ℕ → ℕ → Option String} {s s' : ℕ → Sector}
variable {name e : List Byte} {cs : List ℕ} {E : List (List Byte)} {L : List (List ℕ)} {R : List ℕ} {s₃ : ℕ → Sector}
  {b : List Byte} {A B : List (List Byte)} {x : List Byte} {R' fr : List ℕ} {size : ℕ}

/-! ### Removing an entry -/

def deleted (x : List Byte) : List Byte := 0xE5#8 :: x.drop 1

theorem first_deleted (x : List Byte) : first (deleted x) = 0xE5 := rfl

theorem splice_deleted {buf : List Byte} {off : ℕ} (h : off + 32 ≤ buf.length) :
    splice buf off [0xE5#8] = splice buf off (deleted ((buf.drop off).take 32)) := by
  have hlen : (deleted ((buf.drop off).take 32)).length = 32 := by
    simp only [deleted, length_cons, length_drop, length_take]
    omega
  have htail : buf.drop (off + 1) = ((buf.drop off).take 32).drop 1 ++ buf.drop (off + 32) := by
    have hcut := List.take_append_drop 32 (buf.drop off)
    rw [List.drop_drop] at hcut
    have hpos : 1 ≤ ((buf.drop off).take 32).length := by
      rw [length_take, length_drop]
      omega
    rw [← List.drop_drop, ← hcut, List.drop_append_of_le_length hpos]
    simp [hcut]
  rw [splice, splice, hlen, List.length_singleton, htail, deleted]
  simp

theorem unlinkScan_some : ∀ {L : List (List Byte)} {idx i : ℕ},
    unlinkScan name L idx = .ok (some i) → ∃ A x B, L = A ++ x :: B ∧ i = idx + A.length ∧
      first x ≠ 0 ∧ attrs x ≠ 0x0F ∧ x.take 11 = name
  | [], _, _, h => by cases h
  | e :: L, idx, i, h => by
    have hlater : unlinkScan name L (idx + 1) = .ok (some i) → ∃ A x B, e :: L = A ++ x :: B ∧
        i = idx + A.length ∧ first x ≠ 0 ∧ attrs x ≠ 0x0F ∧ x.take 11 = name := by
      intro h
      obtain ⟨A, x, B, rfl, hi, hx⟩ := unlinkScan_some h
      exact ⟨e :: A, x, B, rfl, by rw [length_cons]; omega, hx⟩
    rw [unlinkScan] at h
    split_ifs at h with hzero hlfn hname
    · exact hlater h
    · cases h
      exact ⟨[], e, L, rfl, rfl, hzero, hlfn, hname⟩
    · exact hlater h

theorem post_unlinkLoop (g : fs.Geometry fault) (hname : Name83 name) :
    ∀ {fuel cur k : ℕ} {s : ℕ → Sector} {R U : List ℕ}, ChainOf fs s cur R → (∀ y ∈ R, y ∈ U) → OwnChains fs name s R U →
      (fs.unlinkLoop name fuel cur ⟨s, k, fault⟩).Post
        (fun _ d => ∃ s' k' A x B fr, d = ⟨s', k', fault⟩ ∧ (∀ y ∈ fr, y ∉ U) ∧ Stores name x ∧
          (firstCluster x < 2 ∧ fr = [] ∨ ChainOf fs s (firstCluster x) fr) ∧
          SlotWritten fs (deleted x) s s' cur R A x B fr) (fun _ _ => True) := by
  have hN := g.numClusters_lt
  intro fuel
  induction fuel with
  | zero => intro cur k s R U _ _ _; trivial
  | succ fuel ih =>
    intro cur k s R U hch hRU hown
    obtain ⟨h2, hc⟩ := hch.head_range
    unfold unlinkLoop
    rw [g.clusterToLba_eq h2 hc]
    refine Runs.pure.post_bind fun k₁ => (runs_readAll g h2 hc).post_bind fun k₂ => ?_
    cases hscan : unlinkScan name (slots (fs.cluster s cur)) 0 with
    | error e => trivial
    | ok o =>
      cases o with
      | some idx =>
        obtain ⟨A, x, B₀, hslots, hidx, hzero, hattr, htake⟩ := unlinkScan_some hscan
        rw [Nat.zero_add] at hidx
        subst hidx
        have hstores : Stores name x := ⟨hzero, hattr, (Name83.first_ne (htake.symm ▸ hname)).2, htake⟩
        obtain ⟨fr, hfr, hdisj⟩ := hown x (mem_chainSlots hch (by rw [hslots]; simp)) hstores
        have hlen : 32 * A.length + 32 ≤ (fs.cluster s cur).length := by
          have := slot_lt hslots
          rw [length_cluster_eq]
          omega
        have hx32 : x.length = 32 := by
          rw [← slot_eq hslots, length_take, length_drop]
          omega
        have hnew : (deleted x).length = 32 := by
          rw [deleted, length_cons, length_drop]
          omega
        simp only [slot_eq hslots, splice_deleted hlen]
        refine post_bind ((post_freeChain g hfr).imp_err fun _ _ _ => trivial) ?_
        rintro _ _ ⟨s₁, k₁, rfl, hcleared⟩
        obtain ⟨s', B, hrun, hw⟩ := runs_writeSlot g hch hslots hnew (fun y hy hin => hdisj y hy (hRU y hin)) hcleared
        exact hrun.post fun k' => ⟨s', k', A, x, B, fr, rfl, hdisj, hstores, hfr, hw⟩
      | none =>
        refine (runs_nextCluster g hc).post_bind fun k₃ => ?_
        have hnd := hch.nodup (by omega)
        cases hch with
        | last _ _ heoc =>
          rw [link_eq_none heoc]
          trivial
        | @next _ R₂ _ _ htail =>
          have hrange := htail.head_range
          have hcur : cur ∉ R₂ := (List.nodup_cons.mp hnd).1
          rw [link_eq_some hrange.1 (by omega)]
          refine (ih htail (fun y hy => hRU y (List.mem_cons_of_mem _ hy))
            (fun e he => hown e (mem_append_right _ he))).imp (fun _ d h => ?_) fun _ _ _ => trivial
          obtain ⟨s', k', A, x, B, fr, hd, hapart, hst, hfr, hw⟩ := h
          have hfat : fs.fat s' cur = fs.fat s cur := by
            rw [hw.fat cur hc, if_neg fun hin => hapart cur hin (hRU cur (List.mem_cons_self ..))]
          have hcl : fs.cluster s' cur = fs.cluster s cur := hw.cluster cur h2 hcur
          refine ⟨s', k', slots (fs.cluster s cur) ++ A, x, B, fr, hd, hapart, hst, hfr,
            .next h2 hc (hfat.symm ▸ hw.chain), ?_, ?_, hw.fat, fun y hy hnot => ?_, hw.mirror⟩
          · rw [chainSlots_cons, hw.before, append_assoc]
          · rw [chainSlots_cons, hcl, hw.after, append_assoc]
          · exact hw.cluster y hy fun hin => hnot (List.mem_cons_of_mem _ hin)

/-! ### Layouts -/

def InUse (e : List Byte) : Prop := first e ≠ 0 ∧ first e ≠ 0xE5 ∧ attrs e ≠ 0x0F
deriving Decidable

def entries (fs : Fat32) (s : ℕ → Sector) (R : List ℕ) : List (List Byte) :=
  (chainSlots fs s R).filter fun e => decide (InUse e)

def EntryChain (fs : Fat32) (s : ℕ → Sector) (e : List Byte) (cs : List ℕ) : Prop :=
  firstCluster e < 2 ∧ cs = [] ∨ ChainOf fs s (firstCluster e) cs
deriving Decidable

structure Layout (fs : Fat32) (s : ℕ → Sector) (R : List ℕ) (L : List (List ℕ)) : Prop where
  root : ChainOf fs s fs.bpb.rootCluster R
  files : List.Forall₂ (EntryChain fs s) (entries fs s R) L
  nodup : (R ++ L.flatten).Nodup
  mirror : Mirrored fs s

def Lost (fs : Fat32) (s : ℕ → Sector) (R : List ℕ) (L : List (List ℕ)) (c : ℕ) : Prop :=
  2 ≤ c ∧ c < fs.numClusters ∧ fs.fat s c ≠ 0 ∧ c ∉ R ++ L.flatten

theorem EntryChain.used (h : EntryChain fs s e cs) : ∀ c ∈ cs, (2 ≤ c ∧ c < fs.numClusters) ∧ fs.fat s c ≠ 0 := by
  rcases h with ⟨-, rfl⟩ | h
  · intro c hc
    cases hc
  · exact fun c hc => ⟨h.range c hc, h.fat_ne_zero c hc⟩

theorem EntryChain.congr (h : EntryChain fs s e cs) (heq : ∀ c ∈ cs, fs.fat s' c = fs.fat s c) : EntryChain fs s' e cs :=
  h.imp id fun h => h.congr heq

theorem EntryChain.unique (g : fs.Geometry fault) {cs' : List ℕ} (h : EntryChain fs s e cs)
    (h' : EntryChain fs s e cs') : cs = cs' := by
  have hN := g.numClusters_lt
  rcases h with ⟨hlt, rfl⟩ | h
  · rcases h' with ⟨-, rfl⟩ | h'
    · rfl
    · have := h'.head_range
      omega
  · rcases h' with ⟨hlt, -⟩ | h'
    · have := h.head_range
      omega
    · exact h.unique (by omega) h'

theorem entryChains_used (h : List.Forall₂ (EntryChain fs s) E L) :
    ∀ c ∈ L.flatten, (2 ≤ c ∧ c < fs.numClusters) ∧ fs.fat s c ≠ 0 := by
  induction h with
  | nil =>
    intro c hc
    cases hc
  | cons he _ ih =>
    intro c hc
    rcases mem_append.mp hc with hc | hc
    · exact he.used c hc
    · exact ih c hc

theorem entryChains_congr (h : List.Forall₂ (EntryChain fs s) E L)
    (heq : ∀ c ∈ L.flatten, fs.fat s' c = fs.fat s c) : List.Forall₂ (EntryChain fs s') E L := by
  induction h with
  | nil => exact .nil
  | cons he _ ih =>
    refine .cons (he.congr fun c hc => heq c (mem_append_left _ hc)) (ih fun c hc => ?_)
    exact heq c (mem_append_right _ hc)

theorem Layout.used (h : Layout fs s R L) : ∀ c ∈ R ++ L.flatten, (2 ≤ c ∧ c < fs.numClusters) ∧ fs.fat s c ≠ 0 := by
  intro c hc
  rcases mem_append.mp hc with hc | hc
  · exact ⟨h.root.range c hc, h.root.fat_ne_zero c hc⟩
  · exact entryChains_used h.files c hc

theorem Layout.update {EA mid' EB : List (List Byte)} {LA M M' LB : List (List ℕ)} (added : List ℕ)
    (h : Layout fs s R (LA ++ M ++ LB)) (hA : List.Forall₂ (EntryChain fs s) EA LA) (hB : List.Forall₂ (EntryChain fs s) EB LB)
    (hroot : ChainOf fs s' fs.bpb.rootCluster R') (hentries : entries fs s' R' = EA ++ mid' ++ EB)
    (hmid' : List.Forall₂ (EntryChain fs s') mid' M') (hperm : (R' ++ M'.flatten).Perm (R ++ added)) (hnd : added.Nodup)
    (hfree : ∀ c ∈ added, fs.fat s c = 0)
    (hfat : ∀ c < fs.numClusters, c ∉ R ++ added → fs.fat s' c = if c ∈ M.flatten then 0 else fs.fat s c)
    (hmirror : Mirrored fs s') :
    Layout fs s' R' (LA ++ M' ++ LB) ∧ ∀ c, Lost fs s' R' (LA ++ M' ++ LB) c ↔ Lost fs s R (LA ++ M ++ LB) c := by
  have hused := h.used
  have hflat : ∀ X : List (List ℕ), (LA ++ X ++ LB).flatten = LA.flatten ++ X.flatten ++ LB.flatten := fun X => by
    rw [List.flatten_append, List.flatten_append]
  -- the clusters of the layout, with those of the middle entries first
  have hswap : ∀ (Q : List ℕ) (X : List (List ℕ)),
      (Q ++ (LA ++ X ++ LB).flatten).Perm ((Q ++ X.flatten) ++ (LA.flatten ++ LB.flatten)) := fun Q X => by
    rw [hflat, append_assoc Q]
    refine List.Perm.append_left Q ?_
    rw [← append_assoc]
    exact List.perm_append_comm.append_right _
  have hbefore := (hswap R M).nodup_iff.mp h.nodup
  have hmem : ∀ c, c ∈ R' ++ (LA ++ M' ++ LB).flatten ↔ c ∈ R ++ added ∨ c ∈ LA.flatten ++ LB.flatten := fun c => by
    rw [(hswap R' M').mem_iff, mem_append, hperm.mem_iff]
  have hmem₀ : ∀ c, c ∈ R ++ (LA ++ M ++ LB).flatten ↔ (c ∈ R ∨ c ∈ M.flatten) ∨ c ∈ LA.flatten ++ LB.flatten := fun c => by
    rw [(hswap R M).mem_iff, mem_append, mem_append]
  obtain ⟨hRM, hAB, hdisj⟩ := nodup_append'.mp hbefore
  obtain ⟨hRnd, -, hdisjRM⟩ := nodup_append'.mp hRM
  -- the clusters that come in are new to the layout
  have hnew : ∀ c ∈ added, c ∉ R ++ (LA ++ M ++ LB).flatten := fun c hc hin => (hused c hin).2 (hfree c hc)
  -- the other entries keep their clusters
  have hkeep : ∀ c ∈ LA.flatten ++ LB.flatten, fs.fat s' c = fs.fat s c := by
    intro c hc
    have hout : c ∉ R ++ added := fun hin => by
      rcases mem_append.mp hin with hin | hin
      · exact hdisj (mem_append_left _ hin) hc
      · exact hnew c hin ((hmem₀ c).mpr (.inr hc))
    rw [hfat c (hused c ((hmem₀ c).mpr (.inr hc))).1.2 hout, if_neg fun hin => hdisj (mem_append_right _ hin) hc]
  refine ⟨⟨hroot, ?_, ?_, hmirror⟩, fun c => ?_⟩
  · rw [hentries]
    have hA' := entryChains_congr hA fun c hc => hkeep c (mem_append_left _ hc)
    have hB' := entryChains_congr hB fun c hc => hkeep c (mem_append_right _ hc)
    exact List.rel_append (List.rel_append hA' hmid') hB'
  · rw [(hswap R' M').nodup_iff]
    refine nodup_append'.mpr ⟨?_, hAB, fun c hc hc' => ?_⟩
    · rw [hperm.nodup_iff]
      refine nodup_append'.mpr ⟨hRnd, hnd, fun c hc hc' => ?_⟩
      exact hnew c hc' (mem_append_left _ hc)
    · rcases mem_append.mp (hperm.mem_iff.mp hc) with hin | hin
      · exact hdisj (mem_append_left _ hin) hc'
      · exact hnew c hin ((hmem₀ c).mpr (.inr hc'))
  · unfold Lost
    rw [hmem, hmem₀]
    refine and_congr_right fun _ => and_congr_right fun hc => ?_
    by_cases hin : c ∈ R ++ added
    · -- of the directory, or new
      refine ⟨fun hl => absurd (.inl hin) hl.2, fun hl => ?_⟩
      rcases mem_append.mp hin with hR | hadd
      · exact absurd (.inl (.inl hR)) hl.2
      · exact absurd (hfree c hadd) hl.1
    · have hR : c ∉ R := fun h => hin (mem_append_left _ h)
      rw [hfat c hc hin]
      by_cases hM : c ∈ M.flatten
      · simp [hM]
      · simp [hM, hR, hin]

/-! ### Creating and removing files -/

theorem exists_entryChain (h : List.Forall₂ (EntryChain fs s) E L) (he : e ∈ E) : ∃ cs ∈ L, EntryChain fs s e cs := by
  induction h with
  | nil => cases he
  | @cons a cs E L hcs _ ih =>
    rcases mem_cons.mp he with rfl | he
    · exact ⟨cs, List.mem_cons_self .., hcs⟩
    · obtain ⟨cs', hmem, hcs'⟩ := ih he
      exact ⟨cs', List.mem_cons_of_mem _ hmem, hcs'⟩

theorem entryChains_split {E₁ E₂ : List (List Byte)} : ∀ {L : List (List ℕ)}, List.Forall₂ (EntryChain fs s) (E₁ ++ E₂) L →
    ∃ L₁ L₂, L = L₁ ++ L₂ ∧ List.Forall₂ (EntryChain fs s) E₁ L₁ ∧ List.Forall₂ (EntryChain fs s) E₂ L₂ := by
  induction E₁ with
  | nil => exact fun {L} h => ⟨[], L, rfl, .nil, h⟩
  | cons e E₁ ih =>
    intro L h
    cases h with
    | cons he htail =>
      obtain ⟨L₁, L₂, rfl, h₁, h₂⟩ := ih htail
      exact ⟨_ :: L₁, L₂, rfl, .cons he h₁, h₂⟩

theorem Stores.inUse (h : Stores name e) : InUse e := ⟨h.1, h.2.2.1, h.2.1⟩

theorem Vacant.not_inUse (h : Vacant e) : ¬ InUse e := fun hu => h.elim hu.1 hu.2.1

theorem not_inUse_deleted (x : List Byte) : ¬ InUse (deleted x) := fun hu => hu.2.1 (first_deleted x)

theorem Layout.ownChains (h : Layout fs s R L) (name : List Byte) : OwnChains fs name s R R := by
  intro e he hs
  have hin : e ∈ entries fs s R := List.mem_filter.mpr ⟨he, decide_eq_true hs.inUse⟩
  obtain ⟨cs, hcs, hch⟩ := exists_entryChain h.files hin
  obtain ⟨-, -, hdisj⟩ := nodup_append'.mp h.nodup
  exact ⟨cs, hch, fun y hy hR => hdisj hR (List.mem_flatten.mpr ⟨cs, hcs, hy⟩)⟩

theorem Layout.ownChains_apart
    (h : Layout fs s R L) (hp : Staged fs s s₃ cs) (name : List Byte) : OwnChains fs name s₃ R (R ++ cs) := by
  intro e he hs
  rw [hp.chainSlots_eq h.root] at he
  obtain ⟨fr, hfr, hdisj⟩ := h.ownChains name e he hs
  refine ⟨fr, hfr.imp id hp.chainOf, fun y hy hin => ?_⟩
  rcases mem_append.mp hin with hin | hin
  · exact hdisj y hy hin
  · rcases hfr with ⟨-, rfl⟩ | hch
    · cases hy
    · exact hp.notMem hch y hy hin

theorem Layout.ownChains_staged
    (h : Layout fs s R L) (hp : Staged fs s s₃ cs) (name : List Byte) : OwnChains fs name s₃ R R := by
  intro e he hs
  obtain ⟨fr, hfr, hdisj⟩ := h.ownChains_apart hp name e he hs
  exact ⟨fr, hfr, fun y hy hR => hdisj y hy (mem_append_left _ hR)⟩

theorem inUse_newEntry {cluster : ℕ} (h : Name83 b) : InUse (newEntry b cluster size) := by
  have h83 : Name83 ((newEntry b cluster size).take 11) := (take_newEntry h.length).symm ▸ h
  refine ⟨h83.first_ne.1, h83.first_ne.2, ?_⟩
  rw [attrs_newEntry h.length]
  decide

theorem Layout.split (h : Layout fs s R L) (hentries : entries fs s R = (A ++ x :: B).filter fun e => decide (InUse e)) :
    ∃ LA M LB, L = LA ++ M ++ LB ∧ List.Forall₂ (EntryChain fs s) (A.filter fun e => decide (InUse e)) LA ∧
    List.Forall₂ (EntryChain fs s) ([x].filter fun e => decide (InUse e)) M ∧
    List.Forall₂ (EntryChain fs s) (B.filter fun e => decide (InUse e)) LB := by
  have hfiles := h.files
  rw [hentries, ← List.singleton_append, filter_append, filter_append, ← append_assoc] at hfiles
  obtain ⟨L₁, LB, rfl, h₁, hB⟩ := entryChains_split hfiles
  obtain ⟨LA, M, rfl, hA, hM⟩ := entryChains_split h₁
  exact ⟨LA, M, LB, rfl, hA, hM, hB⟩

theorem Layout.removed (g : fs.Geometry fault) (h : Layout fs s R L) (hst : Stores b x)
    (hfr : firstCluster x < 2 ∧ fr = [] ∨ ChainOf fs s (firstCluster x) fr)
    (hw : SlotWritten fs (deleted x) s s' fs.bpb.rootCluster R A x B fr) :
    ∃ L', Layout fs s' R L' ∧ ∀ c, Lost fs s' R L' c ↔ Lost fs s R L c := by
  have hbefore : entries fs s R = (A ++ x :: B).filter fun e => decide (InUse e) := by rw [entries, hw.before]
  obtain ⟨LA, M, LB, rfl, hA, hM, hB⟩ := h.split hbefore
  rw [List.filter_singleton, decide_eq_true hst.inUse] at hM
  obtain ⟨m, hm, rfl⟩ : ∃ m, EntryChain fs s x m ∧ M = [m] := by
    cases hM with
    | cons hx hnil =>
      cases hnil
      exact ⟨_, hx, rfl⟩
  obtain rfl := hm.unique g hfr
  have hafter : entries fs s' R = A.filter (fun e => decide (InUse e)) ++ [] ++ B.filter fun e => decide (InUse e) := by
    rw [entries, hw.after, filter_append, List.filter_cons_of_neg (by simpa using not_inUse_deleted x), append_nil]
  refine ⟨LA ++ [] ++ LB, h.update [] hA hB hw.chain hafter .nil ?_ List.nodup_nil ?_ ?_ (hw.mirror h.mirror)⟩
  · exact .refl _
  · intro c hc
    cases hc
  · intro c hc _
    rw [hw.fat c hc, List.flatten_singleton]

theorem Layout.created (g : fs.Geometry fault) (h : Layout fs s R L) (h83 : Name83 b)
    (hp : Staged fs s s₃ cs) (hup : Upserted fs b (newEntry b (cs.headD 0) size) s₃ s' fs.bpb.rootCluster R R' A x B fr) :
    ∃ L', Layout fs s' R' L' ∧ ∀ c, Lost fs s' R' L' c ↔ Lost fs s R L c := by
  have hslots := hp.chainSlots_eq h.root
  -- the directory has the cluster it gains, if any, from the free ones
  obtain ⟨grown, hR', hgrown⟩ : ∃ grown, R' = R ++ grown ∧
      (grown = [] ∨ ∃ n, grown = [n] ∧ n < fs.numClusters ∧ fs.fat s₃ n = 0) := by
    rcases hup.before with ⟨rfl, -⟩ | ⟨n, rfl, -, hn, hzero, -⟩
    · exact ⟨[], (append_nil _).symm, .inl rfl⟩
    · exact ⟨[n], rfl, .inr ⟨n, rfl, hn, hzero⟩⟩
  have hgrown₃ : ∀ c ∈ grown, c < fs.numClusters ∧ fs.fat s₃ c = 0 := by
    intro c hc
    rcases hgrown with rfl | ⟨n, rfl, hn, hzero⟩
    · cases hc
    · rw [List.mem_singleton.mp hc]
      exact ⟨hn, hzero⟩
  have hgrown_cs : ∀ c ∈ grown, c ∉ cs := fun c hc hin => (hp.range c hin).2 (hgrown₃ c hc).2
  have hbefore : entries fs s R = (A ++ x :: B).filter fun e => decide (InUse e) := by
    rw [entries, ← hslots]
    rcases hup.before with ⟨-, hS⟩ | ⟨n, -, -, -, -, hS, hx, hB⟩
    · rw [hS]
    · -- the slots of the cluster gained are unused
      have hnone : (x :: B).filter (fun e => decide (InUse e)) = [] := by
        refine List.filter_eq_nil_iff.mpr fun e he => ?_
        rcases mem_cons.mp he with rfl | he
        · simp [InUse, hx]
        · simp [InUse, hB e he]
      rw [hS, filter_append, hnone, append_nil]
  obtain ⟨LA, M, LB, rfl, hA, hM, hB⟩ := h.split hbefore
  have hM' : M.flatten = fr := by
    rw [List.filter_singleton] at hM
    rcases hup.chosen with ⟨hv, rfl⟩ | ⟨hst, hfr⟩
    · rw [decide_eq_false hv.not_inUse] at hM
      cases hM
      rfl
    · rw [decide_eq_true hst.inUse] at hM
      cases hM with
      | cons hx hnil =>
        cases hnil
        rw [List.flatten_singleton]
        exact EntryChain.unique g (hx.imp id hp.chainOf) hfr
  have hfr : ∀ c ∈ fr, c ∉ cs := fun c hc hin => by
    have hused := entryChains_used hM c (hM'.symm ▸ hc)
    exact hused.2 (hp.free c hin).2
  have hcsR : ∀ c ∈ cs, c ∉ R' := fun c hc => hup.notMem (fun hin => hp.notMem h.root c hin hc) (hp.range c hc).2
  have hafter : entries fs s' R' = A.filter (fun e => decide (InUse e)) ++ [newEntry b (cs.headD 0) size] ++
      B.filter fun e => decide (InUse e) := by
    rw [entries, hup.after, filter_append, List.filter_cons_of_pos (by simpa using inUse_newEntry h83), append_assoc]
    rfl
  have hnew : EntryChain fs s' (newEntry b (cs.headD 0) size) cs := by
    rw [EntryChain, firstCluster_newEntry h83.length (hp.headD_lt g)]
    rcases hp.chain with rfl | hch
    · exact .inl ⟨Nat.two_pos, rfl⟩
    · refine .inr (hch.congr fun c hc => ?_)
      rw [hup.fat c (hch.range c hc).2 (hcsR c hc), if_neg fun hin => hfr c hin hc]
  refine ⟨LA ++ [cs] ++ LB, h.update (grown ++ cs) hA hB hup.chain hafter (.cons hnew .nil) ?_ ?_ ?_ ?_
    (hup.mirror (hp.mirror h.mirror))⟩
  · rw [hR', List.flatten_singleton, append_assoc]
  · refine nodup_append'.mpr ⟨?_, hp.nodup g, fun c hc hc' => hgrown_cs c hc hc'⟩
    rcases hgrown with rfl | ⟨n, rfl, -⟩
    · exact List.nodup_nil
    · exact List.nodup_singleton n
  · intro c hc
    rcases mem_append.mp hc with hc | hc
    · rw [← hp.fat c (hgrown₃ c hc).1 (hgrown_cs c hc)]
      exact (hgrown₃ c hc).2
    · exact (hp.free c hc).2
  · intro c hc hout
    have hR : c ∉ R' := fun hin => hout (by
      rw [hR'] at hin
      rw [← append_assoc]
      exact mem_append_left _ hin)
    have hcs : c ∉ cs := fun hin => hout (mem_append_right _ (mem_append_right _ hin))
    rw [hup.fat c hc hR, hM', hp.fat c hc hcs]

end Geometry

/-! ### Sequences of files created and removed -/

inductive FileOp where
  | create (fuel : ℕ) (name : List Char) (data : List Byte)
  | unlink (fuel : ℕ) (name : List Char)

def FileOp.HasData : FileOp → Prop
  | .create _ _ data => data ≠ []
  | .unlink .. => True

instance : ∀ op : FileOp, Decidable op.HasData
  | .create .. => inferInstanceAs (Decidable (_ ≠ _))
  | .unlink .. => .isTrue trivial

def onSuccess : Outcome String Disk Unit → Option Disk
  | .ok _ d => some d
  | _ => none

def fileStep (fs : Fat32) (d : Disk) : FileOp → Option Disk
  | .create fuel name data => onSuccess (fs.createRootFile fuel name data d)
  | .unlink fuel name => onSuccess (fs.unlinkRoot fuel name d)

theorem onSuccess_eq_some {o : Outcome String Disk Unit} (h : onSuccess o = some d) : o = .ok () d := by
  cases o with
  | ok u d' => cases h; rfl
  | err e d' => cases h
  | panic => cases h
  | diverge => cases h

def FileOp.Reached (fs : Fat32) (s : ℕ → Sector) (R : List ℕ) : FileOp → Prop
  | .create _ name _ => ∀ b, packShortName name = .ok b → Fat32.Reached fs b s R
  | .unlink .. => True

inductive SlotChange (reached : Prop) : FileOp → List (List Byte) → List (List Byte) → Prop
  | replaced {fuel : ℕ} {name : List Char} {data b x : List Byte} {cluster size : ℕ} {A B : List (List Byte)} :
      packShortName name = .ok b → Stores b x →
      SlotChange reached (.create fuel name data) (A ++ x :: B) (A ++ newEntry b cluster size :: B)
  | filled {fuel : ℕ} {name : List Char} {data b x : List Byte} {cluster size : ℕ} {A B : List (List Byte)} :
      packShortName name = .ok b → Vacant x → (reached → ∀ e ∈ A ++ x :: B, ¬ Stores b e) →
      SlotChange reached (.create fuel name data) (A ++ x :: B) (A ++ newEntry b cluster size :: B)
  | grown {fuel : ℕ} {name : List Char} {data b : List Byte} {cluster size : ℕ} {A B : List (List Byte)} :
      packShortName name = .ok b → (∀ e ∈ A, ¬ Stores b e) → (∀ e ∈ B, first e = 0) →
      SlotChange reached (.create fuel name data) A (A ++ newEntry b cluster size :: B)
  | removed {fuel : ℕ} {name : List Char} {b x : List Byte} {A B : List (List Byte)} :
      packShortName name = .ok b → Stores b x →
      SlotChange reached (.unlink fuel name) (A ++ x :: B) (A ++ deleted x :: B)

theorem Layout.step {R : List ℕ} {L : List (List ℕ)} (g : fs.Geometry d.fault) (h : Layout fs d.sectors R L)
    (hstep : fileStep fs d op = some d') :
    d'.fault = d.fault ∧ ∃ R' L', Layout fs d'.sectors R' L' ∧ (∀ c, Lost fs d'.sectors R' L' c ↔ Lost fs d.sectors R L c) ∧
    SlotChange (op.Reached fs d.sectors R) op (chainSlots fs d.sectors R) (chainSlots fs d'.sectors R') := by
  obtain ⟨s, k, fault⟩ := d
  cases op with
  | create fuel name data =>
    obtain ⟨b, cs, s₃, k₃, hpack, hfilled, hupsert⟩ := of_createRootFile g (onSuccess_eq_some hstep)
    have hp := hfilled.staged
    have h83 := name83_of_pack hpack
    have hcl : ∀ c ∈ R, fs.cluster s₃ c = fs.cluster s c := fun c hc =>
      hp.cluster c (h.root.range c hc).1 (hp.notMem h.root c hc)
    obtain ⟨s', k', R', A, x, B, fr, rfl, -, hup, hstores⟩ := (post_upsertLoop g (length_newEntry h83.length)
      (hp.chainOf h.root) (fun y hy => hy) (h.ownChains_staged hp b)).ok hupsert
    obtain ⟨L', h', hlost⟩ := h.created g h83 hp hup
    refine ⟨rfl, R', L', h', hlost, ?_⟩
    rw [hup.after, ← chainSlots_congr hcl]
    rcases hup.before with ⟨-, hS⟩ | ⟨n, -, -, -, -, hS, -, hB⟩
    · rw [hS]
      rcases hup.chosen with ⟨hv, -⟩ | ⟨hst, -⟩
      · refine .filled hpack hv fun hreach e he hs => ?_
        have hx := hstores ((hreach b hpack).congr hcl) ⟨e, hS ▸ he, hs⟩
        exact hv.not_inUse hx.inUse
      · exact .replaced hpack hst
    · rw [hS]
      exact .grown hpack (fun e he => (hup.passed e he).2) hB
  | unlink fuel name =>
    have hunlink := onSuccess_eq_some hstep
    unfold Fat32.unlinkRoot at hunlink
    cases hpack : packShortName name with
    | error e => rw [hpack] at hunlink; cases hunlink
    | ok b =>
      rw [hpack] at hunlink
      obtain ⟨s', k', A, x, B, fr, rfl, -, hst, hfr, hw⟩ := (post_unlinkLoop g (name83_of_pack hpack) h.root
        (fun y hy => hy) (h.ownChains b)).ok hunlink
      obtain ⟨L', h', hlost⟩ := h.removed g hst hfr hw
      refine ⟨rfl, R, L', h', hlost, ?_⟩
      rw [hw.before, hw.after]
      exact .removed hpack hst

structure Keeps (fs : Fat32) (fault : ℕ → ℕ → Option String) (Q : ℕ → Prop) (d : Disk) : Prop where
  fault : d.fault = fault
  layout : ∃ R L, Layout fs d.sectors R L ∧ ∀ c, Lost fs d.sectors R L c ↔ Q c

theorem Keeps.step {fault : ℕ → ℕ → Option String} {Q : ℕ → Prop}
    (g : fs.Geometry fault) (h : Keeps fs fault Q d) (hstep : fileStep fs d op = some d') : Keeps fs fault Q d' := by
  obtain ⟨rfl, R, L, hlayout, hlost⟩ := h
  obtain ⟨hfault, R', L', h', hlost', -⟩ := hlayout.step g hstep
  exact ⟨hfault, R', L', h', fun c => (hlost' c).trans (hlost c)⟩

/-- **The shape of the volume is kept.** If every sector of the volume can be accessed, then after every sequence of
files created with some data and removed there is a layout again, none of its clusters is free, and the clusters that
are not free and in no chain of it are those that were so at the start. -/
theorem layout_of_run {R : List ℕ} {L : List (List ℕ)} {tr : List (Disk × FileOp)}
    (g : fs.Geometry d.fault) (h : Layout fs d.sectors R L) (hrun : Run (fileStep fs) d tr d')
    (hdata : ∀ x ∈ tr, x.2.HasData) :
    ∃ R' L', Layout fs d'.sectors R' L' ∧ (∀ c ∈ R' ++ L'.flatten, fs.fat d'.sectors c ≠ 0) ∧
      ∀ c, Lost fs d'.sectors R' L' c ↔ Lost fs d.sectors R L c := by
  have hstart : Keeps fs d.fault (Lost fs d.sectors R L) d := ⟨rfl, R, L, h, fun _ => Iff.rfl⟩
  have hkeeps := hrun.invariant (I := Keeps fs d.fault (Lost fs d.sectors R L)) (K := fun _ op => op.HasData)
    hstart hdata
    fun _ _ _ ha _ hs => ha.step g hs
  obtain ⟨R', L', hlayout, hlost⟩ := hkeeps.layout
  exact ⟨R', L', hlayout, fun c hc => (hlayout.used c hc).2, hlost⟩

theorem mirrored_smallVolume (s : ℕ → Sector) : Mirrored smallVolume s := by
  intro i hi j _
  obtain rfl : i = 0 := Nat.lt_one_iff.mp hi
  rw [Nat.zero_mul, Nat.add_zero]

theorem layout_emptyDisk : Layout smallVolume emptyDisk.sectors [2] [] :=
  ⟨by decide +kernel, by decide +kernel, by decide, mirrored_smallVolume _⟩

/-- On the empty volume a file of one byte is created and removed. -/
theorem layout_create_unlink : ∃ tr d', Run (fileStep smallVolume) emptyDisk tr d' ∧
    (∃ R' L', Layout smallVolume d'.sectors R' L' ∧ (∀ c ∈ R' ++ L'.flatten, smallVolume.fat d'.sectors c ≠ 0) ∧
      ∀ c, Lost smallVolume d'.sectors R' L' c ↔ Lost smallVolume emptyDisk.sectors [2] [] c) := by
  have hexec : (exec (fileStep smallVolume) (fun _ op => op.HasData) emptyDisk
      [.create 2 ['A'] [7#8], .unlink 2 ['A']]).any fun _ => True := by decide +kernel
  obtain ⟨tr, d', hrun, hdata, -⟩ := exists_run_of_any hexec
  exact ⟨tr, d', hrun, layout_of_run geometry_smallVolume layout_emptyDisk hrun hdata⟩

def twoClusters : Disk where
  sectors := fun lba i =>
    if lba = 32 then (zeros 8 ++ le32Bytes 0x0FFFFFFF ++ le32Bytes 4 ++ le32Bytes 0x0FFFFFFF).getD i 0
    else if lba = 33 then (newEntry (0x41#8 :: List.replicate 10 0x20#8) 3 513).getD i 0
    else 0
  clock := 0
  fault := fun t lba => if t = 1 ∧ lba = 32 then some "ATA: ERR/DF" else none

theorem layout_twoClusters : Layout smallVolume twoClusters.sectors [2] [[3, 4]] :=
  ⟨by decide +kernel, by decide +kernel, by decide, mirrored_smallVolume _⟩

/-- **A cluster that is lost**: `next_cluster` takes a sector it cannot read for the end of the chain, so `unlink_root`
frees the first cluster of the file and returns; the second is not free, and in no chain. -/
theorem unlink_loses_cluster : Layout smallVolume twoClusters.sectors [2] [[3, 4]] ∧
    (∀ c, ¬ Lost smallVolume twoClusters.sectors [2] [[3, 4]] c) ∧
    ∃ d', smallVolume.unlinkRoot 3 ['A'] twoClusters = .ok () d' ∧
      ∀ R L, Layout smallVolume d'.sectors R L → Lost smallVolume d'.sectors R L 4 := by
  have hnone : ∀ c < 128, smallVolume.fat twoClusters.sectors c ≠ 0 → c < 5 := by
    intro c hc hne
    by_contra hge
    refine hne ?_
    -- the bytes of the FAT after its first five entries are zero
    have hbyte : ∀ j < 4, (Sector.toBytes (twoClusters.sectors 32)).getD (c * 4 + j) 0 = 0 := fun j hj => by
      have hlt : c * 4 + j < SECTOR_SIZE := by
        unfold SECTOR_SIZE
        omega
      rw [getD_toBytes _ hlt]
      exact List.getD_eq_default _ _ (show 20 ≤ c * 4 + j by omega)
    have hlba : smallVolume.fatLba c = 32 := by
      show 32 + c * 4 / 512 = 32
      omega
    have hoff : c * 4 % SECTOR_SIZE = c * 4 := Nat.mod_eq_of_lt (by unfold SECTOR_SIZE; omega)
    have h₀ := hbyte 0 (by omega)
    rw [Nat.add_zero] at h₀
    simp only [fat, hlba, hoff, le32, le16, h₀, hbyte 1 (by omega), hbyte 2 (by omega), hbyte 3 (by omega)]
    decide
  have hrun : (smallVolume.unlinkRoot 3 ['A'] twoClusters).Returns fun _ d => smallVolume.fat d.sectors 2 = 0x0FFFFFFF ∧
      smallVolume.fat d.sectors 4 = 0x0FFFFFFF ∧ entries smallVolume d.sectors [2] = [] := by
    decide +kernel
  obtain ⟨_, d', hunlink, h₂, h₄, hentries⟩ := hrun
  refine ⟨layout_twoClusters, fun c hc => ?_, d', hunlink, fun R L h => ?_⟩
  · obtain ⟨h2, hlt, hne, hout⟩ := hc
    have := hnone c hlt hne
    obtain rfl | rfl | rfl : c = 2 ∨ c = 3 ∨ c = 4 := by omega
    all_goals exact hout (by decide)
  have hroot : ChainOf smallVolume d'.sectors 2 [2] := .last le_rfl (by decide) (by rw [h₂]; decide)
  obtain rfl : R = [2] := h.root.unique (by decide) hroot
  have hfiles := h.files
  rw [hentries] at hfiles
  cases hfiles
  exact ⟨by decide, by decide, by rw [h₄]; decide, by decide⟩

end RustKernel.Drivers.Fat32
