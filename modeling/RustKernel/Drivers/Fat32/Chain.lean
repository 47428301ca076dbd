import Mathlib.Data.List.Nodup
import RustKernel.Drivers.Fat32.Volume

/-!
# Cluster chains

A file or a directory is a chain of clusters: the FAT entry of each names the next, and
the last holds an end-of-chain mark. Such a chain cannot be cyclic, and it is determined
by its first cluster.
-/

namespace RustKernel.Drivers.Fat32

open Lib Exec Ata
open List (mem_singleton mem_cons nodup_cons length_cons mem_cons_self mem_singleton_self mem_cons_of_mem)

variable {v : ℕ}

theorem link_eq_none (h : 0x0FFFFFF8 ≤ v) : link v = none := if_pos h

theorem link_eq_some (h2 : 2 ≤ v) (hlt : v < 0x0FFFFFF8) : link v = some v := by rw [link, if_neg (by omega), if_neg (by omega)]

theorem link_eq_some_iff {n : ℕ} : link v = some n ↔ v = n ∧ 2 ≤ n ∧ n < 0x0FFFFFF8 := by
  unfold link
  split_ifs with h₁ h₂
  · simp only [false_iff]
    omega
  · simp only [false_iff]
    omega
  · rw [Option.some.injEq]
    omega

inductive Path (numClusters : ℕ) (fat : ℕ → ℕ) : ℕ → List ℕ → Prop
  | last {c : ℕ} : 2 ≤ c → c < numClusters → link (fat c) = none → Path numClusters fat c [c]
  | next {c n : ℕ} {cs : List ℕ} : 2 ≤ c → c < numClusters → link (fat c) = some n → Path numClusters fat n cs →
      Path numClusters fat c (c :: cs)

namespace Path

variable {N : ℕ} {fat : ℕ → ℕ} {c x : ℕ} {cs cs' : List ℕ}

section

variable (h : Path N fat c cs)
include h

theorem range : ∀ y ∈ cs, 2 ≤ y ∧ y < N := by
  induction h with
  | last h2 hN _ =>
    intro y hy
    rw [mem_singleton.1 hy]
    exact ⟨h2, hN⟩
  | next h2 hN _ _ ih =>
    intro y hy
    rcases mem_cons.1 hy with rfl | hy
    · exact ⟨h2, hN⟩
    · exact ih y hy

theorem unique (h' : Path N fat c cs') : cs = cs' := by
  induction h generalizing cs' with
  | last _ _ hend =>
    cases h' with
    | last => rfl
    | next _ _ hlink _ => cases hend.symm.trans hlink
  | next _ _ hlink _ ih =>
    cases h' with
    | last _ _ hend => cases hend.symm.trans hlink
    | next _ _ hlink' htail =>
      cases hlink.symm.trans hlink'
      rw [ih htail]

theorem of_mem (hx : x ∈ cs) : ∃ r, r.length ≤ cs.length ∧ Path N fat x r := by
  induction h with
  | last h2 hN hend =>
    rw [mem_singleton.1 hx]
    exact ⟨_, le_rfl, .last h2 hN hend⟩
  | next h2 hN hlink htail ih =>
    rcases mem_cons.1 hx with rfl | hx
    · exact ⟨_, le_rfl, .next h2 hN hlink htail⟩
    · obtain ⟨r, hr, hpath⟩ := ih hx
      exact ⟨r, hr.trans (Nat.le_succ _), hpath⟩

theorem nodup : cs.Nodup := by
  induction h with
  | last => exact List.nodup_singleton _
  | next h2 hN hlink htail ih =>
    refine nodup_cons.2 ⟨fun hmem => ?_, ih⟩
    -- a second visit would start a shorter path from the same cluster
    obtain ⟨r, hr, hpath⟩ := htail.of_mem hmem
    rw [hpath.unique (.next h2 hN hlink htail), length_cons] at hr
    omega

end

end Path

inductive Chain (numClusters : ℕ) (fat : ℕ → ℕ) : ℕ → List ℕ → Prop
  | last {c : ℕ} : 2 ≤ c → c < numClusters → 0x0FFFFFF8 ≤ fat c → Chain numClusters fat c [c]
  | next {c : ℕ} {cs : List ℕ} : 2 ≤ c → c < numClusters → Chain numClusters fat (fat c) cs →
      Chain numClusters fat c (c :: cs)

namespace Chain

variable {N : ℕ} {fat fat' : ℕ → ℕ} {c : ℕ} {cs cs' : List ℕ}

section

variable (h : Chain N fat c cs)
include h

theorem range : ∀ y ∈ cs, 2 ≤ y ∧ y < N := by
  induction h with
  | last h2 hN _ =>
    intro y hy
    rw [mem_singleton.mp hy]
    exact ⟨h2, hN⟩
  | next h2 hN _ ih =>
    intro y hy
    rcases mem_cons.mp hy with rfl | hy
    · exact ⟨h2, hN⟩
    · exact ih y hy

theorem head_range : 2 ≤ c ∧ c < N := by
  cases h with
  | last h2 hN _ => exact ⟨h2, hN⟩
  | next h2 hN _ => exact ⟨h2, hN⟩

theorem eq_cons : ∃ cs', cs = c :: cs' := by
  cases h with
  | last => exact ⟨[], rfl⟩
  | next => exact ⟨_, rfl⟩

theorem head_mem : c ∈ cs := by
  obtain ⟨cs', rfl⟩ := h.eq_cons
  exact mem_cons_self ..

theorem fat_ne_zero : ∀ y ∈ cs, fat y ≠ 0 := by
  induction h with
  | last _ _ heoc =>
    intro y hy
    rw [mem_singleton.mp hy]
    omega
  | next _ _ htail ih =>
    intro y hy
    rcases mem_cons.mp hy with rfl | hy
    · have := htail.head_range
      omega
    · exact ih y hy

theorem congr (heq : ∀ y ∈ cs, fat' y = fat y) : Chain N fat' c cs := by
  induction h with
  | last h2 hN heoc => exact .last h2 hN ((heq _ (mem_singleton_self _)).symm ▸ heoc)
  | next h2 hN _ ih =>
    refine .next h2 hN ?_
    rw [heq _ (mem_cons_self ..)]
    exact ih fun y hy => heq y (mem_cons_of_mem _ hy)

end

theorem path (hN : N ≤ 0x0FFFFFF8) (h : Chain N fat c cs) : Path N fat c cs := by
  induction h with
  | last h2 hc heoc => exact .last h2 hc (link_eq_none heoc)
  | next h2 hc htail ih =>
    have hrange := htail.head_range
    exact .next h2 hc (link_eq_some hrange.1 (by omega)) ih

theorem unique (hN : N ≤ 0x0FFFFFF8) (h : Chain N fat c cs) (h' : Chain N fat c cs') : cs = cs' :=
  (h.path hN).unique (h'.path hN)

theorem nodup (hN : N ≤ 0x0FFFFFF8) (h : Chain N fat c cs) : cs.Nodup := (h.path hN).nodup

theorem cons_iff {x : ℕ} : Chain N fat c (x :: cs) ↔
    x = c ∧ 2 ≤ c ∧ c < N ∧ (cs = [] ∧ 0x0FFFFFF8 ≤ fat c ∨ Chain N fat (fat c) cs) := by
  constructor
  · intro h
    cases h with
    | last h2 hc heoc => exact ⟨rfl, h2, hc, .inl ⟨rfl, heoc⟩⟩
    | next h2 hc htail => exact ⟨rfl, h2, hc, .inr htail⟩
  · rintro ⟨rfl, h2, hc, ⟨rfl, heoc⟩ | htail⟩
    · exact .last h2 hc heoc
    · exact .next h2 hc htail

instance decidable (N : ℕ) (fat : ℕ → ℕ) : ∀ (c : ℕ) (cs : List ℕ), Decidable (Chain N fat c cs)
  | _, [] => .isFalse nofun
  | c, _ :: cs =>
    have := decidable N fat (fat c) cs
    decidable_of_iff' _ cons_iff

end Chain

section Geometry

variable {fs : Fat32} {fault : ℕ → ℕ → Option String} {s s' : ℕ → Sector}
variable {c : ℕ} {cs : List ℕ}

abbrev ChainOf (fs : Fat32) (s : ℕ → Sector) (c : ℕ) (cs : List ℕ) : Prop :=
  Chain fs.numClusters (fs.fat s) c cs

/-! ### Reading a chain -/

theorem runs_readClusterLoop {lba : ℕ} : ∀ {n i : ℕ}, lba + i + n ≤ 2 ^ 28 →
    (∀ t j, j < n → fault t (lba + i + j) = none) →
    Runs fault (readClusterLoop lba i n) s (bytesAt s (lba + i) n) s
  | 0, _, _, _ => Runs.pure
  | n + 1, i, hlt, hok => by
    have hadd : (add 32 lba i : Exec String Disk ℕ) = pure (lba + i) := add_of_lt (by omega)
    have hhead : ∀ t, fault t (lba + i) = none := fun t => by simpa using hok t 0 (by omega)
    have htail : ∀ t j, j < n → fault t (lba + (i + 1) + j) = none := fun t j hj => by
      have := hok t (j + 1) (by omega)
      rwa [show lba + i + (j + 1) = lba + (i + 1) + j by omega] at this
    have hrest : Runs fault (readClusterLoop lba (i + 1) n) s (bytesAt s (lba + (i + 1)) n) s :=
      runs_readClusterLoop (by omega) htail
    unfold readClusterLoop
    rw [hadd, bytesAt_succ]
    exact Runs.pure.bind ((runs_readOne (by omega) hhead).bind (hrest.bind Runs.pure))

theorem Readable.runs_readCluster (h : fs.Readable fault c) :
    Runs fault (readClusterLoop (fs.lbaOf c) 0 fs.bpb.sectorsPerCluster) s (fs.cluster s c) s :=
  runs_readClusterLoop h.data_lt h.data_ok

theorem Chain.runs_readChainLoop {N : ℕ} (h : Chain N (fs.fat s) c cs) (hread : ∀ x ∈ cs, fs.Readable fault x) :
    ∀ left, cs.length ≤ left + 1 → Runs fault (fs.readChainLoop left c) s (cs.flatMap (fs.cluster s)) s := by
  induction h with
  | @last c _ _ heoc =>
    intro left _
    have hc := hread c (mem_singleton_self c)
    have hnext := hc.runs_nextCluster (s := s)
    rw [link_eq_none heoc] at hnext
    unfold readChainLoop
    rw [hc.clusterToLba_eq, List.flatMap_singleton]
    exact Runs.pure.bind (hc.runs_readCluster.bind (hnext.bind Runs.pure))
  | @next c cs _ _ htail ih =>
    intro left hlen
    have hc := hread c (mem_cons_self ..)
    have hn := hread _ (mem_cons_of_mem _ htail.head_mem)
    have hpos : 0 < cs.length := List.length_pos_of_mem htail.head_mem
    rw [length_cons] at hlen
    obtain ⟨left, rfl⟩ : ∃ m, left = m + 1 := ⟨left - 1, by omega⟩
    have hnext := hc.runs_nextCluster (s := s)
    rw [link_eq_some hn.two_le hn.lt] at hnext
    have hrest := ih (fun x hx => hread x (mem_cons_of_mem _ hx)) left (by omega)
    unfold readChainLoop
    rw [hc.clusterToLba_eq]
    exact Runs.pure.bind (hc.runs_readCluster.bind (hnext.bind (hrest.bind Runs.pure)))

theorem runs_readChainLoop (g : fs.Geometry fault) (h : ChainOf fs s c cs) :
    ∀ left, cs.length ≤ left + 1 → Runs fault (fs.readChainLoop left c) s (cs.flatMap (fs.cluster s)) s :=
  h.runs_readChainLoop fun x hx => g.readable (h.range x hx).1 (h.range x hx).2

theorem readChainLoop_long (g : fs.Geometry fault) (h : ChainOf fs s c cs) :
    ∀ left k, left + 1 < cs.length →
      ∃ d, fs.readChainLoop left c ⟨s, k, fault⟩ = .err "FAT32: chaîne de clusters trop longue" d := by
  have hN := g.numClusters_lt
  induction h with
  | last =>
    intro left k hlen
    rw [List.length_singleton] at hlen
    omega
  | @next c cs h2 hc htail ih =>
    intro left k hlen
    have hrange := htail.head_range
    rw [length_cons] at hlen
    have hnext := runs_nextCluster (s := s) g hc
    rw [link_eq_some hrange.1 (by omega)] at hnext
    obtain ⟨k₁, h₁⟩ := (g.readable h2 hc).runs_readCluster (s := s) k
    obtain ⟨k₂, h₂⟩ := hnext k₁
    unfold readChainLoop
    rw [g.clusterToLba_eq h2 hc, bind_of_ok (pure_apply _ _), bind_of_ok h₁, bind_of_ok h₂]
    cases left with
    | zero => exact ⟨_, rfl⟩
    | succ left =>
      obtain ⟨d, hd⟩ := ih left k₂ (by omega)
      exact ⟨d, by simp only [bind_apply, hd]⟩

theorem answer_readChain (g : fs.Geometry fault) {k : ℕ} (h : ChainOf fs s c cs) :
    (fs.readChain c ⟨s, k, fault⟩).answer = some ( if cs.length ≤ 1000001 then .ok (cs.flatMap (fs.cluster s))
      else .error "FAT32: chaîne de clusters trop longue") := by
  by_cases hlen : cs.length ≤ 1000001
  · obtain ⟨k', hk⟩ := runs_readChainLoop g h 1000000 hlen k
    rw [readChain, hk, if_pos hlen]
    rfl
  · obtain ⟨d, hd⟩ := readChainLoop_long g h 1000000 k (by omega)
    rw [readChain, hd, if_neg hlen]
    rfl

/-! ### Freeing a chain -/

inductive Cleared (fs : Fat32) : (ℕ → Sector) → (ℕ → Sector) → List ℕ → Prop
  | nil {s : ℕ → Sector} : Cleared fs s s []
  | cons {s s₁ s' : ℕ → Sector} {c : ℕ} {cs : List ℕ} : c < fs.numClusters → CopiesSet fs s s₁ c 0 0 fs.bpb.numFats →
      Cleared fs s₁ s' cs → Cleared fs s s' (c :: cs)

theorem Cleared.volume (g : fs.Geometry fault) (h : Cleared fs s s' cs) :
    (∀ x < fs.numClusters, fs.fat s' x = if x ∈ cs then 0 else fs.fat s x) ∧
      (∀ x, fs.cluster s' x = fs.cluster s x) ∧ (Mirrored fs s → Mirrored fs s') := by
  induction h with
  | nil => exact ⟨fun x _ => by simp, fun _ => rfl, id⟩
  | @cons s s₁ s' c cs hc hcopies _ ih =>
    obtain ⟨hfat, hcl, hmir⟩ := ih
    have hset := hcopies.entrySet g hc
    refine ⟨fun x hx => ?_, fun x => (hcl x).trans (hset.cluster x), fun hm => hmir (hset.mirror hm)⟩
    rw [hfat x hx, hset.fat x hx]
    by_cases hxc : x = c
    · simp [hxc]
    · simp [hxc]

theorem Path.post_freeChainLoop {F : ℕ → ℕ} (h : Path fs.numClusters F c cs) (hacc : ∀ x ∈ cs, fs.Accessible fault x) :
    ∀ {fuel k : ℕ} {s : ℕ → Sector}, (∀ x ∈ cs, fs.fat s x = F x) → (fs.freeChainLoop fuel c ⟨s, k, fault⟩).Post
    (fun _ d => ∃ s' k', d = ⟨s', k', fault⟩ ∧ Cleared fs s s' cs) (fun _ _ => False) := by
  induction h with
  | @last c _ hc hend =>
    intro fuel k s hF
    cases fuel with
    | zero => trivial
    | succ fuel =>
      have hcur := hacc c (mem_singleton_self c)
      obtain ⟨s₁, hset, hcopies⟩ := hcur.runs_setFatEntry (sectorsPerFat_pos hc) 0 s
      have hnext := hcur.runs_nextCluster (s := s)
      rw [hF c (mem_singleton_self c), hend] at hnext
      exact hnext.post_bind fun _ => hset.post_bind fun k₂ => ⟨s₁, k₂, rfl, .cons hc hcopies .nil⟩
  | @next c n cs h2 hc hlink htail ih =>
    intro fuel k s hF
    have hnotin : c ∉ cs := (nodup_cons.1 (Path.next h2 hc hlink htail).nodup).1
    cases fuel with
    | zero => trivial
    | succ fuel =>
      have hcur := hacc c (mem_cons_self ..)
      obtain ⟨s₁, hset, hcopies⟩ := hcur.runs_setFatEntry (sectorsPerFat_pos hc) 0 s
      have hnext := hcur.runs_nextCluster (s := s)
      rw [hF c (mem_cons_self ..), hlink] at hnext
      -- the rest of the path does not come back to `c`
      have hF₁ : ∀ x ∈ cs, fs.fat s₁ x = F x := fun x hx => by
        have hne : x ≠ c := fun heq => hnotin (heq ▸ hx)
        rw [hcopies.fat_eq hcur.fats hc (htail.range x hx).2, if_neg hne, hF x (mem_cons_of_mem _ hx)]
      refine hnext.post_bind fun _ => hset.post_bind fun k₂ => ?_
      refine (ih (fun x hx => hacc x (mem_cons_of_mem _ hx)) hF₁).imp_ok (fun _ _ h => ?_)
      obtain ⟨s', k', hd, hcleared⟩ := h
      exact ⟨s', k', hd, .cons hc hcopies hcleared⟩

theorem post_freeChain (g : fs.Geometry fault) (h : c < 2 ∧ cs = [] ∨ ChainOf fs s c cs)
    {fuel k : ℕ} : (fs.freeChain fuel c ⟨s, k, fault⟩).Post
      (fun _ d => ∃ s' k', d = ⟨s', k', fault⟩ ∧ Cleared fs s s' cs) (fun _ _ => False) := by
  have hN := g.numClusters_lt
  unfold freeChain
  rcases h with ⟨hlt, rfl⟩ | h
  · rw [if_pos hlt]
    exact ⟨s, k, rfl, .nil⟩
  · have := h.head_range
    rw [if_neg (by omega)]
    exact (h.path (by omega)).post_freeChainLoop (fun x hx => g.accessible (h.range x hx).2) fun x _ => rfl

/-! ### Building a chain -/

structure Spilled (fs : Fat32) (s s' : ℕ → Sector) (cs : List ℕ) : Prop where
  free : ∀ c ∈ cs, c < fs.numClusters ∧ fs.fat s c = 0
  fat : ∀ y < fs.numClusters, y ∉ cs → fs.fat s' y = fs.fat s y
  cluster : ∀ y, 2 ≤ y → y ∉ cs → fs.cluster s' y = fs.cluster s y

theorem Spilled.refl (fs : Fat32) (s : ℕ → Sector) : Spilled fs s s [] :=
  ⟨fun c hc => (by cases hc), fun _ _ _ => rfl, fun _ _ _ => rfl⟩

theorem Spilled.cons {s₁ : ℕ → Sector} {v : ℕ} (hfree : fs.Free s c) (hset : EntrySet fs s s₁ c v)
    (h : Spilled fs s₁ s' cs) : Spilled fs s s' (c :: cs) := by
  refine ⟨fun x hx => ?_, fun y hy hout => ?_, fun y hy hout => ?_⟩
  · rcases mem_cons.mp hx with rfl | hx
    · exact hfree.2
    · obtain ⟨hxN, hx0⟩ := h.free x hx
      by_cases hxc : x = c
      · exact ⟨hxN, hxc ▸ hfree.2.2⟩
      · rw [hset.fat x hxN, if_neg hxc] at hx0
        exact ⟨hxN, hx0⟩
  · obtain ⟨hyc, hycs⟩ := List.ne_and_not_mem_of_not_mem_cons hout
    rw [h.fat y hy hycs, hset.fat y hy, if_neg hyc]
  · obtain ⟨hyc, hycs⟩ := List.ne_and_not_mem_of_not_mem_cons hout
    rw [h.cluster y hy hycs, hset.cluster y]

theorem post_allocChain (g : fs.Geometry fault) : ∀ {n k : ℕ} {s : ℕ → Sector}, (fs.allocChain n ⟨s, k, fault⟩).Post
    (fun cs d => ∃ s' k', d = ⟨s', k', fault⟩ ∧ Spilled fs s s' cs ∧ cs.length = n ∧ cs.Nodup ∧
      (∀ x ∈ cs, 2 ≤ x ∧ fs.fat s' x = 0x0FFFFFFF) ∧ (Mirrored fs s → Mirrored fs s'))
    (fun _ d => ∃ s' k' cs, d = ⟨s', k', fault⟩ ∧ Spilled fs s s' cs)
  | 0, k, s => ⟨s, k, rfl, .refl fs s, rfl, List.nodup_nil, fun x hx => (by cases hx), id⟩
  | n + 1, k, s => by
    refine post_bind ((runs_allocCluster g k).imp_err ?_) ?_
    · rintro _ _ ⟨k', rfl⟩
      exact ⟨s, k', [], rfl, .refl fs s⟩
    rintro c _ ⟨hfree, s₁, k₁, rfl, hset⟩
    refine post_bind ((post_allocChain g).imp_err ?_) ?_
    · rintro _ _ ⟨s', k', cs, rfl, hsp⟩
      exact ⟨s', k', c :: cs, rfl, hsp.cons hfree hset⟩
    rintro rest _ ⟨s', k', rfl, hsp, hlen, hnd, hmem, hmir⟩
    have heoc : fs.fat s₁ c = 0x0FFFFFFF := by simpa using hset.fat c hfree.2.1
    -- the first cluster is no longer free when the others are allocated
    have hnotin : c ∉ rest := fun hin => by
      have := (hsp.free c hin).2
      omega
    refine ⟨s', k', rfl, hsp.cons hfree hset, by rw [length_cons, hlen], nodup_cons.mpr ⟨hnotin, hnd⟩,
      fun x hx => ?_, fun hm => hmir (hset.mirror hm)⟩
    rcases mem_cons.mp hx with rfl | hx
    · exact ⟨hfree.1, (hsp.fat x hfree.2.1 hnotin).trans heoc⟩
    · exact hmem x hx

theorem runs_linkChain (g : fs.Geometry fault) : ∀ {cs : List ℕ} {s : ℕ → Sector}, cs.Nodup →
    (∀ x ∈ cs, 2 ≤ x ∧ x < fs.numClusters) → (∀ x ∈ cs, fs.fat s x = 0x0FFFFFFF) →
    ∃ s', Runs fault (fs.linkChain cs) s () s' ∧ (∀ c ∈ cs.head?, ChainOf fs s' c cs) ∧
      (∀ x < fs.numClusters, x ∉ cs → fs.fat s' x = fs.fat s x) ∧ (∀ x, fs.cluster s' x = fs.cluster s x) ∧
      (Mirrored fs s → Mirrored fs s')
  | [], s, _, _, _ => ⟨s, Runs.pure, fun c hc => (by cases hc), fun _ _ _ => rfl, fun _ => rfl, id⟩
  | [c], s, _, hr, he => by
    refine ⟨s, Runs.pure, fun x hx => ?_, fun _ _ _ => rfl, fun _ => rfl, id⟩
    cases hx
    have hrange := hr c (mem_singleton_self c)
    exact .last hrange.1 hrange.2 (by rw [he c (mem_singleton_self c)]; decide)
  | c :: c' :: rest, s, hnd, hr, he => by
    have hN := g.numClusters_lt
    obtain ⟨hnotin, hnd'⟩ := nodup_cons.mp hnd
    have hc := hr c (mem_cons_self ..)
    have hc' := hr c' (by simp)
    obtain ⟨s₁, hset, hfs⟩ := runs_setFatEntry g hc.2 c' s
    have hne : ∀ x ∈ c' :: rest, x ≠ c := fun x hx h => hnotin (h ▸ hx)
    have he₁ : ∀ x ∈ c' :: rest, fs.fat s₁ x = 0x0FFFFFFF := fun x hx => by
      rw [hfs.fat x (hr x (mem_cons_of_mem _ hx)).2, if_neg (hne x hx), he x (mem_cons_of_mem _ hx)]
    obtain ⟨s', hrun, hch, hfat, hcl, hmir⟩ := runs_linkChain g hnd' (fun x hx => hr x (mem_cons_of_mem _ hx)) he₁
    refine ⟨s', hset.bind hrun, fun x hx => ?_, fun x hx hnot => ?_, fun x => (hcl x).trans (hfs.cluster x),
      fun hm => hmir (hfs.mirror hm)⟩
    · cases hx
      have hlink : fs.fat s' c = c' := by
        rw [hfat c hc.2 hnotin, hfs.fat c hc.2, if_pos rfl]
        exact Nat.mod_eq_of_lt (by omega)
      refine .next hc.1 hc.2 ?_
      rw [hlink]
      exact hch c' rfl
    · obtain ⟨hxc, hxr⟩ := List.ne_and_not_mem_of_not_mem_cons hnot
      rw [hfat x hx hxr, hfs.fat x hx, if_neg hxc]

theorem take_zeros_append_drop {data : List Byte} {n m : ℕ} (h : data.length ≤ m * n + n) :
    data.take n ++ zeros (n - (data.take n).length) ++ (data.drop n ++ zeros (m * n - (data.drop n).length)) = data ++
    zeros ((m + 1) * n - data.length) := by
  rw [Nat.succ_mul, List.length_take, List.length_drop]
  rcases Nat.le_total n data.length with hle | hle
  · -- the cluster is full
    rw [Nat.min_eq_left hle, Nat.sub_self, show zeros 0 = [] from rfl, List.append_nil, ← List.append_assoc,
      List.take_append_drop]
    congr 2
    omega
  · -- the data end in this cluster
    rw [Nat.min_eq_right hle, List.take_of_length_le hle, List.drop_eq_nil_of_le hle, List.nil_append,
      List.append_assoc, zeros, zeros, List.replicate_append_replicate, zeros]
    congr 2
    omega

theorem runs_writeChain (g : fs.Geometry fault) : ∀ {cs : List ℕ} {data : List Byte} {s : ℕ → Sector},
    cs.Nodup → (∀ x ∈ cs, 2 ≤ x ∧ x < fs.numClusters) → data.length ≤ cs.length * fs.clusterBytes →
    ∃ s', Runs fault (fs.writeChain cs data) s () s' ∧
      cs.flatMap (fs.cluster s') = data ++ zeros (cs.length * fs.clusterBytes - data.length) ∧
      (∀ x < fs.numClusters, fs.fat s' x = fs.fat s x) ∧
      (∀ x, 2 ≤ x → x ∉ cs → fs.cluster s' x = fs.cluster s x) ∧ (Mirrored fs s → Mirrored fs s')
  | [], data, s, _, _, hlen => by
    have hnil : data = [] := List.length_eq_zero_iff.mp (by simpa using hlen)
    exact ⟨s, Runs.pure, by simp [hnil, zeros], fun _ _ => rfl, fun _ _ _ => rfl, id⟩
  | c :: rest, data, s, hnd, hr, hlen => by
    obtain ⟨hnotin, hnd'⟩ := nodup_cons.mp hnd
    have hc := hr c (mem_cons_self ..)
    rw [length_cons, Nat.succ_mul] at hlen
    obtain ⟨s₁, hrun₁, hset⟩ := runs_writeCluster g hc.1 hc.2
      (show (data.take fs.clusterBytes).length ≤ fs.clusterBytes by rw [List.length_take]; omega) s
    have hdrop : (data.drop fs.clusterBytes).length ≤ rest.length * fs.clusterBytes := by
      rw [List.length_drop]
      omega
    obtain ⟨s', hrun, hdata, hfat, hcl, hmir⟩ := runs_writeChain g (s := s₁) hnd'
      (fun x hx => hr x (mem_cons_of_mem _ hx)) hdrop
    refine ⟨s', hrun₁.bind hrun, ?_, fun x hx => (hfat x hx).trans (hset.fat x hx), fun x h2 hnot => ?_,
      fun hm => hmir (hset.mirror hm)⟩
    · rw [List.flatMap_cons, hdata, hcl c hc.1 hnotin, hset.cluster c hc.1, if_pos rfl]
      exact take_zeros_append_drop hlen
    · obtain ⟨hxc, hxr⟩ := List.ne_and_not_mem_of_not_mem_cons hnot
      rw [hcl x h2 hxr, hset.cluster x h2, if_neg hxc]

end Geometry

end RustKernel.Drivers.Fat32
