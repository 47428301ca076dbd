import RustKernel.Drivers.Fat32.Consistency

/-!
# Files that cannot be created

`create_root_file` takes its clusters one by one, writes the data, frees the chain of a file of the same name and writes
the entry. Nothing is undone when one of these steps fails.
-/

namespace RustKernel.Drivers.Fat32

open Lib Exec Ata

section Geometry

variable {fs : Fat32} {fault : ℕ → ℕ → Option String} {s s' : ℕ → Sector}
variable {d : Disk} {R : List ℕ} {L : List (List ℕ)} {fuel : ℕ} {name : List Char} {data : List Byte}

/-! ### A full volume -/

def Full (fs : Fat32) (s : ℕ → Sector) : Prop := ∀ c, 2 ≤ c → c < fs.numClusters → fs.fat s c ≠ 0

theorem Full.not_free (h : Full fs s) (c : ℕ) : ¬ fs.Free s c := fun hf => h c hf.1 hf.2.1 hf.2.2

theorem post_allocCluster_full (hfull : Full fs s) (hd : d.sectors = s) :
    (fs.allocCluster d).Post (fun _ _ => False) (fun _ d' => d'.sectors = s) := by
  subst hd
  refine (post_allocCluster d).imp (fun c _ h => hfull.not_free c h.1.1) fun _ _ h => ?_
  rcases h with h | ⟨c, _, hfree, _⟩
  · exact h.sectors_eq
  · exact absurd hfree (hfull.not_free c)

/-! ### A drive that fails at once -/

/-- The first access of the call fails. -/
def FailsFirst (d : Disk) : Prop := ∀ lba, d.fault d.clock lba ≠ none

theorem FailsFirst.post_read (h : FailsFirst d) (lba : ℕ) {count : ℕ} (hc : count ≠ 0) (buf : List Byte) :
    (Ata.read lba count buf d).Post (fun _ _ => False) (fun _ d' => d'.sectors = d.sectors) := by
  obtain ⟨e, he⟩ := Option.ne_none_iff_exists'.mp (h lba)
  obtain ⟨n, rfl⟩ := Nat.exists_eq_succ_of_ne_zero hc
  unfold Ata.read
  rw [if_neg hc]
  split_ifs
  · exact rfl
  · exact rfl
  · simp only [readLoop, bind_apply, wait, he]
    exact rfl

theorem FailsFirst.post_allocCluster (h : FailsFirst d) :
    (fs.allocCluster d).Post (fun _ _ => False) (fun _ d' => d'.sectors = d.sectors) := by
  refine post_bind (post_mul ..) ?_
  rintro _ _ ⟨-, rfl⟩
  cases fs.bpb.sectorsPerFat with
  | zero => exact rfl
  | succ n =>
    refine post_bind (post_add ..) ?_
    rintro _ _ ⟨-, rfl⟩
    exact post_bind (h.post_read _ Nat.one_ne_zero _) fun _ _ h => h.elim

theorem FailsFirst.post_createRootFile_nil (h : FailsFirst d) (hspc : fs.bpb.sectorsPerCluster ≠ 0) :
    (fs.createRootFile fuel name [] d).Post (fun _ _ => False) (fun _ d' => d'.sectors = d.sectors) := by
  unfold createRootFile
  cases packShortName name with
  | error e => exact rfl
  | ok b =>
    cases fuel with
    | zero => exact trivial
    | succ fuel =>
      -- there is no cluster to take, and the directory is looked at first
      show (fs.upsertLoop b 0 0 (fuel + 1) fs.bpb.rootCluster d).Post _ _
      refine post_bind (post_clusterToLba fs fs.bpb.rootCluster d).never ?_
      rintro _ _ ⟨-, rfl⟩
      exact post_bind (h.post_read _ hspc _) fun _ _ h => h.elim

theorem spilled_of_err (g : fs.Geometry fault) {k : ℕ} {e : String}
    (h : Layout fs s R L) (herr : fs.createRootFile fuel name data ⟨s, k, fault⟩ = .err e d) :
    ∃ s' k' cs, d = ⟨s', k', fault⟩ ∧ Spilled fs s s' cs ∧ (data = [] → s' = s) := by
  have hpost : (fs.createRootFile fuel name data ⟨s, k, fault⟩).Post (fun _ _ => True)
      (fun _ d => ∃ s' k' cs, d = ⟨s', k', fault⟩ ∧ Spilled fs s s' cs ∧ (data = [] → s' = s)) := by
    refine post_createRootFile g (fun e => ⟨s, k, [], rfl, .refl fs s, fun _ => rfl⟩)
      (fun e s' k' cs hne hsp => ⟨s', k', cs, rfl, hsp, fun h => absurd h hne⟩) fun b cs s₃ k₃ hpack hfilled => ?_
    have hp := hfilled.staged
    refine (post_upsertLoop g (length_newEntry (name83_of_pack hpack).length) (hp.chainOf h.root) (fun y hy => hy)
      (h.ownChains_staged hp b)).imp (fun _ _ _ => trivial) fun _ d hd => ?_
    obtain ⟨⟨k', rfl⟩, -⟩ := hd
    refine ⟨s₃, k', cs, rfl, ⟨hp.free, hp.fat, hp.cluster⟩, fun hnil => ?_⟩
    rcases hfilled with ⟨-, -, heq⟩ | ⟨hne, -⟩
    · exact heq
    · exact absurd hnil hne
  exact hpost.err herr

/-! ### The files -/

def SameFiles (fs : Fat32) (s s' : ℕ → Sector) (R : List ℕ) (L : List (List ℕ)) : Prop :=
  ∀ c ∈ R ++ L.flatten, fs.fat s' c = fs.fat s c ∧ fs.cluster s' c = fs.cluster s c

theorem Spilled.sameFiles {cs : List ℕ} (h : Layout fs s R L) (hsp : Spilled fs s s' cs) : SameFiles fs s s' R L := by
  intro c hc
  obtain ⟨⟨h2, hlt⟩, hne⟩ := h.used c hc
  have hout : c ∉ cs := fun hin => hne (hsp.free c hin).2
  exact ⟨hsp.fat c hlt hout, hsp.cluster c h2 hout⟩

theorem exists_inUse_of_mem_parseSlots {entry : DirEntry} : ∀ {L : List (List Byte)} {lfn : List (ℕ × List Char)},
    entry ∈ parseSlots lfn L → ∃ x ∈ L, InUse x ∧ entry.cluster = firstCluster x
  | [], lfn, h => by cases h
  | x :: L, lfn, h => by
    have hlater : ∀ {lfn}, entry ∈ parseSlots lfn L → ∃ y ∈ x :: L, InUse y ∧ entry.cluster = firstCluster y := by
      intro lfn h
      obtain ⟨y, hy, hrest⟩ := exists_inUse_of_mem_parseSlots h
      exact ⟨y, List.mem_cons_of_mem _ hy, hrest⟩
    simp only [parseSlots] at h
    split_ifs at h with hzero hdel hlfn hlabel hdots
    · cases h
    · exact hlater h
    · exact hlater h
    · exact hlater h
    · exact hlater h
    · rcases List.mem_cons.mp h with rfl | h
      · exact ⟨x, List.mem_cons_self .., ⟨hzero, hdel, hlfn⟩, rfl⟩
      · exact hlater h

theorem SameFiles.readFile (g : fs.Geometry fault) (h : Layout fs s R L) (hsame : SameFiles fs s s' R L) {path : List Char}
    (hslash : '/' ∉ path) (hne : path ≠ []) (hlen : R.length ≤ 1000001) (k k' : ℕ) :
    (fs.readFile path ⟨s', k', fault⟩).answer = (fs.readFile path ⟨s, k, fault⟩).answer := by
  have hR : ∀ c ∈ R, fs.fat s' c = fs.fat s c ∧ fs.cluster s' c = fs.cluster s c := fun c hc =>
    hsame c (List.mem_append_left _ hc)
  have hroot' : ChainOf fs s' fs.bpb.rootCluster R := h.root.congr fun c hc => (hR c hc).1
  have hslots : chainSlots fs s' R = chainSlots fs s R := chainSlots_congr fun c hc => (hR c hc).2
  obtain ⟨k₁, h₁⟩ := answer_readFile g hroot' hlen hslash hne k'
  obtain ⟨k₂, h₂⟩ := answer_readFile g h.root hlen hslash hne k
  rw [h₁, h₂, hslots]
  cases hentry : lookup (chainSlots fs s R) path with
  | none => rfl
  | some entry =>
    refine answerOf_congr g ?_
    obtain ⟨x, hx, huse, hcluster⟩ := exists_inUse_of_mem_parseSlots (List.mem_of_find?_eq_some hentry)
    obtain ⟨cs, hcs, hch⟩ := exists_entryChain h.files (List.mem_filter.mpr ⟨hx, decide_eq_true huse⟩)
    have hfile : ∀ c ∈ cs, fs.fat s' c = fs.fat s c ∧ fs.cluster s' c = fs.cluster s c := fun c hc =>
      hsame c (List.mem_append_right _ (List.mem_flatten.mpr ⟨cs, hcs, hc⟩))
    rw [hcluster]
    rcases hch with ⟨hlt, -⟩ | hch
    · exact .inl hlt
    · exact .inr ⟨cs, hch, fun c hc => (hfile c hc).1, fun c hc => (hfile c hc).2⟩

theorem post_createRootFile_of_allocCluster (hne : data ≠ [])
    (halloc : (fs.allocCluster d).Post (fun _ _ => False) (fun _ d' => d'.sectors = d.sectors)) :
    (fs.createRootFile fuel name data d).Post (fun _ _ => False) (fun _ d' => d'.sectors = d.sectors) := by
  unfold createRootFile
  cases packShortName name with
  | error e => exact rfl
  | ok b =>
    by_cases hcb : fs.clusterBytes = 0
    · have hpanic : expect (if data.isEmpty = true then some 0 else if fs.clusterBytes = 0 then none
          else some ((data.length + fs.clusterBytes - 1) / fs.clusterBytes)) = (Exec.panic : Exec String Disk ℕ) := by
        rw [if_neg (by simpa using hne), if_pos hcb]
        rfl
      simp only [hpanic]
      exact trivial
    · obtain ⟨hcount, hn, -⟩ := clusters_of_data hne (Nat.pos_of_ne_zero hcb)
      obtain ⟨m, hm⟩ := Nat.exists_eq_succ_of_ne_zero hn.ne'
      simp only [hcount, Exec.pure_bind]
      rw [hm]
      exact post_bind (post_bind halloc fun _ _ h => False.elim h) fun _ _ h => False.elim h

end Geometry

def failingAt (t : ℕ) : Disk where
  sectors := twoClusters.sectors
  clock := 0
  fault := fun t' _ => if t' = t then some "ATA: ERR/DF" else none

end RustKernel.Drivers.Fat32
