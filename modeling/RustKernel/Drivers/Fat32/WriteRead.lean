import RustKernel.Drivers.Fat32.Directory

/-!
# Writing a file and reading it back

`create_root_file` allocates clusters, links them, writes the data and then the directory
entry; `read_file` finds the entry by name and follows its chain.
-/

namespace RustKernel.Drivers.Fat32

open Lib Exec Ata
open List (append_assoc mem_cons_self flatMap_def map_congr_left mem_append_right mem_append mem_cons mem_filterMap
  map_map find?_append)

/-! ### The entry written -/

section NewEntry

variable {name : List Byte} {cluster size : ℕ}

section

variable (h : name.length = 11)
include h

theorem length_newEntry : (newEntry name cluster size).length = 32 := by
  simp [newEntry, zeros, le16Bytes, h]

theorem take_newEntry : (newEntry name cluster size).take 11 = name := by
  simp only [newEntry, append_assoc]
  exact List.take_left' h

theorem getD_newEntry (j : ℕ) : (newEntry name cluster size).getD (11 + j) 0 =
    ([0x20#8] ++ zeros 8 ++ le16Bytes ((cluster >>> 16) &&& 0xFFFF) ++ zeros 4 ++ le16Bytes (cluster &&& 0xFFFF) ++
      le32Bytes size).getD j 0 := by
  simp only [newEntry, append_assoc]
  rw [List.getD_append_right _ _ _ _ (by omega), h, Nat.add_sub_cancel_left]

theorem attrs_newEntry : attrs (newEntry name cluster size) = 0x20 := by
  rw [attrs, getD_newEntry h 0]
  rfl

theorem firstCluster_newEntry (hc : cluster < 2 ^ 32) :
    firstCluster (newEntry name cluster size) = cluster := by
  have hmask : (0xFFFF : ℕ) = 2 ^ 16 - 1 := rfl
  have hhi : le16 (newEntry name cluster size) 20 = cluster / 2 ^ 16 := by
    have hlt : (cluster >>> 16) &&& 0xFFFF < 2 ^ 16 := Nat.and_lt_two_pow _ (by decide)
    rw [le16, getD_newEntry h 9, getD_newEntry h 10]
    refine (le16_le16Bytes hlt).trans ?_
    rw [hmask, Nat.and_two_pow_sub_one_eq_mod]
    omega
  have hlo : le16 (newEntry name cluster size) 26 = cluster % 2 ^ 16 := by
    have hlt : cluster &&& 0xFFFF < 2 ^ 16 := Nat.and_lt_two_pow _ (by decide)
    rw [le16, getD_newEntry h 15, getD_newEntry h 16]
    refine (le16_le16Bytes hlt).trans ?_
    rw [hmask, Nat.and_two_pow_sub_one_eq_mod]
  rw [firstCluster, hlo, ← Nat.shiftLeft_add_eq_or_of_lt (Nat.mod_lt _ (by decide))]
  omega

theorem size_newEntry (hs : size < 2 ^ 32) : le32 (newEntry name cluster size) 28 = size := by
  rw [le32, le16, le16, getD_newEntry h 17, getD_newEntry h 18, getD_newEntry h 19, getD_newEntry h 20]
  exact le32_le32Bytes hs

end

end NewEntry

variable {e : List Byte}

theorem Name83.shortName_ne_dots (h : Name83 (e.take 11)) :
    ¬ (shortName e = ['.'] ∨ shortName e = ['.', '.']) := by
  have hbase : (shortName e).takeWhile (· != '.') ≠ [] := by
    rw [h.shortName_eq, takeWhile_joinName h.dot_notMem]
    intro hnil
    -- the first byte of the base is not a space
    have hempty : strip (e.take 8) = [] := List.map_eq_nil_iff.mp hnil
    have hspaces := List.rdropWhile_eq_nil_iff.mp hempty
    have hlen := h.length
    rw [List.length_take] at hlen
    have hfirst := h.base
    rw [List.take_take] at hfirst
    cases hb : e.take 8 with
    | nil =>
      have := congrArg List.length hb
      rw [List.length_take, List.length_nil] at this
      omega
    | cons b bs =>
      have h₁ : isSpace b = true := hspaces b (hb ▸ mem_cons_self ..)
      have h₂ : isSpace b = false := hfirst b (by rw [show min 8 11 = 8 from rfl, hb]; rfl)
      cases h₁.symm.trans h₂
  rintro (h | h)
  · exact hbase (by rw [h]; rfl)
  · exact hbase (by rw [h]; rfl)

theorem Name83.first_ne (h : Name83 (e.take 11)) : first e ≠ 0 ∧ first e ≠ 0xE5 := by
  have hlen := h.length
  cases e with
  | nil => simp at hlen
  | cons b e =>
    have hb := h.byte b (by simp)
    have hfirst : first (b :: e) = b.toNat := rfl
    omega

/-! ### Reading a file of the root -/

section Geometry

variable {fs : Fat32} {fault : ℕ → ℕ → Option String} {s s' : ℕ → Sector}
variable {R : List ℕ} {path : List Char} {k : ℕ} {L : List (List Byte)} {cs : List ℕ} {data : List Byte} {c fuel : ℕ}
  {A : List (List Byte)} {e : List Byte} {s₃ : ℕ → Sector} {name : List Char}

def answerOf (fs : Fat32) (d : Disk) : Option DirEntry → Option (Except String (List Byte))
  | none => some (.error "FAT32: fichier/répertoire introuvable")
  | some entry =>
    if entry.isDir then some (.error "FAT32: c'est un répertoire")
    else (fs.readChain entry.cluster d).answer.map (·.map (List.take entry.size))

def lookup (L : List (List Byte)) (name : List Char) : Option DirEntry :=
  (parseSlots [] L).find? fun e => eqIgnoreAsciiCase e.name name

theorem runs_lsCluster (g : fs.Geometry fault) (hR : ChainOf fs s c R) (hlen : R.length ≤ 1000001) :
    Runs fault (fs.lsCluster c) s (parseSlots [] (chainSlots fs s R)) s := by
  have hslots : slots (R.flatMap (fs.cluster s)) = chainSlots fs s R := slots_flatMap fun c _ => length_cluster_eq s c
  have hread : Runs fault (fs.readChain c) s (R.flatMap (fs.cluster s)) s := runs_readChainLoop g hR 1000000 hlen
  rw [← hslots]
  exact hread.bind Runs.pure

theorem resolve_eq (hslash : '/' ∉ path) (hne : path ≠ []) : fs.resolve path = fs.resolveParts fs.bpb.rootCluster [path] := by
  have hdrop : path.dropWhile (· == '/') = path := by
    cases path with
    | nil => rfl
    | cons c path =>
      have hc : (c == '/') = false := beq_eq_false_iff_ne.mpr fun h => hslash (h ▸ mem_cons_self ..)
      rw [List.dropWhile_cons, hc]
      rfl
  have hparts : (path.splitOn '/').filter (fun s => !s.isEmpty) = [path] := by
    rw [List.splitOn_eq_singleton hslash]
    simp [hne]
  simp only [resolve, hdrop, hparts]
  rw [if_neg (by simpa using hne)]

theorem answer_readFile (g : fs.Geometry fault) (hR : ChainOf fs s fs.bpb.rootCluster R) (hlen : R.length ≤ 1000001)
    (hslash : '/' ∉ path) (hne : path ≠ []) (k : ℕ) :
    ∃ k', (fs.readFile path ⟨s, k, fault⟩).answer = answerOf fs ⟨s, k', fault⟩ (lookup (chainSlots fs s R) path) := by
  obtain ⟨k', hk⟩ := runs_lsCluster g hR hlen k
  refine ⟨k', ?_⟩
  rw [readFile, resolve_eq hslash hne, resolveParts, bind_apply, bind_of_ok hk]
  have hfind : (parseSlots [] (chainSlots fs s R)).find? (fun e => eqIgnoreAsciiCase e.name path) =
      lookup (chainSlots fs s R) path := rfl
  rw [hfind]
  cases lookup (chainSlots fs s R) path with
  | none => rfl
  | some entry =>
    simp only [List.isEmpty_nil, if_true, pure_apply, answerOf]
    by_cases hdir : entry.isDir = true
    · simp only [if_pos hdir]
      rfl
    · simp only [if_neg hdir]
      rw [bind_apply]
      cases fs.readChain entry.cluster ⟨s, k', fault⟩ <;> rfl

theorem answer_readFile_none (g : fs.Geometry fault) (hR : ChainOf fs s fs.bpb.rootCluster R) (hslash : '/' ∉ path)
    (hne : path ≠ []) (hnone : lookup (chainSlots fs s R) path = none) (k : ℕ) :
    ∃ e, (fs.readFile path ⟨s, k, fault⟩).answer = some (.error e) := by
  by_cases hlen : R.length ≤ 1000001
  · obtain ⟨k', hk⟩ := answer_readFile g hR hlen hslash hne k
    rw [hk, hnone]
    exact ⟨_, rfl⟩
  · -- the root is too long to be listed
    obtain ⟨d, hd⟩ := readChainLoop_long g hR 1000000 k (by omega)
    have hread : fs.readChain fs.bpb.rootCluster ⟨s, k, fault⟩ = .err _ d := hd
    rw [readFile, resolve_eq hslash hne, resolveParts, lsCluster]
    simp only [bind_apply, hread]
    exact ⟨_, rfl⟩

theorem readChain_lt_two (hc : c < 2) (d : Disk) : fs.readChain c d = .panic := by
  have hsub : (Exec.sub c 2 : Exec String Disk ℕ) = Exec.panic := if_neg (by omega)
  rw [readChain, readChainLoop, clusterToLba, hsub]
  rfl

theorem answerOf_congr (g : fs.Geometry fault) {k' : ℕ} {entry : DirEntry}
    (h : entry.cluster < 2 ∨ ∃ cs, ChainOf fs s entry.cluster cs ∧ (∀ c ∈ cs, fs.fat s' c = fs.fat s c) ∧
      ∀ c ∈ cs, fs.cluster s' c = fs.cluster s c) :
    answerOf fs ⟨s', k', fault⟩ (some entry) = answerOf fs ⟨s, k, fault⟩ (some entry) := by
  simp only [answerOf]
  rcases h with hlt | ⟨cs, hch, hfat, hcl⟩
  · rw [readChain_lt_two hlt, readChain_lt_two hlt]
  · have hbytes : cs.flatMap (fs.cluster s') = cs.flatMap (fs.cluster s) := by
      rw [flatMap_def, flatMap_def, map_congr_left hcl]
    rw [answer_readChain g hch, answer_readChain g (hch.congr hfat), hbytes]

/-! ### The live slots -/

theorem live_append (h : ∀ e ∈ A, first e ≠ 0) : live (A ++ L) = A ++ live L :=
  List.takeWhile_append_of_pos fun e he => by simpa using h e he

theorem live_cons_of_ne (h : first e ≠ 0) : live (e :: L) = e :: live L :=
  List.takeWhile_cons_of_pos (by simpa using h)

theorem live_of_zeros (h : ∀ e ∈ L, first e = 0) : live L = [] := by
  cases L with
  | nil => rfl
  | cons e L => exact List.takeWhile_cons_of_neg (by simp [h e (mem_cons_self ..)])

/-! ### Well-formed volumes -/

def IsEntry (L : List (List Byte)) (e : List Byte) : Prop := e ∈ live L ∧ first e ≠ 0xE5

structure RootOk (fs : Fat32) (s : ℕ → Sector) (R : List ℕ) : Prop where
  unused : ∀ A x B, chainSlots fs s R = A ++ x :: B → first x = 0 → ∀ e ∈ B, first e = 0
  noLfn : ∀ e, IsEntry (chainSlots fs s R) e → attrs e ≠ 0x0F
  name : ∀ e, IsEntry (chainSlots fs s R) e → ¬ IsLabel e → Name83 (e.take 11)
  chain : ∀ e, IsEntry (chainSlots fs s R) e →
    firstCluster e = 0 ∨ ∃ cs, ChainOf fs s (firstCluster e) cs ∧ ∀ c ∈ cs, c ∉ R
  disjoint : (live (chainSlots fs s R)).Pairwise fun e e' => first e ≠ 0xE5 → first e' ≠ 0xE5 →
    ∀ cs cs', ChainOf fs s (firstCluster e) cs → ChainOf fs s (firstCluster e') cs' → ∀ c ∈ cs, c ∉ cs'

structure WellFormed (fs : Fat32) (d : Disk) : Prop where
  geometry : fs.Geometry d.fault
  root : ∃ R, ChainOf fs d.sectors fs.bpb.rootCluster R ∧ R.length ≤ 1000000 ∧ RootOk fs d.sectors R

theorem RootOk.mem_live (h : RootOk fs s R) (he : e ∈ chainSlots fs s R)
    (hne : first e ≠ 0) : e ∈ live (chainSlots fs s R) := by
  obtain ⟨A, B, hS⟩ := List.append_of_mem he
  have hA : ∀ x ∈ A, first x ≠ 0 := fun x hx hzero => by
    obtain ⟨A₁, A₂, rfl⟩ := List.append_of_mem hx
    rw [append_assoc] at hS
    exact hne (h.unused A₁ x _ hS hzero e (by simp))
  rw [hS, live_append hA, live_cons_of_ne hne]
  exact mem_append_right _ (mem_cons_self ..)

theorem RootOk.live_cases
    {R' : List ℕ} {name new : List Byte} {cur : ℕ} {B : List (List Byte)} {x : List Byte} {fr : List ℕ} {s₀ : ℕ → Sector}
    (h : RootOk fs s₀ R) (hslots : chainSlots fs s R = chainSlots fs s₀ R) (hup : Upserted fs name new s s' cur R R' A x B fr) :
    first x ≠ 0 ∧ live (chainSlots fs s₀ R) = A ++ x :: live B ∨ first x = 0 ∧ live (chainSlots fs s₀ R) = A ∧ live B = [] := by
  have hA : ∀ e ∈ A, first e ≠ 0 := fun e he => (hup.passed e he).1
  rcases hup.before with ⟨-, hS⟩ | ⟨n, -, -, -, -, hS, hx, hB⟩
  · rw [hslots] at hS
    by_cases hx : first x = 0
    · right
      have hB : live B = [] := live_of_zeros (h.unused A x B hS hx)
      refine ⟨hx, ?_, hB⟩
      rw [hS, live_append hA, live, List.takeWhile_cons_of_neg (by simp [hx]), List.append_nil]
    · left
      exact ⟨hx, by rw [hS, live_append hA, live_cons_of_ne hx]⟩
  · right
    rw [hslots] at hS
    refine ⟨hx, ?_, live_of_zeros hB⟩
    have := live_append (L := []) hA
    rw [hS]
    simpa [live] using this

structure Prepared (fs : Fat32) (s s₃ : ℕ → Sector) (cs : List ℕ) (data : List Byte) : Prop where
  free : ∀ c ∈ cs, c < fs.numClusters ∧ fs.fat s c = 0
  chain : ChainOf fs s₃ (cs.headD 0) cs
  bytes : cs.flatMap (fs.cluster s₃) = data ++ zeros (cs.length * fs.clusterBytes - data.length)
  fat : ∀ y < fs.numClusters, y ∉ cs → fs.fat s₃ y = fs.fat s y
  cluster : ∀ y, 2 ≤ y → y ∉ cs → fs.cluster s₃ y = fs.cluster s y
  mirror : Mirrored fs s → Mirrored fs s₃

structure Staged (fs : Fat32) (s s₃ : ℕ → Sector) (cs : List ℕ) : Prop where
  free : ∀ c ∈ cs, c < fs.numClusters ∧ fs.fat s c = 0
  chain : cs = [] ∨ ChainOf fs s₃ (cs.headD 0) cs
  fat : ∀ y < fs.numClusters, y ∉ cs → fs.fat s₃ y = fs.fat s y
  cluster : ∀ y, 2 ≤ y → y ∉ cs → fs.cluster s₃ y = fs.cluster s y
  mirror : Mirrored fs s → Mirrored fs s₃

theorem Prepared.staged (hp : Prepared fs s s₃ cs data) : Staged fs s s₃ cs :=
  ⟨hp.free, .inr hp.chain, hp.fat, hp.cluster, hp.mirror⟩

theorem Staged.nil (fs : Fat32) (s : ℕ → Sector) : Staged fs s s [] :=
  ⟨fun c hc => (by cases hc), .inl rfl, fun _ _ _ => rfl, fun _ _ _ => rfl, id⟩

theorem prepared_of_spilled (g : fs.Geometry fault) {s₁ : ℕ → Sector} (hlen : 0 < cs.length)
    (hdata : data.length ≤ cs.length * fs.clusterBytes) (hsp : Spilled fs s s₁ cs) (hnd : cs.Nodup)
    (heoc : ∀ x ∈ cs, 2 ≤ x ∧ fs.fat s₁ x = 0x0FFFFFFF) (hmir₁ : Mirrored fs s → Mirrored fs s₁) : ∃ s₂ s₃,
    Runs fault (fs.linkChain cs) s₁ () s₂ ∧ Runs fault (fs.writeChain cs data) s₂ () s₃ ∧ Prepared fs s s₃ cs data := by
  have hrange : ∀ x ∈ cs, 2 ≤ x ∧ x < fs.numClusters := fun x hx => ⟨(heoc x hx).1, (hsp.free x hx).1⟩
  obtain ⟨s₂, hrun₂, hch₂, hfat₂, hcl₂, hmir₂⟩ := runs_linkChain g hnd hrange fun x hx => (heoc x hx).2
  obtain ⟨s₃, hrun₃, hbytes, hfat₃, hcl₃, hmir₃⟩ := runs_writeChain g (s := s₂) hnd hrange hdata
  refine ⟨s₂, s₃, hrun₂, hrun₃, hsp.free, ?_, hbytes, fun y hy hnot => ?_, fun y hy hnot => ?_,
    fun hm => hmir₃ (hmir₂ (hmir₁ hm))⟩
  · cases cs with
    | nil => cases hlen
    | cons c cs => exact (hch₂ c rfl).congr fun y hy => hfat₃ y (hrange y hy).2
  · rw [hfat₃ y hy, hfat₂ y hy hnot, hsp.fat y hy hnot]
  · rw [hcl₃ y hy hnot, hcl₂, hsp.cluster y hy hnot]

theorem clusters_of_data (hne : data ≠ []) (hcb : 0 < fs.clusterBytes) :
    expect (if data.isEmpty = true then some 0 else if fs.clusterBytes = 0 then none
        else some ((data.length + fs.clusterBytes - 1) / fs.clusterBytes)) =
        (pure ((data.length + fs.clusterBytes - 1) / fs.clusterBytes) : Exec String Disk ℕ) ∧
      0 < (data.length + fs.clusterBytes - 1) / fs.clusterBytes ∧
      data.length ≤ (data.length + fs.clusterBytes - 1) / fs.clusterBytes * fs.clusterBytes := by
  have hpos : 0 < data.length := List.length_pos_of_ne_nil hne
  refine ⟨?_, Nat.div_pos (by omega) hcb, ?_⟩
  · rw [if_neg (by simpa using hne), if_neg hcb.ne', expect_some]
  · have := Nat.div_add_mod (data.length + fs.clusterBytes - 1) fs.clusterBytes
    have := Nat.mod_lt (data.length + fs.clusterBytes - 1) hcb
    rw [Nat.mul_comm]
    omega

def Filled (fs : Fat32) (s s₃ : ℕ → Sector) (cs : List ℕ) (data : List Byte) : Prop :=
  data = [] ∧ cs = [] ∧ s₃ = s ∨
    data ≠ [] ∧ cs.length = (data.length + fs.clusterBytes - 1) / fs.clusterBytes ∧ Prepared fs s s₃ cs data

theorem Filled.staged (h : Filled fs s s₃ cs data) : Staged fs s s₃ cs := by
  rcases h with ⟨-, rfl, rfl⟩ | ⟨-, -, hp⟩
  · exact .nil fs _
  · exact hp.staged

theorem post_createRootFile (g : fs.Geometry fault)
    {Q : Unit → Disk → Prop} {E : String → Disk → Prop} (hname : ∀ e, E e ⟨s, k, fault⟩)
    (halloc : ∀ e s' k' cs, data ≠ [] → Spilled fs s s' cs → E e ⟨s', k', fault⟩)
    (hentry : ∀ b cs s₃ k₃, packShortName name = .ok b → Filled fs s s₃ cs data →
      (fs.upsertLoop b (cs.headD 0) (data.length % 2 ^ 32) fuel fs.bpb.rootCluster ⟨s₃, k₃, fault⟩).Post Q E) :
    (fs.createRootFile fuel name data ⟨s, k, fault⟩).Post Q E := by
  have hcb : 0 < fs.clusterBytes := Nat.mul_pos g.spc_pos (by decide)
  unfold createRootFile
  cases hpack : packShortName name with
  | error e => exact hname e
  | ok b =>
    by_cases hne : data = []
    · -- nothing is allocated
      subst hne
      exact hentry b [] s k hpack (.inl ⟨rfl, rfl, rfl⟩)
    · obtain ⟨hcount, hn, hcover⟩ := clusters_of_data hne hcb
      simp only [hcount]
      refine Runs.pure.post_bind fun k₁ => ?_
      refine post_bind ((post_allocChain g).imp_err ?_) ?_
      · rintro e _ ⟨s', k', cs, rfl, hsp⟩
        exact halloc e s' k' cs hne hsp
      rintro cs _ ⟨s₁, k₂, rfl, hsp, hlen, hnd, heoc, hmir⟩
      obtain ⟨s₂, s₃, hrun₂, hrun₃, hp⟩ := prepared_of_spilled g (hlen.symm ▸ hn) (hlen.symm ▸ hcover) hsp hnd heoc hmir
      exact hrun₂.post_bind fun _ => hrun₃.post_bind fun k₄ => hentry b cs s₃ k₄ hpack (.inr ⟨hne, hlen, hp⟩)

theorem of_createRootFile (g : fs.Geometry fault) {d : Disk}
    (h : fs.createRootFile fuel name data ⟨s, k, fault⟩ = .ok () d) : ∃ b cs s₃ k₃, packShortName name = .ok b ∧ Filled fs s s₃
    cs data ∧ fs.upsertLoop b (cs.headD 0) (data.length % 2 ^ 32) fuel fs.bpb.rootCluster ⟨s₃, k₃, fault⟩ = .ok () d := by
  have hpost : (fs.createRootFile fuel name data ⟨s, k, fault⟩).Post (fun _ d => ∃ b cs s₃ k₃,
      packShortName name = .ok b ∧ Filled fs s s₃ cs data ∧
        fs.upsertLoop b (cs.headD 0) (data.length % 2 ^ 32) fuel fs.bpb.rootCluster ⟨s₃, k₃, fault⟩ = .ok () d)
      (fun _ _ => True) := by
    refine post_createRootFile g (fun _ => trivial) (fun _ _ _ _ _ _ => trivial) fun b cs s₃ k₃ hpack hfilled => ?_
    exact (Outcome.post_self _).imp (fun _ _ h => ⟨b, cs, s₃, k₃, hpack, hfilled, h⟩) fun _ _ _ => trivial
  exact hpost.ok h

section Staged

variable {s₃ : ℕ → Sector} {cs : List ℕ} (hp : Staged fs s s₃ cs)
variable {c : ℕ} {l : List ℕ}

include hp

theorem Staged.notMem (h : ChainOf fs s c l) : ∀ y ∈ l, y ∉ cs := fun y hy hin => h.fat_ne_zero y hy (hp.free y hin).2

theorem Staged.chainOf (h : ChainOf fs s c l) : ChainOf fs s₃ c l :=
  h.congr fun y hy => hp.fat y (h.range y hy).2 (hp.notMem h y hy)

theorem Staged.chainSlots_eq (h : ChainOf fs s c l) : chainSlots fs s₃ l = chainSlots fs s l :=
  chainSlots_congr fun y hy => hp.cluster y (h.range y hy).1 (hp.notMem h y hy)

theorem Staged.range : ∀ y ∈ cs, (2 ≤ y ∧ y < fs.numClusters) ∧ fs.fat s₃ y ≠ 0 := by
  rcases hp.chain with rfl | hch
  · intro y hy
    cases hy
  · exact fun y hy => ⟨hch.range y hy, hch.fat_ne_zero y hy⟩

theorem Staged.nodup (g : fs.Geometry fault) : cs.Nodup := by
  have hN := g.numClusters_lt
  rcases hp.chain with rfl | hch
  · exact List.nodup_nil
  · exact hch.nodup (by omega)

theorem Staged.headD_lt (g : fs.Geometry fault) : cs.headD 0 < 2 ^ 32 := by
  have hN := g.numClusters_lt
  rcases hp.chain with rfl | hch
  · exact Nat.two_pow_pos 32
  · have := hch.head_range
    omega

end Staged

/-! ### The file written, and the others -/

section Created

variable {s₃ : ℕ → Sector} {cs R R' fr : List ℕ} {data b : List Byte} {name : List Char} {x : List Byte}
  {A B : List (List Byte)} (g : fs.Geometry fault) (hroot : ChainOf fs s fs.bpb.rootCluster R)
  (hok : RootOk fs s R) (hp : Staged fs s s₃ cs) (hpack : packShortName name = .ok b)
  (hup : Upserted fs b (newEntry b (cs.headD 0) data.length) s₃ s' fs.bpb.rootCluster R R' A x B fr)

variable {e : List Byte}

include hok hp in
theorem ownChains (hroot : ChainOf fs s fs.bpb.rootCluster R) (b : List Byte) : OwnChains fs b s₃ R R := by
  intro e he hs
  rw [hp.chainSlots_eq hroot] at he
  rcases hok.chain e ⟨hok.mem_live he hs.1, hs.2.2.1⟩ with hzero | ⟨l, hl, hdisj⟩
  · exact ⟨[], .inl ⟨by omega, rfl⟩, fun y hy => (by cases hy)⟩
  · exact ⟨l, .inr (hp.chainOf hl), hdisj⟩

include g hroot hok hp hup in
theorem freed_cases : fr = [] ∨
    Stores b x ∧ live (chainSlots fs s R) = A ++ x :: live B ∧ ChainOf fs s (firstCluster x) fr := by
  have hN := g.numClusters_lt
  rcases hup.chosen with ⟨-, hnil⟩ | ⟨hs, ⟨-, hnil⟩ | hfr⟩
  · exact .inl hnil
  · exact .inl hnil
  · right
    rcases hok.live_cases (hp.chainSlots_eq hroot) hup with ⟨-, hlive⟩ | ⟨hx, -⟩
    · have hx : IsEntry (chainSlots fs s R) x := ⟨hlive ▸ mem_append_right _ (mem_cons_self ..), hs.2.2.1⟩
      rcases hok.chain x hx with hzero | ⟨lx, hlx, -⟩
      · have := hfr.head_range
        omega
      · exact ⟨hs, hlive, hfr.unique (by omega) (hp.chainOf hlx) ▸ hlx⟩
    · exact absurd hx hs.1

include g hroot hok hp hup in
theorem untouched {l : List ℕ} (he : e ∈ A ∨ e ∈ live B) (hdel : first e ≠ 0xE5) (hl : ChainOf fs s (firstCluster e) l)
    (hR : ∀ y ∈ l, y ∉ R) : (∀ y ∈ l, fs.fat s' y = fs.fat s y) ∧ ∀ y ∈ l, fs.cluster s' y = fs.cluster s y := by
  have hN := g.numClusters_lt
  have hl₃ := hp.chainOf hl
  have hR' : ∀ y ∈ l, y ∉ R' := fun y hy => hup.notMem (hR y hy) (hl₃.fat_ne_zero y hy)
  -- the entry replaced, if any, is another one
  have hfr : ∀ y ∈ l, y ∉ fr := by
    intro y hy hin
    rcases freed_cases g hroot hok hp hup with rfl | ⟨hs, hlive, hlx⟩
    · cases hin
    · have hpair := hok.disjoint
      rw [hlive, List.pairwise_append] at hpair
      obtain ⟨-, hpx, hcross⟩ := hpair
      rcases he with he | he
      · exact hcross e he x (mem_cons_self ..) hdel hs.2.2.1 l fr hl hlx y hy hin
      · exact (List.pairwise_cons.mp hpx).1 e he hs.2.2.1 hdel fr l hlx hl y hin hy
  refine ⟨fun y hy => ?_, fun y hy => ?_⟩
  · rw [hup.fat y (hl.range y hy).2 (hR' y hy), if_neg (hfr y hy), hp.fat y (hl.range y hy).2 (hp.notMem hl y hy)]
  · rw [hup.cluster y (hl.range y hy).1 (hR' y hy), hp.cluster y (hl.range y hy).1 (hp.notMem hl y hy)]

include hroot hup in
theorem Prepared.newFile (hp : Prepared fs s s₃ cs data) (hfr : ∀ y ∈ cs, y ∉ fr) : ChainOf fs s' (cs.headD 0) cs ∧
    cs.flatMap (fs.cluster s') = data ++ zeros (cs.length * fs.clusterBytes - data.length) := by
  have hR' : ∀ y ∈ cs, y ∉ R' := fun y hy => hup.notMem (fun h => hp.staged.notMem hroot y h hy) (hp.chain.fat_ne_zero y hy)
  have hcl : ∀ y ∈ cs, fs.cluster s' y = fs.cluster s₃ y := fun y hy => hup.cluster y (hp.chain.range y hy).1 (hR' y hy)
  refine ⟨hp.chain.congr fun y hy => ?_, ?_⟩
  · rw [hup.fat y (hp.chain.range y hy).2 (hR' y hy), if_neg (hfr y hy)]
  · rw [← hp.bytes, flatMap_def, flatMap_def, map_congr_left hcl]

include g hroot hok hp hup in
theorem newFile_kept : ∀ y ∈ cs, y ∉ fr := by
  intro y hy hin
  rcases freed_cases g hroot hok hp hup with rfl | ⟨-, -, hlx⟩
  · cases hin
  · exact hp.notMem hlx y hin hy

def newDirEntry (name : List Char) (cs : List ℕ) (data : List Byte) : DirEntry :=
  { name := name.map toAsciiUppercase, isDir := false, size := data.length, cluster := cs.headD 0 }

include hpack in
theorem slotEntry_newEntry (hdot : name.getLast? ≠ some '.') (hc : cs.headD 0 < 2 ^ 32) (hsize : data.length < 2 ^ 32) :
    slotEntry (newEntry b (cs.headD 0) data.length) = some (newDirEntry name cs data) := by
  have hlen := (name83_of_pack hpack).length
  have htake : (newEntry b (cs.headD 0) data.length).take 11 = b := take_newEntry hlen
  have h83 : Name83 ((newEntry b (cs.headD 0) data.length).take 11) := htake.symm ▸ name83_of_pack hpack
  have hlabel : ¬ IsLabel (newEntry b (cs.headD 0) data.length) := by
    rw [IsLabel, attrs_newEntry hlen]
    decide
  have hattr : attrs (newEntry b (cs.headD 0) data.length) ≠ 0x0F := by
    rw [attrs_newEntry hlen]
    decide
  rw [slotEntry, if_neg, shortName_of_pack hpack hdot htake, attrs_newEntry hlen, size_newEntry hlen hsize,
    firstCluster_newEntry hlen hc]
  · rfl
  · rintro (h | h | h | h)
    · exact h83.first_ne.2 h
    · exact hattr h
    · exact hlabel h
    · exact h83.shortName_ne_dots h

include hok hp hup hpack hroot in
theorem parseSlots_after (hdot : name.getLast? ≠ some '.') (hc : cs.headD 0 < 2 ^ 32) (hsize : data.length < 2 ^ 32) :
    parseSlots [] (chainSlots fs s' R') = A.filterMap slotEntry ++
    newDirEntry name cs data :: (live B).filterMap slotEntry := by
  have hlen := (name83_of_pack hpack).length
  have hne : first (newEntry b (cs.headD 0) data.length) ≠ 0 := by
    have h83 : Name83 ((newEntry b (cs.headD 0) data.length).take 11) := (take_newEntry hlen).symm ▸ name83_of_pack hpack
    exact h83.first_ne.1
  have hA : ∀ e ∈ A, first e ≠ 0 := fun e he => (hup.passed e he).1
  have hlive : live (chainSlots fs s' R') = A ++ newEntry b (cs.headD 0) data.length :: live B := by
    rw [hup.after, live_append hA, live_cons_of_ne hne]
  have hcases := hok.live_cases (hp.chainSlots_eq hroot) hup
  have hlfn : ∀ e ∈ live (chainSlots fs s' R'), first e ≠ 0xE5 → attrs e ≠ 0x0F := by
    intro e he hdel
    rw [hlive, mem_append, mem_cons] at he
    rcases he with he | rfl | he
    · refine hok.noLfn e ⟨?_, hdel⟩
      rcases hcases with ⟨-, hl⟩ | ⟨-, hl, -⟩
      · exact hl ▸ List.mem_append_left _ he
      · exact hl ▸ he
    · rw [attrs_newEntry hlen]
      decide
    · refine hok.noLfn e ⟨?_, hdel⟩
      rcases hcases with ⟨-, hl⟩ | ⟨-, -, hB⟩
      · exact hl ▸ mem_append_right _ (List.mem_cons_of_mem _ he)
      · rw [hB] at he
        cases he
  rw [parseSlots_eq hlfn, hlive, List.filterMap_append, List.filterMap_cons, slotEntry_newEntry hpack hdot hc hsize]

include hok hp hup hroot in
theorem mem_live_of_beside (he : e ∈ A ∨ e ∈ live B) : e ∈ live (chainSlots fs s R) := by
  rcases hok.live_cases (hp.chainSlots_eq hroot) hup with ⟨-, hl⟩ | ⟨-, hl, hB⟩
  · rw [hl, mem_append, mem_cons]
    exact he.imp id .inr
  · rcases he with he | he
    · exact hl ▸ he
    · rw [hB] at he
      cases he

theorem of_slotEntry_eq_some {entry : DirEntry} (h : slotEntry e = some entry) :
    first e ≠ 0xE5 ∧ ¬ IsLabel e ∧ entry.name = shortName e ∧ entry.cluster = firstCluster e := by
  unfold slotEntry at h
  split_ifs at h with hno
  cases h
  exact ⟨fun hd => hno (.inl hd), fun hl => hno (.inr (.inr (.inl hl))), rfl, rfl⟩

include hok hp hup hpack hroot in
theorem lookup_new (hdot : name.getLast? ≠ some '.') (hc : cs.headD 0 < 2 ^ 32)
    (hsize : data.length < 2 ^ 32) : lookup (chainSlots fs s' R') name = some (newDirEntry name cs data) := by
  have hnone : (A.filterMap slotEntry).find? (fun e => eqIgnoreAsciiCase e.name name) = none := by
    refine List.find?_eq_none.mpr fun entry hin => ?_
    obtain ⟨e, he, hentry⟩ := mem_filterMap.mp hin
    obtain ⟨hdel, hlabel, hn, -⟩ := of_slotEntry_eq_some hentry
    have hlive : IsEntry (chainSlots fs s R) e := ⟨mem_live_of_beside hroot hok hp hup (.inl he), hdel⟩
    rw [hn, eqIgnoreAsciiCase_shortName_iff hpack hdot (hok.name e hlive hlabel)]
    -- the walk passed it by
    have hpass := hup.passed e he
    exact fun hb => hpass.2 ⟨hpass.1, hok.noLfn e hlive, hdel, hb⟩
  have hself : eqIgnoreAsciiCase (newDirEntry name cs data).name name = true := by
    rw [eqIgnoreAsciiCase_iff, newDirEntry, map_map]
    exact map_congr_left fun c _ => toAsciiUppercase_idem c
  rw [lookup, parseSlots_after hroot hok hp hpack hup hdot hc hsize, find?_append, hnone, Option.none_or]
  exact List.find?_cons_of_pos hself

include hok hp hup hpack hroot in
theorem lookup_other (hdot : name.getLast? ≠ some '.') (hc : cs.headD 0 < 2 ^ 32) (hsize : data.length < 2 ^ 32)
    {other : List Char} (hother : eqIgnoreAsciiCase other name = false) :
    lookup (chainSlots fs s' R') other = lookup (chainSlots fs s R) other ∧
    ∀ entry, lookup (chainSlots fs s R) other = some entry → ∃ e, (e ∈ A ∨ e ∈ live B) ∧ slotEntry e = some entry := by
  have hdiff : ∀ entry : DirEntry, entry.name = name.map toAsciiUppercase → eqIgnoreAsciiCase entry.name other = false := by
    intro entry hn
    rw [Bool.eq_false_iff, ne_eq, eqIgnoreAsciiCase_iff, hn, map_map]
    intro heq
    rw [Bool.eq_false_iff, ne_eq, eqIgnoreAsciiCase_iff] at hother
    exact hother (heq.symm.trans (map_congr_left fun c _ => toAsciiUppercase_idem c))
  -- without the slot written, both listings are these
  have hafter : lookup (chainSlots fs s' R') other =
      (A.filterMap slotEntry ++ (live B).filterMap slotEntry).find? fun e => eqIgnoreAsciiCase e.name other := by
    rw [lookup, parseSlots_after hroot hok hp hpack hup hdot hc hsize, find?_append, find?_append,
      List.find?_cons_of_neg (by rw [hdiff _ rfl]; exact Bool.false_ne_true)]
  have hbefore : lookup (chainSlots fs s R) other =
      (A.filterMap slotEntry ++ (live B).filterMap slotEntry).find? fun e => eqIgnoreAsciiCase e.name other := by
    rw [lookup, parseSlots_eq fun e he hdel => hok.noLfn e ⟨he, hdel⟩]
    rcases hok.live_cases (hp.chainSlots_eq hroot) hup with ⟨hx, hl⟩ | ⟨-, hl, hB⟩
    · rw [hl, List.filterMap_append, List.filterMap_cons, find?_append, find?_append]
      cases hentry : slotEntry x with
      | none => rfl
      | some entry =>
        obtain ⟨hdel, hlabel, hn, -⟩ := of_slotEntry_eq_some hentry
        have hs : Stores b x := by
          rcases hup.chosen with ⟨hv, -⟩ | ⟨hs, -⟩
          · exact absurd hv (not_or.mpr ⟨hx, hdel⟩)
          · exact hs
        have hfalse : eqIgnoreAsciiCase entry.name other = false :=
          hdiff entry (hn.trans (shortName_of_pack hpack hdot hs.2.2.2))
        rw [List.find?_cons_of_neg (by rw [hfalse]; exact Bool.false_ne_true)]
    · rw [hl, hB, List.filterMap_nil, List.append_nil]
  refine ⟨hafter.trans hbefore.symm, fun entry hentry => ?_⟩
  rw [hbefore] at hentry
  rcases mem_append.mp (List.mem_of_find?_eq_some hentry) with hin | hin
  · obtain ⟨e, he, h⟩ := mem_filterMap.mp hin
    exact ⟨e, .inl he, h⟩
  · obtain ⟨e, he, h⟩ := mem_filterMap.mp hin
    exact ⟨e, .inr he, h⟩

end Created

end Geometry

/-- **Write then read.** On a well-formed volume, if `create_root_file` returns, then reading
the file returns its data, and reading any other name of the root answers as before. -/
theorem readFile_createRootFile {fs : Fat32} {d d' : Disk} {fuel : ℕ} {name : List Char} {data : List Byte}
    (hwf : WellFormed fs d) (hdot : name.getLast? ≠ some '.') (hne : data ≠ []) (hsize : data.length < 2 ^ 32)
    (hspan : data.length ≤ 1000001 * fs.clusterBytes)
    (hcreate : fs.createRootFile fuel name data d = .ok () d') :
    (fs.readFile name d').answer = some (.ok data) ∧
    ∀ other, '/' ∉ other → other ≠ [] → eqIgnoreAsciiCase other name = false →
      (fs.readFile other d').answer = (fs.readFile other d).answer := by
  obtain ⟨g, R, hroot, hRlen, hok⟩ := hwf
  obtain ⟨s, k, fault⟩ := d
  have hN := g.numClusters_lt
  have hcb : 0 < fs.clusterBytes := Nat.mul_pos g.spc_pos (by decide)
  -- the clusters are allocated, linked and written
  obtain ⟨b, cs, s₃, k₃, hpack, hfilled, hupsert⟩ := of_createRootFile g hcreate
  obtain ⟨-, hlen, hprep⟩ := hfilled.resolve_left fun h => hne h.1
  have hp := hprep.staged
  have hblen := (name83_of_pack hpack).length
  have hnle : (data.length + fs.clusterBytes - 1) / fs.clusterBytes ≤ 1000001 := by
    rw [Nat.div_le_iff_le_mul hcb]
    omega
  have hhead := hprep.chain.head_range
  -- the entry is written
  rw [Nat.mod_eq_of_lt hsize] at hupsert
  obtain ⟨s', k', R', A, x, B, fr, rfl, -, hup, -⟩ := (post_upsertLoop g (length_newEntry hblen) (hp.chainOf hroot)
    (fun y hy => hy) (ownChains hok hp hroot b)).ok hupsert
  have hR'len : R'.length ≤ 1000001 := by
    rcases hup.before with ⟨rfl, -⟩ | ⟨n, rfl, -⟩
    · omega
    · rw [List.length_append, List.length_singleton]
      omega
  refine ⟨?_, fun other hslash hother hdiff => ?_⟩
  · have hname : name ≠ [] := by
      rintro rfl
      cases hpack
    obtain ⟨k₄, hread⟩ := answer_readFile g hup.chain hR'len (slash_notMem_of_pack hpack) hname k'
    obtain ⟨hchain, hbytes⟩ := hprep.newFile hroot hup (newFile_kept g hroot hok hp hup)
    rw [hread, lookup_new hroot hok hp hpack hup hdot (by omega) hsize, answerOf]
    simp only [newDirEntry]
    rw [answer_readChain g hchain, if_pos (by omega), hbytes]
    simp [Except.map]
  · obtain ⟨k₄, hread⟩ := answer_readFile g hup.chain hR'len hslash hother k'
    obtain ⟨k₅, hread'⟩ := answer_readFile g hroot (by omega) hslash hother k
    obtain ⟨heq, hfound⟩ := lookup_other hroot hok hp hpack hup hdot (by omega) hsize hdiff
    rw [hread, hread', heq]
    cases hentry : lookup (chainSlots fs s R) other with
    | none => rfl
    | some entry =>
      obtain ⟨e, he, hslot⟩ := hfound entry hentry
      obtain ⟨hdel, -, -, hcluster⟩ := of_slotEntry_eq_some hslot
      refine answerOf_congr g ?_
      rw [hcluster]
      have hlive : IsEntry (chainSlots fs s R) e := ⟨mem_live_of_beside hroot hok hp hup he, hdel⟩
      rcases hok.chain e hlive with hzero | ⟨l, hl, hR⟩
      · exact .inl (by omega)
      · exact .inr ⟨l, hl, untouched g hroot hok hp hup he hdel hl hR⟩

def smallVolume : Fat32 where
  bpb := { sectorsPerCluster := 1, numFats := 1, sectorsPerFat := 1, rootCluster := 2 }
  fatStartLba := 32
  dataStartLba := 33

def emptyDisk : Disk where
  sectors := fun lba i => if lba = 32 ∧ 8 ≤ i.val ∧ i.val < 12 then 0xff#8 else 0
  clock := 0
  fault := fun _ _ => none

theorem geometry_smallVolume : smallVolume.Geometry emptyDisk.fault := by
  refine ⟨by decide, by decide, rfl, by decide, fun c _ hc => ?_, fun _ _ _ _ => rfl, fun _ _ _ _ _ _ => rfl⟩
  have hN : smallVolume.numClusters = 128 := rfl
  rw [hN] at hc
  simp only [lbaOf, smallVolume]
  omega

def entryB : List Byte := newEntry (0x42#8 :: List.replicate 10 0x20#8) 3 1

/-- A volume with the file `B` of one byte. -/
def oneFile : Disk where
  sectors := fun lba i =>
    if lba = 32 then (zeros 8 ++ le32Bytes 0x0FFFFFFF ++ le32Bytes 0x0FFFFFFF).getD i 0
    else if lba = 33 then entryB.getD i 0
    else if lba = 34 then [9#8].getD i 0
    else 0
  clock := 0
  fault := fun _ _ => none

theorem wellFormed_oneFile : WellFormed smallVolume oneFile := by
  have hS : chainSlots smallVolume oneFile.sectors [2] = entryB :: List.replicate 15 (zeros 32) := by decide +kernel
  obtain ⟨h₂, h₃⟩ : smallVolume.fat oneFile.sectors 2 = 0x0FFFFFFF ∧ smallVolume.fat oneFile.sectors 3 = 0x0FFFFFFF := by
    decide +kernel
  have hchain : ∀ c, 2 ≤ c → c < 128 → smallVolume.fat oneFile.sectors c = 0x0FFFFFFF →
      ChainOf smallVolume oneFile.sectors c [c] := fun c h2 hlt hc => .last h2 hlt (by rw [hc]; decide)
  have hlive : live (entryB :: List.replicate 15 (zeros 32)) = [entryB] := by decide
  have hentry : ∀ e, IsEntry (chainSlots smallVolume oneFile.sectors [2]) e → e = entryB := fun e he => by
    have hmem := he.1
    rw [hS, hlive] at hmem
    exact List.mem_singleton.mp hmem
  refine ⟨geometry_smallVolume, [2], hchain 2 le_rfl (by decide) h₂, by decide, fun A x B hAB hx e he => ?_, fun e he => ?_,
    fun e he _ => ?_, fun e he => .inr ⟨[3], ?_, by decide⟩, ?_⟩
  · rw [hS] at hAB
    cases A with
    | nil =>
      obtain ⟨rfl, -⟩ := List.cons_eq_cons.mp hAB
      exact absurd hx (by decide)
    | cons a A =>
      have hzero : e ∈ List.replicate 15 (zeros 32) := by
        rw [(List.cons_eq_cons.mp hAB).2]
        exact mem_append_right A (List.mem_cons_of_mem x he)
      rw [List.eq_of_mem_replicate hzero]
      rfl
  · rw [hentry e he]
    decide
  · rw [hentry e he]
    exact ⟨by decide, by decide, by decide, by decide⟩
  · rw [hentry e he]
    exact hchain 3 (by decide) (by decide) h₃
  · rw [hS, hlive]
    exact List.pairwise_singleton _ _

/-- A second file is created and read back, and the first is still there. -/
theorem readFile_createRootFile_small : ∃ d', smallVolume.createRootFile 2 ['A'] [7#8] oneFile = .ok () d' ∧
    (smallVolume.readFile ['A'] d').answer = some (.ok [7#8]) ∧ (smallVolume.readFile ['B'] d').answer = some (.ok [9#8]) := by
  have hret : (smallVolume.createRootFile 2 ['A'] [7#8] oneFile).Returns fun _ _ => True := by decide +kernel
  obtain ⟨_, d', h, -⟩ := hret
  have hfiles := readFile_createRootFile wellFormed_oneFile (by decide) (by decide) (by decide) (by decide) h
  have hB : (smallVolume.readFile ['B'] oneFile).answer = some (.ok [9#8]) := by decide +kernel
  exact ⟨d', h, hfiles.1, (hfiles.2 ['B'] (by decide) (by decide) (by decide)).trans hB⟩

end RustKernel.Drivers.Fat32
