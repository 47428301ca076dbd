import RustKernel.Memory.Steady

/-!
# The ELF loader

`fs/elf.rs`: `load` checks the header of an image and loads its `PT_LOAD` segments into an
address space, `map_user_stack` maps a stack. Both are calls on `Vm`, since what they have
mapped stays when they fail.

`spawnSpace` is the part of `spawn_from_elf` that works on memory: the address space of a new
process, created under the active tables, with the image and a stack in it. When it fails
the space is dropped.
-/

namespace RustKernel.Fs

open Lib Exec Memory

/-! ### The headers -/

def fromLe (bin : List Byte) (off : ℕ) : ℕ → ℕ
  | 0 => 0
  | n + 1 => (bin.getD off 0).toNat + 256 * fromLe bin (off + 1) n

def EHDR_SIZE : ℕ := 64

def PHDR_SIZE : ℕ := 56

structure Ehdr where
  ident : List Byte
  type : ℕ
  machine : ℕ
  entry : ℕ
  phoff : ℕ
  phentsize : ℕ
  phnum : ℕ

def Ehdr.read (bin : List Byte) : Ehdr where
  ident := bin.take 16
  type := fromLe bin 16 2
  machine := fromLe bin 18 2
  entry := fromLe bin 24 8
  phoff := fromLe bin 32 8
  phentsize := fromLe bin 54 2
  phnum := fromLe bin 56 2

structure Phdr where
  type : ℕ
  flags : ℕ
  offset : ℕ
  vaddr : ℕ
  filesz : ℕ
  memsz : ℕ

def Phdr.read (bin : List Byte) (off : ℕ) : Phdr where
  type := fromLe bin off 4
  flags := fromLe bin (off + 4) 4
  offset := fromLe bin (off + 8) 8
  vaddr := fromLe bin (off + 16) 8
  filesz := fromLe bin (off + 32) 8
  memsz := fromLe bin (off + 40) 8

def PT_LOAD : ℕ := 1

def PF_W : ℕ := 2

def Ehdr.check (h : Ehdr) : Option String :=
  if h.ident.take 4 ≠ [0x7f#8, 0x45#8, 0x4c#8, 0x46#8] then some "ELF: magic invalide"
  else if h.ident.getD 4 0 ≠ 2 then some "ELF: pas ELF64"
  else if h.ident.getD 5 0 ≠ 1 then some "ELF: pas little-endian"
  else if h.machine ≠ 62 then some "ELF: pas x86_64"
  else if h.type ≠ 2 ∧ h.type ≠ 3 then some "ELF: type non supporté (EXEC/DYN requis)"
  else if h.phentsize ≠ PHDR_SIZE then some "ELF: e_phentsize inattendu"
  else none

/-! ### Loading -/

def segmentFlags (pflags : ℕ) : PageTableFlags :=
  if pflags &&& PF_W ≠ 0 then PRESENT ||| USER_ACCESSIBLE ||| WRITABLE else PRESENT ||| USER_ACCESSIBLE

def copySegment (bin : List Byte) (ph : Phdr) (flags : PageTableFlags) : Exec String Vm Unit :=
  if ph.filesz > 0 then do
    let srcEnd ← Exec.add 64 ph.offset ph.filesz
    if srcEnd > bin.length then Exec.throw "ELF: segment hors fichier"
    else do
      let vaddr ← virtAddrNew ph.vaddr
      AddressSpace.writeData vaddr ((bin.drop ph.offset).take ph.filesz) flags
  else pure ()

def loadSegment (bin : List Byte) (off highest : ℕ) : Exec String Vm ℕ :=
  let ph := Phdr.read bin off
  if ph.type ≠ PT_LOAD then pure highest
  else if ph.filesz > ph.memsz then Exec.throw "ELF: p_filesz > p_memsz"
  else if ph.memsz = 0 then pure highest
  else do
    let flags := segmentFlags ph.flags
    let segEnd ← Exec.add 64 ph.vaddr ph.memsz
    let vaddr ← virtAddrNew ph.vaddr
    AddressSpace.ensureMapped vaddr ph.memsz flags
    copySegment bin ph flags
    pure (if segEnd > highest then segEnd else highest)

def loadSegments (bin : List Byte) : ℕ → ℕ → ℕ → Exec String Vm ℕ
  | 0, _, highest => pure highest
  | n + 1, off, highest => do
    let highest ← loadSegment bin off highest
    loadSegments bin n (off + PHDR_SIZE) highest

structure LoadedElf where
  entry : ℕ
  highestVaddr : ℕ

def load (bin : List Byte) : Exec String Vm LoadedElf :=
  if bin.length < EHDR_SIZE then Exec.throw "ELF: fichier tronqué"
  else
    let ehdr := Ehdr.read bin
    match ehdr.check with
    | some e => Exec.throw e
    | none => do
      let phEnd ← Exec.add 64 ehdr.phoff (ehdr.phentsize * ehdr.phnum)
      if phEnd > bin.length then Exec.throw "ELF: program headers hors fichier"
      else do
        let highestVaddr ← loadSegments bin ehdr.phnum ehdr.phoff 0
        if ehdr.entry = 0 then Exec.throw "ELF: e_entry = 0"
        else do
          let entry ← virtAddrNew ehdr.entry
          pure { entry, highestVaddr }

def stackLoop : ℕ → ℕ → Exec String Vm Unit
  | 0, _ => pure ()
  | pages + 1, addr => do
    let va ← virtAddrNew addr
    let _ ← AddressSpace.mapAlloc (va / 4096) (PRESENT ||| WRITABLE ||| USER_ACCESSIBLE)
    stackLoop pages (addr + 4096)

def mapUserStack (stackTop pages : ℕ) : Exec String Vm ℕ := do
  stackLoop pages (stackTop - pages * 4096)
  virtAddrNew (stackTop - 16)

/-! ### The address space of a new process -/

def USER_STACK_TOP : ℕ := 0x00007ffffffff000

def USER_STACK_PAGES : ℕ := 16

def loadProgram (bin : List Byte) : Exec String Vm (ℕ × ℕ) := do
  let loaded ← load bin
  let rsp ← mapUserStack USER_STACK_TOP USER_STACK_PAGES
  pure (loaded.entry, rsp)

def withSpace {α : Type} (space : AddressSpace) (x : Exec String Vm α) : Exec String PhysMem (AddressSpace × α) :=
  fun m =>
    match x ⟨m, space⟩ with
    | .ok r v => .ok (v.space, r) v.mem
    | .err e v => (v.space.drop >>= fun _ => Exec.throw e) v.mem
    | .panic => .panic
    | .diverge => .diverge

def spawnSpace (cr3 : ℕ) (bin : List Byte) : Exec String PhysMem (AddressSpace × ℕ × ℕ) := do
  let space ← AddressSpace.newUser cr3
  withSpace space (loadProgram bin)

/-! ### A small image -/

def toLe (n : ℕ) : ℕ → List Byte
  | 0 => []
  | w + 1 => BitVec.ofNat 8 n :: toLe (n / 256) w

def tinyImage : List Byte :=
  -- the file header
  [0x7f#8, 0x45#8, 0x4c#8, 0x46#8, 2#8, 1#8, 1#8, 0#8] ++ toLe 0 8 ++ toLe 2 2 ++ toLe 62 2 ++ toLe 1 4 ++
    toLe 0x40000000 8 ++ toLe 64 8 ++ toLe 0 8 ++ toLe 0 4 ++ toLe 64 2 ++ toLe 56 2 ++ toLe 1 2 ++ toLe 0 6 ++
  -- the program header
    toLe 1 4 ++ toLe 7 4 ++ toLe 120 8 ++ toLe 0x40000000 8 ++ toLe 0x40000000 8 ++ toLe 2 8 ++ toLe 2 8 ++
    toLe 4096 8 ++
  -- the segment
    [0xeb#8, 0xfe#8]

/-! ### What loading keeps -/

theorem virtAddrNew_post {ε σ : Type} {E : ε → σ → Prop} (addr : ℕ) (s : σ) :
    (virtAddrNew addr s : Outcome ε σ ℕ).Post (fun _ s' => s' = s) E := by
  unfold virtAddrNew
  split_ifs <;> trivial

theorem mapAlloc_recorded (page : ℕ) (fl : PageTableFlags) (v : Vm) : (AddressSpace.mapAlloc page fl v).Post
    (fun f v' => v'.space.mappedPages[page]? = some f) (fun _ _ => True) :=
  post_mapAlloc trivial fun _ _ _ => (Outcome.post_true _).imp_ok (fun _ _ _ => Std.ExtTreeMap.getElem?_insert_self)

theorem segmentFlags_eq (pflags : ℕ) : segmentFlags pflags = pageFlags (decide (pflags &&& PF_W ≠ 0)) := by
  unfold segmentFlags
  by_cases h : pflags &&& PF_W ≠ 0
  · rw [if_pos h, decide_eq_true h]
    decide
  · rw [if_neg h, decide_eq_false h]
    decide

section Keeps

-- `I` is what is kept by mapping a page and by writing to a frame the space records, and `E` what is left of it when
-- mapping a page fails
variable {I E : Vm → Prop}
  (hmap : ∀ v page writable, I v →
    (AddressSpace.mapAlloc page (pageFlags writable) v).Post (fun _ => I) (fun _ => E))
  (hwrite : ∀ (v : Vm) (page f off : ℕ) (bs : List Byte), I v → v.space.mappedPages[page]? = some f →
    I { v with mem := v.mem.writeBytes f off bs })

include hmap hwrite

theorem writeLoop_post (writable : Bool) : ∀ (turns cur : ℕ) (data : List Byte) (v : Vm), I v →
    (AddressSpace.writeLoop (pageFlags writable) turns cur data v).Post (fun _ => I) (fun _ => E)
  | 0, _, _, _, hv => hv
  | turns + 1, cur, data, v, hv => by
    unfold AddressSpace.writeLoop
    split_ifs
    · exact hv
    have hframe : (AddressSpace.frameFor (cur / 4096) (pageFlags writable) v).Post
        (fun f v' => I v' ∧ v'.space.mappedPages[cur / 4096]? = some f) (fun _ => E) := by
      rw [AddressSpace.frameFor, get_bind]
      cases hrec : v.space.mappedPages[cur / 4096]? with
      | some f => exact ⟨hv, hrec⟩
      | none => exact ((hmap v (cur / 4096) writable hv).and (mapAlloc_recorded _ _ v)).imp_err fun _ _ h => h.1
    refine post_bind hframe fun f v₁ ⟨hv₁, hf⟩ => ?_
    rw [inMem_modify_bind]
    have hv₂ := hwrite v₁ _ f (cur % 4096) (data.take (min (4096 - cur % 4096) data.length)) hv₁ hf
    refine post_bind (post_add ..) ?_
    rintro next _ ⟨-, rfl⟩
    refine post_bind (virtAddrNew_post ..) ?_
    rintro addr _ rfl
    exact writeLoop_post writable turns addr _ _ hv₂

omit hwrite in
theorem ensureLoop_post (writable : Bool) : ∀ (pages cur : ℕ) (v : Vm), I v →
    (AddressSpace.ensureLoop (pageFlags writable) pages cur v).Post (fun _ => I) (fun _ => E)
  | 0, _, _, hv => hv
  | pages + 1, cur, v, hv => by
    unfold AddressSpace.ensureLoop
    refine post_bind (virtAddrNew_post ..) ?_
    rintro addr _ rfl
    rw [get_bind]
    split_ifs
    · exact ensureLoop_post writable pages _ _ hv
    · exact post_bind (hmap _ _ writable hv) fun _ v₁ hv₁ => ensureLoop_post writable pages _ v₁ hv₁

omit hwrite in
theorem ensureMapped_post (writable : Bool) (vaddr len : ℕ) (v : Vm) (hv : I v) :
    (AddressSpace.ensureMapped vaddr len (pageFlags writable) v).Post (fun _ => I) (fun _ => E) := by
  unfold AddressSpace.ensureMapped
  refine post_bind (post_add 64 vaddr len) fun stop v₁ h₁ => ?_
  refine post_bind (post_add 64 stop 4095) fun stop' v₂ h₂ => ?_
  have hv₂ : I v₂ := by
    rw [h₂.2, h₁.2]
    exact hv
  exact ensureLoop_post hmap _ _ _ _ hv₂

variable (hstop : ∀ v, I v → E v)

include hstop

section

variable (bin : List Byte)

theorem copySegment_post (ph : Phdr) (writable : Bool) (v : Vm) (hv : I v) :
    (copySegment bin ph (pageFlags writable) v).Post (fun _ => I) (fun _ => E) := by
  unfold copySegment
  split_ifs
  · refine post_bind (post_add ..) ?_
    rintro srcEnd _ ⟨-, rfl⟩
    by_cases hlen : srcEnd > bin.length
    · rw [if_pos hlen]
      exact hstop _ hv
    · rw [if_neg hlen]
      refine post_bind (virtAddrNew_post ..) ?_
      rintro vaddr _ rfl
      exact writeLoop_post hmap hwrite _ _ _ _ _ hv
  · exact hv

theorem loadSegment_post (off highest : ℕ) (v : Vm) (hv : I v) :
    (loadSegment bin off highest v).Post (fun _ => I) (fun _ => E) := by
  unfold loadSegment
  generalize Phdr.read bin off = ph
  split_ifs
  · exact hv
  · exact hstop v hv
  · exact hv
  rw [segmentFlags_eq]
  refine post_bind (post_add ..) ?_
  rintro segEnd _ ⟨-, rfl⟩
  refine post_bind (virtAddrNew_post ..) ?_
  rintro vaddr _ rfl
  refine post_bind (ensureMapped_post hmap _ _ _ _ hv) fun _ v₁ hv₁ => ?_
  exact post_bind (copySegment_post hmap hwrite hstop _ _ _ v₁ hv₁) fun _ _ h => h

theorem loadSegments_post : ∀ (n off highest : ℕ) (v : Vm), I v →
    (loadSegments bin n off highest v).Post (fun _ => I) (fun _ => E)
  | 0, _, _, _, hv => hv
  | n + 1, off, highest, v, hv =>
    post_bind (loadSegment_post hmap hwrite hstop bin off highest v hv) fun highest' v₁ hv₁ =>
      loadSegments_post n _ highest' v₁ hv₁

theorem load_post (v : Vm) (hv : I v) : (load bin v).Post (fun _ => I) (fun _ => E) := by
  unfold load
  split_ifs
  · exact hstop v hv
  generalize Ehdr.read bin = ehdr
  dsimp only
  cases ehdr.check with
  | some e => exact hstop v hv
  | none =>
    refine post_bind (post_add ..) ?_
    rintro phEnd _ ⟨-, rfl⟩
    by_cases hend : phEnd > bin.length
    · rw [if_pos hend]
      exact hstop _ hv
    rw [if_neg hend]
    refine post_bind (loadSegments_post hmap hwrite hstop bin _ _ _ _ hv) fun highest v₁ hv₁ => ?_
    by_cases hentry : ehdr.entry = 0
    · rw [if_pos hentry]
      exact hstop v₁ hv₁
    rw [if_neg hentry]
    refine post_bind (virtAddrNew_post ..) ?_
    rintro entry _ rfl
    exact hv₁

end

omit hwrite hstop in
theorem stackLoop_post : ∀ (pages addr : ℕ) (v : Vm), I v →
    (stackLoop pages addr v).Post (fun _ => I) (fun _ => E)
  | 0, _, _, hv => hv
  | pages + 1, addr, v, hv => by
    unfold stackLoop
    refine post_bind (virtAddrNew_post ..) ?_
    rintro va _ rfl
    exact post_bind (hmap _ _ true hv) fun _ v₁ hv₁ => stackLoop_post pages _ v₁ hv₁

theorem loadProgram_post (bin : List Byte) (v : Vm) (hv : I v) : (loadProgram bin v).Post (fun _ => I) (fun _ => E) := by
  refine post_bind (load_post hmap hwrite hstop bin v hv) fun loaded v₁ hv₁ => ?_
  refine post_bind (Q := fun _ => I) ?_ fun _ _ h => h
  refine post_bind (stackLoop_post hmap _ _ v₁ hv₁) fun _ v₂ hv₂ => ?_
  refine (virtAddrNew_post _ v₂).imp_ok ?_
  rintro rsp _ rfl
  exact hv₂

end Keeps

end RustKernel.Fs
