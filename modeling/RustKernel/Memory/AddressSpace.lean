import RustKernel.Memory.Paging

/-!
# Address spaces

`memory/address_space.rs` and `memory/cow.rs`: an address space is a level-4 table and the
record `mapped_pages` of the pages that were mapped through it.
-/

namespace RustKernel.Memory

open Lib

/-! ### Bytes of words -/

def getByte (w : Word) (k : ℕ) : Byte := (w >>> (8 * k)).setWidth 8

def putByte (w : Word) (k : ℕ) (b : Byte) : Word := w &&& ~~~(0xff#64 <<< (8 * k)) ||| b.setWidth 64 <<< (8 * k)

namespace PhysMem

def writeByte (m : PhysMem) (frame off : ℕ) (b : Byte) : PhysMem :=
  m.write frame (off / 8) (putByte (m.words frame (off / 8)) (off % 8) b)

def writeBytes (m : PhysMem) (frame : ℕ) : ℕ → List Byte → PhysMem
  | _, [] => m
  | off, b :: bs => (m.writeByte frame off b).writeBytes frame (off + 1) bs

def setRefcount (m : PhysMem) (frame n : ℕ) : PhysMem := { m with refcount := m.refcount.set frame n }

def incRefcount (m : PhysMem) (frame : ℕ) : PhysMem := { m with refcount := m.refcount.inc frame }

def decRefcount (m : PhysMem) (frame : ℕ) : PhysMem := { m with refcount := m.refcount.dec frame }

end PhysMem

/-- `VirtAddr::new` of the crate `x86_64`, as assumed: bits 48 to 63 are made copies of bit 47, if they are not in use. -/
def virtAddrNew {ε σ : Type} (addr : ℕ) : Exec ε σ ℕ :=
  if addr < 2 ^ 47 then pure addr
  else if addr < 2 ^ 48 then pure (addr + (2 ^ 64 - 2 ^ 48))
  else if 2 ^ 64 - 2 ^ 47 ≤ addr ∧ addr < 2 ^ 64 then pure addr
  else Exec.panic

/-! ### The address space -/

def pageFlags (writable : Bool) : PageTableFlags := if writable then USER_RW else USER_RX

structure AddressSpace where
  p4 : ℕ
  mappedPages : Std.ExtTreeMap ℕ ℕ

structure Vm where
  mem : PhysMem
  space : AddressSpace

def inMem {ε α : Type} (x : Exec ε PhysMem α) : Exec ε Vm α := Exec.zoom Vm.mem (fun m v => { v with mem := m }) x

def copyTables (p4 p3 src : ℕ) (m : PhysMem) : PhysMem :=
  let e := m.words src 0
  let m₁ := if hasFlags (entryFlags e) PRESENT then m.copy p3 (entryFrame e) 0 else m
  (m₁.write p4 0 (mkEntry p3 USER_RW)).copy p4 src 1

def newTables (src : ℕ) : Exec String PhysMem ℕ := do
  let p4 ← allocZeroedFrame
  let p3 ← allocZeroedFrame
  Exec.modify (copyTables p4 p3 src)
  pure p4

namespace AddressSpace

def newUser (cr3 : ℕ) : Exec String PhysMem AddressSpace := do
  let p4 ← newTables cr3
  pure { p4, mappedPages := ∅ }

def replaceMapping (s : AddressSpace) (page frame : ℕ) : AddressSpace :=
  { s with mappedPages := s.mappedPages.insert page frame }

def mapToMessage : MapToError → String
  | .pageAlreadyMapped _ => "page déjà mappée"
  | _ => "map_to failed"

def mapTo (page frame : ℕ) (flags : PageTableFlags) : Exec String Vm Unit := do
  let v ← Exec.get
  inMem (Exec.mapErr mapToMessage (Memory.mapTo v.space.p4 page frame flags))
  Exec.modify fun v => { v with space := v.space.replaceMapping page frame }

def mapAlloc (page : ℕ) (flags : PageTableFlags) : Exec String Vm ℕ := do
  let frame ← inMem allocZeroedFrame
  inMem (Exec.modify (·.setRefcount frame 1))
  mapTo page frame flags
  pure frame

def frameFor (page : ℕ) (flags : PageTableFlags) : Exec String Vm ℕ := do
  let v ← Exec.get
  match v.space.mappedPages[page]? with
  | some f => pure f
  | none => mapAlloc page flags

def writeLoop (flags : PageTableFlags) : ℕ → ℕ → List Byte → Exec String Vm Unit
  | 0, _, _ => pure ()
  | turns + 1, cur, data =>
    if data.isEmpty then pure () else do
      let off := cur % 4096
      let toWrite := min (4096 - off) data.length
      let frame ← frameFor (cur / 4096) flags
      inMem (Exec.modify (·.writeBytes frame off (data.take toWrite)))
      let next ← Exec.add 64 cur toWrite
      let next ← virtAddrNew next
      writeLoop flags turns next (data.drop toWrite)

def writeData (vaddr : ℕ) (data : List Byte) (flags : PageTableFlags) : Exec String Vm Unit :=
  writeLoop flags data.length vaddr data

def ensureLoop (flags : PageTableFlags) : ℕ → ℕ → Exec String Vm Unit
  | 0, _ => pure ()
  | pages + 1, cur => do
    let addr ← virtAddrNew cur
    let v ← Exec.get
    if v.space.mappedPages.contains (cur / 4096) then ensureLoop flags pages (cur + 4096)
    else do
      let _ ← mapAlloc (addr / 4096) flags
      ensureLoop flags pages (cur + 4096)

def ensureMapped (vaddr len : ℕ) (flags : PageTableFlags) : Exec String Vm Unit := do
  let start := vaddr / 4096 * 4096
  let stop ← Exec.add 64 vaddr len
  let stop ← Exec.add 64 stop 4095
  ensureLoop flags ((stop / 4096 * 4096 - start) / 4096) start

def unmapVa (vaddr : ℕ) : Exec String Vm Unit := do
  let addr ← virtAddrNew (vaddr / 4096 * 4096)
  let v ← Exec.get
  let _ ← inMem (Exec.mapErr (fun _ => "unmap_va: page non mappée") (unmap v.space.p4 (addr / 4096)))
  Exec.modify fun v => { v with space := { v.space with mappedPages := v.space.mappedPages.erase (vaddr / 4096) } }

def downgrade (p4 page : ℕ) : Exec String PhysMem Unit := do
  match ← translate p4 page with
  | .mapped _ flags =>
    if hasFlags flags USER_ACCESSIBLE && hasFlags flags WRITABLE then do
      let _ ← Exec.attempt (Exec.mapErr (fun _ => "") (updateFlags p4 page (flags &&& ~~~WRITABLE ||| COW_MARKER)))
      pure ()
    else pure ()
  | .notMapped => pure ()

def collectFlags (p4 : ℕ) : List (ℕ × ℕ) → Exec String PhysMem (List PageTableFlags)
  | [] => pure []
  | (page, _) :: pages => do
    let r ← translate p4 page
    let rest ← collectFlags p4 pages
    match r with
    | .mapped _ flags => pure (flags :: rest)
    | .notMapped => pure (USER_RX :: rest)

def shareOne (p4 : ℕ) (entry : (ℕ × ℕ) × PageTableFlags) : Exec String PhysMem Unit := do
  let _ ← Exec.attempt (Exec.mapErr mapToMessage (Memory.mapTo p4 entry.1.1 entry.1.2 entry.2))
  Exec.modify (·.incRefcount entry.1.2)

def cloneCow (s : AddressSpace) : Exec String PhysMem AddressSpace := do
  let newP4 ← newTables s.p4
  let mappedCopy := s.mappedPages.toList
  mappedCopy.forM fun e => downgrade s.p4 e.1
  let flags ← collectFlags s.p4 mappedCopy
  (mappedCopy.zip flags).forM (shareOne newP4)
  pure { p4 := newP4, mappedPages := .ofList mappedCopy }

def releaseFrames {ε : Type} : List ℕ → Exec ε PhysMem Unit
  | [] => pure ()
  | f :: fs => do
    Exec.modify (·.decRefcount f)
    let m ← Exec.get
    if m.refcount f = 0 then do
      freeFrame f
      releaseFrames fs
    else releaseFrames fs

def destroy {ε : Type} (s : AddressSpace) : Exec ε PhysMem Unit := do
  releaseFrames (s.mappedPages.toList.map Prod.snd)
  freeFrame s.p4

def drop {ε : Type} (s : AddressSpace) : Exec ε PhysMem Unit :=
  if s.mappedPages.isEmpty then pure () else s.destroy

end AddressSpace

/-! ### Copy on write -/

def copyOnWrite (p4 page oldFrame : ℕ) (newFlags : PageTableFlags) : Exec String PhysMem (Option ℕ) := do
  let newFrame ← allocZeroedFrame
  Exec.modify (·.copy newFrame oldFrame 0)
  Exec.modify (·.decRefcount oldFrame)
  Exec.modify (·.setRefcount newFrame 1)
  let _ ← Exec.mapErr (fun _ => "unmap failed") (unmap p4 page)
  Exec.mapErr (fun _ => "map_to failed") (mapTo p4 page newFrame newFlags)
  pure (some newFrame)

def tryResolveCow (cr3 page : ℕ) : Exec String PhysMem (Option ℕ) := do
  match ← translate cr3 page with
  | .notMapped => Exec.throw "not mapped"
  | .mapped oldFrame flags =>
    if !hasFlags flags COW_MARKER then Exec.throw "not CoW"
    else if !hasFlags flags USER_ACCESSIBLE then Exec.throw "not user"
    else do
      let m ← Exec.get
      let newFlags := (flags ||| WRITABLE) &&& ~~~COW_MARKER
      if m.refcount oldFrame ≤ 1 then do
        Exec.mapErr (fun _ => "update_flags failed") (updateFlags cr3 page newFlags)
        pure none
      else copyOnWrite cr3 page oldFrame newFlags

end RustKernel.Memory
