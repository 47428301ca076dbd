import RustKernel.Fs.Checks
import RustKernel.Memory.Leaves

/-!
# The image the ELF loader builds

`load` goes through the program headers, and for each of them maps the pages that are not mapped yet, filled with
zeros, and copies the bytes of the file into them. Two segments may share a page, and the second then finds the first's
bytes in it.
-/

namespace RustKernel.Fs

open Lib Exec Memory

variable {page : ℕ} {ph : Phdr}

/-! ### Addresses -/

section Addresses

variable {a b k : ℕ}
variable {cur len : ℕ} {n : ℕ}

theorem signExtend_signExtend (a : ℕ) : signExtend (signExtend a) = signExtend a := by
  unfold signExtend
  split_ifs <;> omega

theorem canonical_signExtend (h : Canonical a) : Canonical (signExtend a) := by
  unfold Canonical at h ⊢
  unfold signExtend
  split_ifs <;> omega

theorem signExtend_add (hk : signExtend a + k < 2 ^ 64) : signExtend (signExtend a + k) = signExtend (a + k) := by
  unfold signExtend at hk ⊢
  split_ifs at hk ⊢ <;> omega

theorem signExtend_div_congr (h : a / 4096 = b / 4096) : signExtend a / 4096 = signExtend b / 4096 := by
  unfold signExtend
  split_ifs <;> omega

def InHalf (cur len : ℕ) : Prop := cur + len ≤ 2 ^ 48 ∨ 2 ^ 64 - 2 ^ 47 ≤ cur ∧ cur + len ≤ 2 ^ 64

theorem InHalf.inj {k' : ℕ} (h : InHalf cur len) (hk : k < len) (hk' : k' < len)
    (heq : signExtend (cur + k) = signExtend (cur + k')) : k = k' := by
  unfold InHalf at h
  unfold signExtend at heq
  split_ifs at heq <;> omega

theorem InHalf.advance (h : InHalf cur len) (hn : n ≤ len) : InHalf (signExtend (cur + n)) (len - n) := by
  unfold InHalf at h ⊢
  unfold signExtend
  split_ifs <;> omega

theorem InHalf.signExtend_advance (h : InHalf cur len) (hk : n + k < len) :
    signExtend (signExtend (cur + n) + k) = signExtend (cur + (n + k)) := by
  unfold InHalf at h
  unfold signExtend
  split_ifs <;> omega

def IsPage (page : ℕ) : Prop := page < 2 ^ 35 ∨ 2 ^ 52 - 2 ^ 35 ≤ page ∧ page < 2 ^ 52

theorem isPage_signExtend (h : Canonical a) : IsPage (signExtend a / 4096) := by
  unfold Canonical at h
  unfold IsPage signExtend
  split_ifs <;> omega

theorem IsPage.eq_of_mod {page' : ℕ} (h : IsPage page) (h' : IsPage page')
    (hmod : page % 512 ^ 4 = page' % 512 ^ 4) : page = page' := by
  unfold IsPage at h h'
  omega

theorem signExtend_of_isPage (h : IsPage (a / 4096)) : signExtend a = a := by
  unfold IsPage at h
  unfold signExtend
  split_ifs <;> omega

end Addresses

/-! ### Images -/

def Phdr.Loads (ph : Phdr) : Prop := ph.type = PT_LOAD ∧ ph.memsz ≠ 0
deriving Decidable

def Phdr.addr (ph : Phdr) (k : ℕ) : ℕ := signExtend (ph.vaddr + k)

def Phdr.byte (bin : List Byte) (ph : Phdr) (k : ℕ) : Byte := if k < ph.filesz then bin.getD (ph.offset + k) 0 else 0

def Phdr.Apart (ph ph' : Phdr) : Prop := ∀ k < ph.memsz, ∀ k' < ph'.memsz, ph.addr k ≠ ph'.addr k'

def headers (bin : List Byte) : ℕ → ℕ → List Phdr
  | 0, _ => []
  | n + 1, off => Phdr.read bin off :: headers bin n (off + PHDR_SIZE)

def segments (bin : List Byte) : List Phdr :=
  (headers bin (Ehdr.read bin).phnum (Ehdr.read bin).phoff).filter fun ph => ph.Loads

def Meets (segs : List Phdr) (page : ℕ) : Prop := ∃ ph ∈ segs, ∃ k < ph.memsz, page = ph.addr k / 4096

def Phdr.writable (ph : Phdr) : Bool := decide (ph.flags &&& PF_W ≠ 0)

def Phdr.Covers (ph : Phdr) (page : ℕ) : Prop := ∃ k < ph.memsz, page = ph.addr k / 4096

instance (ph : Phdr) (page : ℕ) : Decidable (ph.Covers page) :=
  inferInstanceAs (Decidable (∃ k < ph.memsz, page = ph.addr k / 4096))

def mapsWritable (segs : List Phdr) (page : ℕ) : Bool := (segs.find? fun ph => ph.Covers page).any Phdr.writable

theorem mapsWritable_cons_of_covers (h : ph.Covers page) (segs : List Phdr) : mapsWritable (ph :: segs) page = ph.writable := by
  simp [mapsWritable, h]

theorem mapsWritable_cons_of_not_covers (h : ¬ ph.Covers page) (segs : List Phdr) :
    mapsWritable (ph :: segs) page = mapsWritable segs page := by
  simp [mapsWritable, h]

theorem exists_of_mapsWritable {segs : List Phdr} (h : mapsWritable segs page = true) :
    ∃ ph ∈ segs, ph.writable = true ∧ ph.Covers page := by
  unfold mapsWritable at h
  cases hph : segs.find? fun ph => ph.Covers page with
  | none =>
    rw [hph] at h
    cases h
  | some ph =>
    rw [hph] at h
    have hcov := List.find?_some hph
    exact ⟨ph, List.mem_of_find?_eq_some hph, h, of_decide_eq_true hcov⟩

structure Places (bin : List Byte) (ph : Phdr) (c c' : ℕ → Option Byte) : Prop where
  sizes : ph.filesz ≤ ph.memsz
  inj : ∀ k < ph.memsz, ∀ k' < ph.memsz, ph.addr k = ph.addr k' → k = k'
  file : ∀ k < ph.filesz, c' (ph.addr k) = some (bin.getD (ph.offset + k) 0)
  there : ∀ k < ph.memsz, (c' (ph.addr k)).isSome
  rest : ∀ addr, (∀ k < ph.filesz, addr ≠ ph.addr k) → c' addr = c addr ∨ c addr = none ∧ c' addr = some 0

inductive Built (bin : List Byte) : List Phdr → (ℕ → Option Byte) → (ℕ → Option Byte) → Prop
  | nil {c : ℕ → Option Byte} : Built bin [] c c
  | cons {ph : Phdr} {segs : List Phdr} {c c₁ c₂ : ℕ → Option Byte} :
      Places bin ph c c₁ → Built bin segs c₁ c₂ → Built bin (ph :: segs) c c₂

structure Shows (bin : List Byte) (segs : List Phdr) (c : ℕ → Option Byte) : Prop where
  shown : ∀ ph ∈ segs, ∀ k < ph.memsz, c (ph.addr k) = some (ph.byte bin k)
  blank : ∀ addr b, c addr = some b → (∀ ph ∈ segs, ∀ k < ph.memsz, addr ≠ ph.addr k) → b = 0

section Images

variable {bin : List Byte} {ph : Phdr} {segs done : List Phdr} {c c' : ℕ → Option Byte}

theorem Places.isSome (h : Places bin ph c c') {addr : ℕ} (hsome : (c addr).isSome) : (c' addr).isSome := by
  by_cases hin : ∃ k < ph.filesz, addr = ph.addr k
  · obtain ⟨k, hk, rfl⟩ := hin
    exact h.there k (by have := h.sizes; omega)
  · rcases h.rest addr fun k hk heq => hin ⟨k, hk, heq⟩ with heq | ⟨-, heq⟩
    · rwa [heq]
    · rw [heq]
      rfl

theorem Shows.places (h : Shows bin done c) (hp : Places bin ph c c') (hapart : ∀ q ∈ done, q.Apart ph) :
    Shows bin (done ++ [ph]) c' := by
  have hle := hp.sizes
  refine ⟨fun q hq k hk => ?_, fun addr b hb hout => ?_⟩
  · rcases List.mem_append.1 hq with hq | hq
    · -- a segment shown before has no address of this one
      rcases hp.rest (q.addr k) fun k' hk' => hapart q hq k hk k' (by omega) with heq | ⟨hnone, -⟩
      · rw [heq]
        exact h.shown q hq k hk
      · cases (h.shown q hq k hk).symm.trans hnone
    · obtain rfl := List.mem_singleton.1 hq
      unfold Phdr.byte
      by_cases hfile : k < q.filesz
      · rw [if_pos hfile]
        exact hp.file k hfile
      rw [if_neg hfile]
      have hout : ∀ k' < q.filesz, q.addr k ≠ q.addr k' := fun k' hk' heq => hfile (hp.inj k hk k' (by omega) heq ▸ hk')
      rcases hp.rest (q.addr k) hout with heq | ⟨-, heq⟩
      · obtain ⟨b, hb⟩ := Option.isSome_iff_exists.1 (hp.there k hk)
        rw [hb, h.blank _ b (heq ▸ hb) fun q' hq' k' hk' heq' => hapart q' hq' k' hk' k hk heq'.symm]
      · exact heq
  · have hph := hout ph (by simp)
    rcases hp.rest addr fun k hk => hph k (by omega) with heq | ⟨-, heq⟩
    · exact h.blank addr b (heq ▸ hb) fun q hq => hout q (List.mem_append_left _ hq)
    · rw [heq] at hb
      exact (Option.some.inj hb).symm

theorem Built.shows (h : Built bin segs c c') (hs : Shows bin done c) (hapart : (done ++ segs).Pairwise Phdr.Apart) :
    Shows bin (done ++ segs) c' := by
  induction h generalizing done with
  | nil =>
    rw [List.append_nil]
    exact hs
  | @cons ph segs c c₁ c₂ hp _ ih =>
    have hdone : ∀ q ∈ done, q.Apart ph := fun q hq => (List.pairwise_append.1 hapart).2.2 q hq ph List.mem_cons_self
    rw [List.append_cons] at hapart ⊢
    exact ih (hs.places hp hdone) hapart

theorem Built.there (h : Built bin segs c c') : (∀ addr, (c addr).isSome → (c' addr).isSome) ∧
    ∀ ph ∈ segs, ∀ k < ph.memsz, (c' (ph.addr k)).isSome := by
  induction h with
  | nil => exact ⟨fun _ h => h, fun ph hph => absurd hph (List.not_mem_nil)⟩
  | cons hp _ ih =>
    refine ⟨fun addr hsome => ih.1 addr (hp.isSome hsome), fun q hq k hk => ?_⟩
    rcases List.mem_cons.1 hq with rfl | hq
    · exact ih.1 _ (hp.there k hk)
    · exact ih.2 q hq k hk

end Images

/-! ### The loader -/

structure Loading (v₀ : Vm) (kind₀ : ℕ → Kind) (Q : ℕ → Prop) (v : Vm) : Prop where
  paged : ∃ kind, Paged v kind ∧ Evolves v₀.mem kind₀ v.mem kind
  root : v.space.p4 = v₀.space.p4
  recorded : ∀ (page : ℕ) f, v.space.mappedPages[page]? = some f → IsPage page ∧ Q page
  only : ∀ page, (mmu v.mem v₀.space.p4 page).isSome → (mmu v₀.mem v₀.space.p4 page).isSome ∨
    ∃ q, IsPage q ∧ Q q ∧ page % 512 ^ 4 = q % 512 ^ 4

def Adds (c c' : ℕ → Option Byte) : Prop := ∀ addr, c' addr = c addr ∨ c addr = none ∧ c' addr = some 0

theorem Adds.trans {c c₁ c₂ : ℕ → Option Byte} (h : Adds c c₁) (h' : Adds c₁ c₂) : Adds c c₂ := by
  intro addr
  rcases h addr with heq | ⟨hnone, heq⟩
  · rw [← heq]
    exact h' addr
  · rcases h' addr with heq' | ⟨hnone', -⟩
    · exact .inr ⟨hnone, heq'.trans heq⟩
    · cases heq.symm.trans hnone'

variable {addr : ℕ}

theorem Adds.isSome {c c' : ℕ → Option Byte} (h : Adds c c') (hsome : (c addr).isSome) : (c' addr).isSome := by
  rcases h addr with heq | ⟨-, heq⟩
  · rwa [heq]
  · rw [heq]
    rfl

theorem isSome_contents {v : Vm} : (v.contents addr).isSome ↔ ∃ f, v.space.mappedPages[addr / 4096]? = some f := by
  rw [Vm.contents, Option.isSome_map, Option.isSome_iff_exists]

section Load

variable {v₀ v : Vm} {kind₀ : ℕ → Kind} {Q : ℕ → Prop} {w : ℕ → Bool} {writable : Bool} {fl : PageTableFlags}
  {bin : List Byte}
variable {page : ℕ} {v' : Vm} {ph : Phdr}

theorem Loading.mapAlloc (h : Loading v₀ kind₀ Q v) (hw : Permits w v) (hwrite : w page = writable)
    (hpage : IsPage page) (hQ : Q page) : (AddressSpace.mapAlloc page (pageFlags writable) v).Post
      (fun _ v' => Loading v₀ kind₀ Q v' ∧ Permits w v' ∧ Adds v.contents v'.contents ∧
        ∀ addr, addr / 4096 = page → (v'.contents addr).isSome) (fun _ _ => True) := by
  obtain ⟨kind, hp, he⟩ := h.paged
  subst hwrite
  refine ((mapAlloc_paged page hp (mapFlags_pageFlags _) (pageFlags_user _)).and
    (mapAlloc_permits hw hp.layout hp.root)).imp ?_ fun _ _ _ => trivial
  rintro f v' ⟨⟨⟨kind', hp', he'⟩, hsp, hnone, hcont, honly⟩, hw'⟩
  refine ⟨⟨⟨kind', hp', he.trans he'⟩, ?_, fun q g hg => ?_, fun q hq => ?_⟩, hw', fun addr => ?_, fun addr haddr => ?_⟩
  · rw [hsp]
    exact h.root
  · rw [hsp] at hg
    rcases AddressSpace.getElem?_replaceMapping hg with ⟨rfl, -⟩ | hold
    · exact ⟨hpage, hQ⟩
    · exact h.recorded q g hold
  · rw [← h.root] at hq
    rcases honly q hq with hq | hmod
    · rw [h.root] at hq
      exact h.only q hq
    · exact .inr ⟨page, hpage, hQ, hmod⟩
  · rw [hcont]
    by_cases hin : addr / 4096 = page
    · refine .inr ⟨?_, if_pos hin⟩
      rw [Vm.contents, hin, hnone]
      rfl
    · exact .inl (if_neg hin)
  · rw [hcont, if_pos haddr]
    rfl

theorem getElem?_eq_none_of_isSome (h : ∀ addr, (v.contents addr).isSome → (v'.contents addr).isSome)
    (hnone : v'.space.mappedPages[page]? = none) : v.space.mappedPages[page]? = none := by
  by_contra hne
  obtain ⟨f, hf⟩ := Option.ne_none_iff_exists'.1 hne
  have hpage : page * 4096 / 4096 = page := by omega
  obtain ⟨g, hg⟩ := isSome_contents.1 (h _ (isSome_contents.2 ⟨f, hpage.symm ▸ hf⟩))
  rw [hpage, hnone] at hg
  cases hg

theorem ensureLoop_loading : ∀ (pages cur : ℕ) (v : Vm), Loading v₀ kind₀ Q v → Permits w v →
    (∀ j < pages, Canonical (cur + 4096 * j) → Q (signExtend (cur + 4096 * j) / 4096)) →
    (∀ j < pages, v.space.mappedPages[signExtend (cur + 4096 * j) / 4096]? = none →
      w (signExtend (cur + 4096 * j) / 4096) = writable) →
    (AddressSpace.ensureLoop (pageFlags writable) pages cur v).Post
      (fun _ v' => Loading v₀ kind₀ Q v' ∧ Permits w v' ∧ Adds v.contents v'.contents ∧
        ∀ j < pages, Canonical (cur + 4096 * j) ∧
          ∀ addr, addr / 4096 = signExtend (cur + 4096 * j) / 4096 → (v'.contents addr).isSome) (fun _ _ => True)
  | 0, _, _, hv, hw, _, _ => ⟨hv, hw, fun _ => .inl rfl, fun j hj => absurd hj (Nat.not_lt_zero j)⟩
  | pages + 1, cur, v, hv, hw, hQ, hwrite => by
    refine post_bind (virtAddrNew_canonical cur v) ?_
    rintro _ v ⟨hcan, rfl, rfl⟩
    rw [get_bind]
    have hshift : ∀ j, cur + 4096 * (j + 1) = cur + 4096 + 4096 * j := fun j => by omega
    have hrest : ∀ j < pages, Canonical (cur + 4096 + 4096 * j) → Q (signExtend (cur + 4096 + 4096 * j) / 4096) :=
      fun j hj => by
        rw [← hshift]
        exact hQ (j + 1) (by omega)
    -- the pages after the first, once the first is there
    have hgo : ∀ v₁, Loading v₀ kind₀ Q v₁ → Permits w v₁ → Adds v.contents v₁.contents →
        (∀ addr, addr / 4096 = signExtend cur / 4096 → (v₁.contents addr).isSome) →
        (AddressSpace.ensureLoop (pageFlags writable) pages (cur + 4096) v₁).Post
          (fun _ v' => Loading v₀ kind₀ Q v' ∧ Permits w v' ∧ Adds v.contents v'.contents ∧
            ∀ j < pages + 1, Canonical (cur + 4096 * j) ∧
              ∀ addr, addr / 4096 = signExtend (cur + 4096 * j) / 4096 → (v'.contents addr).isSome)
          (fun _ _ => True) := by
      intro v₁ hv₁ hw₁ hadds hfirst
      have hwrite₁ : ∀ j < pages, v₁.space.mappedPages[signExtend (cur + 4096 + 4096 * j) / 4096]? = none →
          w (signExtend (cur + 4096 + 4096 * j) / 4096) = writable := fun j hj hnone => by
        rw [← hshift] at hnone ⊢
        exact hwrite (j + 1) (by omega) (getElem?_eq_none_of_isSome (fun _ => hadds.isSome) hnone)
      refine (ensureLoop_loading pages (cur + 4096) v₁ hv₁ hw₁ hrest hwrite₁).imp_ok ?_
      rintro _ v' ⟨hv', hw', hadds', hall⟩
      refine ⟨hv', hw', hadds.trans hadds', fun j hj => ?_⟩
      cases j with
      | zero => exact ⟨hcan, fun addr haddr => hadds'.isSome (hfirst addr haddr)⟩
      | succ j =>
        rw [hshift]
        exact hall j (by omega)
    by_cases hin : v.space.mappedPages.contains (cur / 4096) = true
    · rw [if_pos hin]
      obtain ⟨f, hf⟩ : ∃ f, v.space.mappedPages[cur / 4096]? = some f := by
        rw [← Option.isSome_iff_exists, Std.ExtTreeMap.isSome_getElem?_eq_contains]
        exact hin
      refine hgo v hv hw (fun _ => .inl rfl) fun addr haddr => isSome_contents.2 ⟨f, ?_⟩
      rw [haddr, signExtend_of_isPage (hv.recorded _ f hf).1]
      exact hf
    · rw [if_neg hin]
      have hpage := hQ 0 (by omega)
      have hfirst := hwrite 0 (by omega)
      by_cases hnone : v.space.mappedPages[signExtend cur / 4096]? = none
      · refine post_bind (hv.mapAlloc hw (hfirst hnone) (isPage_signExtend hcan) (hpage hcan)) ?_
        rintro _ v₁ ⟨hv₁, hw₁, hadds, hthere⟩
        exact hgo v₁ hv₁ hw₁ hadds hthere
      · -- `map_to` refuses a page that is recorded, under whichever number
        obtain ⟨kind, hp, -⟩ := hv.paged
        refine post_bind ((mapAlloc_paged _ hp (mapFlags_pageFlags _) (pageFlags_user _)).imp_err fun _ _ _ => trivial) ?_
        rintro _ _ ⟨-, -, h, -⟩
        exact absurd h hnone

theorem Loading.isSome_or (h : Loading v₀ kind₀ Q v) (hpage : IsPage page)
    (hsome : (mmu v.mem v₀.space.p4 page).isSome) : (mmu v₀.mem v₀.space.p4 page).isSome ∨ Q page := by
  rcases h.only page hsome with hold | ⟨q, hq, hmeets, hmod⟩
  · exact .inl hold
  · rw [hpage.eq_of_mod hq hmod]
    exact .inr hmeets

theorem Loading.writeBytes (h : Loading v₀ kind₀ Q v) {f : ℕ} (hf : v.space.mappedPages[page]? = some f) (off : ℕ)
    (bs : List Byte) : Loading v₀ kind₀ Q { v with mem := v.mem.writeBytes f off bs } := by
  obtain ⟨kind, hp, he⟩ := h.paged
  refine ⟨⟨kind, hp.writeBytes hf off bs, he.trans (Keeps.writeBytes hp.layout (hp.data page f hf) off bs).evolves⟩,
    h.root, h.recorded, fun q hq => h.only q ?_⟩
  rw [← h.root] at hq ⊢
  exact hp.mmu_writeBytes hf off bs q hq

structure Written (cur : ℕ) (data : List Byte) (c c' : ℕ → Option Byte) : Prop where
  there : ∀ k < data.length, c' (signExtend (cur + k)) = some (data.getD k 0)
  rest : ∀ addr, (∀ k < data.length, addr ≠ signExtend (cur + k)) → c' addr = c addr

theorem writeLoop_loading : ∀ (turns cur : ℕ) (data : List Byte) (v : Vm), data.length ≤ turns →
    Loading v₀ kind₀ Q v → Permits w v → Canonical cur → signExtend cur = cur → InHalf cur data.length →
    (∀ k < data.length, (v.contents (signExtend (cur + k))).isSome) →
    (AddressSpace.writeLoop fl turns cur data v).Post
      (fun _ v' => Loading v₀ kind₀ Q v' ∧ Permits w v' ∧ Written cur data v.contents v'.contents) (fun _ _ => True)
  | 0, cur, data, v, hturns, hv, hw, _, _, _, _ => by exact ⟨hv, hw, fun k hk => by omega, fun _ _ => rfl⟩
  | turns + 1, cur, data, v, hturns, hv, hw, hcan, hext, hhalf, hthere => by
    rw [AddressSpace.writeLoop]
    by_cases hempty : data.isEmpty = true
    · rw [if_pos hempty]
      have hlen : data.length = 0 := by simpa using hempty
      exact ⟨hv, hw, fun k hk => by omega, fun _ _ => rfl⟩
    rw [if_neg hempty]
    have hpos : 0 < data.length := by simpa [List.length_pos_iff] using hempty
    -- the page of `cur` is recorded
    obtain ⟨f, hf⟩ : ∃ f, v.space.mappedPages[cur / 4096]? = some f := by
      have := hthere 0 hpos
      rw [Nat.add_zero, hext] at this
      exact isSome_contents.1 this
    have hframe : AddressSpace.frameFor (cur / 4096) fl v = .ok f v := by
      rw [AddressSpace.frameFor, get_bind, hf]
      rfl
    rw [bind_of_ok hframe, inMem_modify_bind]
    obtain ⟨n, hn⟩ : ∃ n, n = min (4096 - cur % 4096) data.length := ⟨_, rfl⟩
    rw [← hn]
    have hnlen : n ≤ data.length := by omega
    have htake : (data.take n).length = n := by rw [List.length_take]; omega
    -- what is there after the first piece
    obtain ⟨kind, hp, -⟩ := hv.paged
    have hfit : cur % 4096 + (data.take n).length ≤ 4096 := by rw [htake]; omega
    have hcont := hp.contents_writeBytes hf hfit
    have hcur : cur / 4096 * 4096 + cur % 4096 = cur := by omega
    rw [htake, hcur] at hcont
    have hv₁ := hv.writeBytes hf (cur % 4096) (data.take n)
    have hw₁ := hw.writeBytes hp hf (cur % 4096) (data.take n)
    generalize ({ v with mem := v.mem.writeBytes f (cur % 4096) (data.take n) } : Vm) = v₁ at hcont hv₁ hw₁ ⊢
    have hsame : ∀ k < n, signExtend (cur + k) = cur + k := fun k hk => by
      have hpage := isPage_signExtend hcan
      unfold IsPage at hpage
      unfold signExtend
      split_ifs <;> omega
    refine post_bind (post_add ..) ?_
    rintro next _ ⟨rfl, rfl⟩
    refine post_bind (virtAddrNew_canonical (cur + n) _) ?_
    rintro _ v₁ ⟨hcan', rfl, rfl⟩
    have hadv : ∀ k < data.length - n, signExtend (signExtend (cur + n) + k) = signExtend (cur + (n + k)) := fun k hk =>
      hhalf.signExtend_advance (by omega)
    have hdrop : (data.drop n).length = data.length - n := List.length_drop ..
    have hsome₁ : ∀ addr, (v.contents addr).isSome → (v₁.contents addr).isSome := fun addr h => by
      rw [hcont]
      split_ifs
      · rfl
      · exact h
    have hrec := writeLoop_loading turns (signExtend (cur + n)) (data.drop n) v₁ (by omega) hv₁ hw₁
      (canonical_signExtend hcan') (signExtend_signExtend _) (hdrop ▸ hhalf.advance hnlen) fun k hk => by
        rw [hdrop] at hk
        rw [hadv k hk]
        exact hsome₁ _ (hthere (n + k) (by omega))
    refine hrec.imp_ok ?_
    rintro _ v' ⟨hv', hw', hwritten⟩
    refine ⟨hv', hw', fun k hk => ?_, fun addr hout => ?_⟩
    · by_cases hkn : k < n
      · -- a byte of the first piece, which the others do not touch
        have hout : ∀ j < (data.drop n).length, signExtend (cur + k) ≠ signExtend (signExtend (cur + n) + j) := by
          intro j hj heq
          rw [hdrop] at hj
          rw [hadv j hj] at heq
          have := hhalf.inj hk (by omega) heq
          omega
        rw [hwritten.rest _ hout, hcont, hsame k hkn]
        simp [hkn]
      · have hk' : k - n < data.length - n := by omega
        have hnk : n + (k - n) = k := by omega
        have := hwritten.there (k - n) (hdrop ▸ hk')
        rw [hadv _ hk', hnk] at this
        rw [this]
        simp [hnk]
    · rw [hwritten.rest addr fun j hj => ?_, hcont, if_neg fun hin => ?_]
      · refine hout (addr - cur) (by omega) ?_
        rw [hsame _ (by omega)]
        omega
      · rw [hdrop] at hj
        rw [hadv j hj]
        exact hout (n + j) (by omega)

theorem inHalf_of_pages {va len : ℕ} (hlen : len ≠ 0) (hsum : va + len ≤ 2 ^ 64)
    (hpages : ∀ j, va / 4096 * 4096 + 4096 * j < va + len → Canonical (va / 4096 * 4096 + 4096 * j)) : InHalf va len := by
  unfold InHalf
  have hfirst := hpages 0 (by omega)
  have hmiddle := hpages ((2 ^ 48 - va / 4096 * 4096) / 4096)
  unfold Canonical at hfirst hmiddle
  omega

theorem ensureMapped_loading {va len : ℕ} (hlen : len ≠ 0) (hv : Loading v₀ kind₀ Q v) (hw : Permits w v)
    (hQ : va + len < 2 ^ 64 → ∀ k < len, Q (signExtend (va + k) / 4096) ∧
      (v.space.mappedPages[signExtend (va + k) / 4096]? = none → w (signExtend (va + k) / 4096) = writable)) :
    (AddressSpace.ensureMapped va len (pageFlags writable) v).Post
      (fun _ v' => Loading v₀ kind₀ Q v' ∧ Permits w v' ∧ Adds v.contents v'.contents ∧ InHalf va len ∧
        va + len ≤ 2 ^ 64 ∧ ∀ k < len, (v'.contents (signExtend (va + k))).isSome) (fun _ _ => True) := by
  refine post_bind (post_add_lt ..) ?_
  rintro _ v ⟨hlt, rfl, rfl⟩
  refine post_bind (post_add ..) ?_
  rintro _ v ⟨rfl, rfl⟩
  obtain ⟨n, hn⟩ : ∃ n, n = ((va + len + 4095) / 4096 * 4096 - va / 4096 * 4096) / 4096 := ⟨_, rfl⟩
  rw [← hn]
  have hcount : ∀ j, j < n ↔ va / 4096 * 4096 + 4096 * j < va + len := fun j => by omega
  -- every page has an address of the range
  have hpage : ∀ j < n, ∃ k < len, signExtend (va / 4096 * 4096 + 4096 * j) / 4096 = signExtend (va + k) / 4096 := by
    intro j hj
    exact ⟨max va (va / 4096 * 4096 + 4096 * j) - va, by omega, signExtend_div_congr (by omega)⟩
  refine (ensureLoop_loading n _ v hv hw (fun j hj _ => ?_) fun j hj => ?_).imp_ok ?_
  · obtain ⟨k, hk, heq⟩ := hpage j hj
    rw [heq]
    exact (hQ hlt k hk).1
  · obtain ⟨k, hk, heq⟩ := hpage j hj
    rw [heq]
    exact (hQ hlt k hk).2
  · rintro _ v' ⟨hv', hw', hadds, hall⟩
    have hhalf : InHalf va len := inHalf_of_pages hlen hlt.le fun j hj => (hall j ((hcount j).2 hj)).1
    refine ⟨hv', hw', hadds, hhalf, hlt.le, fun k hk => ?_⟩
    have hj : (va + k) / 4096 - va / 4096 < n := (hcount _).2 (by omega)
    exact (hall _ hj).2 _ (signExtend_div_congr (by omega))

theorem copySegment_loading (hv : Loading v₀ kind₀ Q v) (hw : Permits w v) (hcan : Canonical ph.vaddr)
    (hhalf : InHalf (signExtend ph.vaddr) ph.filesz)
    (hthere : ∀ k < ph.filesz, (v.contents (signExtend (signExtend ph.vaddr + k))).isSome) :
    (copySegment bin ph fl v).Post (fun _ v' => Loading v₀ kind₀ Q v' ∧ Permits w v' ∧
        (∀ k < ph.filesz, v'.contents (signExtend (signExtend ph.vaddr + k)) = some (bin.getD (ph.offset + k) 0)) ∧
        ∀ addr, (∀ k < ph.filesz, addr ≠ signExtend (signExtend ph.vaddr + k)) → v'.contents addr = v.contents addr)
      (fun _ _ => True) := by
  unfold copySegment
  by_cases hpos : ph.filesz > 0
  · rw [if_pos hpos]
    refine post_bind (post_add ..) ?_
    rintro _ v ⟨rfl, rfl⟩
    by_cases hend : ph.offset + ph.filesz > bin.length
    · rw [if_pos hend]
      trivial
    rw [if_neg hend]
    refine post_bind (virtAddrNew_canonical ph.vaddr v) ?_
    rintro _ v ⟨-, rfl, rfl⟩
    have hlen : ((bin.drop ph.offset).take ph.filesz).length = ph.filesz := by
      rw [List.length_take, List.length_drop]
      omega
    refine (writeLoop_loading _ _ _ v le_rfl hv hw (canonical_signExtend hcan) (signExtend_signExtend _)
      (hlen.symm ▸ hhalf) (hlen.symm ▸ hthere)).imp_ok ?_
    rintro _ v' ⟨hv', hw', hwritten⟩
    refine ⟨hv', hw', fun k hk => ?_, fun addr hout => hwritten.rest addr (hlen.symm ▸ hout)⟩
    rw [hwritten.there k (hlen.symm ▸ hk)]
    simp [hk]
  · rw [if_neg hpos]
    exact ⟨hv, hw, fun k hk => by omega, fun _ _ => rfl⟩

theorem loadSegment_places {off highest : ℕ} (hv : Loading v₀ kind₀ Q v) (hw : Permits w v)
    (hloads : (Phdr.read bin off).Loads)
    (hQ : ∀ page, (Phdr.read bin off).Covers page →
      Q page ∧ (v.space.mappedPages[page]? = none → w page = (Phdr.read bin off).writable)) :
    (loadSegment bin off highest v).Post
      (fun _ v' => Loading v₀ kind₀ Q v' ∧ Permits w v' ∧ Places bin (Phdr.read bin off) v.contents v'.contents)
      (fun _ _ => True) := by
  unfold loadSegment
  generalize Phdr.read bin off = ph at hloads hQ
  rw [if_neg (not_not.2 hloads.1)]
  by_cases hsizes : ph.filesz > ph.memsz
  · rw [if_pos hsizes]
    trivial
  rw [if_neg hsizes, if_neg hloads.2, segmentFlags_eq]
  refine post_bind (post_add ..) ?_
  rintro _ v ⟨-, rfl⟩
  refine post_bind (virtAddrNew_canonical ph.vaddr v) ?_
  rintro _ v ⟨hcan, rfl, rfl⟩
  refine post_bind (ensureMapped_loading hloads.2 hv hw fun hlt k hk => ?_) ?_
  · rw [signExtend_add (by omega)]
    exact hQ _ ⟨k, hk, rfl⟩
  rintro _ v₁ ⟨hv₁, hw₁, hadds, hhalf, hsum, hthere⟩
  have haddr : ∀ k < ph.memsz, signExtend (signExtend ph.vaddr + k) = ph.addr k := fun k hk => signExtend_add (by omega)
  have hle : ph.filesz ≤ ph.memsz := by omega
  have hhalf' : InHalf (signExtend ph.vaddr) ph.filesz := by
    unfold InHalf at hhalf ⊢
    omega
  refine post_bind (copySegment_loading hv₁ hw₁ hcan hhalf' fun k hk => hthere k (by omega)) ?_
  rintro _ v₂ ⟨hv₂, hw₂, hfile, hrest⟩
  have hfile' : ∀ k < ph.filesz, v₂.contents (ph.addr k) = some (bin.getD (ph.offset + k) 0) := fun k hk => by
    rw [← haddr k (by omega)]
    exact hfile k hk
  have hrest' : ∀ addr, (∀ k < ph.filesz, addr ≠ ph.addr k) → v₂.contents addr = v₁.contents addr := fun addr hout =>
    hrest addr fun k hk => by
      rw [haddr k (by omega)]
      exact hout k hk
  refine ⟨hv₂, hw₂, hle, fun k hk k' hk' heq => ?_, hfile', fun k hk => ?_, fun addr hout => ?_⟩
  · rw [← haddr k hk, ← haddr k' hk'] at heq
    exact hhalf.inj hk hk' heq
  · by_cases hout : ∀ k' < ph.filesz, ph.addr k ≠ ph.addr k'
    · rw [hrest' _ hout, ← haddr k hk]
      exact hthere k hk
    · push Not at hout
      obtain ⟨k', hk', heq⟩ := hout
      rw [heq, hfile' k' hk']
      rfl
  · rw [hrest' addr hout]
    exact hadds addr

theorem loadSegment_skips {off highest : ℕ} (hloads : ¬ (Phdr.read bin off).Loads) :
    (loadSegment bin off highest v).Post (fun _ v' => v' = v) (fun _ _ => True) := by
  unfold loadSegment
  generalize Phdr.read bin off = ph at hloads
  split_ifs with htype hsizes hempty
  · rfl
  · trivial
  · rfl
  · exact absurd ⟨not_not.1 htype, hempty⟩ hloads

theorem Places.covers (h : Places bin ph v.contents v'.contents) (hcov : ph.Covers page) :
    ∃ f, v'.space.mappedPages[page]? = some f := by
  obtain ⟨k, hk, rfl⟩ := hcov
  exact isSome_contents.1 (h.there k hk)

theorem loadSegments_built : ∀ (n off highest : ℕ) (v : Vm), Loading v₀ kind₀ Q v → Permits w v →
    (∀ page, Meets ((headers bin n off).filter fun ph => ph.Loads) page → Q page ∧ (v.space.mappedPages[page]? = none →
        w page = mapsWritable ((headers bin n off).filter fun ph => ph.Loads) page)) →
    (loadSegments bin n off highest v).Post (fun _ v' => Loading v₀ kind₀ Q v' ∧ Permits w v' ∧
        Built bin ((headers bin n off).filter fun ph => ph.Loads) v.contents v'.contents) (fun _ _ => True)
  | 0, _, _, _, hv, hw, _ => ⟨hv, hw, .nil⟩
  | n + 1, off, highest, v, hv, hw, hQ => by
    rw [headers] at hQ ⊢
    by_cases hloads : (Phdr.read bin off).Loads
    · rw [List.filter_cons_of_pos (by simpa using hloads)] at hQ ⊢
      refine post_bind (loadSegment_places hv hw hloads fun page hcov => ?_) ?_
      · -- the first segment decides
        obtain ⟨hq, hwrite⟩ := hQ page ⟨_, List.mem_cons_self, hcov⟩
        refine ⟨hq, fun hnone => ?_⟩
        rw [hwrite hnone, mapsWritable_cons_of_covers hcov]
      rintro highest' v₁ ⟨hv₁, hw₁, hplaces⟩
      refine (loadSegments_built n _ highest' v₁ hv₁ hw₁ fun page hmeets => ?_).imp_ok ?_
      · obtain ⟨ph, hph, hcov⟩ := hmeets
        obtain ⟨hq, hwrite⟩ := hQ page ⟨ph, List.mem_cons_of_mem _ hph, hcov⟩
        refine ⟨hq, fun hnone => ?_⟩
        have hncov : ¬ (Phdr.read bin off).Covers page := fun hcov => by
          obtain ⟨f, hf⟩ := hplaces.covers hcov
          cases hnone.symm.trans hf
        rw [hwrite (getElem?_eq_none_of_isSome (fun _ => hplaces.isSome) hnone), mapsWritable_cons_of_not_covers hncov]
      · rintro _ v' ⟨hv', hw', hbuilt⟩
        exact ⟨hv', hw', .cons hplaces hbuilt⟩
    · rw [List.filter_cons_of_neg (by simpa using hloads)] at hQ ⊢
      refine post_bind (loadSegment_skips hloads) ?_
      rintro highest' v rfl
      exact loadSegments_built n _ highest' v hv hw hQ

theorem load_built (hv : Loading v₀ kind₀ Q v) (hw : Permits w v)
    (hQ : ∀ page, Meets (segments bin) page → Q page ∧
      (v.space.mappedPages[page]? = none → w page = mapsWritable (segments bin) page)) :
    (load bin v).Post (fun loaded v' => Loading v₀ kind₀ Q v' ∧ Permits w v' ∧ Built bin (segments bin) v.contents v'.contents ∧
        loaded.entry = signExtend (Ehdr.read bin).entry) (fun _ _ => True) := by
  unfold segments at hQ ⊢
  unfold load
  split_ifs
  · trivial
  generalize Ehdr.read bin = ehdr at hQ
  dsimp only
  cases ehdr.check with
  | some e => trivial
  | none =>
    refine post_bind (post_add ..) ?_
    rintro phEnd v ⟨-, rfl⟩
    by_cases hend : phEnd > bin.length
    · rw [if_pos hend]
      trivial
    rw [if_neg hend]
    refine post_bind (loadSegments_built _ _ _ v hv hw hQ) ?_
    rintro highest v₁ ⟨hv₁, hw₁, hbuilt⟩
    by_cases hentry : ehdr.entry = 0
    · rw [if_pos hentry]
      trivial
    rw [if_neg hentry]
    refine post_bind (virtAddrNew_canonical ehdr.entry v₁) ?_
    rintro entry v₁ ⟨-, rfl, rfl⟩
    exact ⟨hv₁, hw₁, hbuilt, rfl⟩

end Load

/-! ### The image -/

section Image

variable {bin : List Byte} {m m₁ : PhysMem} {kind : ℕ → Kind} {cr3 : ℕ} {s : AddressSpace} {loaded : LoadedElf} {v' : Vm}

theorem load_newUser (hl : Layout m kind) (hcr3 : kind cr3 = .table 4) (htree : Tree m cr3)
    (hnew : AddressSpace.newUser cr3 m = .ok s m₁) (hload : load bin ⟨m₁, s⟩ = .ok loaded v') :
    ∃ kind₁, Loading ⟨m₁, s⟩ kind₁ (Meets (segments bin)) v' ∧ Built bin (segments bin) (fun _ => none) v'.contents ∧
      Permits (mapsWritable (segments bin)) v' ∧ loaded.entry = signExtend (Ehdr.read bin).entry ∧
      Evolves m kind m₁ kind₁ ∧ kind₁ s.p4 = .table 4 ∧ ∀ p2, LowTable m cr3 p2 → LowTable m₁ s.p4 p2 := by
  obtain ⟨hempty, kind₁, hp, hs, hlow⟩ := (newUser_paged hl hcr3 htree).ok hnew
  have hv : Loading ⟨m₁, s⟩ kind₁ (Meets (segments bin)) ⟨m₁, s⟩ :=
    ⟨⟨kind₁, hp, (Steady.refl hp.layout).evolves⟩, rfl, fun page f hf => by simp [hempty] at hf, fun _ h => .inl h⟩
  have hnone : Vm.contents ⟨m₁, s⟩ = fun _ => none := by
    funext addr
    simp [Vm.contents, hempty]
  have hw : Permits (mapsWritable (segments bin)) ⟨m₁, s⟩ := fun page f hf => by simp [hempty] at hf
  obtain ⟨hv', hw', hbuilt, hentry⟩ := (load_built hv hw fun _ h => ⟨h, fun _ => rfl⟩).ok hload
  rw [hnone] at hbuilt
  exact ⟨kind₁, hv', hbuilt, hw', hentry, hs.evolves, hp.root, hlow⟩

/-- **The loader builds the image the file describes**: after `load` on a new space, for segments that do not overlap,
every byte of a segment is the byte of the file, or zero beyond its part of the file; and no page is mapped that meets
no segment. -/
theorem load_image (hl : Layout m kind) (hcr3 : kind cr3 = .table 4) (htree : Tree m cr3)
    (hnew : AddressSpace.newUser cr3 m = .ok s m₁) (hload : load bin ⟨m₁, s⟩ = .ok loaded v')
    (hapart : (segments bin).Pairwise Phdr.Apart) :
    (∀ ph ∈ segments bin, ∀ k < ph.memsz, virtByte v'.mem s.p4 (ph.addr k) =
      some (if k < ph.filesz then bin.getD (ph.offset + k) 0 else 0)) ∧
    (∀ (page : ℕ) f, v'.space.mappedPages[page]? = some f → Meets (segments bin) page) ∧
    ∀ page, IsPage page → (mmu v'.mem s.p4 page).isSome → (mmu m₁ s.p4 page).isSome ∨ Meets (segments bin) page := by
  obtain ⟨kind₁, hv', hbuilt, -⟩ := load_newUser hl hcr3 htree hnew hload
  have hshows : Shows bin ([] ++ segments bin) v'.contents := by
    refine hbuilt.shows ⟨fun ph hph => absurd hph List.not_mem_nil, fun addr b hb => ?_⟩ hapart
    cases hb
  obtain ⟨kind', hp, -⟩ := hv'.paged
  refine ⟨fun ph hph k hk => ?_, fun page f hf => (hv'.recorded page f hf).2, fun page => hv'.isSome_or⟩
  have hroot : v'.space.p4 = s.p4 := hv'.root
  rw [← hroot]
  exact hp.virtByte (hshows.shown ph hph k hk)

instance : DecidableRel Phdr.Apart := fun ph ph' =>
  inferInstanceAs (Decidable (∀ k < ph.memsz, ∀ k' < ph'.memsz, ph.addr k ≠ ph'.addr k'))

def twoSegments (vaddr vaddr' : ℕ) : List Byte :=
  [0x7f#8, 0x45#8, 0x4c#8, 0x46#8, 2#8, 1#8, 1#8, 0#8] ++ toLe 0 8 ++ toLe 2 2 ++ toLe 62 2 ++ toLe 1 4 ++
    toLe 0x40000000 8 ++ toLe 64 8 ++ toLe 0 8 ++ toLe 0 4 ++ toLe 64 2 ++ toLe 56 2 ++ toLe 2 2 ++ toLe 0 6 ++
    toLe 1 4 ++ toLe 7 4 ++ toLe 176 8 ++ toLe vaddr 8 ++ toLe vaddr 8 ++ toLe 1 8 ++ toLe 2 8 ++ toLe 4096 8 ++
    toLe 1 4 ++ toLe 7 4 ++ toLe 177 8 ++ toLe vaddr' 8 ++ toLe vaddr' 8 ++ toLe 1 8 ++ toLe 2 8 ++ toLe 4096 8 ++
    [0xeb#8, 0xfe#8]

theorem load_image_sharedPage : (segments (twoSegments 0x40000000 0x40000010)).Pairwise Phdr.Apart ∧
    ∃ s m₁ loaded v', AddressSpace.newUser 272 smallMachine = .ok s m₁ ∧
      load (twoSegments 0x40000000 0x40000010) ⟨m₁, s⟩ = .ok loaded v' ∧
      ∀ ph ∈ segments (twoSegments 0x40000000 0x40000010), ∀ k < ph.memsz, virtByte v'.mem s.p4 (ph.addr k) =
        some (if k < ph.filesz then (twoSegments 0x40000000 0x40000010).getD (ph.offset + k) 0 else 0) := by
  have hapart : (segments (twoSegments 0x40000000 0x40000010)).Pairwise Phdr.Apart := by decide +kernel
  have hok : (AddressSpace.newUser 272 smallMachine).Returns fun s m₁ =>
      (load (twoSegments 0x40000000 0x40000010) ⟨m₁, s⟩).Returns fun _ _ => True := by decide +kernel
  obtain ⟨s, m₁, hnew, loaded, v', hload, -⟩ := hok
  exact ⟨hapart, s, m₁, loaded, v', hnew, hload,
    (load_image bootTables_smallMachine.layout bootKinds_p4 bootTables_smallMachine.tree hnew hload hapart).1⟩

/-- **The ranges of the file do not tell segments apart**: `2^47` is no address, and `VirtAddr::new` makes the first
address of the kernel half of it. The segment at `2^47` and the one there have disjoint ranges in the file, and the
second is loaded over the first. -/
theorem load_image_signExtend :
    (segments (twoSegments (2 ^ 47) (2 ^ 64 - 2 ^ 47))).Pairwise (fun ph ph' => ph.vaddr + ph.memsz ≤ ph'.vaddr) ∧
    ∃ s m₁ loaded v', AddressSpace.newUser 272 smallMachine = .ok s m₁ ∧
      load (twoSegments (2 ^ 47) (2 ^ 64 - 2 ^ 47)) ⟨m₁, s⟩ = .ok loaded v' ∧
      ∃ ph ∈ segments (twoSegments (2 ^ 47) (2 ^ 64 - 2 ^ 47)), 0 < ph.filesz ∧
        virtByte v'.mem v'.space.p4 ph.vaddr ≠ some ((twoSegments (2 ^ 47) (2 ^ 64 - 2 ^ 47)).getD ph.offset 0) := by
  have hok : (AddressSpace.newUser 272 smallMachine).Returns fun s m₁ =>
      (load (twoSegments (2 ^ 47) (2 ^ 64 - 2 ^ 47)) ⟨m₁, s⟩).Returns fun _ v' =>
        ∃ ph ∈ segments (twoSegments (2 ^ 47) (2 ^ 64 - 2 ^ 47)), 0 < ph.filesz ∧
          virtByte v'.mem v'.space.p4 ph.vaddr ≠ some ((twoSegments (2 ^ 47) (2 ^ 64 - 2 ^ 47)).getD ph.offset 0) := by
    decide +kernel
  obtain ⟨s, m₁, hnew, loaded, v', hload, hbad⟩ := hok
  exact ⟨by decide +kernel, s, m₁, loaded, v', hnew, hload, hbad⟩

/-- **A page is writable as its segments ask**: every page of a segment is mapped for ring 3, writable if and only if a
segment with `PF_W` covers it, exactly if the first segment that covers a page is writable whenever one is. No other page
has been mapped. -/
theorem load_writable (hl : Layout m kind) (hcr3 : kind cr3 = .table 4) (htree : Tree m cr3)
    (hnew : AddressSpace.newUser cr3 m = .ok s m₁) (hload : load bin ⟨m₁, s⟩ = .ok loaded v') :
    ((∀ page, Meets (segments bin) page → ∃ a, mmu v'.mem s.p4 page = some a ∧ a.user = true ∧
      (a.writable = true ↔ ∃ ph ∈ segments bin, ph.writable = true ∧ ph.Covers page)) ↔
      ∀ ph ∈ segments bin, ph.writable = true → ∀ k < ph.memsz, mapsWritable (segments bin) (ph.addr k / 4096) = true) ∧
    ∀ page, IsPage page → (mmu v'.mem s.p4 page).isSome → (mmu m₁ s.p4 page).isSome ∨ Meets (segments bin) page := by
  obtain ⟨kind₁, hv', hbuilt, hw, -⟩ := load_newUser hl hcr3 htree hnew hload
  -- the flags of a page are those of the first segment that covers it
  have hpage : ∀ page, Meets (segments bin) page → ∃ a, mmu v'.mem s.p4 page = some a ∧ a.user = true ∧
      a.writable = mapsWritable (segments bin) page := by
    rintro _ ⟨ph, hph, k, hk, rfl⟩
    obtain ⟨f, hf⟩ := isSome_contents.1 (hbuilt.there.2 ph hph k hk)
    obtain ⟨p1, hleaf⟩ := hw _ f hf
    have hroot : v'.space.p4 = s.p4 := hv'.root
    rw [hroot] at hleaf
    exact ⟨_, hleaf.mmu, rfl, rfl⟩
  refine ⟨⟨fun h ph hph hwrite k hk => ?_, fun hfirst page hmeets => ?_⟩, fun page => hv'.isSome_or⟩
  · have hmeets : Meets (segments bin) (ph.addr k / 4096) := ⟨ph, hph, k, hk, rfl⟩
    obtain ⟨a, ha, -, hiff⟩ := h _ hmeets
    obtain ⟨b, hb, -, heq⟩ := hpage _ hmeets
    obtain rfl := Option.some.inj (ha.symm.trans hb)
    exact heq ▸ hiff.mpr ⟨ph, hph, hwrite, k, hk, rfl⟩
  · obtain ⟨a, ha, huser, heq⟩ := hpage page hmeets
    refine ⟨a, ha, huser, fun h => exists_of_mapsWritable (heq ▸ h), ?_⟩
    rintro ⟨q, hq, hwrite, k, hk, rfl⟩
    exact heq ▸ hfirst q hq hwrite k hk

def sharedPage (flags flags' : ℕ) : List Byte :=
  [0x7f#8, 0x45#8, 0x4c#8, 0x46#8, 2#8, 1#8, 1#8, 0#8] ++ toLe 0 8 ++ toLe 2 2 ++ toLe 62 2 ++ toLe 1 4 ++
    toLe 0x40000000 8 ++ toLe 64 8 ++ toLe 0 8 ++ toLe 0 4 ++ toLe 64 2 ++ toLe 56 2 ++ toLe 2 2 ++ toLe 0 6 ++
    toLe 1 4 ++ toLe flags 4 ++ toLe 176 8 ++ toLe 0x40000000 8 ++ toLe 0x40000000 8 ++ toLe 1 8 ++ toLe 2 8 ++
    toLe 4096 8 ++ toLe 1 4 ++ toLe flags' 4 ++ toLe 177 8 ++ toLe 0x40000010 8 ++ toLe 0x40000010 8 ++ toLe 1 8 ++
    toLe 2 8 ++ toLe 4096 8 ++ [0xeb#8, 0xfe#8]

theorem load_writable_sharedPage : ∃ s m₁ loaded v', AddressSpace.newUser 272 smallMachine = .ok s m₁ ∧
    load (sharedPage 6 5) ⟨m₁, s⟩ = .ok loaded v' ∧
    ∃ a, mmu v'.mem s.p4 0x40000 = some a ∧ a.user = true ∧
      (a.writable = true ↔ ∃ ph ∈ segments (sharedPage 6 5), ph.writable = true ∧ ph.Covers 0x40000) := by
  have hok : (AddressSpace.newUser 272 smallMachine).Returns fun s m₁ =>
      (load (sharedPage 6 5) ⟨m₁, s⟩).Returns fun _ _ => True := by decide +kernel
  obtain ⟨s, m₁, hnew, loaded, v', hload, -⟩ := hok
  have hfirst : ∀ ph ∈ segments (sharedPage 6 5), ph.writable = true → ∀ k < ph.memsz,
      mapsWritable (segments (sharedPage 6 5)) (ph.addr k / 4096) = true := by decide +kernel
  have hmeets : ∃ ph ∈ segments (sharedPage 6 5), ∃ k < ph.memsz, 0x40000 = ph.addr k / 4096 := by decide +kernel
  exact ⟨s, m₁, loaded, v', hnew, hload, (load_writable bootTables_smallMachine.layout bootKinds_p4
    bootTables_smallMachine.tree hnew hload).1.mpr hfirst 0x40000 hmeets⟩

/-- **A writable segment may be mapped read-only**: when a read-only one is loaded before it and ends in the page where
it begins, that page keeps the flags of the first. -/
theorem load_readOnly : ∃ s m₁ loaded v', AddressSpace.newUser 272 smallMachine = .ok s m₁ ∧
    load (sharedPage 5 6) ⟨m₁, s⟩ = .ok loaded v' ∧
    (∃ ph ∈ segments (sharedPage 5 6), ph.writable = true ∧ ph.Covers 0x40000) ∧
    ∃ a, mmu v'.mem s.p4 0x40000 = some a ∧ a.writable = false := by
  have hok : (AddressSpace.newUser 272 smallMachine).Returns fun s m₁ => (load (sharedPage 5 6) ⟨m₁, s⟩).Returns fun _ v' =>
      ∃ a ∈ mmu v'.mem s.p4 0x40000, a.writable = false := by decide +kernel
  obtain ⟨s, m₁, hnew, loaded, v', hload, a, ha, hw⟩ := hok
  exact ⟨s, m₁, loaded, v', hnew, hload, by decide +kernel, a, ha, hw⟩

/-- **An accepted program runs in its own user pages** exactly if the entry point of its file lies in a segment and no segment
reaches into the kernel half: then ring 3 finds its first byte at the entry point, and the pages that are mapped lie above the
first GiB and below `2^47`. -/
theorem load_userPages {p2 : ℕ} (hl : Layout m kind) (hcr3 : kind cr3 = .table 4) (htree : Tree m cr3)
    (hlow : LowTable m cr3 p2) (hsealed : Sealed m p2) (hnew : AddressSpace.newUser cr3 m = .ok s m₁)
    (hload : load bin ⟨m₁, s⟩ = .ok loaded v') :
    ((∃ ph ∈ segments bin, ph.vaddr ≤ loaded.entry ∧ loaded.entry < ph.vaddr + ph.memsz) ∧
      (∃ a, mmu v'.mem s.p4 (loaded.entry / 4096) = some a ∧ a.user = true) ∧
      (∀ (page : ℕ) f, v'.space.mappedPages[page]? = some f → 0x40000000 ≤ page * 4096 ∧ page * 4096 < 2 ^ 47) ∧
      ∀ page, IsPage page → (mmu v'.mem s.p4 page).isSome → (mmu m₁ s.p4 page).isSome ∨
        0x40000000 ≤ page * 4096 ∧ page * 4096 < 2 ^ 47) ↔
    (∃ ph ∈ segments bin, ph.vaddr ≤ (Ehdr.read bin).entry ∧ (Ehdr.read bin).entry < ph.vaddr + ph.memsz) ∧
      ∀ ph ∈ segments bin, ph.vaddr + ph.memsz ≤ 2 ^ 47 := by
  obtain ⟨kind₁, hv', hbuilt, -, hloaded, he, hp4, hlow₁⟩ := load_newUser hl hcr3 htree hnew hload
  obtain ⟨kind', hp, he'⟩ := hv'.paged
  have hroot : v'.space.p4 = s.p4 := hv'.root
  constructor
  · rintro ⟨⟨ph, hph, hge, hlt⟩, -, hpages, -⟩
    have huser : ∀ ph ∈ segments bin, ph.vaddr + ph.memsz ≤ 2 ^ 47 := fun q hq => by
      have hpos : q.memsz ≠ 0 := (of_decide_eq_true (List.mem_filter.mp hq).2).2
      obtain ⟨f, hf⟩ := isSome_contents.1 (hbuilt.there.2 q hq (q.memsz - 1) (by omega))
      have hbelow := (hpages _ f hf).2
      unfold Phdr.addr signExtend at hbelow
      split_ifs at hbelow <;> omega
    have hend := huser ph hph
    refine ⟨⟨ph, hph, ?_⟩, huser⟩
    rw [hloaded] at hge hlt
    unfold signExtend at hge hlt
    split_ifs at hge hlt <;> omega
  rintro ⟨⟨ph, hph, hge, hlt⟩, huser⟩
  have haddr : ∀ ph ∈ segments bin, ∀ k < ph.memsz, ph.addr k = ph.vaddr + k := fun ph hph k hk => by
    have := huser ph hph
    unfold Phdr.addr signExtend
    split_ifs <;> omega
  have hmeets : ∀ page, Meets (segments bin) page → page * 4096 < 2 ^ 47 := by
    rintro _ ⟨ph, hph, k, hk, rfl⟩
    have := huser ph hph
    rw [haddr ph hph k hk]
    omega
  have hsame : loaded.entry = (Ehdr.read bin).entry := by
    have := huser ph hph
    rw [hloaded]
    unfold signExtend
    split_ifs <;> omega
  -- the first GiB is mapped by huge pages, before and after
  have hlow₂ : LowTable v'.mem s.p4 p2 := he'.lowTable hp4 (hlow₁ p2 hlow)
  have hsealed₂ : Sealed v'.mem p2 := (hsealed.evolves he hcr3 hlow).evolves he' hp4 (hlow₁ p2 hlow)
  have hfirst : ∀ {page : ℕ}, Mapped v'.mem s.p4 page → 0x40000000 ≤ page * 4096 := fun hm => by
    have := hsealed₂.page_ge hlow₂ hm
    unfold IDENTITY_FRAMES at this
    omega
  refine ⟨⟨ph, hph, by rw [hsame]; exact hge, by rw [hsame]; exact hlt⟩, ?_, fun page f hf => ?_, fun page hpage hsome => ?_⟩
  · have hthere := hbuilt.there.2 ph hph ((Ehdr.read bin).entry - ph.vaddr) (by omega)
    rw [haddr ph hph _ (by omega), show ph.vaddr + ((Ehdr.read bin).entry - ph.vaddr) = loaded.entry by omega] at hthere
    obtain ⟨f, hf⟩ := isSome_contents.1 hthere
    rw [← hroot]
    exact (hp.userMapped hf).mmu
  · have hm := (hp.userMapped hf).mapped
    rw [hroot] at hm
    exact ⟨hfirst hm, hmeets page (hv'.recorded page f hf).2⟩
  · rcases hv'.isSome_or hpage hsome with h | hq'
    · exact .inl h
    · by_cases hge : 0x40000000 ≤ page * 4096
      · exact .inr ⟨hge, hmeets page hq'⟩
      · exact .inl ((hsealed.evolves he hcr3 hlow).isSome_mmu (hlow₁ p2 hlow) (by unfold IDENTITY_FRAMES; omega))

theorem load_userPages_tinyImage : ∃ s m₁ loaded v', AddressSpace.newUser 272 smallMachine = .ok s m₁ ∧
    load tinyImage ⟨m₁, s⟩ = .ok loaded v' ∧
    ∃ a, mmu v'.mem s.p4 (loaded.entry / 4096) = some a ∧ a.user = true := by
  have hok : (AddressSpace.newUser 272 smallMachine).Returns fun s m₁ =>
      (load tinyImage ⟨m₁, s⟩).Returns fun _ _ => True := by decide +kernel
  obtain ⟨s, m₁, hnew, loaded, v', hload, -⟩ := hok
  obtain ⟨hlow, hsealed⟩ := bootTables_smallMachine.lowTable
  exact ⟨s, m₁, loaded, v', hnew, hload, ((load_userPages bootTables_smallMachine.layout bootKinds_p4
    bootTables_smallMachine.tree hlow hsealed hnew hload).mpr (by decide +kernel)).2.1⟩

/-- **Not every accepted program does**: one whose entry point is 1, outside its segment, is accepted, and so is one
whose segment is a page of the kernel half. -/
theorem load_anywhere :
    (∃ s m₁ loaded v', AddressSpace.newUser 272 smallMachine = .ok s m₁ ∧
      load (imageWith 1 64 0x40000000 1) ⟨m₁, s⟩ = .ok loaded v' ∧
      ¬ ∃ ph ∈ segments (imageWith 1 64 0x40000000 1), ph.vaddr ≤ loaded.entry ∧ loaded.entry < ph.vaddr + ph.memsz) ∧
    ∃ s m₁ loaded v', AddressSpace.newUser 272 smallMachine = .ok s m₁ ∧
      load (imageWith 0xffff800000000000 64 0xffff800000000000 1) ⟨m₁, s⟩ = .ok loaded v' ∧
      ∃ page f : ℕ, v'.space.mappedPages[page]? = some f ∧ 2 ^ 47 ≤ page * 4096 := by
  constructor
  · have hok : (AddressSpace.newUser 272 smallMachine).Returns fun s m₁ =>
        (load (imageWith 1 64 0x40000000 1) ⟨m₁, s⟩).Returns fun loaded _ =>
          ¬ ∃ ph ∈ segments (imageWith 1 64 0x40000000 1), ph.vaddr ≤ loaded.entry ∧
            loaded.entry < ph.vaddr + ph.memsz := by decide +kernel
    obtain ⟨s, m₁, hnew, loaded, v', hload, hout⟩ := hok
    exact ⟨s, m₁, loaded, v', hnew, hload, hout⟩
  · have hok : (AddressSpace.newUser 272 smallMachine).Returns fun s m₁ =>
        (load (imageWith 0xffff800000000000 64 0xffff800000000000 1) ⟨m₁, s⟩).Returns fun _ v' =>
          ∃ f ∈ v'.space.mappedPages[0xffff800000000]?, True := by decide +kernel
    obtain ⟨s, m₁, hnew, loaded, v', hload, f, hf, -⟩ := hok
    exact ⟨s, m₁, loaded, v', hnew, hload, _, f, hf, by decide⟩

end Image

end RustKernel.Fs
