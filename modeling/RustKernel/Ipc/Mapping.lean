import RustKernel.Ipc.Accounting
import RustKernel.Kernel.Orderly
import RustKernel.Memory.Grants

/-!
# When a region can be mapped

Does `sys_shm_map` on a region that exists fail only for want of a frame? The addresses it takes are counted for each
pid, and the pages that are there already are not looked at.
-/

namespace RustKernel

open Lib Exec Memory RustKernel.Task Ipc

/-- `n` pages from `base` on have been mapped, and recorded in place of what `a` records there. -/
structure Mapping (a : AddressSpace) (base n : ℕ) (v : Vm) : Prop where
  tables : ∃ kind, Layout v.mem kind ∧ kind a.p4 = .table 4
  tree : Tree v.mem a.p4
  p4 : v.space.p4 = a.p4
  mapped : ∀ x < n, Mapped v.mem a.p4 (base + x)
  others : ∀ p, ¬ (base ≤ p ∧ p < base + n) → v.space.mappedPages[p]? = a.mappedPages[p]?

section Rollback

variable {ε : Type} {v v' : Vm} {a : AddressSpace} {kind kind' : ℕ → Kind} {baseVa base n : ℕ} {fl : PageTableFlags}

theorem Mapping.steady (h : Mapping a base n v) (hp4 : kind a.p4 = .table 4) (hs : Steady v.mem kind v'.mem kind')
    (hsp : v'.space.p4 = v.space.p4) {n' : ℕ} (hmapped : ∀ x < n', x < n ∨ Mapped v'.mem a.p4 (base + x))
    (hothers : ∀ p, ¬ (base ≤ p ∧ p < base + n') → v'.space.mappedPages[p]? = a.mappedPages[p]?) : Mapping a base n' v' where
  tables := ⟨kind', hs.target, hs.kind_eq hp4⟩
  tree := hs.tree _ hp4 h.tree
  p4 := hsp.trans h.p4
  mapped := fun x hx => (hmapped x hx).elim (fun hlt => hs.evolves.mapped hp4 (h.mapped x hlt)) id
  others := hothers

/-- A page is mapped exactly if it is vacant, unless frames run out. -/
theorem Mapping.mapTo (h : Mapping a base n v) (hfl : MapFlags fl) (f : ℕ) :
    (AddressSpace.mapTo (base + n) f fl v).Post
      (fun _ v' => Mapping a base (n + 1) v' ∧ v.mem.frames.available ≤ v'.mem.frames.available + 3 ∧
        Vacant v.mem (base + n) 4 a.p4 ∧ (∀ page, Vacant v'.mem page 4 a.p4 → Vacant v.mem page 4 a.p4) ∧
        ∀ page, page % 512 ^ 4 ≠ (base + n) % 512 ^ 4 → Vacant v.mem page 4 a.p4 → Vacant v'.mem page 4 a.p4)
      (fun _ v' => Mapping a base n v' ∧ v.mem.frames.available ≤ v'.mem.frames.available + 3 ∧
        (Vacant v.mem (base + n) 4 a.p4 → Exhausted v'.mem)) := by
  obtain ⟨kind, hl, hp4⟩ := h.tables
  have hroot : kind v.space.p4 = .table 4 := h.p4 ▸ hp4
  have htree : Tree v.mem v.space.p4 := h.p4 ▸ h.tree
  have hmap := ((mapTo_of_vacant hl hroot hfl).and (mapTo_vacant htree hl hroot hfl)).and
    (mapTo_available _ (base + n) f _)
  refine ((addressSpace_mapTo_post (base + n) f hl hroot hfl).and (post_addressSpace_mapTo hmap)).imp ?_ ?_
  · rintro _ v' ⟨⟨hsp, -, -, kind', p1, hmaps⟩, ⟨⟨⟨hv, hold⟩, hkeep⟩, havail⟩, -⟩
    rw [h.p4] at hv hold hkeep hmaps
    refine ⟨h.steady hp4 hmaps.steady (by rw [hsp]; rfl) (fun x hx => ?_) fun p hp => ?_, havail, hv, hold, hkeep⟩
    · refine (Nat.lt_succ_iff_lt_or_eq.mp hx).imp id ?_
      rintro rfl
      refine ⟨p1, _, hmaps.walk, nextTable_eq_ok.mpr ⟨?_, ?_, rfl⟩⟩
      · rw [hmaps.leaf, getLsbD_mkEntry _ _ (by decide), hfl.present]
      · rw [hmaps.leaf, getLsbD_mkEntry _ _ (by decide), hfl.huge]
    · rw [hsp, ← h.others p (by omega)]
      exact (congrFun (TreeMap.getElem?_insert_eq_update v.space.mappedPages (base + n) f) p).trans
        (Function.update_of_ne (by omega) ..)
  · rintro _ v' ⟨⟨hsp, -, kind', hs⟩, ⟨⟨-, hex⟩, havail⟩, -⟩
    rw [h.p4] at hex
    exact ⟨h.steady hp4 hs (by rw [hsp]) (fun x hx => .inl hx) (by rw [hsp]; exact h.others), havail, hex⟩

/-- The loop stops at a page that is not vacant, or where frames have run out. -/
theorem mapRegion_stops (fs : List ℕ) (n : ℕ) (hva : baseVa + (n + fs.length) * 4096 ≤ 2 ^ 47) (hfl : MapFlags fl)
    (h : Mapping a (baseVa / 4096) n v) : (mapRegion baseVa fl n fs v).Post (fun _ _ => True) (fun i v' =>
      n ≤ i ∧ i < n + fs.length ∧ Mapping a (baseVa / 4096) i v' ∧
      (∀ y, n ≤ y → ¬ Vacant v.mem (baseVa / 4096 + y) 4 a.p4 → i ≤ y) ∧
      v.mem.frames.available ≤ v'.mem.frames.available + 3 * (i + 1 - n) ∧
      (Vacant v.mem (baseVa / 4096 + i) 4 a.p4 → Exhausted v'.mem)) := by
  induction fs generalizing n v with
  | nil => trivial
  | cons f fs ih =>
    rw [List.length_cons] at hva ⊢
    have hpage : (baseVa + n * 4096) / 4096 = baseVa / 4096 + n := Nat.add_mul_div_right _ _ (by decide)
    refine post_bind (post_add ..) ?_
    rintro _ _ ⟨rfl, rfl⟩
    rw [virtAddrNew_of_lt (by omega), pure_bind, hpage]
    refine post_bind (post_mapErr ((h.mapTo hfl f).imp_err ?_)) ?_
    · rintro _ v' ⟨hv', havail, hex⟩
      exact ⟨le_rfl, by omega, hv', fun y hy _ => hy, by omega, hex⟩
    · rintro _ v' ⟨hv', havail, hvac, hold, hkeep⟩
      have hva' : baseVa + (n + 1 + fs.length) * 4096 ≤ 2 ^ 47 := by rwa [Nat.add_assoc n, Nat.add_comm 1]
      refine (ih (n + 1) hva' hv').imp_err ?_
      rintro i v'' ⟨hn, hi, hv'', hstop, havail', hex⟩
      refine ⟨by omega, by omega, hv'', fun y hy hno => ?_, by omega, fun hv => hex (hkeep _ (by omega) hv)⟩
      have hne : y ≠ n := by
        rintro rfl
        exact hno hvac
      exact hstop y (by omega) fun h => hno (hold _ h)

/-- The rollback removes the pages that were mapped, and with them what was recorded there. -/
theorem unmapPages_clears (hva : baseVa + n * 4096 ≤ 2 ^ 47) (h : Mapping a (baseVa / 4096) n v) :
    (unmapPages (ε := ε) baseVa n v).Post (fun _ v' => v'.mem.frames = v.mem.frames ∧ v'.space.p4 = a.p4 ∧
      ∀ p : ℕ, v'.space.mappedPages[p]? =
        if baseVa / 4096 ≤ p ∧ p < baseVa / 4096 + n then none else a.mappedPages[p]?) (fun _ _ => False) := by
  -- `rest` are the pages still to unmap
  let I : List ℕ → Vm → Prop := fun rest v' => v'.mem.frames = v.mem.frames ∧ (∃ kind, Layout v'.mem kind ∧ kind a.p4 = .table 4) ∧
    Tree v'.mem a.p4 ∧ v'.space.p4 = a.p4 ∧ rest.Nodup ∧ (∀ x ∈ rest, x < n ∧ Mapped v'.mem a.p4 (baseVa / 4096 + x)) ∧
    ∀ p, (∀ x ∈ rest, p ≠ baseVa / 4096 + x) → v'.space.mappedPages[p]? =
      if baseVa / 4096 ≤ p ∧ p < baseVa / 4096 + n then none else a.mappedPages[p]?
  have hstart : I (List.range n) v := by
    refine ⟨rfl, h.tables, h.tree, h.p4, List.nodup_range, fun x hx => ⟨List.mem_range.mp hx, h.mapped x (List.mem_range.mp hx)⟩,
      fun p hp => ?_⟩
    have hout : ¬ (baseVa / 4096 ≤ p ∧ p < baseVa / 4096 + n) := fun hin =>
      hp (p - baseVa / 4096) (List.mem_range.mpr (by omega)) (by omega)
    rw [if_neg hout, h.others p hout]
  refine (post_forM (I := I) hstart ?_).imp_ok ?_
  · rintro x rest w ⟨hframes, ⟨kind, hl, hp4⟩, htree, hroot, hnodup, hrest, hpages⟩
    obtain ⟨hxrest, hnodup⟩ := List.nodup_cons.mp hnodup
    obtain ⟨hx, hmapped⟩ := hrest x List.mem_cons_self
    have hpage : (baseVa + x * 4096) / 4096 = baseVa / 4096 + x := Nat.add_mul_div_right _ _ (by decide)
    have hun := unmapVa_post (v := w) (show baseVa + x * 4096 < 2 ^ 47 by omega)
    rw [hpage, hroot] at hun
    refine post_bind (post_attempt (R := fun _ => I rest) (hun.imp ?_ fun _ _ hno => absurd hmapped hno.2)) fun _ _ h => h
    rintro _ w' ⟨hsp, p1, hw, hm⟩
    have hp1 := hl.walk hp4 hw
    refine ⟨by rw [hm]; exact hframes, ⟨kind, by rw [hm]; exact (upper_write_leaf hl hp1).target, hp4⟩, by rw [hm]; exact htree.write hl hp4 hp1,
      by rw [hsp]; exact hroot, hnodup, fun y hy => ?_, fun p hp => ?_⟩
    · -- another page has another leaf
      obtain ⟨hy', q1, f, hq, hf⟩ := hrest y (List.mem_cons_of_mem _ hy)
      refine ⟨hy', q1, f, by rw [hm]; exact (upper_write_leaf hl hp1).walk hp4 hq, ?_⟩
      rw [hm, PhysMem.write_words, if_neg]
      · exact hf
      · rintro ⟨rfl, hidx⟩
        have := htree.page_eq hq hw hidx
        have hxy : y = x := by omega
        exact hxrest (hxy ▸ hy)
    · rw [hsp]
      by_cases hpx : p = baseVa / 4096 + x
      · rw [if_pos (by omega), hpx]
        exact Std.ExtTreeMap.getElem?_erase_self
      · rw [← hpages p fun y hy => ?_]
        · exact (Std.ExtTreeMap.getElem?_erase ..).trans (if_neg fun h => hpx (compare_eq_iff_eq.mp h).symm)
        · rcases List.mem_cons.mp hy with rfl | hy
          · exact hpx
          · exact hp y hy
  · rintro _ v' ⟨hframes, -, -, hroot, -, -, hpages⟩
    exact ⟨hframes, hroot, fun p => hpages p nofun⟩

/-- The first page that cannot be mapped is page `i`: it is not vacant, or frames have run out. -/
structure Stops (baseVa i : ℕ) (v v' : Vm) : Prop where
  first : ∀ y, ¬ Vacant v.mem (baseVa / 4096 + y) 4 v.space.p4 → i ≤ y
  out : Vacant v.mem (baseVa / 4096 + i) 4 v.space.p4 → Exhausted v'.mem ∧ v.mem.frames.available ≤ 3 * (i + 1)

theorem mapOrUndo_stops {frames : List ℕ} (hva : baseVa + frames.length * 4096 ≤ 2 ^ 47) (hfl : MapFlags fl)
    (htree : Tree v.mem v.space.p4) (hl : Layout v.mem kind) (hp4 : kind v.space.p4 = .table 4) :
    (mapOrUndo (ε := ε) baseVa fl frames v).Post (fun b v' => b = false → v'.space.p4 = v.space.p4 ∧ ∃ i < frames.length,
      Stops baseVa i v v' ∧ ∀ p : ℕ, v'.space.mappedPages[p]? =
        if baseVa / 4096 ≤ p ∧ p < baseVa / 4096 + i then none else v.space.mappedPages[p]?) (fun _ _ => False) := by
  let R : Except ℕ Unit → Vm → Prop := fun r v' => ∀ i, r = .error i → i < frames.length ∧
    Mapping v.space (baseVa / 4096) i v' ∧ Stops baseVa i v v'
  have hstart : Mapping v.space (baseVa / 4096) 0 v := ⟨⟨kind, hl, hp4⟩, htree, rfl, nofun, fun _ _ => rfl⟩
  have hva' : baseVa + (0 + frames.length) * 4096 ≤ 2 ^ 47 := by rwa [Nat.zero_add]
  have hloop : (Exec.attempt (δ := ε) (mapRegion baseVa fl 0 frames) v).Post R (fun _ _ => False) := by
    refine post_attempt ((mapRegion_stops frames 0 hva' hfl hstart).imp (fun _ _ _ i hi => nomatch hi) ?_)
    rintro i v' ⟨-, hi, hm, hfirst, havail, hex⟩ _ ⟨⟩
    refine ⟨by omega, hm, fun y => hfirst y (Nat.zero_le y), fun hv => ⟨hex hv, ?_⟩⟩
    have := (hex hv).available
    omega
  refine post_bind hloop fun r v₁ hr => ?_
  cases r with
  | ok _ => exact fun h => nomatch h
  | error i =>
    obtain ⟨hi, hm, hstops⟩ := hr i rfl
    have hlt : baseVa + i * 4096 ≤ 2 ^ 47 := (Nat.add_le_add_left (Nat.mul_le_mul_right 4096 hi.le) baseVa).trans hva
    refine post_bind (unmapPages_clears hlt hm) ?_
    rintro _ v' ⟨hframes, hroot, hpages⟩ -
    refine ⟨hroot, i, hi, ⟨hstops.first, fun hv => ?_⟩, hpages⟩
    unfold Exhausted
    rw [hframes]
    exact hstops.out hv

end Rollback

def Kernel.Clear (k : Kernel) (handle : ℕ) : Prop := ∀ r ∈ k.shm.table[handle]?, ∀ a ∈ k.table.spaces[k.table.current]?,
  SHM_VA_BASE + (k.shm.next k.table.current + r.frames.length) * 4096 ≤ 2 ^ 47 ∧
    ∀ x < r.frames.length, Vacant k.mem (SHM_VA_BASE / 4096 + k.shm.next k.table.current + x) 4 a.p4

instance (k : Kernel) (handle : ℕ) : Decidable (k.Clear handle) :=
  inferInstanceAs (Decidable (∀ r ∈ k.shm.table[handle]?, ∀ a ∈ k.table.spaces[k.table.current]?, _))

section Call

variable {ε : Type} {k : Kernel} {kernelP4 p2 handle mode : ℕ}

theorem sysShmMap_clear (h : k.Sound kernelP4 p2) (hown : k.Own) {r : ShmRegion} (hr : k.shm.table[handle]? = some r)
    (hclear : k.Clear handle) : (sysShmMap (ε := ε) handle mode k).Post
      (fun ret k' => ret = U64_MAX → Exhausted k'.mem) (fun _ _ => False) := by
  obtain ⟨a, ha, -⟩ := hown
  obtain ⟨p, hp, rfl⟩ := ProcessTable.spaces_eq_some.mp ha
  obtain ⟨kind, hm⟩ := h.memory
  obtain ⟨hva, hvacant⟩ := hclear r hr _ ha
  have hva' : SHM_VA_BASE + k.shm.next k.table.current * 4096 + r.frames.length * 4096 ≤ 2 ^ 47 := by
    rw [Nat.add_assoc, ← Nat.add_mul]
    exact hva
  have hpage : (SHM_VA_BASE + k.shm.next k.table.current * 4096) / 4096 = SHM_VA_BASE / 4096 + k.shm.next k.table.current :=
    Nat.add_mul_div_right _ _ (by decide)
  have hmap := mapOrUndo_stops (ε := ε) (v := ⟨k.mem, p.addressSpace⟩) hva'
    (mapFlags_pageFlags (decide (mode &&& SHM_MODE_WRITE ≠ 0))) (hm.tree _ _ ha) hm.layout (hm.root ha)
  refine sysShmMap_rule hr ((inCurrent_post (k := k.mapping handle r) hp hmap).imp_err
    fun _ _ ⟨_, _, h⟩ => h) (fun _ _ hmax => absurd hmax (shmVa_ne_max _)) ?_
  rintro _ _ ⟨b, v, rfl, rfl, hb⟩ hne
  obtain ⟨-, i, hi, hstops, -⟩ := hb (by simpa using hne)
  have hex := (hstops.out (by rw [hpage]; exact hvacant i hi)).1
  refine (undoRef_post handle _).imp_ok ?_
  rintro _ _ (⟨-, rfl⟩ | ⟨r, -, rfl⟩)
  · exact fun _ => hex
  · exact fun _ => hex

end Call

/-- **A region that exists can be mapped unless no frame is left**, in a run of orderly events, where the pages the call
takes are vacant. -/
theorem shmMap_exhausted_of_run {s t : Machine} {p4 p3 p2 : ℕ} {tr : List (Machine × Event)} (hb : Booted s p4 p3 p2)
    (hrun : Run step s tr t) (ho : ∀ x ∈ tr, Orderly x.1 x.2) {n : Entry} {regs : TrapFrame} (hm : t.mode = .user n regs)
    {handle mode : ℕ} {r : ShmRegion} (hr : t.kernel.shm.table[handle]? = some r) (hclear : t.kernel.Clear handle)
    {k' : Kernel} (hcall : sysShmMap (ε := Empty) handle mode t.kernel = .ok U64_MAX k') : Exhausted k'.mem := by
  have hs := hb.sound_of_run hrun ho
  exact (sysShmMap_clear hs.kernel (hs.placed.ring3 n regs hm) hr hclear).ok hcall rfl

def takeAll : List Event := [.spawn (some Fs.tinyImage) none, .runAll, .syscall (.shmCreate (232 * 4096))]

theorem shmMap_exhausted_takeAll : ∃ tr t r k', Run step bootMachine tr t ∧ (∀ x ∈ tr, Orderly x.1 x.2) ∧
    t.kernel.shm.table[1]? = some r ∧ t.kernel.Clear 1 ∧ sysShmMap (ε := Empty) 1 2 t.kernel = .ok U64_MAX k' ∧
    Exhausted k'.mem := by
  have hfinal : (exec step Orderly bootMachine takeAll).any fun t => t.mode.isUser = true ∧
      (∃ r ∈ t.kernel.shm.table[1]?, True) ∧ t.kernel.Clear 1 ∧
      (sysShmMap (ε := Empty) 1 2 t.kernel).Returns fun ret _ => ret = U64_MAX := by
    decide +kernel
  obtain ⟨tr, t, hrun, ho, hmode, ⟨r, hr, -⟩, hclear, ret, k', hcall, rfl⟩ := exists_run_of_any hfinal
  obtain ⟨n, regs, hm⟩ := Mode.eq_user hmode
  exact ⟨tr, t, r, k', hrun, ho, hr, hclear, hcall, shmMap_exhausted_of_run booted_bootMachine hrun ho hm hr hclear hcall⟩

def forkMapped : List Event := [.spawn (some Fs.tinyImage) none, .runAll, .syscall (.shmCreate 1), .syscall (.shmMap 1 2),
  .syscall .fork, .tick]

/-- **A child cannot map a region its parent has mapped**: the call fails, though there are frames. The child has its
parent's page at the first address of the area, and that is the address it is given. -/
theorem forked_child_cannot_map : ∃ tr t r k', Run step bootMachine tr t ∧ (∀ x ∈ tr, Orderly x.1 x.2) ∧
    t.kernel.table.current = 2 ∧ t.kernel.table.procs[2]?.isSome ∧ t.kernel.shm.table[1]? = some r ∧
    sysShmMap (ε := Empty) 1 2 t.kernel = .ok U64_MAX k' ∧ ¬ Exhausted k'.mem := by
  have hfinal : (exec step Orderly bootMachine forkMapped).any fun t => t.kernel.table.current = 2 ∧
      t.kernel.table.procs[2]?.isSome ∧ (∃ r ∈ t.kernel.shm.table[1]?, True) ∧
      (sysShmMap (ε := Empty) 1 2 t.kernel).Returns fun ret k' => ret = U64_MAX ∧ ¬ Exhausted k'.mem := by
    decide +kernel
  obtain ⟨tr, t, hrun, ho, hcurrent, hlive, ⟨r, hr, -⟩, ret, k', hcall, rfl, hleft⟩ := exists_run_of_any hfinal
  exact ⟨tr, t, r, k', hrun, ho, hcurrent, hlive, hr, hcall, hleft⟩

end RustKernel
