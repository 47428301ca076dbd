import RustKernel.Kernel.State

/-!
# Acquiring the framebuffer

`sys_fb_acquire` and `release_if_owner` of `gfx/mod.rs`. The frames of the back buffer are allocated by the first
process that asks, kept for ever, and mapped into the address space of every owner. What is copied to the caller's
`FbInfoAbi` is left out; whether its address is accepted is not.
-/

namespace RustKernel.Gfx

open Lib Exec Memory RustKernel.Task

def FB_USER_VA : ℕ := 0x500000000000

def userSliceOk (ptr len : ℕ) : Bool := ptr ≠ 0 && len ≠ 0 && decide (ptr + len < 2 ^ 47)

def FB_INFO_SIZE : ℕ := 40

variable {ε : Type} {E : ε → Kernel → Prop}

def onFb (f : Framebuffer → Framebuffer) : Exec ε Kernel Unit := Exec.modify fun k => { k with fb := f k.fb }

def ensureBackbuf (len : ℕ) : Exec ε Kernel Bool := do
  let k ← Exec.get
  if k.fb.frames.isEmpty then do
    match ← Exec.attempt (onMem (allocFrames ((len + 4095) / 4096) [])) with
    | .ok frames => do
      onFb fun fb => { fb with frames, len }
      pure true
    | .error _ => do
      onFb fun fb => { fb with owner := 0 }
      pure false
  else pure true

def mapBackbuf : ℕ → List ℕ → Exec ε Vm Unit
  | _, [] => pure ()
  | i, f :: fs => do
    let va ← virtAddrNew (FB_USER_VA + i * 4096)
    let _ ← Exec.attempt (AddressSpace.mapTo (va / 4096) f USER_RW)
    mapBackbuf (i + 1) fs

def sysFbAcquire (outPtr : ℕ) : Exec ε Kernel ℕ := do
  let k ← Exec.get
  let caller := k.table.current
  if k.fb.owner ≠ 0 ∧ k.fb.owner ≠ caller then pure U64_MAX
  else do
    onFb fun fb => { fb with owner := caller }
    match k.fb.geometry with
    | none => pure U64_MAX
    | some g =>
      if ← ensureBackbuf (g.pitch * g.height) then do
        let k ← Exec.get
        match ← inCurrent (mapBackbuf 0 k.fb.frames) with
        | none => do
          onFb fun fb => { fb with owner := 0 }
          pure U64_MAX
        | some () => do
          onFb fun fb => { fb with va := FB_USER_VA }
          pure (if userSliceOk outPtr FB_INFO_SIZE then 0 else U64_MAX)
      else pure U64_MAX

def releaseIfOwner (pid : ℕ) : Exec ε Kernel Unit :=
  onFb fun fb => if fb.owner = pid then { fb with owner := 0, va := 0 } else fb

/-! ### What the calls do -/

variable {k : Kernel} {Q : ℕ → Kernel → Prop} {R : Bool → Kernel → Prop} {S : Option Unit → Kernel → Prop} {outPtr : ℕ}

theorem onFb_post (f : Framebuffer → Framebuffer) (k : Kernel) : (onFb f k).Post (fun _ k' => k' = { k with fb := f k.fb }) E := rfl

theorem ensureBackbuf_rule {len : ℕ} (hthere : k.fb.frames ≠ [] → R true k)
    (halloc : k.fb.frames = [] → (allocFrames ((len + 4095) / 4096) [] k.mem).Post
      (fun frames m => R true { k with mem := m, fb := { k.fb with frames, len } })
      (fun _ m => R false { k with mem := m, fb := { k.fb with owner := 0 } })) : (ensureBackbuf len k).Post R E := by
  unfold ensureBackbuf
  rw [get_bind]
  split_ifs with hempty
  · refine post_attempt_bind (onMem_post (halloc (List.isEmpty_iff.1 hempty))) ?_ ?_
    · rintro frames _ ⟨m, rfl, h⟩
      exact h
    · rintro _ _ ⟨m, rfl, h⟩
      exact h
  · exact hthere fun hnil => hempty (List.isEmpty_iff.2 hnil)

theorem sysFbAcquire_rule (hbusy : k.fb.owner ≠ 0 ∧ k.fb.owner ≠ k.table.current → Q U64_MAX k)
    (hnone : k.fb.geometry = none → Q U64_MAX { k with fb := { k.fb with owner := k.table.current } })
    (hensure : ∀ g, k.fb.geometry = some g → ¬ (k.fb.owner ≠ 0 ∧ k.fb.owner ≠ k.table.current) →
      (ensureBackbuf (g.pitch * g.height) { k with fb := { k.fb with owner := k.table.current } }).Post R E)
    (hfail : ∀ k', R false k' → Q U64_MAX k')
    (hmap : ∀ k', R true k' → (inCurrent (mapBackbuf 0 k'.fb.frames) k').Post S E)
    (hlost : ∀ k', S none k' → Q U64_MAX { k' with fb := { k'.fb with owner := 0 } })
    (hdone : ∀ k', S (some ()) k' → Q (if userSliceOk outPtr FB_INFO_SIZE then 0 else U64_MAX)
      { k' with fb := { k'.fb with va := FB_USER_VA } }) : (sysFbAcquire outPtr k).Post Q E := by
  unfold sysFbAcquire
  rw [get_bind]
  by_cases hb : k.fb.owner ≠ 0 ∧ k.fb.owner ≠ k.table.current
  · rw [if_pos hb]
    exact hbusy hb
  rw [if_neg hb]
  refine post_bind (onFb_post _ k) fun _ k₁ h₁ => ?_
  cases hg : k.fb.geometry with
  | none =>
    rw [h₁]
    exact hnone hg
  | some g =>
    refine post_bind (h₁ ▸ hensure g hg hb) fun there k₂ h₂ => ?_
    cases there with
    | false => exact hfail k₂ h₂
    | true =>
      rw [if_pos rfl, get_bind]
      refine post_bind (hmap k₂ h₂) fun r k₃ h₃ => ?_
      cases r with
      | none => exact hlost k₃ h₃
      | some _ => exact hdone k₃ h₃

theorem sysFbAcquire_quiet (outPtr : ℕ) (k : Kernel) : (sysFbAcquire (ε := ε) outPtr k).Post
    (fun _ k' => Quiet k k' ∧ k'.shm = k.shm) (fun _ _ => True) := by
  have hsame : ∀ mem fb, Quiet k { k with mem, fb } := fun _ _ => SameTasks.quiet ⟨rfl, rfl⟩
  let R : Kernel → Prop := fun k' => Quiet k k' ∧ k'.shm = k.shm
  refine sysFbAcquire_rule (R := fun _ => R) (S := fun _ => R) (fun _ => ⟨hsame _ _, rfl⟩) (fun _ => ⟨hsame _ _, rfl⟩)
    (fun g _ _ => ensureBackbuf_rule (fun _ => ⟨hsame _ _, rfl⟩) fun _ => ?_) (fun _ h => h) (fun k' h => ?_)
    (fun _ h => ⟨h.1.trans (SameTasks.quiet ⟨rfl, rfl⟩), h.2⟩) fun _ h => ⟨h.1.trans (SameTasks.quiet ⟨rfl, rfl⟩), h.2⟩
  · exact (Outcome.post_true _).imp (fun _ _ _ => ⟨hsame _ _, rfl⟩) fun _ _ _ => ⟨hsame _ _, rfl⟩
  · refine (inCurrent_put _ k').imp ?_ fun _ _ _ => trivial
    rintro _ _ ⟨v, rfl⟩
    exact ⟨h.1.trans (.putSpace v k'), h.2⟩

end RustKernel.Gfx
