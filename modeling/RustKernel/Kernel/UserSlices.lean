import RustKernel.Gfx.Input
import RustKernel.Ipc.Mailbox
import RustKernel.Kernel.Orderly

/-!
# The memory that system calls reach

`user_slice` and `user_slice_mut` of `syscall/mod.rs` look at addresses only; the system calls then read and write in
ring 0 what they accept. Are these pages of the caller?
-/

namespace RustKernel

open Lib Memory RustKernel.Task Gfx Ipc

/-- The system calls that take pointers. `n` is the length of the message that `sys_ipc_recv` copies. -/
inductive PointerCall
  | write (fd buf len : ℕ)
  | read (fd buf len : ℕ)
  | fsRead (pathPtr pathLen outBuf outMax : ℕ)
  | fsList (outBuf outMax : ℕ)
  | exec (pathPtr pathLen : ℕ)
  | fbAcquire (outPtr : ℕ)
  | fbPresent (rectPtr : ℕ)
  | inputPoll (bufPtr max : ℕ)
  | ipcSend (msgPtr msgLen : ℕ)
  | ipcRecv (bufPtr n outSenderPtr : ℕ)

/-- The ranges that a call has checked, as a pointer and a length. -/
def PointerCall.slices : PointerCall → List (ℕ × ℕ)
  | .write _ buf len => [(buf, len)]
  | .read fd buf len => if fd ≠ 0 then [] else [(buf, len)]
  | .fsRead pathPtr pathLen outBuf outMax => [(pathPtr, pathLen), (outBuf, outMax)]
  | .fsList outBuf outMax => [(outBuf, outMax)]
  | .exec pathPtr pathLen => [(pathPtr, pathLen)]
  | .fbAcquire outPtr => [(outPtr, FB_INFO_SIZE)]
  | .fbPresent rectPtr => if rectPtr = 0 then [] else [(rectPtr, 16)]
  | .inputPoll bufPtr max =>
    let total := max * layoutSize kernelFields
    if 2 ^ 64 ≤ total then [] else [(bufPtr, total)]
  | .ipcSend msgPtr msgLen => if msgLen = 0 ∨ MAX_MSG < msgLen then [] else [(msgPtr, msgLen)]
  | .ipcRecv bufPtr n outSenderPtr => (bufPtr, n) :: if outSenderPtr = 0 then [] else [(outSenderPtr, 8)]

/-- The ranges that a call goes on to read or write. -/
def PointerCall.accepted (call : PointerCall) : List (ℕ × ℕ) := call.slices.filter fun r => userSliceOk r.1 r.2

/-- The current process records the page. -/
def Kernel.Records (k : Kernel) (page : ℕ) : Prop :=
  ∃ a ∈ k.table.spaces[k.table.current]?, (a.mappedPages[page]?).isSome
deriving Decidable

variable {s t : Machine} {p4 p3 p2 : ℕ} {tr : List (Machine × Event)} {n : Entry} {regs : TrapFrame}

/-- **What a call accepts** meets the first GiB, where the kernel is, exactly if it begins there. If the caller records every
page of it, it is the caller's own memory: it begins above the first GiB, and the MMU lets ring 3 reach every byte. -/
theorem accepted_user_of_run (hb : Booted s p4 p3 p2) (hrun : Run step s tr t) (ho : ∀ x ∈ tr, Orderly x.1 x.2)
    (hm : t.mode = .user n regs) (call : PointerCall) : ∀ r ∈ call.accepted,
      ((∀ y < r.2, 2 ^ 30 ≤ r.1 + y) ↔ 2 ^ 30 ≤ r.1) ∧
      ((∀ y < r.2, t.kernel.Records ((r.1 + y) / 4096)) → 2 ^ 30 ≤ r.1 ∧
        ∀ y < r.2, r.1 + y < 2 ^ 47 ∧ ∃ x ∈ mmu t.kernel.mem t.kernel.cr3 ((r.1 + y) / 4096), x.user = true) := by
  rintro ⟨ptr, len⟩ haccepted
  obtain ⟨hlen, hend⟩ : len ≠ 0 ∧ ptr + len < 2 ^ 47 := by
    have hok : userSliceOk ptr len = true := (List.mem_filter.mp haccepted).2
    simp only [userSliceOk, Bool.and_eq_true, decide_eq_true_eq] at hok
    exact ⟨hok.1.2, hok.2⟩
  have hlow : (∀ y < len, 2 ^ 30 ≤ ptr + y) ↔ 2 ^ 30 ≤ ptr :=
    ⟨fun h => h 0 (Nat.pos_of_ne_zero hlen), fun h y _ => h.trans (Nat.le_add_right ..)⟩
  refine ⟨hlow, fun hpages => ?_⟩
  have hsound := hb.sound_of_run hrun ho
  obtain ⟨kind, hmem⟩ := hsound.kernel.memory
  obtain ⟨a, ha, hcr3⟩ := hsound.placed.ring3 n regs hm
  have hmapped : ∀ y < len, UserMapped t.kernel.mem a.p4 ((ptr + y) / 4096) := fun y hy => by
    obtain ⟨a', ha', hrec⟩ := hpages y hy
    obtain rfl : a = a' := Option.some.inj (ha.symm.trans ha')
    obtain ⟨f, hf⟩ := Option.isSome_iff_exists.mp hrec
    exact hmem.pages _ a _ f ha hf
  refine ⟨hlow.mp fun y hy => ?_, fun y hy => ⟨by omega, hcr3 ▸ (hmapped y hy).mmu⟩⟩
  -- the tables of the first GiB map huge pages
  have hge : IDENTITY_FRAMES ≤ (ptr + y) / 4096 := hmem.sealed.page_ge (hmem.low _ a ha) (hmapped y hy).mapped
  unfold IDENTITY_FRAMES at hge
  omega

/-- A program prints a byte of its stack. -/
theorem accepted_user_stack : ∃ tr t n regs, Run step bootMachine tr t ∧ (∀ x ∈ tr, Orderly x.1 x.2) ∧
    t.mode = .user n regs ∧ (Fs.USER_STACK_TOP - 8, 1) ∈ (PointerCall.write 1 (Fs.USER_STACK_TOP - 8) 1).accepted ∧
    ∃ x ∈ mmu t.kernel.mem t.kernel.cr3 ((Fs.USER_STACK_TOP - 8) / 4096), x.user = true := by
  have hmem : (Fs.USER_STACK_TOP - 8, 1) ∈ (PointerCall.write 1 (Fs.USER_STACK_TOP - 8) 1).accepted := by decide
  have hfinal : (exec step Orderly bootMachine [.spawn (some Fs.tinyImage) none, .runAll]).any fun t =>
      t.mode.isUser = true ∧ t.kernel.Records ((Fs.USER_STACK_TOP - 8) / 4096) := by
    decide +kernel
  obtain ⟨tr, t, hrun, ho, hm, hrec⟩ := exists_run_of_any hfinal
  obtain ⟨n, regs, hm⟩ := Task.Mode.eq_user hm
  have hpages : ∀ y < 1, t.kernel.Records ((Fs.USER_STACK_TOP - 8 + y) / 4096) := fun y hy => by
    rw [Nat.lt_one_iff.mp hy]
    exact hrec
  exact ⟨tr, t, n, regs, hrun, ho, hm, hmem,
    (((accepted_user_of_run booted_bootMachine hrun ho hm _ _ hmem).2 hpages).2 0 Nat.one_pos).2⟩

/-- **`sys_read` accepts memory of the kernel**: a program passes the address `0x100000`, and what it reads is stored where
ring 3 could not have stored it. -/
theorem accepts_kernel_memory : ∃ tr t, Run step bootMachine tr t ∧ (∃ n regs, t.mode = .user n regs) ∧
    (0x100000, 1) ∈ (PointerCall.read 0 0x100000 1).accepted ∧
    ∃ x ∈ mmu t.kernel.mem t.kernel.cr3 0x100, x.user = false := by
  have hmem : (0x100000, 1) ∈ (PointerCall.read 0 0x100000 1).accepted := by decide
  have hfinal : (exec step (fun _ _ => True) bootMachine [.spawn (some Fs.tinyImage) none, .runAll]).any fun t : Machine =>
      t.mode.isUser = true ∧ ∃ x ∈ mmu t.kernel.mem t.kernel.cr3 0x100, x.user = false := by
    decide +kernel
  obtain ⟨tr, t, hrun, -, hm, hx⟩ := exists_run_of_any hfinal
  exact ⟨tr, t, hrun, Task.Mode.eq_user hm, hmem, hx⟩

end RustKernel
