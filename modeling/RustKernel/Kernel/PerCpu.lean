import Mathlib.Algebra.Order.Ring.Nat
import RustKernel.Kernel.Machine

/-!
# The per-CPU area

In the kernel `GS_BASE` is to be the address of `PER_CPU`, where the stub of a system call saves the stack pointer of the
program and finds its own. `swapgs` exchanges `GS_BASE` with `KERNEL_GS_BASE`. It is executed in `syscall_entry`, before
`sysret` and in `enter_userspace`; not in the stub of the timer, not in the handlers of exceptions (`idt.rs`), and not in
`kernel_return`.
-/

namespace RustKernel.PerCpu

open Lib RustKernel.Task

structure Cpu where
  machine : Machine
  gsBase : BitVec 64
  kernelGsBase : BitVec 64
  rsp0 : BitVec 64
  word : BitVec 64 → BitVec 64

namespace Cpu

def swapgs (c : Cpu) : Cpu := { c with gsBase := c.kernelGsBase, kernelGsBase := c.gsBase }

def loadGs (off : BitVec 64) (c : Cpu) : BitVec 64 := c.word (c.gsBase + off)

def storeGs (off rsp : BitVec 64) (c : Cpu) : Cpu := { c with word := Function.update c.word (c.gsBase + off) rsp }

def syscallEntry (rsp : BitVec 64) (c : Cpu) : Cpu × BitVec 64 :=
  let c := c.swapgs
  let c := c.storeGs 0 rsp
  (c, c.loadGs 8)

def syscallExit (rsp : BitVec 64) (c : Cpu) : Cpu × BitVec 64 :=
  let c := c.storeGs 8 rsp
  (c.swapgs, c.loadGs 0)

def setKernelStack (perCpu rsp : BitVec 64) (c : Cpu) : Cpu :=
  { c with word := Function.update c.word (perCpu + 8) rsp, rsp0 := rsp }

end Cpu

inductive Event
  | machine (e : RustKernel.Event) (kstack : BitVec 64)
  | setGs (base : BitVec 64)

def bySyscall : RustKernel.Event → Bool
  | .syscall _ => true
  | .exit _ => true
  | _ => false

def leaveSyscall (perCpu kstack rsp : BitVec 64) (c : Cpu) : Cpu :=
  match c.machine.mode with
  | .user .sysret _ => (c.syscallExit rsp).1
  | .user .enterUserspace _ => (c.setKernelStack perCpu kstack).swapgs
  | _ => c

def leave (perCpu kstack : BitVec 64) (switched : Bool) (c : Cpu) : Cpu :=
  match c.machine.mode with
  | .user .enterUserspace _ => (c.setKernelStack perCpu kstack).swapgs
  | .user .timer _ => if switched then c.setKernelStack perCpu kstack else c
  | _ => c

def step (perCpu : BitVec 64) (c : Cpu) : Event → Option Cpu
  | .setGs base => if c.machine.mode matches .user _ _ then some { c with gsBase := base } else none
  | .machine e kstack => (RustKernel.step c.machine e).bind fun m =>
    match c.machine.mode, bySyscall e with
    | .user _ regs, true =>
      let (entered, rsp) := c.syscallEntry (.ofNat 64 regs.rsp)
      if entered.gsBase = perCpu then some (leaveSyscall perCpu kstack rsp { entered with machine := m }) else none
    | _, _ => some (leave perCpu kstack (m.kernel.table.current ≠ c.machine.kernel.table.current) { c with machine := m })

structure Booted (perCpu : BitVec 64) (c : Cpu) (p4 p3 p2 : ℕ) : Prop where
  machine : RustKernel.Booted c.machine p4 p3 p2
  gsBase : c.gsBase = perCpu
  kernelGsBase : c.kernelGsBase = perCpu

def KilledWithPerCpu (perCpu : BitVec 64) (c : Cpu) : Event → Prop
  | .setGs _ => True
  | .machine e _ => bySyscall e = false → (c.machine.mode matches .user _ _) = true →
    ∀ m ∈ RustKernel.step c.machine e, exitCode c.machine e m ≠ none → c.gsBase = perCpu

instance (perCpu : BitVec 64) (c : Cpu) (e : Event) : Decidable (KilledWithPerCpu perCpu c e) := by
  unfold KilledWithPerCpu
  split <;> infer_instance

/-! ### Where the bases are -/

section

variable {perCpu kstack rsp : BitVec 64} {c c' : Cpu}
variable {n : Entry} {regs : TrapFrame} {e : RustKernel.Event} {s s' : Machine}

structure InUser (perCpu : BitVec 64) (c : Cpu) : Prop where
  kernelGsBase : c.kernelGsBase = perCpu
  kernelRsp : c.word (perCpu + 8) = c.rsp0

def Kept (perCpu : BitVec 64) (c : Cpu) : Prop :=
  match c.machine.mode with
  | .user _ _ => InUser perCpu c
  | .shell => c.gsBase = perCpu
  | .halted => True

theorem Kept.inUser (h : Kept perCpu c) (hm : c.machine.mode = .user n regs) : InUser perCpu c := by
  unfold Kept at h
  rwa [hm] at h

theorem Kept.shell (h : Kept perCpu c) (hm : c.machine.mode = .shell) : c.gsBase = perCpu := by
  unfold Kept at h
  rwa [hm] at h

theorem field_ne (perCpu : BitVec 64) : perCpu + 8 ≠ perCpu := by bv_omega

theorem enterUserspace_inUser (h : c.gsBase = perCpu) : InUser perCpu (c.setKernelStack perCpu kstack).swapgs where
  kernelGsBase := h
  kernelRsp := Function.update_self ..

theorem syscallEntry_of_inUser (rsp : BitVec 64) (h : InUser perCpu c) : (c.syscallEntry rsp).1.gsBase = perCpu ∧
    (c.syscallEntry rsp).1.word perCpu = rsp ∧ (c.syscallEntry rsp).1.word (perCpu + 8) = c.rsp0 ∧
    (c.syscallEntry rsp).2 = c.rsp0 := by
  obtain ⟨rfl, hrsp⟩ := h
  have hstore : (c.syscallEntry rsp).1.word = Function.update c.word c.kernelGsBase rsp := by
    have hzero : c.kernelGsBase + 0 = c.kernelGsBase := BitVec.add_zero _
    simp only [Cpu.syscallEntry, Cpu.storeGs, Cpu.swapgs, hzero]
  have hfield : (c.syscallEntry rsp).1.word (c.kernelGsBase + 8) = c.rsp0 := by
    rw [hstore, Function.update_of_ne (field_ne _), hrsp]
  refine ⟨rfl, ?_, hfield, hfield⟩
  rw [hstore, Function.update_self]

theorem syscallExit_inUser (hgs : c.gsBase = perCpu) (hrsp : rsp = c.rsp0) : InUser perCpu (c.syscallExit rsp).1 := by
  subst hgs hrsp
  exact ⟨rfl, Function.update_self ..⟩

theorem mode_of_bySyscall (hm : s.mode = .user n regs)
    (he : bySyscall e = true) (h : RustKernel.step s e = some s') : (∃ regs', s'.mode = .user .sysret regs') ∨
      (∃ regs', s'.mode = .user .enterUserspace regs') ∨ s'.mode = .shell ∨ s'.mode = .halted := by
  cases e with
  | syscall call =>
    obtain ⟨ret, -, hmode⟩ := syscall_step hm h
    exact .inl ⟨_, hmode⟩
  | exit code =>
    obtain ⟨x, hx, hok⟩ := step_eq_some h
    rw [hm] at hx
    cases hx
    obtain ⟨p, -, hsched, -⟩ := (exitCurrent_post (E := fun _ _ => False) code s.kernel).ok hok
    generalize s'.mode = mode, s'.kernel.table = table at hsched
    cases hsched with
    | idle _ hidle => exact .inr (.inr hidle)
    | enter _ _ => exact .inr (.inl ⟨_, rfl⟩)
  | _ => cases he

theorem killed_of_mode (hm : s.mode = .user n regs) (he : bySyscall e = false) (h : RustKernel.step s e = some s')
    (hmode : (∃ regs', s'.mode = .user .enterUserspace regs') ∨ s'.mode = .shell) : exitCode s e s' ≠ none := by
  have hcalm : ¬ Calm s.mode s'.mode := by
    intro hcalm
    rw [hm] at hcalm
    rcases hmode with ⟨regs', hmode⟩ | hmode <;> rw [hmode] at hcalm <;> cases hcalm
  cases step_effect h with
  | quiet _ hc _ => exact absurd hc hcalm
  | spawned _ hc _ => exact absurd hc hcalm
  | signalled _ _ _ hc _ => exact absurd hc hcalm
  | identified _ _ _ _ hc _ => exact absurd hc hcalm
  | forked _ _ _ => cases he
  | reaped _ _ _ _ _ _ _ => cases he
  | slept _ _ _ _ _ _ => cases he
  | exited _ _ _ _ hcode _ => simp [hcode]
  | signalDeath _ hcur hp hsig _ _ => simp [exitCode, hcur, hp, hsig]
  | rescheduled _ _ _ hmode' _ => rcases hmode with ⟨regs', hmode⟩ | hmode <;> rw [hmode'] at hmode <;> cases hmode
  | ignored _ _ hmode' _ _ => rcases hmode with ⟨regs', hmode⟩ | hmode <;> rw [hmode'] at hmode <;> cases hmode
  | started hshell _ _ => rw [hm] at hshell; cases hshell

theorem leaveSyscall_kept (hgs : c.gsBase = perCpu) (hrsp : rsp = c.rsp0)
    (hmode : (∃ regs', c.machine.mode = .user .sysret regs') ∨ (∃ regs', c.machine.mode = .user .enterUserspace regs') ∨
      c.machine.mode = .shell ∨ c.machine.mode = .halted) : Kept perCpu (leaveSyscall perCpu kstack rsp c) := by
  have hmachine : (leaveSyscall perCpu kstack rsp c).machine = c.machine := by
    unfold leaveSyscall
    split <;> rfl
  unfold Kept
  rw [hmachine]
  unfold leaveSyscall
  rcases hmode with ⟨regs', hm⟩ | ⟨regs', hm⟩ | hm | hm <;> rw [hm]
  · exact syscallExit_inUser hgs hrsp
  · exact enterUserspace_inUser hgs
  · exact hgs
  · trivial

theorem leave_kept {switched : Bool} (huser : ∀ n regs, n ≠ .enterUserspace → c.machine.mode = .user n regs → InUser perCpu c)
    (hgs : (∃ regs, c.machine.mode = .user .enterUserspace regs) ∨ c.machine.mode = .shell → c.gsBase = perCpu) :
    Kept perCpu (leave perCpu kstack switched c) := by
  have hmachine : (leave perCpu kstack switched c).machine = c.machine := by
    unfold leave
    split
    · rfl
    · cases switched <;> rfl
    · rfl
  unfold Kept
  rw [hmachine]
  unfold leave
  cases hm : c.machine.mode with
  | halted => trivial
  | shell => exact hgs (.inr hm)
  | user n regs =>
    cases n with
    | enterUserspace => exact enterUserspace_inUser (hgs (.inl ⟨regs, hm⟩))
    | timer =>
      have h := huser .timer regs (by decide) hm
      cases switched with
      | false => exact h
      | true => exact ⟨h.kernelGsBase, Function.update_self ..⟩
    | sysret => exact huser .sysret regs (by decide) hm
    | running => exact huser .running regs (by decide) hm

theorem entry_of_shell (hm : s.mode = .shell)
    (h : RustKernel.step s e = some s') (hm' : s'.mode = .user n regs) : n = .enterUserspace := by
  have hcalm : ¬ Calm s.mode s'.mode := by
    intro hcalm
    rw [hm, hm'] at hcalm
    cases hcalm
  have huser : ∀ {n : Entry} {regs : TrapFrame}, s.mode ≠ .user n regs := by simp [hm]
  cases step_effect h with
  | quiet _ hc _ => exact absurd hc hcalm
  | spawned _ hc _ => exact absurd hc hcalm
  | signalled _ _ _ hc _ => exact absurd hc hcalm
  | identified _ _ _ _ hc _ => exact absurd hc hcalm
  | forked hu _ _ => exact absurd hu huser
  | reaped hu _ _ _ _ _ _ => exact absurd hu huser
  | slept hu _ _ _ _ _ => exact absurd hu huser
  | exited hu _ _ _ _ _ => exact absurd hu huser
  | rescheduled hu _ _ _ _ => exact absurd hu huser
  | ignored hu _ _ _ _ => exact absurd hu huser
  | signalDeath _ _ _ _ hsched _ => exact (hm' ▸ hsched).entry
  | started _ hsched _ => exact (hm' ▸ hsched).entry

theorem Kept.step {e : Event} (h : Kept perCpu c) (hok : KilledWithPerCpu perCpu c e) (hs : step perCpu c e = some c') :
    Kept perCpu c' := by
  cases e with
  | setGs base =>
    dsimp only [PerCpu.step] at hs
    split_ifs at hs with huser
    cases hs
    cases hm : c.machine.mode with
    | user n regs =>
      have hin := h.inUser hm
      unfold Kept
      rw [hm]
      exact ⟨hin.kernelGsBase, hin.kernelRsp⟩
    | shell => rw [hm] at huser; cases huser
    | halted => rw [hm] at huser; cases huser
  | machine e kstack =>
    obtain ⟨m, hstep, hs⟩ := Option.bind_eq_some_iff.mp hs
    cases hm : c.machine.mode with
    | halted =>
      obtain ⟨x, hx, -⟩ := step_eq_some hstep
      rw [hm] at hx
      cases e <;> cases hx
    | shell =>
      rw [hm] at hs
      cases hs
      refine leave_kept (fun n regs hn hm' => absurd (entry_of_shell hm hstep hm') hn) fun _ => h.shell hm
    | user n regs =>
      have hin := h.inUser hm
      rw [hm] at hs
      cases he : bySyscall e with
      | true =>
        rw [he] at hs
        obtain ⟨hgs, -, -, hrsp⟩ := syscallEntry_of_inUser (.ofNat 64 regs.rsp) hin
        dsimp only at hs
        cases (if_pos hgs).symm.trans hs
        exact leaveSyscall_kept hgs hrsp (mode_of_bySyscall hm he hstep)
      | false =>
        rw [he] at hs
        cases hs
        refine leave_kept (fun _ _ _ _ => ⟨hin.kernelGsBase, hin.kernelRsp⟩) fun hmode => ?_
        exact hok he (by rw [hm]) m hstep (killed_of_mode hm he hstep hmode)

end

/-- **The stub finds the per-CPU area.** After every run in which no program is killed by a fault or by the timer while it
has a base of its own, the `swapgs` of a system call brings the address of `PER_CPU` to `GS_BASE`; the stack pointer of the
program is saved there, and the kernel stack that is loaded is the one set for the current process. -/
theorem stub_finds_perCpu {perCpu : BitVec 64} {c₀ c : Cpu} {p4 p3 p2 : ℕ} {tr : List (Cpu × Event)} {n : Entry}
    {regs : TrapFrame} (h0 : Booted perCpu c₀ p4 p3 p2) (hrun : Run (step perCpu) c₀ tr c)
    (hok : ∀ x ∈ tr, KilledWithPerCpu perCpu x.1 x.2) (hm : c.machine.mode = .user n regs) :
    c.swapgs.gsBase = perCpu ∧ (c.syscallEntry (.ofNat 64 regs.rsp)).1.word perCpu = .ofNat 64 regs.rsp ∧
      (c.syscallEntry (.ofNat 64 regs.rsp)).2 = c.word (perCpu + 8) ∧ c.word (perCpu + 8) = c.rsp0 := by
  have hstart : Kept perCpu c₀ := by
    unfold Kept
    rw [h0.machine.mode]
    exact h0.gsBase
  have hkept : Kept perCpu c := hrun.invariant hstart hok fun _ _ _ h hK hs => h.step hK hs
  have hin := hkept.inUser hm
  obtain ⟨-, hsaved, -, hloaded⟩ := syscallEntry_of_inUser (.ofNat 64 regs.rsp) hin
  exact ⟨hin.kernelGsBase, hsaved, hloaded.trans hin.kernelRsp.symm, hin.kernelRsp⟩

def bootCpu : Cpu :=
  { machine := bootMachine, gsBase := 0x200000, kernelGsBase := 0x200000, rsp0 := 0x210000, word := fun _ => 0 }

theorem booted_bootCpu : Booted 0x200000 bootCpu 272 273 274 := ⟨booted_bootMachine, rfl, rfl⟩

def exitWithBase : List Event :=
  [.machine (.spawn (some Fs.tinyImage) none) 0, .machine .runAll 0x300000, .setGs 0, .machine (.syscall .getpid) 0,
    .machine (.exit 0) 0, .machine (.spawn (some Fs.tinyImage) none) 0, .machine .runAll 0x308000]

theorem stub_finds_perCpu_exitWithBase : ∃ tr c n regs, Run (step 0x200000) bootCpu tr c ∧
    (∀ x ∈ tr, KilledWithPerCpu 0x200000 x.1 x.2) ∧ c.machine.mode = .user n regs ∧ c.gsBase = 0 ∧
    c.swapgs.gsBase = 0x200000 := by
  have hfinal : (exec (step 0x200000) (KilledWithPerCpu 0x200000) bootCpu exitWithBase).any fun c =>
      (c.machine.mode matches .user _ _) = true ∧ c.gsBase = 0 := by
    decide +kernel
  obtain ⟨tr, c, hrun, hok, hmode, hbase⟩ := exists_run_of_any hfinal
  obtain ⟨n, regs, hm⟩ := Task.Mode.eq_user hmode
  exact ⟨tr, c, n, regs, hrun, hok, hm, hbase, (stub_finds_perCpu booted_bootCpu hrun hok hm).1⟩

def faultWithBase : List Event :=
  [.machine (.spawn (some Fs.tinyImage) none) 0, .machine .runAll 0x300000, .setGs 0, .machine .fault 0,
    .machine (.spawn (some Fs.tinyImage) none) 0, .machine .runAll 0x308000]

/-- **The stub misses the per-CPU area**: a fault is handled without `swapgs`, and `enter_userspace` then puts the base of
the dead program where the next one's system calls look for the kernel's. -/
theorem stub_misses_perCpu : ∃ tr c n regs, Run (step 0x200000) bootCpu tr c ∧ c.machine.mode = .user n regs ∧
    c.swapgs.gsBase = 0 := by
  have hfinal : (exec (step 0x200000) (fun _ _ => True) bootCpu faultWithBase).any fun c =>
      (c.machine.mode matches .user _ _) = true ∧ c.swapgs.gsBase = 0 := by
    decide +kernel
  obtain ⟨tr, c, hrun, -, hmode, hbase⟩ := exists_run_of_any hfinal
  obtain ⟨n, regs, hm⟩ := Task.Mode.eq_user hmode
  exact ⟨tr, c, n, regs, hrun, hm, hbase⟩

end RustKernel.PerCpu
