import Mathlib.Algebra.Order.BigOperators.Group.List
import Mathlib.Algebra.Order.Group.Nat
import RustKernel.Ipc.Mailbox
import RustKernel.Task.Exits

/-!
# Messages between processes

The machine together with the mailboxes: processes send and receive messages between the other events, and `cleanup_pid`
takes away the mailbox of a process that exits.
-/

namespace RustKernel

open Lib RustKernel.Task Ipc
open Mailboxes (queue_erase queue_insert)
open Std.ExtTreeMap (mem_insert mem_iff_isSome_getElem? mem_keys)

variable {m : Machine}

structure MailMachine where
  machine : Machine
  mailboxes : Mailboxes

inductive MailEvent
  | event (e : Event)
  | ipcSend (targetPid msgPtr : ℕ) (src : List Byte)
  | ipcRecv (bufPtr max outSenderPtr : ℕ)

namespace MailMachine

def caller (s : MailMachine) : ℕ := s.machine.kernel.table.current

def send (s : MailMachine) (targetPid msgPtr : ℕ) (src : List Byte) : Option (ℕ × Mailboxes) :=
  (sysIpcSend (ε := Empty) s.caller targetPid msgPtr src s.mailboxes).next Prod.mk (fun e _ => nomatch e)

def recv (s : MailMachine) (bufPtr max outSenderPtr : ℕ) : Option (Received × Mailboxes) :=
  (sysIpcRecv (ε := Empty) s.caller bufPtr max outSenderPtr s.mailboxes).next Prod.mk (fun e _ => nomatch e)

def step (s : MailMachine) : MailEvent → Option MailMachine
  | .event e => (RustKernel.step s.machine e).map fun m =>
    -- `exit_current` calls `cleanup_pid`
    { machine := m, mailboxes := if (exitCode s.machine e m).isSome then s.mailboxes.erase s.caller else s.mailboxes }
  | .ipcSend targetPid msgPtr src => (s.send targetPid msgPtr src).bind fun (ret, boxes) =>
    (RustKernel.step s.machine (.syscall (.other ret))).map ({ machine := ·, mailboxes := boxes })
  | .ipcRecv bufPtr max outSenderPtr => (s.recv bufPtr max outSenderPtr).bind fun (r, boxes) =>
    (RustKernel.step s.machine (.syscall (.other r.ret))).map ({ machine := ·, mailboxes := boxes })

def Exits (s : MailMachine) (pid : ℕ) : MailEvent → Prop
  | .event e => s.caller = pid ∧ ∃ m ∈ RustKernel.step s.machine e, (exitCode s.machine e m).isSome
  | _ => False

instance (s : MailMachine) (pid : ℕ) (e : MailEvent) : Decidable (s.Exits pid e) := by
  unfold MailMachine.Exits
  split <;> infer_instance

end MailMachine

variable {s s' : MailMachine} {e : MailEvent} {m' : Machine} {ret pid : ℕ}

inductive MailEffect (s : MailMachine) : MailEvent → MailMachine → Prop
  | other {e : Event} {m : Machine} : RustKernel.step s.machine e = some m → (exitCode s.machine e m).isSome = false →
      MailEffect s (.event e) ⟨m, s.mailboxes⟩
  | exited {e : Event} {m : Machine} : RustKernel.step s.machine e = some m → (exitCode s.machine e m).isSome = true →
      MailEffect s (.event e) ⟨m, s.mailboxes.erase s.caller⟩
  | accepted {targetPid msgPtr : ℕ} {src : List Byte} {m : Machine} {boxes : Mailboxes} :
      s.send targetPid msgPtr src = some (0, boxes) → Accepts (targetPid % 2 ^ 32) ⟨s.caller, src⟩ s.mailboxes boxes →
      RustKernel.step s.machine (.syscall (.other 0)) = some m → MailEffect s (.ipcSend targetPid msgPtr src) ⟨m, boxes⟩
  | refused {targetPid msgPtr : ℕ} {src : List Byte} {m : Machine} :
      s.send targetPid msgPtr src = some (U64_MAX, s.mailboxes) →
      RustKernel.step s.machine (.syscall (.other U64_MAX)) = some m →
      MailEffect s (.ipcSend targetPid msgPtr src) ⟨m, s.mailboxes⟩
  | noBuffer {bufPtr outSenderPtr : ℕ} {r : Received} {m : Machine} : r.ret = U64_MAX →
      s.recv bufPtr 0 outSenderPtr = some (r, s.mailboxes) →
      RustKernel.step s.machine (.syscall (.other r.ret)) = some m →
      MailEffect s (.ipcRecv bufPtr 0 outSenderPtr) ⟨m, s.mailboxes⟩
  | taken {bufPtr max outSenderPtr : ℕ} {msg : IpcFrame} {rest : List IpcFrame} {m : Machine} : max ≠ 0 →
      s.mailboxes.queue s.caller = msg :: rest →
      s.recv bufPtr max outSenderPtr = some (copyOut msg bufPtr max outSenderPtr, s.mailboxes.insert s.caller rest) →
      RustKernel.step s.machine (.syscall (.other (copyOut msg bufPtr max outSenderPtr).ret)) = some m →
      MailEffect s (.ipcRecv bufPtr max outSenderPtr) ⟨m, s.mailboxes.insert s.caller rest⟩

theorem mail_effect (h : s.step e = some s') : MailEffect s e s' := by
  cases e with
  | event e =>
    obtain ⟨m, hm, rfl⟩ := Option.map_eq_some_iff.mp h
    cases hexit : (exitCode s.machine e m).isSome with
    | true => exact .exited hm hexit
    | false => exact .other hm hexit
  | ipcSend targetPid msgPtr src =>
    obtain ⟨⟨ret, boxes⟩, hsend, h⟩ := Option.bind_eq_some_iff.mp h
    obtain ⟨m, hm, rfl⟩ := Option.map_eq_some_iff.mp h
    rcases (sysIpcSend_post (E := fun _ _ => True) s.caller targetPid msgPtr src s.mailboxes).next hsend with
      ⟨ret', boxes', -, hpost, heq⟩ | ⟨e, _⟩
    · obtain ⟨rfl, rfl⟩ := Prod.mk.inj heq
      rcases hpost with ⟨rfl, hacc⟩ | ⟨rfl, rfl⟩
      · exact .accepted hsend hacc hm
      · exact .refused hsend hm
    · exact e.elim
  | ipcRecv bufPtr max outSenderPtr =>
    obtain ⟨⟨r, boxes⟩, hrecv, h⟩ := Option.bind_eq_some_iff.mp h
    obtain ⟨m, hm, rfl⟩ := Option.map_eq_some_iff.mp h
    rcases (sysIpcRecv_post (E := fun _ _ => True) s.caller bufPtr max outSenderPtr s.mailboxes).next hrecv with
      ⟨r', boxes', -, hpost, heq⟩ | ⟨e, _⟩
    · obtain ⟨rfl, rfl⟩ := Prod.mk.inj heq
      rcases hpost with ⟨rfl, hret, rfl⟩ | ⟨hmax, msg, rest, hq, rfl, rfl⟩
      · exact .noBuffer hret hrecv hm
      · exact .taken hmax hq hrecv hm
    · exact e.elim

/-! ### Conservation -/

def acceptance (p : ℕ) (s : MailMachine) : MailEvent → Option IpcFrame
  | .ipcSend targetPid msgPtr src =>
    if targetPid % 2 ^ 32 = p ∧ (s.send targetPid msgPtr src).map Prod.fst = some 0 then some ⟨s.caller, src⟩ else none
  | _ => none

structure Receipt where
  bufPtr : ℕ
  max : ℕ
  outSenderPtr : ℕ
  received : Received

def receipt (p : ℕ) (s : MailMachine) : MailEvent → Option Receipt
  | .ipcRecv bufPtr max outSenderPtr =>
    if s.caller = p then (s.recv bufPtr max outSenderPtr).bind fun (r, _) =>
      if r.ret = U64_MAX then none else some ⟨bufPtr, max, outSenderPtr, r⟩
    else none
  | _ => none

def acceptances (p : ℕ) (tr : List (MailMachine × MailEvent)) : List IpcFrame := tr.filterMap fun x => acceptance p x.1 x.2

def receipts (p : ℕ) (tr : List (MailMachine × MailEvent)) : List Receipt := tr.filterMap fun x => receipt p x.1 x.2

def PassesPointers (p : ℕ) (s : MailMachine) : MailEvent → Prop
  | .ipcRecv bufPtr max outSenderPtr => s.caller = p → max ≠ 0 → ∀ msg ∈ (s.mailboxes.queue p).head?,
    Deliverable msg bufPtr max outSenderPtr
  | _ => True

instance (p : ℕ) (s : MailMachine) (e : MailEvent) : Decidable (PassesPointers p s e) := by
  unfold PassesPointers
  split <;> infer_instance

def FailsUnchanged (p : ℕ) (s : MailMachine) : MailEvent → Prop
  | .ipcRecv bufPtr max outSenderPtr => s.caller = p → ∀ r boxes, s.recv bufPtr max outSenderPtr = some (r, boxes) →
    r.ret = U64_MAX → boxes = s.mailboxes
  | _ => True

structure Conserved (p : ℕ) (tr : List (MailMachine × MailEvent)) (s : MailMachine) : Prop where
  sizes : ∀ msg ∈ s.mailboxes.queue p, msg.bytes.length ≤ MAX_MSG
  conserved : ∃ taken, acceptances p tr = taken ++ s.mailboxes.queue p ∧
    List.Forall₂ (fun msg r => Delivers msg r.bufPtr r.max r.outSenderPtr r.received) taken (receipts p tr)
  unchanged : ∀ x ∈ tr, FailsUnchanged p x.1 x.2

section

variable {p : ℕ} {tr : List (MailMachine × MailEvent)}
variable {msg : IpcFrame}

theorem acceptances_append : acceptances p (tr ++ [(s, e)]) = acceptances p tr ++ (acceptance p s e).toList := by
  simp only [acceptances, List.filterMap_append, List.filterMap_cons]
  cases acceptance p s e <;> rfl

theorem receipts_append : receipts p (tr ++ [(s, e)]) = receipts p tr ++ (receipt p s e).toList := by
  simp only [receipts, List.filterMap_append, List.filterMap_cons]
  cases receipt p s e <;> rfl

theorem Ipc.Delivers.ret_ne {bufPtr max outSenderPtr : ℕ} {r : Received}
    (h : Delivers msg bufPtr max outSenderPtr r) (hsize : msg.bytes.length ≤ MAX_MSG) : r.ret ≠ U64_MAX := by
  have hle : r.ret ≤ MAX_MSG := by
    rw [h.ret]
    exact (Nat.min_le_left ..).trans hsize
  have hlt : MAX_MSG < U64_MAX := by decide
  omega

theorem unchanged_append (h : ∀ x ∈ tr, FailsUnchanged p x.1 x.2) (he : FailsUnchanged p s e) :
    ∀ x ∈ tr ++ [(s, e)], FailsUnchanged p x.1 x.2 := by
  intro x hx
  rcases List.mem_append.mp hx with hx | hx
  · exact h x hx
  · rw [List.mem_singleton.mp hx]
    exact he

section

variable (h : Conserved p tr s)
include h

theorem Conserved.idle (hq : s'.mailboxes.queue p = s.mailboxes.queue p) (ha : acceptance p s e = none)
    (hr : receipt p s e = none) (hu : FailsUnchanged p s e) : Conserved p (tr ++ [(s, e)]) s' := by
  refine ⟨by rw [hq]; exact h.sizes, ?_, unchanged_append h.unchanged hu⟩
  rw [acceptances_append, receipts_append, ha, hr, hq]
  simpa using h.conserved

theorem Conserved.accept (hsize : msg.bytes.length ≤ MAX_MSG)
    (hq : s'.mailboxes.queue p = s.mailboxes.queue p ++ [msg]) (ha : acceptance p s e = some msg) (hr : receipt p s e = none)
    (hu : FailsUnchanged p s e) : Conserved p (tr ++ [(s, e)]) s' := by
  obtain ⟨taken, htaken, hdel⟩ := h.conserved
  refine ⟨?_, ⟨taken, ?_, ?_⟩, unchanged_append h.unchanged hu⟩
  · intro m hm
    rw [hq] at hm
    rcases List.mem_append.mp hm with hm | hm
    · exact h.sizes m hm
    · rwa [List.mem_singleton.mp hm]
  · rw [acceptances_append, ha, htaken, hq, List.append_assoc]
    rfl
  · rw [receipts_append, hr]
    simpa using hdel

theorem Conserved.receive {r : Receipt} (hq : s.mailboxes.queue p = msg :: s'.mailboxes.queue p)
    (ha : acceptance p s e = none) (hr : receipt p s e = some r) (hd : Delivers msg r.bufPtr r.max r.outSenderPtr r.received)
    (hu : FailsUnchanged p s e) : Conserved p (tr ++ [(s, e)]) s' := by
  obtain ⟨taken, htaken, hdel⟩ := h.conserved
  refine ⟨?_, ⟨taken ++ [msg], ?_, ?_⟩, unchanged_append h.unchanged hu⟩
  · intro m hm
    exact h.sizes m (by rw [hq]; exact List.mem_cons_of_mem _ hm)
  · rw [acceptances_append, ha, htaken, hq]
    simp
  · rw [receipts_append, hr]
    exact List.rel_append hdel (.cons hd .nil)

theorem Conserved.step (hexit : ¬ s.Exits p e) (hok : PassesPointers p s e) (hs : s.step e = some s') :
    Conserved p (tr ++ [(s, e)]) s' := by
  cases mail_effect hs with
  | other _ _ => exact h.idle rfl rfl rfl trivial
  | exited hm hcode =>
    refine h.idle ?_ rfl rfl trivial
    rw [queue_erase, if_neg]
    rintro rfl
    exact hexit ⟨rfl, _, hm, hcode⟩
  | @accepted targetPid msgPtr src m boxes hsend hacc _ =>
    have hqueue := queue_insert s.mailboxes (targetPid % 2 ^ 32)
      (s.mailboxes.queue (targetPid % 2 ^ 32) ++ [⟨s.caller, src⟩]) p
    rw [← hacc.boxes_eq] at hqueue
    by_cases ht : p = targetPid % 2 ^ 32
    · rw [if_pos ht, ← ht] at hqueue
      refine h.accept hacc.size.2 hqueue ?_ rfl trivial
      simp [acceptance, hsend, ht]
    · rw [if_neg ht] at hqueue
      refine h.idle hqueue ?_ rfl trivial
      exact if_neg fun hp => ht hp.1.symm
  | refused hsend _ =>
    refine h.idle rfl (if_neg fun hp => ?_) rfl trivial
    rw [hsend] at hp
    exact absurd (show U64_MAX = 0 from Option.some.inj hp.2) (by decide)
  | noBuffer hret hrecv _ =>
    refine h.idle rfl rfl ?_ fun _ r boxes hr _ => ?_
    · simp [receipt, hrecv, hret]
    · rw [hrecv] at hr
      exact (Prod.mk.inj (Option.some.inj hr)).2.symm
  | @taken bufPtr max outSenderPtr msg rest m hmax hq hrecv _ =>
    have hqueue := queue_insert s.mailboxes s.caller rest p
    by_cases hc : s.caller = p
    · rw [if_pos hc.symm] at hqueue
      rw [hc] at hq
      have hd : Delivers msg bufPtr max outSenderPtr (copyOut msg bufPtr max outSenderPtr) := by
        have hspec := copyOut_spec msg bufPtr max outSenderPtr
        rwa [if_pos (hok hc hmax msg (by rw [hq]; rfl))] at hspec
      have hne := hd.ret_ne (h.sizes msg (by rw [hq]; exact List.mem_cons_self))
      refine h.receive (r := ⟨bufPtr, max, outSenderPtr, copyOut msg bufPtr max outSenderPtr⟩) (by rw [hq, hqueue]) rfl ?_ hd
        fun _ r boxes hr hret => ?_
      · simp only [receipt, if_pos hc, hrecv, Option.bind_some, if_neg hne]
      · rw [hrecv] at hr
        obtain ⟨rfl, -⟩ := Prod.mk.inj (Option.some.inj hr)
        exact absurd hret hne
    · rw [if_neg fun hp => hc hp.symm] at hqueue
      exact h.idle hqueue rfl (if_neg hc) fun hp => absurd hp hc

end

/-- **Messages are conserved.** Until a process that starts with no mailbox exits, and as long as it passes pointers that
`user_slice_mut` accepts: what has been accepted for it is what it has received, then what is queued for it; and a `recv`
that fails takes nothing. -/
theorem messages_conserved_of_run {s₀ : MailMachine} (h0 : s₀.mailboxes[p]? = none)
    (hrun : Run MailMachine.step s₀ tr s) (hok : ∀ x ∈ tr, ¬ x.1.Exits p x.2 ∧ PassesPointers p x.1 x.2) :
    (∃ taken, acceptances p tr = taken ++ s.mailboxes.queue p ∧
      List.Forall₂ (fun msg r => Delivers msg r.bufPtr r.max r.outSenderPtr r.received) taken (receipts p tr)) ∧
    ∀ x ∈ tr, FailsUnchanged p x.1 x.2 := by
  have hnil := Mailboxes.queue_of_none h0
  have hc : Conserved p tr s := by
    refine hrun.history (I := Conserved p) (K := fun s e => ¬ s.Exits p e ∧ PassesPointers p s e) ⟨?_, ⟨[], ?_, .nil⟩, ?_⟩ hok
      fun _ _ _ _ h ⟨hexit, hpass⟩ hs => h.step hexit hpass hs
    · simp [hnil]
    · rw [hnil]
      rfl
    · simp
  exact ⟨hc.conserved, hc.unchanged⟩

end

def bootMail : MailMachine := ⟨bootMachine, ∅⟩

def sendAndReceive : List MailEvent :=
  [.event (.spawn (some Fs.tinyImage) none), .event .runAll, .ipcSend 1 0x40000 [5#8, 6#8], .ipcSend 1 0x40000 [7#8],
    .ipcRecv 0x40000 1 0]

theorem messages_conserved_sendAndReceive : ∃ tr s, Run MailMachine.step bootMail tr s ∧
    (∀ x ∈ tr, ¬ x.1.Exits 1 x.2 ∧ PassesPointers 1 x.1 x.2) ∧ s.mailboxes.queue 1 = [⟨1, [7#8]⟩] ∧
    (∃ taken, acceptances 1 tr = taken ++ s.mailboxes.queue 1 ∧
      List.Forall₂ (fun msg r => Delivers msg r.bufPtr r.max r.outSenderPtr r.received) taken (receipts 1 tr)) ∧
    ∀ x ∈ tr, FailsUnchanged 1 x.1 x.2 := by
  have hfinal : (exec MailMachine.step (fun s e => ¬ s.Exits 1 e ∧ PassesPointers 1 s e) bootMail sendAndReceive).any
      fun s => s.mailboxes.queue 1 = [⟨1, [7#8]⟩] := by
    decide +kernel
  obtain ⟨tr, s, hrun, hok, hq⟩ := exists_run_of_any hfinal
  exact ⟨tr, s, hrun, hok, hq, messages_conserved_of_run (by simp [bootMail]) hrun hok⟩

/-- **A message is lost**: a program sends a message to itself, and asks for it at address 0. The call fails, and the message
is neither queued any more nor received. -/
theorem recv_loses_message : ∃ tr s, Run MailMachine.step bootMail tr s ∧ bootMail.mailboxes[1]? = none ∧
    (∀ x ∈ tr, ¬ x.1.Exits 1 x.2) ∧ acceptances 1 tr = [⟨1, [5#8]⟩] ∧ receipts 1 tr = [] ∧ s.mailboxes.queue 1 = [] := by
  let es : List MailEvent :=
    [.event (.spawn (some Fs.tinyImage) none), .event .runAll, .ipcSend 1 0x40000 [5#8], .ipcRecv 0 16 0]
  have hfinal : (exec MailMachine.step (fun s e => ¬ s.Exits 1 e) bootMail es).any fun s => s.mailboxes.queue 1 = [] := by
    decide +kernel
  have htrace : acceptances 1 (trace MailMachine.step bootMail es) = [⟨1, [5#8]⟩] ∧
      receipts 1 (trace MailMachine.step bootMail es) = [] := by
    decide +kernel
  obtain ⟨s, hrun, hok, hq⟩ := run_of_any hfinal
  exact ⟨_, s, hrun, by simp [bootMail], hok, htrace.1, htrace.2, hq⟩

/-! ### Whose the mailboxes are -/

def Task.ProcessTable.livingPids (t : ProcessTable) : List ℕ := t.procs.keys.filter fun pid => t.Living pid

def SendsToLiving (s : MailMachine) : MailEvent → Prop
  | .ipcSend targetPid msgPtr src => (s.send targetPid msgPtr src).map Prod.fst = some 0 →
    s.machine.kernel.table.Living (targetPid % 2 ^ 32)
  | _ => True

instance (s : MailMachine) (e : MailEvent) : Decidable (SendsToLiving s e) := by
  unfold SendsToLiving
  split <;> infer_instance

def MailEvent.PidsLast (s : MailMachine) : MailEvent → Prop
  | .event e => RustKernel.PidsLast s.machine e
  | _ => True

instance (s : MailMachine) (e : MailEvent) : Decidable (e.PidsLast s) := by
  unfold MailEvent.PidsLast
  split <;> infer_instance

structure Addressed (s : MailMachine) : Prop where
  alive : Alive s.machine
  settled : (lives s.machine).Settled
  living : ∀ pid ∈ s.mailboxes, s.machine.kernel.table.Living pid
  bounded : ∀ pid, (s.mailboxes.queue pid).length ≤ MAX_QUEUED_PER_PID

theorem other_step (h : step m (.syscall (.other ret)) = some m') : m'.kernel = m.kernel := by
  obtain ⟨x, hx, hok⟩ := step_eq_some h
  cases hm : m.mode with
  | user n regs =>
    rw [hm] at hx
    cases hx
    exact (Outcome.ok.inj hok).2.symm
  | shell => rw [hm] at hx; cases hx
  | halted => rw [hm] at hx; cases hx

theorem living_of_step {e : Event} (ha : Alive m) (hset : (lives m).Settled) (hpids : PidsLast m e)
    (h : step m e = some m') (hl : m.kernel.table.Living pid)
    (hne : (exitCode m e m').isSome → pid ≠ m.kernel.table.current) : m'.kernel.table.Living pid := by
  obtain ⟨l, hproc, hnone⟩ := living_iff.mp hl
  refine living_iff.mpr (hset.alive (freshNumbers_of_step h hpids) (lives_step ha h) hproc hnone fun P code hlabel => ?_)
  obtain ⟨-, -, hcode, hcur, -⟩ := exit_of_label h hlabel
  exact hne (by rw [hcode]; rfl) hcur

theorem Addressed.answer {boxes : Mailboxes} (h : Addressed s)
    (hm : RustKernel.step s.machine (.syscall (.other ret)) = some m) (hl : ∀ pid ∈ boxes, s.machine.kernel.table.Living pid)
    (hb : ∀ pid, (boxes.queue pid).length ≤ MAX_QUEUED_PER_PID) : Addressed ⟨m, boxes⟩ := by
  have hk := other_step hm
  refine ⟨h.alive.step hm, ?_, ?_, hb⟩
  · have hlives : lives m = lives s.machine := by
      unfold lives
      rw [hk]
    rw [hlives]
    exact h.settled
  · dsimp only
    rw [hk]
    exact hl

theorem Addressed.step (h : Addressed s) (hpids : e.PidsLast s) (hto : SendsToLiving s e) (hs : s.step e = some s') :
    Addressed s' := by
  -- the machine's own events
  have hevent : ∀ {e : Event} {m : Machine} {boxes : Mailboxes}, RustKernel.step s.machine e = some m →
      RustKernel.PidsLast s.machine e →
      (∀ pid ∈ boxes, pid ∈ s.mailboxes ∧ ((exitCode s.machine e m).isSome → pid ≠ s.caller)) →
      (∀ pid, (boxes.queue pid).length ≤ MAX_QUEUED_PER_PID) → Addressed ⟨m, boxes⟩ := by
    intro e m boxes hm hp hkeys hb
    refine ⟨h.alive.step hm, h.settled.step (freshNumbers_of_step hm hp) (lives_step h.alive hm), fun pid hpid => ?_, hb⟩
    obtain ⟨hmem, hne⟩ := hkeys pid hpid
    exact living_of_step h.alive h.settled hp hm (h.living pid hmem) hne
  cases mail_effect hs with
  | other hm hcode =>
    refine hevent hm hpids (fun pid hpid => ⟨hpid, fun hsome => ?_⟩) h.bounded
    cases hcode.symm.trans hsome
  | exited hm hcode =>
    refine hevent hm hpids (fun pid hpid => ?_) fun pid => ?_
    · obtain ⟨hne, hmem⟩ := Std.ExtTreeMap.mem_erase.mp hpid
      refine ⟨hmem, fun _ heq => hne ?_⟩
      rw [heq]
      exact Std.ReflCmp.compare_self
    · rw [queue_erase]
      split_ifs
      · exact Nat.zero_le _
      · exact h.bounded pid
  | @accepted targetPid msgPtr src m boxes hsend hacc hm =>
    refine h.answer hm (fun pid hpid => ?_) fun pid => ?_
    · rw [hacc.boxes_eq, mem_insert] at hpid
      rcases hpid with heq | hmem
      · rw [← Std.LawfulEqCmp.eq_of_compare heq]
        exact hto (by rw [hsend]; rfl)
      · exact h.living pid hmem
    · rw [hacc.boxes_eq, queue_insert]
      split_ifs
      · rw [List.length_append]
        exact hacc.room
      · exact h.bounded pid
  | refused _ hm => exact h.answer hm h.living h.bounded
  | noBuffer _ _ hm => exact h.answer hm h.living h.bounded
  | @taken bufPtr max outSenderPtr msg rest m _ hq _ hm =>
    refine h.answer hm (fun pid hpid => ?_) fun pid => ?_
    · rw [mem_insert] at hpid
      rcases hpid with heq | hmem
      · rw [← Std.LawfulEqCmp.eq_of_compare heq]
        refine h.living _ (mem_iff_isSome_getElem?.mpr ?_)
        cases hbox : s.mailboxes[s.caller]? with
        | none =>
          cases (Mailboxes.queue_of_none hbox).symm.trans hq
        | some q => rfl
      · exact h.living pid hmem
    · rw [queue_insert]
      split_ifs
      · have hle := h.bounded s.caller
        rw [hq, List.length_cons] at hle
        omega
      · exact h.bounded pid

theorem Addressed.newborn (h : Addressed s) (hs : s.step e = some s') (hbefore : s.machine.kernel.table.procs[pid]? = none)
    (hafter : s'.machine.kernel.table.procs[pid]? ≠ none) : s'.mailboxes[pid]? = none := by
  have hnone : s.mailboxes[pid]? = none := by
    refine Std.ExtTreeMap.getElem?_eq_none fun hmem => ?_
    obtain ⟨p, hp, -⟩ := h.living pid hmem
    cases hbefore.symm.trans hp
  cases mail_effect hs with
  | other _ _ => exact hnone
  | exited _ _ => rw [Std.ExtTreeMap.getElem?_erase, hnone, ite_self]
  | accepted _ _ hm => exact absurd (other_step hm ▸ hbefore) hafter
  | refused _ hm => exact absurd (other_step hm ▸ hbefore) hafter
  | noBuffer _ _ hm => exact absurd (other_step hm ▸ hbefore) hafter
  | taken _ _ _ hm => exact absurd (other_step hm ▸ hbefore) hafter

def Ipc.Mailboxes.queued (boxes : Mailboxes) : ℕ := (boxes.toList.map fun x => x.2.length).sum

theorem Addressed.queued_le (h : Addressed s) :
    s.mailboxes.queued ≤ MAX_QUEUED_PER_PID * s.machine.kernel.table.livingPids.length := by
  have hsum : s.mailboxes.queued ≤ s.mailboxes.toList.length * MAX_QUEUED_PER_PID := by
    refine (List.sum_le_card_nsmul _ MAX_QUEUED_PER_PID fun n hn => ?_).trans (by simp)
    obtain ⟨⟨pid, q⟩, hmem, rfl⟩ := List.mem_map.mp hn
    have hbox : s.mailboxes[pid]? = some q := Std.ExtTreeMap.mem_toList_iff_getElem?_eq_some.mp hmem
    have hle := h.bounded pid
    unfold Mailboxes.queue at hle
    rwa [hbox] at hle
  have hkeys : s.mailboxes.keys.length ≤ s.machine.kernel.table.livingPids.length := by
    refine (List.Nodup.subperm Std.ExtTreeMap.nodup_keys fun pid hpid => ?_).length_le
    have hl := h.living pid (mem_keys.mp hpid)
    obtain ⟨p, hp, -⟩ := id hl
    refine List.mem_filter.mpr ⟨mem_keys.mpr ?_, decide_eq_true hl⟩
    exact mem_iff_isSome_getElem?.mpr (by rw [hp]; rfl)
  have hlen : s.mailboxes.toList.length = s.mailboxes.keys.length := by
    rw [Std.ExtTreeMap.length_toList, Std.ExtTreeMap.length_keys]
  rw [hlen, Nat.mul_comm] at hsum
  exact hsum.trans (Nat.mul_le_mul_left _ hkeys)

/-- **Mailboxes exist for living processes only**, in every run in which pids are not reused and messages are accepted for
living processes only. So a process that enters the table has no mailbox, and the messages queued are at most sixty-four for
each living process. -/
theorem mailboxes_living_of_run {p4 p3 p2 : ℕ} {s₀ : MailMachine} (h0 : Booted s₀.machine p4 p3 p2)
    (hboxes : s₀.mailboxes = ∅) {tr : List (MailMachine × MailEvent)} (hrun : Run MailMachine.step s₀ tr s)
    (hok : ∀ x ∈ tr, x.2.PidsLast x.1 ∧ SendsToLiving x.1 x.2) :
    (∀ pid ∈ s.mailboxes, s.machine.kernel.table.Living pid) ∧
    (∀ (e : MailEvent) (s' : MailMachine) (pid : ℕ), s.step e = some s' → s.machine.kernel.table.procs[pid]? = none →
      s'.machine.kernel.table.procs[pid]? ≠ none → s'.mailboxes[pid]? = none) ∧
    s.mailboxes.queued ≤ MAX_QUEUED_PER_PID * s.machine.kernel.table.livingPids.length := by
  have hnobody : ∀ q, (lives s₀.machine).proc q = none := by
    intro q
    rw [lives_proc_eq_none, h0.table]
    simp [ProcessTable.new]
  have h : Addressed s := by
    refine hrun.invariant (K := fun s e => e.PidsLast s ∧ SendsToLiving s e) ⟨h0.alive, ⟨?_, ?_⟩, ?_, ?_⟩ hok ?_
    · intro q l hq
      rw [hnobody] at hq
      cases hq
    · intro P l hP
      rw [hnobody] at hP
      cases hP
    · simp [hboxes]
    · simp [hboxes, Mailboxes.queue]
    · rintro a e b h ⟨hpids, hto⟩ hs
      exact h.step hpids hto hs
  exact ⟨h.living, fun _ _ _ hs hbefore hafter => h.newborn hs hbefore hafter, h.queued_le⟩

theorem mailboxes_living_sendAndReceive : ∃ tr s, Run MailMachine.step bootMail tr s ∧
    (∀ x ∈ tr, x.2.PidsLast x.1 ∧ SendsToLiving x.1 x.2) ∧ s.mailboxes.queued = 1 ∧
    (∀ pid ∈ s.mailboxes, s.machine.kernel.table.Living pid) ∧
    (∀ (e : MailEvent) (s' : MailMachine) (pid : ℕ), s.step e = some s' → s.machine.kernel.table.procs[pid]? = none →
      s'.machine.kernel.table.procs[pid]? ≠ none → s'.mailboxes[pid]? = none) ∧
    s.mailboxes.queued ≤ MAX_QUEUED_PER_PID * s.machine.kernel.table.livingPids.length := by
  have hfinal : (exec MailMachine.step (fun s e => e.PidsLast s ∧ SendsToLiving s e) bootMail sendAndReceive).any
      fun s => s.mailboxes.queued = 1 := by
    decide +kernel
  obtain ⟨tr, s, hrun, hok, hq⟩ := exists_run_of_any hfinal
  exact ⟨tr, s, hrun, hok, hq, mailboxes_living_of_run booted_bootMachine rfl hrun hok⟩

/-- **A mailbox of nobody**: the only process sends a message to pid 77, and the message is queued for a process that does
not exist. -/
theorem mailbox_of_nobody : ∃ tr s, Run MailMachine.step bootMail tr s ∧ 77 ∈ s.mailboxes ∧
    s.machine.kernel.table.procs[77]? = none := by
  have hfinal : (exec MailMachine.step (fun _ _ => True) bootMail
      [.event (.spawn (some Fs.tinyImage) none), .event .runAll, .ipcSend 77 0x40000 [5#8]]).any
      fun s => 77 ∈ s.mailboxes ∧ s.machine.kernel.table.procs[77]? = none := by
    decide +kernel
  obtain ⟨tr, s, hrun, -, hs⟩ := exists_run_of_any hfinal
  exact ⟨tr, s, hrun, hs⟩

end RustKernel
