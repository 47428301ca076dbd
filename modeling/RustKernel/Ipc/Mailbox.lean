import RustKernel.Gfx.Framebuffer

/-!
# Mailboxes

The message half of `ipc/mod.rs`: `sys_ipc_send` and `sys_ipc_recv` on the map `MAILBOXES`, from pids to queues of
messages.
-/

namespace RustKernel.Ipc

open Lib Exec Memory Gfx

def MAX_MSG : ℕ := 4096

def MAX_QUEUED_PER_PID : ℕ := 64

structure IpcFrame where
  sender : ℕ
  bytes : List Byte
  deriving DecidableEq

abbrev Mailboxes := Std.ExtTreeMap ℕ (List IpcFrame)

def Mailboxes.queue (boxes : Mailboxes) (pid : ℕ) : List IpcFrame := (boxes[pid]?).getD []

structure Received where
  ret : ℕ
  stores : List (ℕ × List Byte)

def toLeBytes (v : ℕ) : List Byte := (List.range 8).map fun i => BitVec.ofNat 8 (v / 256 ^ i)

variable {ε : Type} {E : ε → Mailboxes → Prop}

def sysIpcSend (sender targetPid msgPtr : ℕ) (src : List Byte) : Exec ε Mailboxes ℕ :=
  if src.length = 0 ∨ MAX_MSG < src.length then pure U64_MAX
  else if !userSliceOk msgPtr src.length then pure U64_MAX
  else do
    let target := targetPid % 2 ^ 32
    let boxes ← Exec.get
    let q := boxes.queue target
    -- `entry(target).or_insert_with(VecDeque::new)`
    Exec.modify fun boxes => boxes.insert target q
    if MAX_QUEUED_PER_PID ≤ q.length then pure U64_MAX
    else do
      Exec.modify fun boxes => boxes.insert target (q ++ [{ sender, bytes := src }])
      pure 0

def copyOut (frame : IpcFrame) (bufPtr max outSenderPtr : ℕ) : Received :=
  let n := min frame.bytes.length max
  if !userSliceOk bufPtr n then { ret := U64_MAX, stores := [] }
  else
    let copied := (bufPtr, frame.bytes.take n)
    if outSenderPtr = 0 then { ret := n, stores := [copied] }
    else if !userSliceOk outSenderPtr 8 then { ret := U64_MAX, stores := [copied] }
    else { ret := n, stores := [copied, (outSenderPtr, toLeBytes frame.sender)] }

def sysIpcRecv (me bufPtr max outSenderPtr : ℕ) : Exec ε Mailboxes Received :=
  if max = 0 then pure { ret := U64_MAX, stores := [] }
  else do
    let boxes ← Exec.get
    match boxes.queue me with
    | [] => Exec.diverge
    | frame :: rest => do
      Exec.modify fun boxes => boxes.insert me rest
      pure (copyOut frame bufPtr max outSenderPtr)

/-! ### What the calls do to the queues -/

theorem Mailboxes.queue_insert (boxes : Mailboxes) (pid : ℕ) (q : List IpcFrame) (p : ℕ) :
    Mailboxes.queue (boxes.insert pid q) p = if p = pid then q else boxes.queue p := by
  unfold Mailboxes.queue
  have h := congrFun (TreeMap.getElem?_insert_eq_update boxes pid q) p
  rw [Function.update_apply] at h
  rw [h]
  split_ifs <;> rfl

theorem Mailboxes.queue_erase (boxes : Mailboxes) (pid p : ℕ) :
    Mailboxes.queue (boxes.erase pid) p = if p = pid then [] else boxes.queue p := by
  unfold Mailboxes.queue
  have h := congrFun (TreeMap.getElem?_erase_eq_update boxes pid) p
  rw [Function.update_apply] at h
  rw [h]
  split_ifs <;> rfl

theorem Mailboxes.queue_of_none {boxes : Mailboxes} {pid : ℕ} (h : boxes[pid]? = none) : boxes.queue pid = [] := by
  simp [Mailboxes.queue, h]

structure Accepts (pid : ℕ) (msg : IpcFrame) (boxes boxes' : Mailboxes) : Prop where
  size : 0 < msg.bytes.length ∧ msg.bytes.length ≤ MAX_MSG
  room : (boxes.queue pid).length < MAX_QUEUED_PER_PID
  boxes_eq : boxes' = boxes.insert pid (boxes.queue pid ++ [msg])

theorem sysIpcSend_post (sender targetPid msgPtr : ℕ) (src : List Byte) (boxes : Mailboxes) :
    (sysIpcSend sender targetPid msgPtr src boxes).Post
      (fun ret boxes' => (ret = 0 ∧ Accepts (targetPid % 2 ^ 32) ⟨sender, src⟩ boxes boxes') ∨ (ret = U64_MAX ∧ boxes' = boxes))
      E := by
  unfold sysIpcSend
  by_cases hlen : src.length = 0 ∨ MAX_MSG < src.length
  · rw [if_pos hlen]
    exact .inr ⟨rfl, rfl⟩
  rw [if_neg hlen]
  by_cases hptr : (!userSliceOk msgPtr src.length) = true
  · rw [if_pos hptr]
    exact .inr ⟨rfl, rfl⟩
  rw [if_neg hptr, get_bind, modify_bind]
  by_cases hroom : MAX_QUEUED_PER_PID ≤ (boxes.queue (targetPid % 2 ^ 32)).length
  · rw [if_pos hroom]
    refine .inr ⟨rfl, ?_⟩
    -- a full queue is there already
    cases hq : boxes[targetPid % 2 ^ 32]? with
    | none =>
      rw [Mailboxes.queue_of_none hq] at hroom
      exact absurd hroom (by decide)
    | some q =>
      have hqueue : boxes.queue (targetPid % 2 ^ 32) = q := by
        unfold Mailboxes.queue
        rw [hq]
        rfl
      rw [hqueue, TreeMap.insert_of_getElem?_eq_some hq]
  · rw [if_neg hroom]
    rw [not_or, not_lt] at hlen
    exact .inl ⟨rfl, ⟨Nat.pos_of_ne_zero hlen.1, hlen.2⟩, not_le.mp hroom, TreeMap.insert_insert ..⟩

def Deliverable (msg : IpcFrame) (bufPtr max outSenderPtr : ℕ) : Prop :=
  userSliceOk bufPtr (min msg.bytes.length max) = true ∧ (outSenderPtr = 0 ∨ userSliceOk outSenderPtr 8 = true)
deriving Decidable

structure Delivers (msg : IpcFrame) (bufPtr max outSenderPtr : ℕ) (r : Received) : Prop where
  ret : r.ret = min msg.bytes.length max
  stores : r.stores = (bufPtr, msg.bytes.take max) ::
    if outSenderPtr = 0 then [] else [(outSenderPtr, toLeBytes msg.sender)]

theorem copyOut_spec (msg : IpcFrame) (bufPtr max outSenderPtr : ℕ) :
    if Deliverable msg bufPtr max outSenderPtr then Delivers msg bufPtr max outSenderPtr (copyOut msg bufPtr max outSenderPtr)
    else (copyOut msg bufPtr max outSenderPtr).ret = U64_MAX := by
  have htake : msg.bytes.take (min msg.bytes.length max) = msg.bytes.take max := by
    rw [Nat.min_comm, ← List.take_take, List.take_length]
  unfold copyOut
  by_cases hbuf : userSliceOk bufPtr (min msg.bytes.length max) = true
  · by_cases hout : outSenderPtr = 0
    · rw [if_pos ⟨hbuf, .inl hout⟩]
      constructor <;> simp [hbuf, hout, htake]
    · by_cases hok : userSliceOk outSenderPtr 8 = true
      · rw [if_pos ⟨hbuf, .inr hok⟩]
        constructor <;> simp [hbuf, hout, hok, htake]
      · rw [if_neg fun h => h.2.elim hout hok]
        simp [hbuf, hout, hok]
  · rw [if_neg fun h => hbuf h.1]
    simp [hbuf]

theorem sysIpcRecv_post (me bufPtr max outSenderPtr : ℕ) (boxes : Mailboxes) :
    (sysIpcRecv me bufPtr max outSenderPtr boxes).Post (fun r boxes' => (max = 0 ∧ r.ret = U64_MAX ∧ boxes' = boxes) ∨
        (max ≠ 0 ∧ ∃ msg rest, boxes.queue me = msg :: rest ∧ boxes' = boxes.insert me rest ∧
          r = copyOut msg bufPtr max outSenderPtr)) E := by
  unfold sysIpcRecv
  by_cases hmax : max = 0
  · rw [if_pos hmax]
    exact .inl ⟨hmax, rfl, rfl⟩
  rw [if_neg hmax, get_bind]
  cases hq : boxes.queue me with
  | nil => trivial
  | cons msg rest => exact .inr ⟨hmax, msg, rest, rfl, rfl, rfl⟩

end RustKernel.Ipc
