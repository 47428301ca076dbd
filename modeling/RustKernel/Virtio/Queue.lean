import Mathlib.Algebra.Order.Ring.Nat
import RustKernel.Lib.Exec
import RustKernel.Lib.Run
import RustKernel.Lib.Utf8

/-!
# The virtqueue

`VirtQueue::new` and `VirtQueue::submit_request` of `virtio/queue.rs`, together with the device at the other end.
-/

namespace RustKernel.Virtio

open Lib
open Function (update_of_ne update_self)

def QUEUE_SIZE : ℕ := 64

def VIRTQ_DESC_F_NEXT : ℕ := 1

def VIRTQ_DESC_F_WRITE : ℕ := 2

def TIMEOUT_ITERS : ℕ := 50000000

structure Desc where
  addr : ℕ := 0
  len : ℕ := 0
  flags : ℕ := 0
  next : ℕ := 0

structure UsedElem where
  id : ℕ := 0
  len : ℕ := 0
  chain : ℕ := 0

structure VirtQueue where
  desc : ℕ → Desc
  availIdx : ℕ
  availRing : ℕ → ℕ
  usedIdx : ℕ
  usedRing : ℕ → UsedElem
  lastUsed : ℕ

def VirtQueue.new : VirtQueue :=
  { desc := fun i => { next := if i < QUEUE_SIZE - 1 then i + 1 else 0 }, availIdx := 0, availRing := fun _ => 0,
    usedIdx := 0, usedRing := fun _ => {}, lastUsed := 0 }

inductive Stage where
  | head
  | second
  | ring
  | publish
  | notify
  | poll (iter : ℕ)
  | elem

structure Call where
  reqAddr : ℕ
  req : List Byte
  respAddr : ℕ
  resp : List Byte
  chain : ℕ := 0
  stage : Stage := .head

def Call.headDesc (c : Call) : Desc :=
  { addr := c.reqAddr, len := c.req.length % 2 ^ 32, flags := VIRTQ_DESC_F_NEXT, next := 1 }

def Call.secondDesc (c : Call) : Desc :=
  { addr := c.respAddr, len := c.resp.length % 2 ^ 32, flags := VIRTQ_DESC_F_WRITE, next := 0 }

structure Returned where
  req : List Byte
  before : List Byte
  after : List Byte
  chain : ℕ
  consumed : ℕ
  ret : Except String ℕ

inductive DeviceStage where
  | idle
  | fetched (head : ℕ) (request : List Byte) (respAddr respLen : ℕ)
  | answered (head : ℕ) (request answer : List Byte)
  | listed (request answer : List Byte)

structure System where
  queue : VirtQueue
  mem : ℕ → List Byte
  call : Option Call
  returned : List Returned
  lastAvail : ℕ
  device : DeviceStage
  chains : ℕ
  completions : List (List Byte × List Byte)

variable {s : System}

def System.init : System :=
  { queue := .new, mem := fun _ => [], call := none, returned := [], lastAvail := 0, device := .idle, chains := 0,
    completions := [] }

namespace System

def ret (c : Call) (consumed : ℕ) (result : Except String ℕ) (s : System) : System :=
  { s with
    call := none
    returned := s.returned ++
      [{ req := c.req, before := c.resp, after := s.mem c.respAddr, chain := c.chain, consumed, ret := result }] }

def goTo (c : Call) (s : System) : System := { s with call := some c }

def onQueue (f : VirtQueue → VirtQueue) (s : System) : System := { s with queue := f s.queue }

def submit (c : Call) (s : System) : System :=
  let s := { s with mem := Function.update (Function.update s.mem c.reqAddr c.req) c.respAddr c.resp }
  if c.req.isEmpty ∨ c.resp.isEmpty then s.ret c 0 (.error "virtqueue: buffers vides") else s.goTo { c with stage := .head }

/-- Where `submit_request` enters the chain of an index, and where it reads the element of one. -/
abbrev driverSlot (idx : ℕ) : ℕ := idx % QUEUE_SIZE

def cpu (c : Call) (s : System) : System :=
  match c.stage with
  | .head =>
    (s.onQueue fun q => { q with desc := Function.update q.desc 0 c.headDesc }).goTo { c with stage := .second }
  | .second =>
    (s.onQueue fun q => { q with desc := Function.update q.desc 1 c.secondDesc }).goTo { c with stage := .ring }
  | .ring =>
    (s.onQueue fun q => { q with availRing := Function.update q.availRing (driverSlot q.availIdx) 0 }).goTo
      { c with stage := .publish }
  | .publish =>
    { s.onQueue fun q => { q with availIdx := (q.availIdx + 1) % 2 ^ 16 } with chains := s.chains + 1 }.goTo
      { c with chain := s.chains, stage := .notify }
  | .notify => s.goTo { c with stage := .poll 0 }
  | .poll iter =>
    if s.queue.usedIdx ≠ s.queue.lastUsed then s.goTo { c with stage := .elem }
    else if TIMEOUT_ITERS ≤ iter + 1 then s.ret c 0 (.error "virtqueue: timeout en attente de la réponse GPU")
    else s.goTo { c with stage := .poll (iter + 1) }
  | .elem =>
    let e := s.queue.usedRing (driverSlot s.queue.lastUsed)
    (s.onQueue fun q => { q with lastUsed := (q.lastUsed + 1) % 2 ^ 16 }).ret c e.chain (.ok e.len)

def deviceStep (answer : List Byte) (s : System) : Option System :=
  match s.device with
  | .idle =>
    if s.lastAvail = s.queue.availIdx then none
    else
      let head := s.queue.availRing (s.lastAvail % QUEUE_SIZE)
      let d := s.queue.desc head
      let w := s.queue.desc d.next
      if d.flags = VIRTQ_DESC_F_NEXT ∧ w.flags = VIRTQ_DESC_F_WRITE then
        some { s with
          lastAvail := (s.lastAvail + 1) % 2 ^ 16
          device := .fetched head ((s.mem d.addr).take d.len) w.addr w.len }
      else none
  | .fetched head request addr len =>
    let written := answer.take len
    some { s with
      mem := Function.update s.mem addr (written ++ (s.mem addr).drop written.length)
      device := .answered head request written }
  | .answered head request written =>
    let e : UsedElem := { id := head, len := written.length, chain := s.completions.length }
    some { s.onQueue fun q => { q with usedRing := Function.update q.usedRing (q.usedIdx % QUEUE_SIZE) e } with
      device := .listed request written }
  | .listed request written =>
    some { s.onQueue fun q => { q with usedIdx := (q.usedIdx + 1) % 2 ^ 16 } with
      device := .idle
      completions := s.completions ++ [(request, written)] }

end System

inductive Event where
  | submit (reqAddr : ℕ) (req : List Byte) (respAddr : ℕ) (resp : List Byte)
  | cpu
  | device (answer : List Byte)

def step (s : System) : Event → Option System
  | .submit reqAddr req respAddr resp =>
    if s.call.isNone ∧ reqAddr ≠ respAddr ∧ reqAddr + req.length ≤ 2 ^ 30 ∧ respAddr + resp.length ≤ 2 ^ 30 then
      some (s.submit { reqAddr, req, respAddr, resp })
    else none
  | .cpu => s.call.map fun c => s.cpu c
  | .device answer => s.deviceStep answer

def System.timesOut (s : System) : Bool :=
  match s.call with
  | some { stage := .poll iter, .. } => decide (TIMEOUT_ITERS ≤ iter + 1) && decide (s.queue.usedIdx = s.queue.lastUsed)
  | _ => false

def Waits (s : System) (e : Event) : Prop :=
  match e with
  | .cpu => s.timesOut = false
  | _ => True

def OwnAnswer (completions : List (List Byte × List Byte)) (r : Returned) : Prop :=
  ∀ n, r.ret = .ok n → r.consumed = r.chain ∧ ∃ answer, completions[r.chain]? = some (r.req, answer) ∧
    n = answer.length ∧ r.after = answer ++ r.before.drop answer.length

/-! ### The invariant -/

structure Quiet (s : System) : Prop where
  chains : s.chains = s.completions.length
  device : s.device = .idle
  lastUsed : s.queue.lastUsed = s.completions.length % 2 ^ 16

def Call.filled (c : Call) (answer : List Byte) : List Byte := answer ++ c.resp.drop answer.length

def Working (s : System) (c : Call) : Prop :=
  match s.device with
  | .idle => s.queue.desc 0 = c.headDesc ∧ s.queue.desc 1 = c.secondDesc ∧ s.mem c.reqAddr = c.req ∧
      s.mem c.respAddr = c.resp
  | .fetched _ request addr _ => request = c.req ∧ addr = c.respAddr ∧ s.mem c.respAddr = c.resp
  | .answered _ request answer => request = c.req ∧ s.mem c.respAddr = c.filled answer
  | .listed request answer => request = c.req ∧ s.mem c.respAddr = c.filled answer ∧
      (s.queue.usedRing (c.chain % QUEUE_SIZE)).len = answer.length ∧
      (s.queue.usedRing (c.chain % QUEUE_SIZE)).chain = c.chain

structure Pending (s : System) (c : Call) : Prop where
  chains : s.chains = c.chain + 1
  completions : s.completions.length = c.chain
  lastUsed : s.queue.lastUsed = c.chain % 2 ^ 16
  working : Working s c

structure Completed (s : System) (c : Call) : Prop where
  chains : s.chains = c.chain + 1
  completions : s.completions.length = c.chain + 1
  device : s.device = .idle
  lastUsed : s.queue.lastUsed = c.chain % 2 ^ 16
  answer : ∃ answer, s.completions[c.chain]? = some (c.req, answer) ∧ s.mem c.respAddr = c.filled answer ∧
    (s.queue.usedRing (c.chain % QUEUE_SIZE)).len = answer.length ∧
    (s.queue.usedRing (c.chain % QUEUE_SIZE)).chain = c.chain

structure Buffers (s : System) (c : Call) : Prop where
  ne : c.reqAddr ≠ c.respAddr
  req : s.mem c.reqAddr = c.req
  resp : s.mem c.respAddr = c.resp

def At (s : System) (c : Call) : Prop :=
  match c.stage with
  | .head => Quiet s ∧ Buffers s c
  | .second => Quiet s ∧ Buffers s c ∧ s.queue.desc 0 = c.headDesc
  | .ring | .publish => Quiet s ∧ Buffers s c ∧ s.queue.desc 0 = c.headDesc ∧ s.queue.desc 1 = c.secondDesc
  | .notify | .poll _ => Pending s c ∨ Completed s c
  | .elem => Completed s c

def System.busy (s : System) : ℕ :=
  match s.device with
  | .idle => 0
  | _ => 1

structure Sound (s : System) : Prop where
  avail : s.queue.availIdx = s.chains % 2 ^ 16
  used : s.queue.usedIdx = s.completions.length % 2 ^ 16
  heads : ∀ i, s.queue.availRing i = 0
  lastAvail : s.lastAvail = (s.completions.length + s.busy) % 2 ^ 16
  idle : s.call = none → Quiet s
  call : ∀ c, s.call = some c → At s c
  small : ∀ c, s.call = some c → c.req.length < 2 ^ 32
  returned : ∀ r ∈ s.returned, OwnAnswer s.completions r

theorem sound_init : Sound System.init where
  avail := rfl
  used := rfl
  heads _ := rfl
  lastAvail := rfl
  idle _ := ⟨rfl, rfl, rfl⟩
  call c h := by cases h
  small c h := by cases h
  returned r h := by cases h

theorem OwnAnswer.append {completions rest : List (List Byte × List Byte)} {r : Returned}
    (h : OwnAnswer completions r) : OwnAnswer (completions ++ rest) r := by
  intro n hn
  obtain ⟨hconsumed, answer, hget, hrest⟩ := h n hn
  refine ⟨hconsumed, answer, ?_, hrest⟩
  rw [List.getElem?_append_left (List.getElem?_eq_some_iff.mp hget).1, hget]

namespace Sound

variable {s s' : System} {c : Call}
variable {queue : VirtQueue}

theorem quiet_goTo (h : Quiet s) (hlast : queue.lastUsed = s.queue.lastUsed) : Quiet ({ s with queue }.goTo c) :=
  ⟨h.chains, h.device, hlast.trans h.lastUsed⟩

theorem buffers_goTo {c' : Call} (h : Buffers s c) (hreqAddr : c'.reqAddr = c.reqAddr) (hrespAddr : c'.respAddr = c.respAddr)
    (hreq : c'.req = c.req) (hresp : c'.resp = c.resp) : Buffers ({ s with queue }.goTo c') c' := by
  constructor
  · rw [hreqAddr, hrespAddr]
    exact h.ne
  · rw [hreqAddr, hreq]
    exact h.req
  · rw [hrespAddr, hresp]
    exact h.resp

theorem waiting_goTo {stage : Stage} (h : Pending s c ∨ Completed s c) :
    Pending (s.goTo { c with stage }) { c with stage } ∨ Completed (s.goTo { c with stage }) { c with stage } :=
  h.imp (fun h => ⟨h.chains, h.completions, h.lastUsed, h.working⟩)
    fun h => ⟨h.chains, h.completions, h.device, h.lastUsed, h.answer⟩

section

variable (h : Sound s)
include h

theorem driver {c' : Call} (hc : s.call = some c) (havail : queue.availIdx = s.queue.availIdx)
    (hused : queue.usedIdx = s.queue.usedIdx) (hheads : ∀ i, queue.availRing i = 0) (hreq : c'.req = c.req)
    (hat : At ({ s with queue }.goTo c') c') : Sound ({ s with queue }.goTo c') := by
  refine ⟨havail.trans h.avail, hused.trans h.used, hheads, h.lastAvail, nofun, fun c₁ hc₁ => ?_, fun c₁ hc₁ => ?_, h.returned⟩
  · obtain rfl := Option.some.inj hc₁
    exact hat
  · obtain rfl := Option.some.inj hc₁
    exact hreq ▸ h.small c hc

theorem submit (hc : s.call = none) (hne : c.reqAddr ≠ c.respAddr) (hsmall : c.req.length < 2 ^ 32) :
    Sound (s.submit c) := by
  have hquiet := h.idle hc
  unfold System.submit
  split_ifs
  · refine ⟨h.avail, h.used, h.heads, h.lastAvail, fun _ => ⟨hquiet.chains, hquiet.device, hquiet.lastUsed⟩, nofun, nofun,
      fun r hr => ?_⟩
    rcases List.mem_append.mp hr with hr | hr
    · exact h.returned r hr
    · rw [List.mem_singleton.mp hr]
      nofun
  · refine ⟨h.avail, h.used, h.heads, h.lastAvail, nofun, fun c₁ hc₁ => ?_, fun c₁ hc₁ => ?_, h.returned⟩
    · obtain rfl := Option.some.inj hc₁
      refine ⟨⟨hquiet.chains, hquiet.device, hquiet.lastUsed⟩, hne, ?_, ?_⟩
      · simp only [System.goTo, update_of_ne hne, update_self]
      · simp only [System.goTo, update_self]
    · obtain rfl := Option.some.inj hc₁
      exact hsmall

theorem elem (hat : Completed s c) :
    Sound ((s.onQueue fun q => { q with lastUsed := (q.lastUsed + 1) % 2 ^ 16 }).ret c
      (s.queue.usedRing (s.queue.lastUsed % QUEUE_SIZE)).chain
      (.ok (s.queue.usedRing (s.queue.lastUsed % QUEUE_SIZE)).len)) := by
  obtain ⟨answer, hget, hmem, hlen, hchain⟩ := hat.answer
  have hslot : s.queue.lastUsed % QUEUE_SIZE = c.chain % QUEUE_SIZE := by
    rw [hat.lastUsed]
    exact Nat.mod_mod_of_dvd _ (by decide)
  refine ⟨h.avail, h.used, h.heads, h.lastAvail, fun _ => ⟨?_, hat.device, ?_⟩, nofun, nofun, fun r hr => ?_⟩
  · exact hat.chains.trans hat.completions.symm
  · show (s.queue.lastUsed + 1) % 2 ^ 16 = s.completions.length % 2 ^ 16
    rw [hat.lastUsed, hat.completions, Nat.mod_add_mod]
  · rcases List.mem_append.mp hr with hr | hr
    · exact h.returned r hr
    · rw [List.mem_singleton.mp hr, hslot]
      intro n hn
      obtain rfl := Except.ok.inj hn
      exact ⟨hchain, answer, hget, hlen, hmem⟩

theorem cpu (hc : s.call = some c) (hwaits : s.timesOut = false) : Sound (s.cpu c) := by
  have hat := h.call c hc
  obtain ⟨reqAddr, req, respAddr, resp, chain, stage⟩ := c
  cases stage with
  | head =>
    obtain ⟨hquiet, hbufs⟩ := hat
    have hdesc : ∀ d, Function.update s.queue.desc 0 d 0 = d := fun d => by rw [update_self]
    exact h.driver hc rfl rfl h.heads rfl ⟨quiet_goTo hquiet rfl, buffers_goTo hbufs rfl rfl rfl rfl, hdesc _⟩
  | second =>
    obtain ⟨hquiet, hbufs, hhead⟩ := hat
    have hdesc : ∀ d, Function.update s.queue.desc 1 d 1 = d := fun d => by rw [update_self]
    exact h.driver hc rfl rfl h.heads rfl ⟨quiet_goTo hquiet rfl, buffers_goTo hbufs rfl rfl rfl rfl, hhead, hdesc _⟩
  | ring =>
    obtain ⟨hquiet, hbufs, hdescs⟩ := hat
    refine h.driver hc rfl rfl (fun i => ?_) rfl ⟨quiet_goTo hquiet rfl, buffers_goTo hbufs rfl rfl rfl rfl, hdescs⟩
    by_cases hi : i = s.queue.availIdx % QUEUE_SIZE
    · rw [hi]
      exact update_self _ _ _
    · exact (update_of_ne hi _ _).trans (h.heads i)
  | publish =>
    obtain ⟨hquiet, hbufs, hhead, hsecond⟩ := hat
    refine ⟨?_, h.used, h.heads, h.lastAvail, nofun, fun c₁ hc₁ => ?_, fun c₁ hc₁ => ?_, h.returned⟩
    · show (s.queue.availIdx + 1) % 2 ^ 16 = (s.chains + 1) % 2 ^ 16
      rw [h.avail, Nat.mod_add_mod]
    · obtain rfl := Option.some.inj hc₁
      refine .inl ⟨rfl, hquiet.chains.symm, hquiet.lastUsed.trans (by rw [hquiet.chains]), ?_⟩
      have hidle : (System.cpu { reqAddr, req, respAddr, resp, chain, stage := .publish } s).device = .idle := hquiet.device
      unfold Working
      rw [hidle]
      exact ⟨hhead, hsecond, hbufs.req, hbufs.resp⟩
    · obtain rfl := Option.some.inj hc₁
      have hsmall := h.small _ hc
      exact hsmall
  | notify => exact h.driver hc rfl rfl h.heads rfl (waiting_goTo hat)
  | poll iter =>
    simp only [System.cpu]
    split_ifs with hchanged hout
    · obtain hpending | hcompleted := hat
      · -- nothing has been completed since the last call
        rw [h.used, hpending.completions, hpending.lastUsed] at hchanged
        exact absurd rfl hchanged
      · exact h.driver hc rfl rfl h.heads rfl
          ⟨hcompleted.chains, hcompleted.completions, hcompleted.device, hcompleted.lastUsed, hcompleted.answer⟩
    · simp [System.timesOut, hc, hout, not_not.mp hchanged] at hwaits
    · exact h.driver hc rfl rfl h.heads rfl (waiting_goTo hat)
  | elem => exact h.elem hat

theorem pending_of_device (hdev : s.device = .idle → s.lastAvail ≠ s.queue.availIdx) :
    ∃ c, s.call = some c ∧ Pending s c ∧ (∀ s', Pending s' c ∨ Completed s' c → At s' c) := by
  have hnot : ∀ {n : ℕ}, s.chains = n → s.completions.length = n → s.device ≠ .idle := by
    intro n hchains hcompletions hidle
    refine hdev hidle ?_
    rw [h.lastAvail, h.avail, hchains, hcompletions]
    simp [System.busy, hidle]
  cases hc : s.call with
  | none =>
    have hquiet := h.idle hc
    exact absurd hquiet.device (hnot hquiet.chains rfl)
  | some c =>
    have hat := h.call c hc
    unfold At at hat
    have hwaiting : ∀ {c : Call}, Pending s c ∨ Completed s c → Pending s c := by
      rintro c (hpending | hcompleted)
      · exact hpending
      · exact absurd hcompleted.device (hnot hcompleted.chains hcompleted.completions)
    cases hstage : c.stage with
    | head =>
      rw [hstage] at hat
      exact absurd hat.1.device (hnot hat.1.chains rfl)
    | second =>
      rw [hstage] at hat
      exact absurd hat.1.device (hnot hat.1.chains rfl)
    | ring =>
      rw [hstage] at hat
      exact absurd hat.1.device (hnot hat.1.chains rfl)
    | publish =>
      rw [hstage] at hat
      exact absurd hat.1.device (hnot hat.1.chains rfl)
    | notify =>
      rw [hstage] at hat
      exact ⟨c, rfl, hwaiting hat, fun s' h' => by unfold At; rw [hstage]; exact h'⟩
    | poll iter =>
      rw [hstage] at hat
      exact ⟨c, rfl, hwaiting hat, fun s' h' => by unfold At; rw [hstage]; exact h'⟩
    | elem =>
      rw [hstage] at hat
      exact absurd hat.device (hnot hat.chains hat.completions)

theorem device (hc : s.call = some c) (hat : At s' c) (hcall : s'.call = s.call)
    (havail : s'.queue.availIdx = s.queue.availIdx) (hchains : s'.chains = s.chains)
    (hused : s'.queue.usedIdx = s'.completions.length % 2 ^ 16) (hheads : s'.queue.availRing = s.queue.availRing)
    (hlast : s'.lastAvail = (s'.completions.length + s'.busy) % 2 ^ 16) (hreturned : s'.returned = s.returned)
    (hgrows : ∃ rest, s'.completions = s.completions ++ rest) : Sound s' := by
  refine ⟨?_, hused, by rw [hheads]; exact h.heads, hlast, by rw [hcall, hc]; nofun, fun c₁ hc₁ => ?_, fun c₁ hc₁ => ?_,
    fun r hr => ?_⟩
  · rw [havail, hchains]
    exact h.avail
  · rw [hcall, hc, Option.some.injEq] at hc₁
    exact hc₁ ▸ hat
  · exact h.small c₁ (hcall ▸ hc₁)
  · obtain ⟨rest, hrest⟩ := hgrows
    rw [hrest]
    exact (h.returned r (hreturned ▸ hr)).append

theorem deviceStep {answer : List Byte} (hs : s.deviceStep answer = some s') : Sound s' := by
  have hdev : s.device = .idle → s.lastAvail ≠ s.queue.availIdx := by
    intro hidle heq
    simp [System.deviceStep, hidle, heq] at hs
  obtain ⟨c, hc, hpending, hat⟩ := h.pending_of_device hdev
  have hworking := hpending.working
  have hlast := h.lastAvail
  cases hd : s.device with
  | idle =>
    simp only [Working, hd] at hworking
    obtain ⟨hhead, hsecond, hreq, hresp⟩ := hworking
    have hrequest : (s.mem c.headDesc.addr).take c.headDesc.len = c.req := by
      have hlen : c.headDesc.len = c.req.length := Nat.mod_eq_of_lt (h.small c hc)
      have haddr : c.headDesc.addr = c.reqAddr := rfl
      rw [haddr, hlen, hreq, List.take_length]
    have hnext : s.queue.desc c.headDesc.next = c.secondDesc := hsecond
    have hflags : c.headDesc.flags = VIRTQ_DESC_F_NEXT ∧ c.secondDesc.flags = VIRTQ_DESC_F_WRITE := ⟨rfl, rfl⟩
    simp only [System.deviceStep, hd, if_neg (hdev hd), h.heads, hhead, hrequest, hnext, if_pos hflags, Option.some.injEq] at hs
    simp only [System.busy, hd] at hlast
    subst hs
    refine h.device hc (hat _ (.inl ?_)) rfl rfl rfl h.used rfl ?_ rfl ⟨[], (List.append_nil _).symm⟩
    · exact ⟨hpending.chains, hpending.completions, hpending.lastUsed, rfl, rfl, hresp⟩
    · show (s.lastAvail + 1) % 2 ^ 16 = (s.completions.length + 1) % 2 ^ 16
      rw [hlast, Nat.mod_add_mod]
  | fetched head request addr len =>
    simp only [Working, hd] at hworking
    obtain ⟨hrequest, haddr, hresp⟩ := hworking
    simp only [System.deviceStep, hd, Option.some.injEq] at hs
    simp only [System.busy, hd] at hlast
    subst hs
    refine h.device hc (hat _ (.inl ?_)) rfl rfl rfl h.used rfl hlast rfl ⟨[], (List.append_nil _).symm⟩
    refine ⟨hpending.chains, hpending.completions, hpending.lastUsed, hrequest, ?_⟩
    simp only [haddr, update_self, hresp]
    rfl
  | answered head request written =>
    simp only [Working, hd] at hworking
    obtain ⟨hrequest, hfilled⟩ := hworking
    simp only [System.deviceStep, hd, Option.some.injEq] at hs
    simp only [System.busy, hd] at hlast
    have hslot : s.queue.usedIdx % QUEUE_SIZE = c.chain % QUEUE_SIZE := by
      rw [h.used, hpending.completions]
      exact Nat.mod_mod_of_dvd _ (by decide)
    simp only [System.onQueue, hslot] at hs
    subst hs
    refine h.device hc (hat _ (.inl ?_)) rfl rfl rfl h.used rfl hlast rfl ⟨[], (List.append_nil _).symm⟩
    refine ⟨hpending.chains, hpending.completions, hpending.lastUsed, hrequest, hfilled, ?_, ?_⟩
    · simp only [update_self]
    · simp only [update_self, hpending.completions]
  | listed request written =>
    simp only [Working, hd] at hworking
    obtain ⟨hrequest, hfilled, hlen, hchain⟩ := hworking
    simp only [System.deviceStep, hd, Option.some.injEq] at hs
    simp only [System.busy, hd] at hlast
    subst hs
    have hlength : (s.completions ++ [(request, written)]).length = s.completions.length + 1 := by
      rw [List.length_append, List.length_singleton]
    refine h.device hc (hat _ (.inr ?_)) rfl rfl rfl ?_ rfl ?_ rfl ⟨_, rfl⟩
    · refine ⟨hpending.chains, hlength.trans (by rw [hpending.completions]), rfl, hpending.lastUsed, written, ?_, hfilled,
        hlen, hchain⟩
      rw [← hpending.completions, List.getElem?_append_right (Nat.le_refl _), Nat.sub_self, hrequest]
      rfl
    · show (s.queue.usedIdx + 1) % 2 ^ 16 = (s.completions ++ [(request, written)]).length % 2 ^ 16
      rw [h.used, hlength, Nat.mod_add_mod]
    · show s.lastAvail = ((s.completions ++ [(request, written)]).length + 0) % 2 ^ 16
      rw [hlast, hlength]

end

theorem step {e : Event} (h : Sound s) (hwaits : Waits s e) (hs : step s e = some s') : Sound s' := by
  cases e with
  | submit reqAddr req respAddr resp =>
    obtain ⟨⟨hc, hne, hreq, -⟩, hs⟩ := Option.ite_none_right_eq_some.mp hs
    obtain rfl := Option.some.inj hs
    exact h.submit (Option.isNone_iff_eq_none.mp hc) hne (by show req.length < _; omega)
  | cpu =>
    obtain ⟨c, hc, rfl⟩ := Option.map_eq_some_iff.mp hs
    exact h.cpu hc hwaits
  | device answer => exact h.deviceStep hs

end Sound

/-! ### Runs -/

/-- **Each reply answers its own request**, as long as no call has given up waiting. -/
theorem answers_own_request {tr : List (System × Event)} (h : Run step System.init tr s)
    (hwaits : ∀ x ∈ tr, Waits x.1 x.2) : ∀ r ∈ s.returned, OwnAnswer s.completions r :=
  (h.invariant sound_init hwaits fun _ _ _ => Sound.step).returned

instance (s : System) : (e : Event) → Decidable (Waits s e)
  | .cpu => inferInstanceAs (Decidable (s.timesOut = false))
  | .submit _ _ _ _ | .device _ => isTrue trivial

/-- A request is answered while the driver polls. -/
theorem answers_own_request_polled : ∃ tr s, Run step System.init tr s ∧ (∀ x ∈ tr, Waits x.1 x.2) ∧
    s.returned.map Returned.after = [[7#8, 8#8, 0#8]] ∧ ∀ r ∈ s.returned, OwnAnswer s.completions r := by
  have hfinal : (exec step Waits System.init ([.submit 0x1000 [1#8] 0x2000 [0#8, 0#8, 0#8]] ++ List.replicate 6 .cpu ++
      List.replicate 4 (.device [7#8, 8#8]) ++ [.cpu, .cpu])).any
      fun s => s.returned.map Returned.after = [[7#8, 8#8, 0#8]] := by
    decide +kernel
  obtain ⟨tr, s, hrun, hwaits, hs⟩ := exists_run_of_any hfinal
  exact ⟨tr, s, hrun, hwaits, hs, answers_own_request hrun hwaits⟩

theorem run_polls {c : Call} (hused : s.queue.usedIdx = s.queue.lastUsed) : ∀ n < TIMEOUT_ITERS,
    ∃ tr, Run step (s.goTo { c with stage := .poll 0 }) tr (s.goTo { c with stage := .poll n }) := by
  intro n hn
  induction n with
  | zero => exact ⟨[], .nil⟩
  | succ n ih =>
    obtain ⟨tr, hrun⟩ := ih (by omega)
    have hstep : step (s.goTo { c with stage := .poll n }) .cpu = some (s.goTo { c with stage := .poll (n + 1) }) := by
      have hnot : ¬ s.queue.usedIdx ≠ s.queue.lastUsed := not_not.mpr hused
      have hlt : ¬ TIMEOUT_ITERS ≤ n + 1 := by omega
      simp only [step, System.goTo, Option.map_some, System.cpu, if_neg hnot, if_neg hlt]
    exact ⟨_, hrun.snoc hstep⟩

def giveUp (s : System) : Option System :=
  match s.call with
  | some { stage := .poll 0, reqAddr, req, respAddr, resp, chain } =>
    if s.queue.usedIdx = s.queue.lastUsed then
      some (s.ret { reqAddr, req, respAddr, resp, chain } 0 (.error "virtqueue: timeout en attente de la réponse GPU"))
    else none
  | _ => none

theorem run_giveUp {s' : System} (h : giveUp s = some s') : ∃ tr, Run step s tr s' := by
  unfold giveUp at h
  split at h
  · rename_i reqAddr req respAddr resp chain hc
    obtain ⟨hused, h⟩ := Option.ite_none_right_eq_some.mp h
    obtain rfl := Option.some.inj h
    obtain ⟨tr, hrun⟩ := run_polls (c := { reqAddr, req, respAddr, resp, chain }) hused (TIMEOUT_ITERS - 1) (by decide)
    have hstart : s.goTo { reqAddr, req, respAddr, resp, chain, stage := .poll 0 } = s := by rw [System.goTo, ← hc]
    rw [hstart] at hrun
    refine ⟨_, hrun.snoc (e := .cpu) ?_⟩
    have hnot : ¬ s.queue.usedIdx ≠ s.queue.lastUsed := not_not.mpr hused
    simp only [step, System.goTo, Option.map_some, System.cpu, if_neg hnot]
    rfl
  · cases h

/-- **A late answer is taken for another call's**: a call times out, the device completes its chain afterwards, and the next
call returns at once with the length of that answer. The device has not seen the second request, and the second response
buffer is untouched. -/
theorem late_answer_is_taken : ∃ tr s r, Run step System.init tr s ∧ r ∈ s.returned ∧ r.ret = .ok 1 ∧ r.chain = 1 ∧
    r.consumed = 0 ∧ s.completions = [([1#8], [9#8])] ∧ r.req = [2#8] ∧ r.after = r.before := by
  have hfinal : (((exec step (fun _ _ => True) System.init
      ([.submit 0x1000 [1#8] 0x2000 [0#8]] ++ List.replicate 5 .cpu)).bind giveUp).bind fun s =>
      exec step (fun _ _ => True) s
        (List.replicate 4 (.device [9#8]) ++ [.submit 0x3000 [2#8] 0x4000 [0#8]] ++ List.replicate 7 .cpu)).map
      (fun s => decide (∃ r ∈ s.returned, r.ret = .ok 1 ∧ r.chain = 1 ∧ r.consumed = 0 ∧
        s.completions = [([1#8], [9#8])] ∧ r.req = [2#8] ∧ r.after = r.before)) = some true := by
    decide +kernel
  obtain ⟨s₃, h, hs⟩ := Option.map_eq_some_iff.mp hfinal
  obtain ⟨s₂, h, hrun₃⟩ := Option.bind_eq_some_iff.mp h
  obtain ⟨s₁, hrun₁, hrun₂⟩ := Option.bind_eq_some_iff.mp h
  obtain ⟨tr₂, hrun₂⟩ := run_giveUp hrun₂
  obtain ⟨r, hr⟩ := of_decide_eq_true hs
  exact ⟨_, s₃, r, ((run_of_exec hrun₁).1.append hrun₂).append (run_of_exec hrun₃).1, hr⟩

/-! ### The size that is negotiated -/

structure QueueRegs where
  size : ℕ
  desc : ℕ
  driver : ℕ
  device : ℕ
  enable : ℕ
  notifyOff : ℕ

structure VirtioTransport where
  select : ℕ
  queues : ℕ → QueueRegs

def VirtioTransport.setupQueue (t : VirtioTransport) (index size descPhys availPhys usedPhys : ℕ) :
    ℕ × VirtioTransport :=
  let max := (t.queues index).size
  let actual := if size > max then max else size
  let regs : QueueRegs :=
    { t.queues index with size := actual, desc := descPhys, driver := availPhys, device := usedPhys, enable := 1 }
  (regs.notifyOff, { select := index, queues := Function.update t.queues index regs })

def VirtioTransport.negotiated (t : VirtioTransport) (index descPhys availPhys usedPhys : ℕ) : ℕ :=
  ((t.setupQueue index QUEUE_SIZE descPhys availPhys usedPhys).2.queues index).size

/-- Where the device looks for the chain of an index, and where it puts the element of one: it reduces by the size that was
written to its register. -/
def deviceSlot (size idx : ℕ) : ℕ := idx % size

variable {t : VirtioTransport} {index descPhys availPhys usedPhys : ℕ}

theorem negotiated_eq : t.negotiated index descPhys availPhys usedPhys = min QUEUE_SIZE (t.queues index).size := by
  simp only [VirtioTransport.negotiated, VirtioTransport.setupQueue, update_self]
  split_ifs <;> omega

/-- **Driver and device use the same slots**, for every value of the indices, exactly if the device offers `QUEUE_SIZE` of
them. -/
theorem slots_agree : (∀ idx < 2 ^ 16, System.driverSlot idx = deviceSlot (t.negotiated index descPhys availPhys usedPhys) idx) ↔
    QUEUE_SIZE ≤ (t.queues index).size := by
  rw [negotiated_eq]
  constructor
  · intro h
    by_contra hlt
    rw [Nat.min_eq_right (Nat.le_of_not_le hlt)] at h
    generalize (t.queues index).size = max at h hlt
    -- an index with two different remainders
    have hidx := h (QUEUE_SIZE + max) (by unfold QUEUE_SIZE at hlt ⊢; omega)
    rw [System.driverSlot, deviceSlot, Nat.add_mod_left, Nat.add_mod_right, Nat.mod_eq_of_lt (by omega)] at hidx
    rcases Nat.eq_zero_or_pos max with rfl | hpos
    · exact absurd hidx (by decide)
    · exact absurd (Nat.mod_lt QUEUE_SIZE hpos) (by omega)
  · intro hmax idx _
    rw [Nat.min_eq_left hmax]
    rfl

def VirtioTransport.offering (max : ℕ) : VirtioTransport :=
  { select := 0, queues := fun _ => ⟨max, 0, 0, 0, 0, 0⟩ }

def System.atIndex (idx : ℕ) : System :=
  { System.init with queue := { VirtQueue.new with availIdx := idx, lastUsed := idx, usedIdx := (idx + 1) % 2 ^ 16 } }

/-- **Driver and device use different slots**: a device that offers 32 slots looks for the chain of the index 32 in the slot 0,
and puts its element there. The driver leaves that entry as it is and reads another element. -/
theorem slots_differ : let size := (VirtioTransport.offering 32).negotiated 0 0 0 0
    let s := (System.atIndex 32).onQueue fun q => { q with
      availRing := fun _ => 7
      usedRing := Function.update q.usedRing (deviceSlot size 32) { len := 24, chain := 32 } }
    size = 32 ∧ (s.cpu ⟨0, [1], 8, [0], 0, .ring⟩).queue.availRing (deviceSlot size 32) = 7 ∧
      (s.cpu ⟨0, [1], 8, [0], 0, .elem⟩).returned.map (·.ret) = [.ok 0] := by
  decide

end RustKernel.Virtio
