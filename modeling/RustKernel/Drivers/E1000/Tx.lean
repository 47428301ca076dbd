import RustKernel.Lib.Exec
import RustKernel.Lib.Ring
import RustKernel.Lib.Run
import RustKernel.Lib.Utf8

/-!
# The transmit ring of the e1000

`E1000::send` and `E1000::init_tx` of `drivers/e1000.rs`, together with the device they talk to.
-/

namespace RustKernel.E1000

open Lib
open Function (update_eq_self update_of_ne update_self)

def NUM_TX_DESC : ℕ := 64

def TDESC_CMD : ℕ := 1 ||| 2 ||| 8

def TDESC_STATUS_DD : ℕ := 1

structure TxDesc where
  addr : ℕ := 0
  length : ℕ := 0
  cmd : ℕ := 0
  status : ℕ := 0

inductive Stage where
  | buffer
  | addr
  | length
  | cmd
  | status
  | cursor
  | tail
  | count
  deriving DecidableEq

structure Call where
  data : List Byte
  idx : ℕ
  buf : ℕ
  stage : Stage

structure Tx where
  ring : ℕ → TxDesc
  txCur : ℕ
  txPackets : ℕ
  heap : ℕ → List Byte
  nextBuf : ℕ
  tdh : ℕ
  tdt : ℕ
  wire : List (List Byte)
  call : Option Call
  results : List (List Byte × Except String Unit)

def initTx : Tx :=
  { ring := fun _ => {}, txCur := 0, txPackets := 0, heap := fun _ => [], nextBuf := 0, tdh := 0, tdt := 0, wire := [],
    call := none, results := [] }

namespace Tx

def fetch (s : Tx) (d : TxDesc) : List Byte := (s.heap d.addr).take d.length

def send (data : List Byte) (s : Tx) : Tx :=
  if 1514 < data.length then { s with results := s.results ++ [(data, .error "paquet trop grand")] }
  else { s with call := some { data, idx := s.txCur, buf := 0, stage := .buffer } }

def store (c : Call) (f : TxDesc → TxDesc) (next : Stage) (s : Tx) : Tx :=
  { s with ring := Function.update s.ring c.idx (f (s.ring c.idx)), call := some { c with stage := next } }

def cpu (c : Call) (s : Tx) : Option Tx :=
  match c.stage with
  | .buffer => some { s with
      heap := Function.update s.heap s.nextBuf c.data
      nextBuf := s.nextBuf + 1
      call := some { c with buf := s.nextBuf, stage := .addr } }
  | .addr => some (s.store c (fun d => { d with addr := c.buf }) .length)
  | .length => some (s.store c (fun d => { d with length := c.data.length % 2 ^ 16 }) .cmd)
  | .cmd => some (s.store c (fun d => { d with cmd := TDESC_CMD }) .status)
  | .status => some (s.store c (fun d => { d with status := 0 }) .cursor)
  | .cursor => some { s with txCur := (s.txCur + 1) % NUM_TX_DESC, call := some { c with stage := .tail } }
  | .tail => some { s with tdt := s.txCur, call := some { c with stage := .count } }
  -- the increment panics on overflow
  | .count => if s.txPackets + 1 < 2 ^ 64 then
      some { s with txPackets := s.txPackets + 1, call := none, results := s.results ++ [(c.data, .ok ())] }
    else none

def transmit (s : Tx) : Option Tx :=
  if s.tdh = s.tdt then none
  else some { s with
    wire := s.wire ++ [s.fetch (s.ring s.tdh)]
    ring := Function.update s.ring s.tdh { s.ring s.tdh with status := TDESC_STATUS_DD }
    tdh := (s.tdh + 1) % NUM_TX_DESC }

end Tx

inductive TxEvent where
  | send (data : List Byte)
  | cpu
  | device

def txStep (s : Tx) : TxEvent → Option Tx
  | .send data => if s.call.isNone then some (s.send data) else none
  | .cpu => s.call.bind fun c => s.cpu c
  | .device => s.transmit

namespace Tx

def accepted (s : Tx) : List (List Byte) :=
  s.results.filterMap fun r => match r.2 with
    | .ok () => some r.1
    | .error _ => none

def inFlight (s : Tx) : List (List Byte) :=
  match s.call with
  | some c => if c.stage = .count then [c.data] else []
  | none => []

def published (s : Tx) : List (List Byte) := s.accepted ++ s.inFlight

end Tx

def Room (s : Tx) (e : TxEvent) : Prop :=
  match e with
  | .cpu => ∀ c ∈ s.call, c.stage = .tail → s.txCur ≠ s.tdh
  | _ => True

/-! ### The invariant -/

def Buffered (s : Tx) (c : Call) : Prop := c.buf < s.nextBuf ∧ s.heap c.buf = c.data

def Described (s : Tx) (c : Call) : Prop := (s.ring c.idx).addr = c.buf ∧ (s.ring c.idx).length = c.data.length

def Stored (s : Tx) (c : Call) : Prop :=
  match c.stage with
  | .buffer | .count => True
  | .addr => Buffered s c
  | .length => Buffered s c ∧ (s.ring c.idx).addr = c.buf
  | .cmd | .status | .cursor | .tail => Buffered s c ∧ Described s c

theorem Stored.congr {s s' : Tx} {c : Call} (h : Stored s c) (hheap : s'.heap = s.heap) (hnext : s'.nextBuf = s.nextBuf)
    (haddr : ∀ i, (s'.ring i).addr = (s.ring i).addr) (hlength : ∀ i, (s'.ring i).length = (s.ring i).length) :
    Stored s' c := by
  unfold Stored Buffered Described at h ⊢
  rw [hheap, hnext, haddr, hlength]
  exact h

structure Prepared (s : Tx) (c : Call) : Prop where
  small : c.data.length ≤ 1514
  idx : c.stage ≠ .count → c.idx = s.published.length % NUM_TX_DESC
  cursor : s.txCur = (s.published.length + if c.stage = .tail then 1 else 0) % NUM_TX_DESC
  stored : Stored s c

def Waiting (s : Tx) : Prop :=
  ∃ descs : ℕ → TxDesc, Shows NUM_TX_DESC s.ring s.wire.length s.published.length descs ∧
    ∀ k p, s.wire.length ≤ k → s.published[k]? = some p → (descs k).addr < s.nextBuf ∧ s.fetch (descs k) = p

structure Tx.Sound (s : Tx) : Prop where
  wire : s.wire <+: s.published
  bound : s.published.length < s.wire.length + NUM_TX_DESC
  tdh : s.tdh = s.wire.length % NUM_TX_DESC
  tdt : s.tdt = s.published.length % NUM_TX_DESC
  waiting : Waiting s
  idle : s.call = none → s.txCur = s.published.length % NUM_TX_DESC
  call : ∀ c, s.call = some c → Prepared s c

theorem sound_initTx : initTx.Sound where
  wire := List.prefix_rfl
  bound := by decide
  tdh := rfl
  tdt := rfl
  waiting := ⟨fun _ => {}, Shows.empty (by decide), fun k p _ h => by simp [initTx, Tx.published, Tx.accepted, Tx.inFlight] at h⟩
  idle _ := rfl
  call c h := by cases h

namespace Tx.Sound

variable {s s' : Tx} {c : Call}

theorem quiet (h : s.Sound) (hpub : s'.published = s.published) (hwire : s'.wire = s.wire) (htdh : s'.tdh = s.tdh)
    (htdt : s'.tdt = s.tdt) (hnext : s.nextBuf ≤ s'.nextBuf) (hheap : ∀ a < s.nextBuf, s'.heap a = s.heap a)
    (hring : ∃ d, s'.ring = Function.update s.ring (s.published.length % NUM_TX_DESC) d)
    (hidle : s'.call = none → s'.txCur = s'.published.length % NUM_TX_DESC)
    (hcall : ∀ c, s'.call = some c → Prepared s' c) : s'.Sound := by
  obtain ⟨descs, hshows, hdescs⟩ := h.waiting
  obtain ⟨d, hring⟩ := hring
  refine ⟨by rw [hwire, hpub]; exact h.wire, by rw [hwire, hpub]; exact h.bound, by rw [htdh, hwire]; exact h.tdh,
    by rw [htdt, hpub]; exact h.tdt, ⟨descs, ?_, fun k p hk hp => ?_⟩, hidle, hcall⟩
  · rw [hring, hwire, hpub]
    exact hshows.write_behind le_rfl h.bound d
  · rw [hwire] at hk
    rw [hpub] at hp
    obtain ⟨haddr, hfetch⟩ := hdescs k p hk hp
    refine ⟨haddr.trans_le hnext, ?_⟩
    rw [fetch, hheap _ haddr, ← fetch, hfetch]

theorem published_of_call (hresults : s'.results = s.results) (hcall : s'.inFlight = s.inFlight) :
    s'.published = s.published := by
  rw [published, published, accepted, accepted, hresults, hcall]

theorem inFlight_eq_nil (hcall : s.call = some c) (hstage : c.stage ≠ .count) : s.inFlight = [] := by
  simp [inFlight, hcall, hstage]

section

variable (h : s.Sound)
include h

theorem goOn (hc : s.call = some c) {c' : Call} (hc' : s'.call = some c') (hstage : c.stage ≠ .count)
    (hstage' : c'.stage ≠ .count) (hresults : s'.results = s.results) (hwire : s'.wire = s.wire) (htdh : s'.tdh = s.tdh)
    (htdt : s'.tdt = s.tdt) (hnext : s.nextBuf ≤ s'.nextBuf) (hheap : ∀ a < s.nextBuf, s'.heap a = s.heap a)
    (hring : ∃ d, s'.ring = Function.update s.ring c.idx d) (hdata : c'.data = c.data) (hidx : c'.idx = c.idx)
    (hcursor : s'.txCur = (s.published.length + if c'.stage = .tail then 1 else 0) % NUM_TX_DESC)
    (hstored : Stored s' c') : s'.Sound := by
  have hprep := h.call c hc
  have hpub : s'.published = s.published :=
    published_of_call hresults ((inFlight_eq_nil hc' hstage').trans (inFlight_eq_nil hc hstage).symm)
  rw [hprep.idx hstage] at hring
  refine h.quiet hpub hwire htdh htdt hnext hheap hring (by rw [hc']; nofun) fun c₁ hc₁ => ?_
  rw [hc', Option.some.injEq] at hc₁
  subst hc₁
  refine ⟨hdata ▸ hprep.small, fun _ => ?_, by rw [hpub]; exact hcursor, hstored⟩
  rw [hidx, hpub]
  exact hprep.idx hstage

theorem store (hc : s.call = some c) {f : TxDesc → TxDesc} {next : Stage}
    (hstage : c.stage ≠ .count ∧ c.stage ≠ .tail) (hnext : next ≠ .count ∧ next ≠ .tail)
    (hstored : Stored (s.store c f next) { c with stage := next }) : (s.store c f next).Sound := by
  have hcur := (h.call c hc).cursor
  rw [if_neg hstage.2] at hcur
  exact h.goOn hc rfl hstage.1 hnext.1 rfl rfl rfl rfl le_rfl (fun _ _ => rfl) ⟨_, rfl⟩ rfl rfl
    (by rw [if_neg hnext.2]; exact hcur) hstored

theorem send (hc : s.call = none) (data : List Byte) : (s.send data).Sound := by
  unfold Tx.send
  by_cases hbig : 1514 < data.length
  · rw [if_pos hbig]
    have hpub : ({ s with results := s.results ++ [(data, .error "paquet trop grand")] } : Tx).published = s.published := by
      simp [published, accepted, inFlight]
    refine h.quiet hpub rfl rfl rfl le_rfl (fun _ _ => rfl) ⟨_, (update_eq_self _ _).symm⟩ (fun _ => ?_) ?_
    · rw [hpub]
      exact h.idle hc
    · intro c' hc'
      cases hc.symm.trans hc'
  · rw [if_neg hbig]
    have hpub : ({ s with call := some { data, idx := s.txCur, buf := 0, stage := .buffer } } : Tx).published = s.published :=
      published_of_call rfl (by simp [inFlight, hc])
    refine h.quiet hpub rfl rfl rfl le_rfl (fun _ _ => rfl) ⟨_, (update_eq_self _ _).symm⟩ (by intro h; cases h) ?_
    intro c' hc'
    obtain rfl := Option.some.inj hc'
    refine ⟨by simpa using hbig, fun _ => ?_, ?_, trivial⟩
    · rw [hpub]
      exact h.idle hc
    · rw [hpub]
      exact h.idle hc

theorem publish {data : List Byte} {idx buf : ℕ} (hc : s.call = some { data, idx, buf, stage := .tail })
    (hprep : Prepared s { data, idx, buf, stage := .tail }) (hroom : s.txCur ≠ s.tdh) :
    Tx.Sound { s with tdt := s.txCur, call := some { data, idx, buf, stage := .count } } := by
  set s' : Tx := { s with tdt := s.txCur, call := some { data, idx, buf, stage := .count } }
  have hpub : s'.published = s.published ++ [data] := by simp [s', published, accepted, inFlight, hc]
  have hlen : s'.published.length = s.published.length + 1 := by rw [hpub, List.length_append, List.length_singleton]
  have hcur : s.txCur = (s.published.length + 1) % NUM_TX_DESC := hprep.cursor
  have hidx : idx = s.published.length % NUM_TX_DESC := hprep.idx nofun
  obtain ⟨⟨hbuf, hheap⟩, haddr, hlength⟩ := hprep.stored
  obtain ⟨descs, hshows, hdescs⟩ := h.waiting
  have hbound : s.published.length + 1 < s.wire.length + NUM_TX_DESC := by
    have hfull : s.published.length + 1 ≤ s.wire.length + NUM_TX_DESC := h.bound
    rcases Nat.lt_or_eq_of_le hfull with hlt | heq
    · exact hlt
    · -- the ring would be full, and `TDT` would be advanced to `TDH`
      rw [hcur, h.tdh, ← Nat.add_mod_right s.wire.length, heq] at hroom
      exact absurd rfl hroom
  have hcall : ∀ c, s'.call = some c → Prepared s' c := by
    intro c hc
    obtain rfl := Option.some.inj hc
    exact ⟨hprep.small, fun h => absurd rfl h, by rw [hlen]; exact hcur, trivial⟩
  refine ⟨hpub ▸ h.wire.trans (List.prefix_append _ _), hlen ▸ hbound, h.tdh, hlen ▸ hcur, ?_, nofun, hcall⟩
  refine ⟨Function.update descs s.published.length (s.ring idx), ?_, fun k p hk hp => ?_⟩
  · rw [hlen]
    refine Shows.snoc (hshows.congr fun k _ hk => ?_) ?_
    · rw [update_of_ne hk.ne]
    · rw [update_self, hidx]
  · rw [hpub] at hp
    rcases Nat.lt_or_ge k s.published.length with hlt | hge
    · rw [List.getElem?_append_left hlt] at hp
      rw [update_of_ne hlt.ne]
      exact hdescs k p hk hp
    · rw [List.getElem?_append_right hge] at hp
      obtain ⟨hk0, hp⟩ := List.getElem?_eq_some_iff.mp hp
      have hk' : k = s.published.length := by
        simp only [List.length_singleton] at hk0
        omega
      subst hk'
      rw [update_self, fetch, haddr, hlength]
      refine ⟨hbuf, ?_⟩
      simpa [s', hheap] using hp

theorem cpu (hc : s.call = some c) (hroom : c.stage = .tail → s.txCur ≠ s.tdh)
    (hs : s.cpu c = some s') : s'.Sound := by
  have hprep := h.call c hc
  obtain ⟨data, idx, buf, stage⟩ := c
  have hcur := hprep.cursor
  have hstored := hprep.stored
  cases stage with
  | buffer =>
    obtain rfl := Option.some.inj hs
    refine h.goOn hc rfl nofun nofun rfl rfl rfl rfl (Nat.le_succ _) (fun a ha => ?_)
      ⟨_, (update_eq_self _ _).symm⟩ rfl rfl hcur ⟨Nat.lt_succ_self _, update_self _ _ _⟩
    exact update_of_ne ha.ne _ _
  | addr =>
    obtain rfl := Option.some.inj hs
    exact h.store hc ⟨nofun, nofun⟩ ⟨nofun, nofun⟩ ⟨hstored, by simp [Tx.store]⟩
  | length =>
    obtain rfl := Option.some.inj hs
    have hmod : data.length % 2 ^ 16 = data.length := Nat.mod_eq_of_lt (lt_of_le_of_lt hprep.small (by decide))
    refine h.store hc ⟨nofun, nofun⟩ ⟨nofun, nofun⟩ ⟨hstored.1, ?_⟩
    simp only [Described, Tx.store, update_self]
    exact ⟨hstored.2, hmod⟩
  | cmd =>
    obtain rfl := Option.some.inj hs
    refine h.store hc ⟨nofun, nofun⟩ ⟨nofun, nofun⟩ ⟨hstored.1, ?_⟩
    simp only [Described, Tx.store, update_self]
    exact hstored.2
  | status =>
    obtain rfl := Option.some.inj hs
    refine h.store hc ⟨nofun, nofun⟩ ⟨nofun, nofun⟩ ⟨hstored.1, ?_⟩
    simp only [Described, Tx.store, update_self]
    exact hstored.2
  | cursor =>
    obtain rfl := Option.some.inj hs
    refine h.goOn hc rfl nofun nofun rfl rfl rfl rfl le_rfl (fun _ _ => rfl) ⟨_, (update_eq_self _ _).symm⟩ rfl rfl ?_ hstored
    have hcur' : s.txCur = s.published.length % NUM_TX_DESC := hcur
    simp only [hcur', Nat.mod_add_mod, if_true]
  | tail =>
    obtain rfl := Option.some.inj hs
    exact h.publish hc hprep (hroom rfl)
  | count =>
    obtain ⟨-, hs⟩ := Option.ite_none_right_eq_some.mp hs
    obtain rfl := Option.some.inj hs
    have hpub : ({ s with txPackets := s.txPackets + 1, call := none, results := s.results ++ [(data, .ok ())] } : Tx).published =
        s.published := by
      simp [published, accepted, inFlight, hc]
    refine h.quiet hpub rfl rfl rfl le_rfl (fun _ _ => rfl) ⟨_, (update_eq_self _ _).symm⟩ (fun _ => ?_) nofun
    rw [hpub]
    exact hcur

theorem transmit (hs : s.transmit = some s') : s'.Sound := by
  obtain ⟨hne, hs⟩ := Option.ite_none_left_eq_some.mp hs
  obtain ⟨rest, hrest⟩ := h.wire
  cases rest with
  | nil =>
    rw [List.append_nil] at hrest
    exact absurd (h.tdh.trans (hrest ▸ h.tdt.symm)) hne
  | cons p rest =>
    obtain ⟨descs, hshows, hdescs⟩ := h.waiting
    have hlen : s.published.length = s.wire.length + (rest.length + 1) := by rw [← hrest, List.length_append, List.length_cons]
    have hdue : s.published[s.wire.length]? = some p := by simp [← hrest]
    have hfetch : s.fetch (s.ring s.tdh) = p := by
      rw [h.tdh, hshows _ le_rfl (by omega)]
      exact (hdescs _ p le_rfl hdue).2
    have hslot : s.tdh = (s.wire.length + NUM_TX_DESC) % NUM_TX_DESC := by rw [Nat.add_mod_right, h.tdh]
    rw [hfetch] at hs
    obtain rfl := Option.some.inj hs
    have hpub : ∀ {w : List (List Byte)} {r : ℕ → TxDesc} {d : ℕ},
        ({ s with wire := w, ring := r, tdh := d } : Tx).published = s.published := rfl
    have hwire : (s.wire ++ [p]).length = s.wire.length + 1 := by rw [List.length_append, List.length_singleton]
    refine ⟨⟨rest, by rw [hpub, ← hrest]; simp⟩, ?_, ?_, h.tdt, ⟨descs, ?_, fun k q hk hq => ?_⟩, h.idle, fun c hc => ?_⟩
    · rw [hwire]
      exact h.bound.trans (by omega)
    · simp only [hwire, h.tdh, Nat.mod_add_mod]
    · rw [hwire, hslot]
      refine (hshows.mono (Nat.le_succ _) le_rfl).write_behind h.bound.le (by omega) _
    · rw [hwire] at hk
      exact hdescs k q (by omega) hq
    · have hprep := h.call c hc
      -- marking a descriptor as done changes neither its address nor its length
      have hsame : ∀ i, (Function.update s.ring s.tdh { s.ring s.tdh with status := TDESC_STATUS_DD } i).addr =
          (s.ring i).addr ∧ (Function.update s.ring s.tdh { s.ring s.tdh with status := TDESC_STATUS_DD } i).length =
          (s.ring i).length := by
        intro i
        by_cases hi : i = s.tdh <;> simp [hi]
      exact ⟨hprep.small, hprep.idx, hprep.cursor, hprep.stored.congr rfl rfl (fun i => (hsame i).1) fun i => (hsame i).2⟩

end

theorem step {e : TxEvent} (h : s.Sound) (hroom : Room s e) (hs : txStep s e = some s') : s'.Sound := by
  cases e with
  | send data =>
    obtain ⟨hc, hs⟩ := Option.ite_none_right_eq_some.mp hs
    obtain rfl := Option.some.inj hs
    exact h.send (Option.isNone_iff_eq_none.mp hc) data
  | cpu =>
    obtain ⟨c, hc, hs⟩ := Option.bind_eq_some_iff.mp hs
    exact h.cpu hc (hroom c hc) hs
  | device => exact h.transmit hs

end Tx.Sound

/-! ### Runs -/

/-- **Packets are sent in order and once each**, if the ring has room whenever `TDT` is advanced: what the device has sent
is a part of what the calls gave it, and all of it once the device has nothing left to do. -/
theorem sent_in_order {tr : List (Tx × TxEvent)} {s : Tx} (h : Run txStep initTx tr s) (hroom : ∀ x ∈ tr, Room x.1 x.2) :
    s.wire <+: s.accepted ++ s.inFlight ∧ (s.tdh = s.tdt → s.wire = s.accepted ++ s.inFlight) ∧
      (s.call = none → s.inFlight = []) := by
  have hsound : s.Sound := h.invariant sound_initTx hroom fun _ _ _ => Tx.Sound.step
  refine ⟨hsound.wire, fun hidle => ?_, fun hc => by simp [Tx.inFlight, hc]⟩
  have hle : s.wire.length ≤ s.published.length := hsound.wire.length_le
  have hlen : s.wire.length = s.published.length := by
    refine slot_inj hle hsound.bound ?_
    rw [← hsound.tdh, ← hsound.tdt, hidle]
  exact hsound.wire.eq_of_length hlen

instance (s : Tx) : (e : TxEvent) → Decidable (Room s e)
  | .cpu => inferInstanceAs (Decidable (∀ c ∈ s.call, c.stage = .tail → s.txCur ≠ s.tdh))
  | .send _ | .device => isTrue trivial

def sendEvents (data : List Byte) : List TxEvent := .send data :: List.replicate 8 .cpu

/-- The device sends the first packet while the second is being prepared. -/
theorem sent_in_order_two : ∃ tr s, Run txStep initTx tr s ∧ (∀ x ∈ tr, Room x.1 x.2) ∧ s.wire = [[1#8], [2#8, 3#8]] ∧
    s.wire <+: s.accepted ++ s.inFlight := by
  have hfinal : (exec txStep Room initTx (sendEvents [1#8] ++ [.send [2#8, 3#8], .cpu, .cpu, .device] ++
      List.replicate 5 .cpu ++ [.device])).any fun s => s.wire = [[1#8], [2#8, 3#8]] := by
    decide +kernel
  obtain ⟨tr, s, hrun, hroom, hwire⟩ := exists_run_of_any hfinal
  exact ⟨tr, s, hrun, hroom, hwire, (sent_in_order hrun hroom).1⟩

def burst : List (List Byte) := (List.range 65).map fun k => [BitVec.ofNat 8 k]

/-- **A burst is lost**: after 64 calls of `send` without a step of the device the ring looks empty, and a 65th call
overwrites the first descriptor. The device sends the last packet and has nothing left to do. -/
theorem burst_is_lost : ∃ tr s, Run txStep initTx tr s ∧ s.call = none ∧ s.tdh = s.tdt ∧ s.accepted = burst ∧
    s.wire = [[64#8]] := by
  have hfinal : (exec txStep (fun _ _ => True) initTx (burst.flatMap sendEvents ++ [.device])).any
      fun s => s.call = none ∧ s.tdh = s.tdt ∧ s.accepted = burst ∧ s.wire = [[64#8]] := by
    decide +kernel
  obtain ⟨tr, s, hrun, -, hs⟩ := exists_run_of_any hfinal
  exact ⟨tr, s, hrun, hs⟩

end RustKernel.E1000
