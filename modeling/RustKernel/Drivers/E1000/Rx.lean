import RustKernel.Lib.Exec
import RustKernel.Lib.Ring
import RustKernel.Lib.Run
import RustKernel.Lib.Utf8

/-!
# The receive ring of the e1000

`E1000::recv` and `E1000::init_rx` of `drivers/e1000.rs`, together with the device they talk to.
-/

namespace RustKernel.E1000

open Lib
open Function (update update_self update_of_ne)

def NUM_RX_DESC : ℕ := 64

def RX_BUF_SIZE : ℕ := 2048

def RDESC_STATUS_DD : ℕ := 1

def RDESC_STATUS_EOP : ℕ := 2

structure RxDesc where
  addr : ℕ
  length : ℕ := 0
  status : ℕ := 0

inductive RecvStage where
  | status
  | length
  | copy
  | clearStatus
  | clearLength
  | cursor
  | tail
  | count
  deriving DecidableEq

structure RecvCall where
  idx : ℕ
  len : ℕ := 0
  data : List Byte := []
  stage : RecvStage

inductive Device where
  | idle
  | writing (packet : List Byte)
  | buffered (packet : List Byte)
  | described

structure Rx where
  ring : ℕ → RxDesc
  base : ℕ
  bufs : ℕ → List Byte
  rxCur : ℕ
  rxPackets : ℕ
  rdh : ℕ
  rdt : ℕ
  call : Option RecvCall
  device : Device
  stored : List (ℕ × List Byte)
  returned : List (List Byte)

def bufAddr (base i : ℕ) : ℕ := base + RX_BUF_SIZE * i

def initRx (base : ℕ) : Rx :=
  { ring := fun i => { addr := bufAddr base i }, base, bufs := fun _ => List.replicate RX_BUF_SIZE 0#8, rxCur := 0,
    rxPackets := 0, rdh := 0, rdt := NUM_RX_DESC - 1, call := none, device := .idle, stored := [], returned := [] }

namespace Rx

def storeDesc (i : ℕ) (f : RxDesc → RxDesc) (s : Rx) : Rx := { s with ring := Function.update s.ring i (f (s.ring i)) }

def goTo (c : RecvCall) (s : Rx) : Rx := { s with call := some c }

def cpu (c : RecvCall) (s : Rx) : Option Rx :=
  match c.stage with
  | .status =>
    -- `None` if there is no packet
    if (s.ring c.idx).status &&& RDESC_STATUS_DD = 0 then some { s with call := none }
    else some (s.goTo { c with stage := .length })
  | .length => some (s.goTo { c with len := (s.ring c.idx).length, stage := .copy })
  -- the slice `buf[..len]` panics if it is out of range
  | .copy => if c.len ≤ RX_BUF_SIZE then
      some (s.goTo { c with data := (s.bufs (bufAddr s.base c.idx)).take c.len, stage := .clearStatus })
    else none
  | .clearStatus => some ((s.storeDesc c.idx fun d => { d with status := 0 }).goTo { c with stage := .clearLength })
  | .clearLength => some ((s.storeDesc c.idx fun d => { d with length := 0 }).goTo { c with stage := .cursor })
  | .cursor => some ({ s with rxCur := (s.rxCur + 1) % NUM_RX_DESC }.goTo { c with stage := .tail })
  | .tail => some ({ s with rdt := c.idx }.goTo { c with stage := .count })
  -- the increment panics on overflow
  | .count => if s.rxPackets + 1 < 2 ^ 64 then
      some { s with rxPackets := s.rxPackets + 1, call := none, returned := s.returned ++ [c.data] }
    else none

def arrive (packet : List Byte) (s : Rx) : Rx := if s.rdh = s.rdt then s else { s with device := .writing packet }

def deviceStep (s : Rx) : Option Rx :=
  match s.device with
  | .idle => none
  | .writing packet =>
    let addr := (s.ring s.rdh).addr
    some { s with bufs := Function.update s.bufs addr (packet ++ (s.bufs addr).drop packet.length), device := .buffered packet }
  | .buffered packet =>
    some { s.storeDesc s.rdh fun d => { d with length := packet.length, status := RDESC_STATUS_DD ||| RDESC_STATUS_EOP } with
      stored := s.stored ++ [(s.rdh, packet)], device := .described }
  | .described => some { s with rdh := (s.rdh + 1) % NUM_RX_DESC, device := .idle }

end Rx

inductive RxEvent where
  | recv
  | cpu
  | arrive (packet : List Byte)
  | device

def rxStep (s : Rx) : RxEvent → Option Rx
  | .recv => if s.call.isNone then some (s.goTo { idx := s.rxCur, stage := .status }) else none
  | .cpu => s.call.bind fun c => s.cpu c
  | .arrive packet =>
    match s.device with
    | .idle => if packet.length ≤ RX_BUF_SIZE then some (s.arrive packet) else none
    | _ => none
  | .device => s.deviceStep

/-! ### The invariant -/

namespace Rx

def released (s : Rx) : ℕ :=
  s.returned.length + match s.call with
    | some c => if c.stage = .count then 1 else 0
    | none => 0

def cleared (s : Rx) : ℕ :=
  match s.call with
  | some c => if c.stage = .clearLength ∨ c.stage = .cursor ∨ c.stage = .tail then 1 else 0
  | none => 0

def ahead (s : Rx) : ℕ :=
  match s.call with
  | some c => if c.stage = .tail then 1 else 0
  | none => 0

def view (s : Rx) (i : ℕ) : Option (List Byte) :=
  if (s.ring i).status &&& RDESC_STATUS_DD = 0 then none else some ((s.bufs (s.ring i).addr).take (s.ring i).length)

def packet? (s : Rx) (k : ℕ) : Option (List Byte) := (s.stored[k]?).map Prod.snd

def Found (s : Rx) (c : RecvCall) : Prop :=
  match c.stage with
  | .status => c.idx = s.released % NUM_RX_DESC
  | .length => c.idx = s.released % NUM_RX_DESC ∧ s.released < s.stored.length
  | .copy => c.idx = s.released % NUM_RX_DESC ∧
      s.packet? s.released = some ((s.bufs (bufAddr s.base c.idx)).take c.len)
  | .clearStatus | .clearLength | .cursor | .tail =>
    c.idx = s.released % NUM_RX_DESC ∧ s.packet? s.released = some c.data
  | .count => s.packet? s.returned.length = some c.data

def AtHead (s : Rx) : Prop :=
  match s.device with
  | .idle => s.rdh = s.stored.length % NUM_RX_DESC
  | .writing p => s.rdh = s.stored.length % NUM_RX_DESC ∧ s.stored.length < s.released + (NUM_RX_DESC - 1) ∧
      p.length ≤ RX_BUF_SIZE
  | .buffered p => s.rdh = s.stored.length % NUM_RX_DESC ∧ s.stored.length < s.released + (NUM_RX_DESC - 1) ∧
      p.length ≤ RX_BUF_SIZE ∧ (s.bufs (bufAddr s.base s.rdh)).take p.length = p
  | .described => (s.rdh + 1) % NUM_RX_DESC = s.stored.length % NUM_RX_DESC

structure Sound (s : Rx) : Prop where
  addrs : ∀ i, (s.ring i).addr = bufAddr s.base i
  slots : ∀ k p, s.stored[k]? = some p → p.1 = k % NUM_RX_DESC
  returned : s.returned <+: s.stored.map Prod.snd
  lower : s.released ≤ s.stored.length
  upper : s.stored.length < s.released + NUM_RX_DESC
  rdt : s.rdt = (s.released + (NUM_RX_DESC - 1)) % NUM_RX_DESC
  cursor : s.rxCur = (s.released + s.ahead) % NUM_RX_DESC
  shows : Shows NUM_RX_DESC s.view (s.released + s.cleared) (s.released + s.cleared + NUM_RX_DESC) s.packet?
  head : s.AtHead
  call : ∀ c, s.call = some c → s.Found c

end Rx

theorem sound_initRx (base : ℕ) : (initRx base).Sound where
  addrs _ := rfl
  slots k p h := by simp [initRx] at h
  returned := List.prefix_rfl
  lower := le_rfl
  upper := by show 0 < 0 + 64; decide
  rdt := rfl
  cursor := rfl
  shows k _ _ := by simp [Rx.view, Rx.packet?, initRx]
  head := rfl
  call c h := by cases h

namespace Rx.Sound

variable {s s' : Rx} {c : RecvCall}
variable {p : List Byte} {i : ℕ}

theorem start_le (h : s.Sound) : s.released + s.cleared ≤ s.stored.length := by
  have hlower := h.lower
  unfold cleared
  cases hc : s.call with
  | none => exact hlower
  | some c =>
    have hfound := h.call c hc
    have hlt : c.stage = .clearLength ∨ c.stage = .cursor ∨ c.stage = .tail → s.released < s.stored.length := by
      intro hstage
      have hpacket : s.packet? s.released = some c.data := by
        rcases hstage with hstage | hstage | hstage <;> simp only [Found, hstage] at hfound <;> exact hfound.2
      obtain ⟨p, hp, -⟩ := Option.map_eq_some_iff.mp hpacket
      exact (List.getElem?_eq_some_iff.mp hp).1
    dsimp only
    split_ifs with hstage
    · exact hlt hstage
    · exact hlower

/-! The steps of the driver -/

theorem driver (h : s.Sound) (hbase : s'.base = s.base) (hbufs : s'.bufs = s.bufs) (hrdh : s'.rdh = s.rdh)
    (hdevice : s'.device = s.device) (hstored : s'.stored = s.stored) (hreturned : s'.returned <+: s.stored.map Prod.snd)
    (hreleased : s.released ≤ s'.released) (hlower : s'.released ≤ s.stored.length)
    (hrdt : s'.rdt = (s'.released + (NUM_RX_DESC - 1)) % NUM_RX_DESC)
    (hcursor : s'.rxCur = (s'.released + s'.ahead) % NUM_RX_DESC) (haddrs : ∀ i, (s'.ring i).addr = bufAddr s.base i)
    (hshows : Shows NUM_RX_DESC s'.view (s'.released + s'.cleared) (s'.released + s'.cleared + NUM_RX_DESC) s.packet?)
    (hcall : ∀ c, s'.call = some c → s'.Found c) : s'.Sound := by
  have hhead : s'.AtHead := by
    have hat := h.head
    unfold AtHead at hat ⊢
    rw [hdevice, hrdh, hstored, hbufs, hbase]
    cases hd : s.device with
    | idle => simpa only [hd] using hat
    | writing p =>
      simp only [hd] at hat
      exact ⟨hat.1, hat.2.1.trans_le (by omega), hat.2.2⟩
    | buffered p =>
      simp only [hd] at hat
      exact ⟨hat.1, hat.2.1.trans_le (by omega), hat.2.2⟩
    | described => simpa only [hd] using hat
  refine ⟨by rwa [hbase], by rw [hstored]; exact h.slots, by rwa [hstored], by rwa [hstored], ?_, hrdt, hcursor, ?_, hhead,
    hcall⟩
  · rw [hstored]
    exact h.upper.trans_le (by omega)
  · have hpacket : s'.packet? = s.packet? := by
      unfold packet?
      rw [hstored]
    rwa [hpacket]

theorem goOn (h : s.Sound) {c' : RecvCall} (hreleased : (s.goTo c').released = s.released)
    (hcleared : (s.goTo c').cleared = s.cleared) (hahead : (s.goTo c').ahead = s.ahead) (hfound : (s.goTo c').Found c') :
    (s.goTo c').Sound := by
  refine h.driver rfl rfl rfl rfl rfl h.returned hreleased.ge (hreleased ▸ h.lower) (hreleased ▸ h.rdt) ?_ h.addrs ?_
    fun c hc => ?_
  · rw [hreleased, hahead]
    exact h.cursor
  · rw [hreleased, hcleared]
    exact h.shows
  · obtain rfl := Option.some.inj hc
    exact hfound

theorem view_idx (h : s.Sound) (hcleared : s.cleared = 0) {idx : ℕ} (hidx : idx = s.released % NUM_RX_DESC) :
    s.view idx = s.packet? s.released := by
  have hshows := h.shows
  rw [hcleared] at hshows
  rw [hidx]
  exact hshows _ le_rfl (by show _ < _ + 64; omega)

theorem view_of_done (h : (s.ring i).status &&& RDESC_STATUS_DD ≠ 0) :
    s.view i = some ((s.bufs (s.ring i).addr).take (s.ring i).length) := if_neg h

theorem empty_of_view (h : s.view i = none) : (s.ring i).status &&& RDESC_STATUS_DD = 0 := by
  by_contra hdd
  cases (view_of_done hdd).symm.trans h

theorem lt_of_packet {k : ℕ} (h : s.packet? k = some p) : k < s.stored.length := by
  obtain ⟨q, hq, -⟩ := Option.map_eq_some_iff.mp h
  exact (List.getElem?_eq_some_iff.mp hq).1

theorem addrs_store (h : s.Sound) (i : ℕ) (f : RxDesc → RxDesc) (hf : (f (s.ring i)).addr = (s.ring i).addr) (j : ℕ) :
    ((s.storeDesc i f).ring j).addr = bufAddr s.base j := by
  simp only [storeDesc]
  by_cases hj : j = i
  · rw [hj, update_self, hf, h.addrs]
  · rw [update_of_ne hj, h.addrs]

theorem view_store (i : ℕ) (f : RxDesc → RxDesc) (hf : (f (s.ring i)).status &&& RDESC_STATUS_DD = 0) :
    (s.storeDesc i f).view = update s.view i none := by
  funext j
  by_cases hj : j = i
  · subst hj
    rw [update_self]
    refine if_pos ?_
    simp only [storeDesc, update_self]
    exact hf
  · rw [update_of_ne hj]
    simp [view, storeDesc, update_of_ne hj]

theorem packet_behind (h : s.Sound) : s.packet? (s.released + NUM_RX_DESC) = none := by
  rw [packet?, List.getElem?_eq_none h.upper.le, Option.map_none]

-- in a state that is written as `s.goTo c` the counters of a stage are known by computation
theorem recv (h : ({ s with call := none } : Rx).Sound) : (s.goTo { idx := s.rxCur, stage := .status }).Sound := by
  refine h.driver rfl rfl rfl rfl rfl h.returned le_rfl h.lower h.rdt h.cursor h.addrs h.shows fun c hc => ?_
  obtain rfl := Option.some.inj hc
  exact h.cursor

theorem cpu (h : (s.goTo c).Sound) (hs : (s.goTo c).cpu c = some s') : s'.Sound := by
  have hfound := h.call c rfl
  obtain ⟨idx, len, data, stage⟩ := c
  cases stage with
  | status =>
    simp only [Rx.cpu] at hs
    split_ifs at hs with hdd
    · obtain rfl := Option.some.inj hs
      exact h.driver rfl rfl rfl rfl rfl h.returned le_rfl h.lower h.rdt h.cursor h.addrs h.shows nofun
    · obtain rfl := Option.some.inj hs
      have hview := h.view_idx rfl hfound
      rw [view_of_done hdd] at hview
      exact h.goOn rfl rfl rfl ⟨hfound, lt_of_packet hview.symm⟩
  | length =>
    have hlt : s.returned.length < s.stored.length := hfound.2
    obtain rfl := Option.some.inj hs
    have hview : s.view idx = s.packet? s.returned.length := h.view_idx rfl hfound.1
    have hsome : s.packet? s.returned.length ≠ none := by simp [packet?, hlt]
    have haddr : (s.ring idx).addr = bufAddr s.base idx := h.addrs idx
    have hdd : (s.ring idx).status &&& RDESC_STATUS_DD ≠ 0 := fun hdd => hsome (hview ▸ if_pos hdd)
    rw [view_of_done hdd, haddr] at hview
    exact h.goOn rfl rfl rfl ⟨hfound.1, hview.symm⟩
  | copy =>
    obtain ⟨-, hs⟩ := Option.ite_none_right_eq_some.mp hs
    obtain rfl := Option.some.inj hs
    exact h.goOn rfl rfl rfl hfound
  | clearStatus =>
    obtain rfl := Option.some.inj hs
    refine h.driver rfl rfl rfl rfl rfl h.returned le_rfl h.lower h.rdt h.cursor
      (h.addrs_store idx (fun d => { d with status := 0 }) rfl) ?_ fun c hc => ?_
    · -- the slot now stands for the position a whole ring further on
      have hslot : idx = (s.returned.length + NUM_RX_DESC) % NUM_RX_DESC := hfound.1.trans (Nat.add_mod_right ..).symm
      have hview := view_store (s := s) idx (fun d => { d with status := 0 }) (Nat.zero_and _)
      have hnew : Shows NUM_RX_DESC (update s.view idx none) (s.returned.length + 1)
          (s.returned.length + NUM_RX_DESC + 1) s.packet? := by
        refine Shows.snoc ?_ ?_
        · rw [hslot]
          exact (h.shows.mono (Nat.le_succ _) le_rfl).write_behind le_rfl (by omega) none
        · rw [← hslot, update_self]
          exact h.packet_behind.symm
      rw [← hview] at hnew
      exact hnew
    · obtain rfl := Option.some.inj hc
      exact hfound
  | clearLength =>
    obtain rfl := Option.some.inj hs
    have hslot : idx = (s.returned.length + NUM_RX_DESC) % NUM_RX_DESC := hfound.1.trans (Nat.add_mod_right ..).symm
    have hbehind : s.packet? (s.returned.length + NUM_RX_DESC) = none := h.packet_behind
    have hshows : Shows NUM_RX_DESC s.view (s.returned.length + 1) (s.returned.length + 1 + NUM_RX_DESC) s.packet? := h.shows
    have hnone : s.view idx = none := by
      rw [hslot, hshows _ (by show _ ≤ _ + 64; omega) (by omega), hbehind]
    refine h.driver rfl rfl rfl rfl rfl h.returned le_rfl h.lower h.rdt h.cursor
      (h.addrs_store idx (fun d => { d with length := 0 }) rfl) ?_ fun c hc => ?_
    · have hview := view_store (s := s) idx (fun d => { d with length := 0 }) (empty_of_view hnone)
      have hnew := hshows.write (k := s.returned.length + NUM_RX_DESC) (by show _ ≤ _ + 64; omega) (by omega) le_rfl none
      rw [← hslot, ← hview, ← hbehind, Function.update_eq_self] at hnew
      exact hnew
    · obtain rfl := Option.some.inj hc
      exact hfound
  | cursor =>
    obtain rfl := Option.some.inj hs
    refine h.driver rfl rfl rfl rfl rfl h.returned le_rfl h.lower h.rdt ?_ h.addrs h.shows fun c hc => ?_
    · have hcursor : s.rxCur = s.returned.length % NUM_RX_DESC := h.cursor
      show (s.rxCur + 1) % NUM_RX_DESC = (s.returned.length + 1) % NUM_RX_DESC
      rw [hcursor, Nat.mod_add_mod]
    · obtain rfl := Option.some.inj hc
      exact hfound
  | tail =>
    obtain ⟨hidx, hpacket⟩ := hfound
    obtain rfl := Option.some.inj hs
    refine h.driver rfl rfl rfl rfl rfl h.returned (Nat.le_succ _) (lt_of_packet hpacket) ?_ h.cursor h.addrs h.shows
      fun c hc => ?_
    · exact hidx.trans (Nat.add_mod_right ..).symm
    · obtain rfl := Option.some.inj hc
      exact hpacket
  | count =>
    have hpacket : s.packet? s.returned.length = some data := hfound
    obtain ⟨-, hs⟩ := Option.ite_none_right_eq_some.mp hs
    obtain rfl := Option.some.inj hs
    have hlen : (s.returned ++ [data]).length = s.returned.length + 1 := List.length_append
    refine h.driver rfl rfl rfl rfl rfl ?_ hlen.ge (hlen.trans_le h.lower) (h.rdt.trans ?_) (h.cursor.trans ?_) h.addrs ?_ nofun
    · have htake : s.returned = (s.stored.map Prod.snd).take s.returned.length := List.prefix_iff_eq_take.mp h.returned
      have hnext : (s.stored.map Prod.snd)[s.returned.length]? = some data := List.getElem?_map.trans hpacket
      show s.returned ++ [data] <+: s.stored.map Prod.snd
      rw [List.prefix_iff_eq_take, hlen, List.take_add_one, ← htake, hnext]
      rfl
    · exact congrArg (fun n => (n + (NUM_RX_DESC - 1)) % NUM_RX_DESC) hlen.symm
    · exact congrArg (· % NUM_RX_DESC) hlen.symm
    · show Shows NUM_RX_DESC s.view (s.returned ++ [data]).length ((s.returned ++ [data]).length + NUM_RX_DESC) s.packet?
      rw [hlen]
      exact h.shows

/-! The steps of the device -/

theorem found_of_grows (hfound : s.Found c) (hreleased : s'.released = s.released) (hreturned : s'.returned = s.returned)
    (hstored : s.stored <+: s'.stored) (hbase : s'.base = s.base)
    (hbuf : c.stage = .copy → s'.bufs (bufAddr s.base c.idx) = s.bufs (bufAddr s.base c.idx)) : s'.Found c := by
  have hpacket : ∀ {k : ℕ} {p : List Byte}, s.packet? k = some p → s'.packet? k = some p := by
    intro k p hp
    obtain ⟨rest, hrest⟩ := hstored
    have hlt := lt_of_packet hp
    rw [packet?, ← hrest, List.getElem?_append_left hlt]
    exact hp
  unfold Found at hfound ⊢
  rw [hreleased, hbase, hreturned]
  cases hstage : c.stage with
  | status => simpa only [hstage] using hfound
  | length =>
    simp only [hstage] at hfound
    exact ⟨hfound.1, hfound.2.trans_le hstored.length_le⟩
  | copy =>
    simp only [hstage] at hfound
    refine ⟨hfound.1, ?_⟩
    rw [hbuf hstage]
    exact hpacket hfound.2
  | clearStatus | clearLength | cursor | tail =>
    simp only [hstage] at hfound
    exact ⟨hfound.1, hpacket hfound.2⟩
  | count =>
    simp only [hstage] at hfound
    exact hpacket hfound

theorem device_quiet (h : s.Sound) {rdh : ℕ} {device : Device} (hhead : ({ s with rdh, device } : Rx).AtHead) :
    ({ s with rdh, device } : Rx).Sound :=
  ⟨h.addrs, h.slots, h.returned, h.lower, h.upper, h.rdt, h.cursor, h.shows, hhead, h.call⟩

theorem arrive (h : s.Sound) (hidle : s.device = .idle) (hp : p.length ≤ RX_BUF_SIZE) :
    (s.arrive p).Sound := by
  unfold Rx.arrive
  by_cases hfull : s.rdh = s.rdt
  · rw [if_pos hfull]
    exact h
  · rw [if_neg hfull]
    have hat := h.head
    simp only [AtHead, hidle] at hat
    refine h.device_quiet ⟨hat, ?_, hp⟩
    -- the head is not at the tail, so the packet does not take the last descriptor
    have hle : s.stored.length ≤ s.released + (NUM_RX_DESC - 1) := Nat.le_sub_one_of_lt h.upper
    have hne : s.stored.length ≠ s.released + (NUM_RX_DESC - 1) := by
      intro he
      rw [hat, h.rdt, he] at hfull
      exact hfull rfl
    exact lt_of_le_of_ne hle hne

theorem bufAddr_ne {base j : ℕ} (h : i ≠ j) : bufAddr base i ≠ bufAddr base j := by
  unfold bufAddr RX_BUF_SIZE
  omega

theorem writing (h : s.Sound) (hdev : s.device = .writing p) (hs : s.deviceStep = some s') : s'.Sound := by
  have hat := h.head
  simp only [AtHead, hdev] at hat
  obtain ⟨hrdh, hroom, hp⟩ := hat
  simp only [deviceStep, hdev, h.addrs, Option.some.injEq] at hs
  have hempty : s.view s.rdh = none := by
    rw [hrdh, h.shows _ h.start_le (h.upper.trans_le (by omega)), packet?, List.getElem?_eq_none le_rfl, Option.map_none]
  have hview : s'.view = s.view := by
    funext i
    subst hs
    by_cases hi : i = s.rdh
    · rw [hi, hempty]
      exact if_pos (empty_of_view hempty)
    · simp [view, h.addrs, update_of_ne (bufAddr_ne hi)]
  have hat' : s'.AtHead := by
    subst hs
    refine ⟨hrdh, hroom, hp, ?_⟩
    simp [update_self]
  have hcall : ∀ c, s'.call = some c → s'.Found c := by
    intro c hc
    subst hs
    refine found_of_grows (h.call c hc) rfl rfl List.prefix_rfl rfl fun hstage => ?_
    -- the packet being copied is in another buffer
    have hfound := h.call c hc
    simp only [Found, hstage] at hfound
    have hlt := lt_of_packet hfound.2
    have hne : c.idx ≠ s.rdh := by
      rw [hfound.1, hrdh]
      intro he
      exact hlt.ne (slot_inj hlt.le h.upper he)
    exact update_of_ne (bufAddr_ne hne) _ _
  have hshows := h.shows
  rw [← hview] at hshows
  subst hs
  exact ⟨h.addrs, h.slots, h.returned, h.lower, h.upper, h.rdt, h.cursor, hshows, hat', hcall⟩

theorem buffered (h : s.Sound) (hdev : s.device = .buffered p) (hs : s.deviceStep = some s') : s'.Sound := by
  have hat := h.head
  simp only [AtHead, hdev] at hat
  obtain ⟨hrdh, hroom, -, hbuf⟩ := hat
  have hstart := h.start_le
  simp only [deviceStep, hdev, Option.some.injEq] at hs
  have hstored : s'.stored = s.stored ++ [(s.rdh, p)] := by rw [← hs]
  have hlen : s'.stored.length = s.stored.length + 1 := by rw [hstored, List.length_append, List.length_singleton]
  have hpacket : s'.packet? = update s.packet? s.stored.length (some p) := by
    funext k
    rw [packet?, hstored]
    rcases Nat.lt_trichotomy k s.stored.length with hk | rfl | hk
    · rw [List.getElem?_append_left hk, update_of_ne hk.ne, packet?]
    · rw [update_self]
      simp
    · rw [update_of_ne hk.ne', packet?, List.getElem?_eq_none hk.le, List.getElem?_eq_none]
      rw [List.length_append]
      exact hk
  have hview : s'.view = update s.view s.rdh (some p) := by
    funext i
    subst hs
    by_cases hi : i = s.rdh
    · subst hi
      rw [view_of_done (by simp [storeDesc, RDESC_STATUS_DD])]
      simp [storeDesc, h.addrs, hbuf]
    · rw [update_of_ne hi]
      simp [view, storeDesc, update_of_ne hi]
  have hshows : Shows NUM_RX_DESC s'.view (s.released + s.cleared) (s.released + s.cleared + NUM_RX_DESC) s'.packet? := by
    rw [hview, hpacket, hrdh]
    exact h.shows.write hstart (h.upper.trans_le (by omega)) le_rfl (some p)
  have hslots : ∀ k q, s'.stored[k]? = some q → q.1 = k % NUM_RX_DESC := by
    intro k q hq
    rw [hstored] at hq
    rcases Nat.lt_or_ge k s.stored.length with hk | hk
    · rw [List.getElem?_append_left hk] at hq
      exact h.slots k q hq
    · have hlt := (List.getElem?_eq_some_iff.mp hq).1
      rw [List.length_append, List.length_singleton] at hlt
      obtain rfl : k = s.stored.length := by omega
      rw [List.getElem?_append_right le_rfl, Nat.sub_self] at hq
      obtain rfl := Option.some.inj hq
      exact hrdh
  have hhead : s'.AtHead := by
    have hdev' : s'.device = .described := by rw [← hs]
    have hrdh' : s'.rdh = s.rdh := by rw [← hs]; rfl
    simp [AtHead, hdev', hlen, hrdh', hrdh]
  have hcall : ∀ c, s'.call = some c → s'.Found c := by
    intro c hc
    subst hs
    exact found_of_grows (h.call c hc) rfl rfl (List.prefix_append _ _) rfl fun _ => rfl
  have hgrows : s.stored.map Prod.snd <+: s'.stored.map Prod.snd := by
    rw [hstored, List.map_append]
    exact List.prefix_append _ _
  have hlower : s.released ≤ s'.stored.length := by
    omega
  have hupper : s'.stored.length < s.released + NUM_RX_DESC := by
    omega
  have haddrs := h.addrs_store s.rdh
    (fun d => { d with length := p.length, status := RDESC_STATUS_DD ||| RDESC_STATUS_EOP }) rfl
  subst hs
  exact ⟨haddrs, hslots, h.returned.trans hgrows, hlower, hupper, h.rdt, h.cursor, hshows, hhead, hcall⟩

theorem deviceStep (h : s.Sound) (hs : s.deviceStep = some s') : s'.Sound := by
  cases hdev : s.device with
  | idle => simp [Rx.deviceStep, hdev] at hs
  | writing p => exact h.writing hdev hs
  | buffered p => exact h.buffered hdev hs
  | described =>
    have hat := h.head
    simp only [AtHead, hdev] at hat
    simp only [Rx.deviceStep, hdev, Option.some.injEq] at hs
    subst hs
    exact h.device_quiet hat

theorem step {e : RxEvent} (h : s.Sound) (hs : rxStep s e = some s') : s'.Sound := by
  cases e with
  | recv =>
    obtain ⟨hc, hs⟩ := Option.ite_none_right_eq_some.mp hs
    obtain rfl := Option.some.inj hs
    refine recv ?_
    rw [← Option.isNone_iff_eq_none.mp hc]
    exact h
  | cpu =>
    obtain ⟨c, hc, hs⟩ := Option.bind_eq_some_iff.mp hs
    have hgo : s.goTo c = s := by rw [goTo, ← hc]
    rw [← hgo] at h hs
    exact h.cpu hs
  | arrive p =>
    cases hdev : s.device with
    | idle =>
      simp only [rxStep, hdev] at hs
      obtain ⟨hp, hs⟩ := Option.ite_none_right_eq_some.mp hs
      obtain rfl := Option.some.inj hs
      exact h.arrive hdev hp
    | writing _ | buffered _ | described => simp [rxStep, hdev] at hs
  | device => exact h.deviceStep hs

end Rx.Sound

/-! ### Runs -/

def SparesUnread (s : Rx) (e : RxEvent) : Prop :=
  ∀ p, e = .device → s.device = .writing p →
    ∀ k q, s.returned.length ≤ k → s.stored[k]? = some q → (s.ring s.rdh).addr ≠ bufAddr s.base q.1

theorem Rx.Sound.sparesUnread {s : Rx} (h : s.Sound) (e : RxEvent) : SparesUnread s e := by
  intro p _ hdev k q hk hq
  have hat := h.head
  simp only [Rx.AtHead, hdev] at hat
  obtain ⟨hrdh, hroom, -⟩ := hat
  have hlt := (List.getElem?_eq_some_iff.mp hq).1
  have hreleased : s.released ≤ s.returned.length + 1 := by
    unfold Rx.released
    split
    · split_ifs <;> omega
    · omega
  rw [h.addrs, h.slots k q hq, hrdh]
  refine Rx.Sound.bufAddr_ne fun he => hlt.ne' ?_
  exact (slot_inj hlt.le (by omega) he.symm).symm

/-- **Packets are received in order, once each and intact**: what `recv` has returned is a prefix of what the device has
stored, and the device never writes to a buffer whose packet has not been returned. -/
theorem received_in_order {base : ℕ} {tr : List (Rx × RxEvent)} {s : Rx} (h : Run rxStep (initRx base) tr s) :
    s.returned <+: s.stored.map Prod.snd ∧ ∀ x ∈ tr, SparesUnread x.1 x.2 := by
  let I (tr : List (Rx × RxEvent)) (s : Rx) : Prop := s.Sound ∧ ∀ x ∈ tr, SparesUnread x.1 x.2
  have hI : I tr s := by
    refine h.history (K := fun _ _ => True) ⟨sound_initRx base, by simp⟩ (fun _ _ => trivial) fun tr s e s' hI _ hs => ?_
    obtain ⟨hsound, hspares⟩ := hI
    refine ⟨hsound.step hs, fun x hx => ?_⟩
    rcases List.mem_append.mp hx with hx | hx
    · exact hspares x hx
    · rw [List.mem_singleton.mp hx]
      exact hsound.sparesUnread e
  exact ⟨hI.1.returned, hI.2⟩

/-- Two packets arrive, the second while the first is being received. -/
theorem received_in_order_two : ∃ tr s, Run rxStep (initRx 0x100000) tr s ∧ s.returned = [[1#8, 2#8]] ∧
    s.stored = [(0, [1#8, 2#8]), (1, [3#8])] ∧ ∀ x ∈ tr, SparesUnread x.1 x.2 := by
  have hfinal : (exec rxStep (fun _ _ => True) (initRx 0x100000) [.arrive [1#8, 2#8], .recv, .device, .device, .cpu, .cpu,
      .device, .arrive [3#8], .cpu, .device, .cpu, .cpu, .device, .cpu, .cpu, .cpu]).any
      fun s => s.returned = [[1#8, 2#8]] ∧ s.stored = [(0, [1#8, 2#8]), (1, [3#8])] := by
    decide +kernel
  obtain ⟨tr, s, hrun, -, hreturned, hstored⟩ := exists_run_of_any hfinal
  exact ⟨tr, s, hrun, hreturned, hstored, (received_in_order hrun).2⟩

end RustKernel.E1000
