import RustKernel.Drivers.Fat32.Model
import RustKernel.Gfx.Framebuffer

/-!
# Input events across the ABI

`sys_input_poll` of `gfx/mod.rs` copies records of the kernel's type `InputEventAbi` to the caller, byte for byte. The
caller reads them as records of a type of its own: `InputEvent` of `ulib`, or `InputEvent` of the crate `abi`.
-/

namespace RustKernel.Gfx

open Lib Drivers

/-! ### Records -/

inductive Scalar where
  | u32
  | i32
  | u64

def Scalar.bytes : Scalar → ℕ
  | .u32 | .i32 => 4
  | .u64 => 8

def roundUp (n a : ℕ) : ℕ := (n + a - 1) / a * a

section Layout

variable {F : Type}

def offsets : ℕ → List (F × Scalar) → List (F × Scalar × ℕ)
  | _, [] => []
  | off, (f, ty) :: rest => (f, ty, roundUp off ty.bytes) :: offsets (roundUp off ty.bytes + ty.bytes) rest

def layoutSize (fields : List (F × Scalar)) : ℕ :=
  let last := (offsets 0 fields).getLast?.elim 0 fun x => x.2.2 + x.2.1.bytes
  roundUp last ((fields.map fun x => x.2.bytes).foldl max 1)

def leBytes : ℕ → ℕ → List Byte
  | 0, _ => []
  | w + 1, n => BitVec.ofNat 8 n :: leBytes w (n / 256)

def leNat : List Byte → ℕ
  | [] => 0
  | b :: bs => b.toNat + 256 * leNat bs

theorem leNat_leBytes (w n : ℕ) : leNat (leBytes w n) = n % 256 ^ w := by
  induction w generalizing n with
  | zero => rw [leBytes, leNat, pow_zero, Nat.mod_one]
  | succ w ih =>
    rw [leBytes, leNat, ih, pow_succ' 256 w]
    exact Nat.mod_mul.symm

def image (value : F → ℕ) : ℕ → List (F × Scalar) → List Byte
  | _, [] => []
  | off, (f, ty) :: rest =>
    List.replicate (roundUp off ty.bytes - off) 0 ++ leBytes ty.bytes (value f) ++
      image value (roundUp off ty.bytes + ty.bytes) rest

def view [DecidableEq F] (fields : List (F × Scalar)) (bytes : List Byte) (f : F) : Option ℕ :=
  ((offsets 0 fields).find? fun x => x.1 = f).map fun x => leNat ((bytes.drop x.2.2).take x.2.1.bytes)

end Layout

/-! ### The three types -/

inductive Field where
  | kind | pad0 | timestampMs | scancode | keysym | mods | pad1
  | mouseX | mouseY | mouseDx | mouseDy | mouseButtons | wheel
  deriving DecidableEq

def kernelFields : List (Field × Scalar) :=
  [(.kind, .u32), (.pad0, .u32), (.timestampMs, .u64), (.scancode, .u32), (.keysym, .u32), (.mods, .u32), (.pad1, .u32),
    (.mouseX, .i32), (.mouseY, .i32), (.mouseDx, .i32), (.mouseDy, .i32), (.mouseButtons, .u32), (.wheel, .i32)]

def ulibFields : List (Field × Scalar) :=
  [(.kind, .u32), (.pad0, .u32), (.timestampMs, .u64), (.scancode, .u32), (.keysym, .u32), (.mods, .u32), (.pad1, .u32),
    (.mouseX, .i32), (.mouseY, .i32), (.mouseDx, .i32), (.mouseDy, .i32), (.mouseButtons, .u32), (.wheel, .i32)]

def abiFields : List (Field × Scalar) :=
  [(.kind, .u32), (.timestampMs, .u64), (.scancode, .u32), (.keysym, .u32), (.mods, .u32), (.mouseX, .i32),
    (.mouseY, .i32), (.mouseDx, .i32), (.mouseDy, .i32), (.mouseButtons, .u32), (.wheel, .i32)]

structure InputEventAbi where
  kind : BitVec 32 := 0
  pad0 : BitVec 32 := 0
  timestampMs : BitVec 64 := 0
  scancode : BitVec 32 := 0
  keysym : BitVec 32 := 0
  mods : BitVec 32 := 0
  pad1 : BitVec 32 := 0
  mouseX : BitVec 32 := 0
  mouseY : BitVec 32 := 0
  mouseDx : BitVec 32 := 0
  mouseDy : BitVec 32 := 0
  mouseButtons : BitVec 32 := 0
  wheel : BitVec 32 := 0

namespace InputEventAbi

variable (e : InputEventAbi)

def field : Field → ℕ
  | .kind => e.kind.toNat
  | .pad0 => e.pad0.toNat
  | .timestampMs => e.timestampMs.toNat
  | .scancode => e.scancode.toNat
  | .keysym => e.keysym.toNat
  | .mods => e.mods.toNat
  | .pad1 => e.pad1.toNat
  | .mouseX => e.mouseX.toNat
  | .mouseY => e.mouseY.toNat
  | .mouseDx => e.mouseDx.toNat
  | .mouseDy => e.mouseDy.toNat
  | .mouseButtons => e.mouseButtons.toNat
  | .wheel => e.wheel.toNat

def bytes : List Byte := image e.field 0 kernelFields

def Flat : Prop :=
  e.pad1 = e.mouseX ∧ e.mouseX = e.mouseY ∧ e.mouseY = e.mouseDx ∧ e.mouseDx = e.mouseDy ∧
    e.mouseDy = e.mouseButtons ∧ e.mouseButtons = e.wheel
deriving Decidable

end InputEventAbi

def shifted : Field → Field
  | .mouseX => .pad1
  | .mouseY => .mouseX
  | .mouseDx => .mouseY
  | .mouseDy => .mouseDx
  | .mouseButtons => .mouseDy
  | .wheel => .mouseButtons
  | f => f

theorem layoutSize_eq : layoutSize kernelFields = 56 ∧ layoutSize ulibFields = 56 ∧ layoutSize abiFields = 56 := by decide

variable {e : InputEventAbi}

theorem leNat_word {w : ℕ} (x : BitVec (8 * w)) : leNat (leBytes w x.toNat) = x.toNat := by
  rw [leNat_leBytes, Nat.mod_eq_of_lt]
  have h := x.isLt
  rwa [Nat.pow_mul] at h

theorem view_ulib (f : Field) : view ulibFields e.bytes f = some (e.field f) := by
  cases f
  case timestampMs => exact congrArg some (leNat_word (w := 8) _)
  all_goals exact congrArg some (leNat_word (w := 4) _)

theorem view_abi {f : Field} (h : f ∈ abiFields.map Prod.fst) : view abiFields e.bytes f = some (e.field (shifted f)) := by
  cases f
  case timestampMs => exact congrArg some (leNat_word (w := 8) _)
  case pad0 => simp [abiFields] at h
  case pad1 => simp [abiFields] at h
  all_goals exact congrArg some (leNat_word (w := 4) _)

theorem view_abi_iff : (∀ f ∈ abiFields.map Prod.fst, view abiFields e.bytes f = some (e.field f)) ↔ e.Flat := by
  have hiff : (∀ f ∈ abiFields.map Prod.fst, view abiFields e.bytes f = some (e.field f)) ↔
      ∀ f ∈ abiFields.map Prod.fst, e.field (shifted f) = e.field f :=
    forall₂_congr fun f hf => by rw [view_abi hf, Option.some.injEq]
  rw [hiff]
  simp [abiFields, shifted, InputEventAbi.field, InputEventAbi.Flat, BitVec.toNat_inj]

/-! ### The call -/

def pollLoop : ℕ → ℕ → List Byte → List InputEventAbi → ℕ × List Byte × List InputEventAbi
  | written, left + 1, dst, e :: queue =>
    pollLoop (written + 1) left (splice dst (written * layoutSize kernelFields) e.bytes) queue
  | written, _, dst, queue => (written, dst, queue)

def sysInputPoll (owner caller bufPtr max : ℕ) (dst : List Byte) (queue : List InputEventAbi) :
    ℕ × List Byte × List InputEventAbi :=
  if owner ≠ caller then (U64_MAX, dst, queue)
  else if 2 ^ 64 ≤ max * layoutSize kernelFields then (U64_MAX, dst, queue)
  else if !userSliceOk bufPtr (max * layoutSize kernelFields) then (U64_MAX, dst, queue)
  else pollLoop 0 max dst queue

theorem length_bytes : e.bytes.length = 56 := rfl

theorem pollLoop_eq (left : ℕ) (queue done : List InputEventAbi) (rest : List Byte)
    (hrest : rest.length = left * 56) :
    pollLoop done.length left (done.flatMap InputEventAbi.bytes ++ rest) queue = (done.length + min left queue.length,
        (done ++ queue.take left).flatMap InputEventAbi.bytes ++ rest.drop (min left queue.length * 56),
        queue.drop left) := by
  induction left generalizing queue done rest with
  | zero => simp [pollLoop]
  | succ left ih =>
    cases queue with
    | nil => simp [pollLoop]
    | cons e queue =>
      have hdone : (done.flatMap InputEventAbi.bytes).length = done.length * 56 := by
        rw [List.length_flatMap, List.map_congr_left (fun e _ => length_bytes), List.map_const', List.sum_replicate_nat]
      have hsplice : splice (done.flatMap InputEventAbi.bytes ++ rest) (done.length * 56) e.bytes =
          (done ++ [e]).flatMap InputEventAbi.bytes ++ rest.drop 56 := by
        rw [splice, length_bytes, List.take_left' hdone, List.drop_append, hdone,
          List.drop_eq_nil_of_le (by rw [hdone]; omega), List.flatMap_append]
        simp
      have hnext := ih queue (done ++ [e]) (rest.drop 56) (by rw [List.length_drop]; omega)
      rw [List.length_append, List.length_singleton] at hnext
      rw [pollLoop, show layoutSize kernelFields = 56 from rfl, hsplice, hnext]
      simp
      omega

theorem drop_flatMap_bytes {events : List InputEventAbi} {k : ℕ} (h : events[k]? = some e) (rest : List Byte) :
    ((events.flatMap InputEventAbi.bytes ++ rest).drop (k * 56)).take 56 = e.bytes := by
  induction events generalizing k with
  | nil => cases h
  | cons e' events ih =>
    rw [List.flatMap_cons, List.append_assoc]
    cases k with
    | zero =>
      obtain rfl := Option.some.inj h
      rw [List.drop_zero, List.take_left' length_bytes]
    | succ k =>
      rw [Nat.succ_mul, Nat.add_comm, ← List.drop_drop, List.drop_left' length_bytes]
      exact ih h

/-- **What a poll copies out**: the events at the head of the queue, the `k`-th at `k` times the size of each of the types.
`ulib` reads every field as it was. `abi` does if and only if the event is flat. -/
theorem inputPoll_views {owner caller bufPtr max : ℕ} {dst : List Byte} {queue : List InputEventAbi}
    (hdst : dst.length = max * 56) (h : (sysInputPoll owner caller bufPtr max dst queue).1 ≠ U64_MAX) :
    let r := sysInputPoll owner caller bufPtr max dst queue
    r.1 = min max queue.length ∧ ∀ k < r.1, ∃ e, queue[k]? = some e ∧
      (∀ fields ∈ [kernelFields, ulibFields, abiFields],
        (r.2.1.drop (k * layoutSize fields)).take (layoutSize fields) = e.bytes) ∧
      (∀ f, view ulibFields e.bytes f = some (e.field f)) ∧
      ((∀ f ∈ abiFields.map Prod.fst, view abiFields e.bytes f = some (e.field f)) ↔ e.Flat) := by
  have hr : sysInputPoll owner caller bufPtr max dst queue = (min max queue.length,
      (queue.take max).flatMap InputEventAbi.bytes ++ dst.drop (min max queue.length * 56), queue.drop max) := by
    unfold sysInputPoll at h ⊢
    split_ifs at h ⊢
    · exact absurd rfl h
    · exact absurd rfl h
    · exact absurd rfl h
    · have hloop := pollLoop_eq max queue [] dst hdst
      rwa [List.length_nil, Nat.zero_add] at hloop
  rw [hr]
  refine ⟨rfl, fun k hk => ?_⟩
  have hlt : k < queue.length := by omega
  have htake : (queue.take max)[k]? = some queue[k] := by
    rw [List.getElem?_take_of_lt (by omega), List.getElem?_eq_getElem hlt]
  refine ⟨queue[k], List.getElem?_eq_getElem hlt, fun fields hf => ?_, view_ulib, view_abi_iff⟩
  have hsize : layoutSize fields = 56 := by
    obtain ⟨h₁, h₂, h₃⟩ := layoutSize_eq
    simp only [List.mem_cons, List.not_mem_nil, or_false] at hf
    rcases hf with rfl | rfl | rfl <;> assumption
  rw [hsize]
  exact drop_flatMap_bytes htake _

/-- A key is pressed: everyone reads the same. -/
theorem inputPoll_views_key : let e : InputEventAbi := { kind := 1, timestampMs := 99, scancode := 30, keysym := 97 }
    (sysInputPoll 3 3 0x400000 2 (List.replicate 112 0) [e]).1 = 1 ∧
      ∀ f ∈ abiFields.map Prod.fst, view abiFields e.bytes f = some (e.field f) := by
  intro e
  obtain ⟨hr, hk⟩ := @inputPoll_views 3 3 0x400000 2 (List.replicate 112 0) [e] (by decide) (by decide)
  refine ⟨hr, ?_⟩
  obtain ⟨e', he, -, -, habi⟩ := hk 0 (by rw [hr]; decide)
  obtain rfl := Option.some.inj he
  exact habi.2 (by decide)

/-- **The mouse moves to (5, 9)**: `abi` reads its position as (0, 5). -/
theorem inputPoll_shifted : let e : InputEventAbi := { kind := 3, mouseX := 5, mouseY := 9 }
    let r := sysInputPoll 3 3 0x400000 1 (List.replicate 56 0) [e]
    r.1 = 1 ∧ view abiFields (r.2.1.take 56) .mouseX = some 0 ∧ view abiFields (r.2.1.take 56) .mouseY = some 5 := by
  decide

end RustKernel.Gfx
