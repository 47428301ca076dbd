import Mathlib.Data.List.Chain
import RustKernel.Lib.Loop
import RustKernel.Lib.Utf8

/-!
# The kernel shell

The loop of `run` of `shell/mod.rs` over the characters of the keyboard: the line, the history of the last 32 commands and the
cursor into it.
-/

namespace RustKernel.Shell

open Lib Exec

def KEY_UP : Char := Char.ofNat 0x11
def KEY_DOWN : Char := Char.ofNat 0x12
def KEY_LEFT : Char := Char.ofNat 0x13
def KEY_RIGHT : Char := Char.ofNat 0x14
def KEY_HOME : Char := Char.ofNat 0x15
def KEY_END : Char := Char.ofNat 0x16
def KEY_DEL : Char := Char.ofNat 0x17

structure Session where
  line : List Char
  history : List (List Char)
  histCursor : Option ℕ

def Session.new : Session := { line := [], history := [], histCursor := none }

def splitWhitespace (line : List Char) : List (List Char) := (line.splitOnP isWhitespace).filter (!·.isEmpty)

def index {α σ : Type} (xs : List α) (i : ℕ) : Exec Empty σ α :=
  match xs[i]? with
  | some x => pure x
  | none => panic

def checked (need : ℕ) (used : List ℕ) (args : List (List Char)) : List ℕ := if args.length < need then [] else used

def argIndices (cmd : String) (args : List (List Char)) : List ℕ :=
  match cmd with
  | "auth" | "useradd" | "passwd" | "killu" | "read" | "write" => checked 2 [0, 1] args
  | "cat" | "rm" | "sleep" | "syscall" | "exec" | "run" | "execfat" | "fatls" | "fatcat" | "userdel" | "ping" =>
    checked 1 [0] args
  | "writeblk" => checked 4 [3, 0, 1, 2] args
  | "path" =>
    checked 1 [0] args ++
      if args[0]? = some "add".toList ∨ args[0]? = some "set".toList then checked 2 [1] args else []
  | _ => []

/-- `execute`, as far as the arguments it indexes; the bodies of the commands are not modelled. -/
def execute (line : List Char) : Exec Empty Session Bool := do
  let parts := splitWhitespace line
  let cmd ← index parts 0
  let args := parts.drop 1
  let cmd := String.ofList cmd
  if cmd = "panic" then panic
  else
    (argIndices cmd args).forM fun i => do
      let _ ← index args i
      pure ()
    pure (cmd = "logout")

def remember (history : List (List Char)) (line : List Char) : List (List Char) :=
  if history.getLast? = some line then history
  else
    let history := history ++ [line]
    if history.length > 32 then history.tail else history

def enter : Exec Empty Session Unit := do
  let s ← get
  if s.line.isEmpty then modify fun s => { s with line := [], histCursor := none }
  else
    modify fun s => { s with history := remember s.history s.line }
    if ← execute s.line then modify fun _ => .new
    else modify fun s => { s with line := [], histCursor := none }

def up : Exec Empty Session Unit := do
  let s ← get
  if s.history.isEmpty then pure ()
  else
    let newCursor ← match s.histCursor with
      | none => sub s.history.length 1
      | some 0 => pure 0
      | some i => sub i 1
    let new ← index s.history newCursor
    modify fun s => { s with line := new, histCursor := some newCursor }

def down : Exec Empty Session Unit := do
  let s ← get
  match s.histCursor with
  | none => pure ()
  | some i =>
    if i + 1 ≥ s.history.length then modify fun s => { s with line := [], histCursor := none }
    else
      let new ← index s.history (i + 1)
      modify fun s => { s with line := new, histCursor := some (i + 1) }

def isEnter (ch : Char) : Bool := ch = '\n' || ch = '\r'

def press (ch : Char) : Exec Empty Session Unit :=
  if isEnter ch then enter
  else if ch = Char.ofNat 0x08 ∨ ch = Char.ofNat 0x7f then modify fun s => { s with line := s.line.dropLast }
  else if ch = KEY_UP then up
  else if ch = KEY_DOWN then down
  else if ch ∈ [KEY_LEFT, KEY_RIGHT, KEY_HOME, KEY_END, KEY_DEL] then pure ()
  else if ch.toNat < 0x20 then pure ()
  else modify fun s => { s with line := s.line ++ [ch] }

structure Sound (s : Session) : Prop where
  length : s.history.length ≤ 32
  differ : s.history.IsChain (· ≠ ·)
  cursor : ∀ i, s.histCursor = some i → i < s.history.length

def Harmless (line : List Char) : Prop :=
  line = [] ∨ ∃ cmd ∈ (splitWhitespace line).head?, String.ofList cmd ≠ "panic"
deriving Decidable

variable {s : Session}

theorem sound_new : Sound .new := ⟨by decide, .nil, fun _ h => nomatch h⟩

theorem remember_sound (h : Sound s) (line : List Char) :
    (remember s.history line).length ≤ 32 ∧ (remember s.history line).IsChain (· ≠ ·) := by
  have hlen := h.length
  unfold remember
  by_cases hlast : s.history.getLast? = some line
  · rw [if_pos hlast]
    exact ⟨hlen, h.differ⟩
  have hchain : (s.history ++ [line]).IsChain (· ≠ ·) := by
    refine .append h.differ (.singleton _) ?_
    rintro x hx _ ⟨⟩ rfl
    exact hlast hx
  dsimp only
  split_ifs with hfull
  · refine ⟨?_, hchain.tail⟩
    rw [List.length_tail, List.length_append, List.length_singleton]
    omega
  · exact ⟨by omega, hchain⟩

theorem index_eq {α σ : Type} {xs : List α} {i : ℕ} (h : i < xs.length) : (index xs i : Exec Empty σ α) = pure xs[i] := by
  rw [index, List.getElem?_eq_getElem h]

theorem checked_lt {need : ℕ} {used : List ℕ} (h : ∀ i ∈ used, i < need) (args : List (List Char)) :
    ∀ i ∈ checked need used args, i < args.length := by
  intro i hi
  unfold checked at hi
  split_ifs at hi with hlen
  · cases hi
  · exact (h i hi).trans_le (not_lt.mp hlen)

theorem argIndices_lt (cmd : String) (args : List (List Char)) : ∀ i ∈ argIndices cmd args, i < args.length := by
  unfold argIndices
  split
  case h_19 =>
    intro i hi
    rcases List.mem_append.mp hi with hi | hi
    · exact checked_lt (by decide) args i hi
    · split_ifs at hi
      · exact checked_lt (by decide) args i hi
      · cases hi
  case h_20 => exact fun i hi => nomatch hi
  all_goals exact checked_lt (by decide) args

theorem execute_returns {line : List Char} (h : ∃ cmd ∈ (splitWhitespace line).head?, String.ofList cmd ≠ "panic") :
    (execute line s).Returns fun _ s' => s' = s := by
  obtain ⟨cmd, hcmd, hne⟩ := h
  obtain ⟨rest, hparts⟩ := List.head?_eq_some_iff.mp hcmd
  have hlt : 0 < (splitWhitespace line).length := by rw [hparts]; exact Nat.succ_pos _
  unfold execute
  rw [index_eq hlt, pure_bind]
  have hfirst : (splitWhitespace line)[0] = cmd := by simp only [hparts, List.getElem_cons_zero]
  rw [hfirst, if_neg hne]
  refine returns_bind (returns_forM (I := fun is s' => (∀ i ∈ is, i < ((splitWhitespace line).drop 1).length) ∧ s' = s)
    ⟨argIndices_lt _ _, rfl⟩ ?_) fun _ s' h => returns_pure h.2
  rintro i is s' ⟨hin, rfl⟩
  rw [index_eq (hin i List.mem_cons_self)]
  exact returns_pure ⟨fun j hj => hin j (List.mem_cons_of_mem _ hj), rfl⟩

theorem enter_sound (h : Sound s) (hline : Harmless s.line) : (enter s).Returns fun _ => Sound := by
  unfold enter
  rw [get_bind]
  split_ifs with hempty
  · exact returns_modify ⟨h.length, h.differ, fun _ h => nomatch h⟩
  have hexec := hline.resolve_left fun hnil => hempty (List.isEmpty_iff.mpr hnil)
  obtain ⟨hlen, hdiffer⟩ := remember_sound h s.line
  rw [modify_bind]
  refine returns_bind (execute_returns hexec) ?_
  rintro out _ rfl
  split_ifs
  · exact returns_modify sound_new
  · exact returns_modify ⟨hlen, hdiffer, fun _ h => nomatch h⟩

theorem up_sound (h : Sound s) : (up s).Returns fun _ => Sound := by
  unfold up
  rw [get_bind]
  split_ifs with hempty
  · exact returns_pure h
  have hpos : 0 < s.history.length := List.length_pos_of_ne_nil fun hnil => hempty (List.isEmpty_iff.mpr hnil)
  have hrest : ∀ n < s.history.length, ((do
      let new ← index s.history n
      modify fun s => { s with line := new, histCursor := some n } : Exec Empty Session Unit) s).Returns fun _ => Sound := by
    intro n hn
    rw [index_eq hn, pure_bind]
    refine returns_modify ⟨h.length, h.differ, fun i hi => ?_⟩
    cases hi
    exact hn
  cases hcur : s.histCursor with
  | none =>
    simp only [sub_of_le hpos]
    exact hrest _ (by omega)
  | some i =>
    have hlt := h.cursor i hcur
    cases i with
    | zero => exact hrest 0 hpos
    | succ i => exact hrest _ (by omega)

theorem down_sound (h : Sound s) : (down s).Returns fun _ => Sound := by
  unfold down
  rw [get_bind]
  cases hcur : s.histCursor with
  | none => exact returns_pure h
  | some i =>
    dsimp only
    split_ifs with hlast
    · exact returns_modify ⟨h.length, h.differ, fun _ h => nomatch h⟩
    · rw [index_eq (not_le.mp hlast), pure_bind]
      refine returns_modify ⟨h.length, h.differ, fun j hj => ?_⟩
      cases hj
      exact not_le.mp hlast

theorem press_sound {ch : Char} (h : Sound s) (hline : isEnter ch = true → Harmless s.line) :
    (press ch s).Returns fun _ => Sound := by
  unfold press
  split_ifs with henter
  · exact enter_sound h (hline henter)
  · exact returns_modify ⟨h.length, h.differ, h.cursor⟩
  · exact up_sound h
  · exact down_sound h
  · exact returns_pure h
  · exact returns_pure h
  · exact returns_modify ⟨h.length, h.differ, h.cursor⟩

theorem run_sound {keys : List Char} (h : Sound s) (hlines : ∀ n ch, keys[n]? = some ch → isEnter ch = true →
    ((keys.take n).forM press s).Returns fun _ s' => Harmless s'.line) :
    (keys.forM press s).Returns fun _ => Sound := by
  induction keys generalizing s with
  | nil => exact returns_pure h
  | cons ch keys ih =>
    have hfirst : isEnter ch = true → Harmless s.line := by
      intro henter
      obtain ⟨_, _, heq, hline⟩ := hlines 0 ch rfl henter
      cases heq
      exact hline
    obtain ⟨_, s₁, heq, h₁⟩ := press_sound h hfirst
    have hbind : ∀ rest : List Char, (ch :: rest).forM press s = rest.forM press s₁ := fun rest => bind_of_ok heq
    rw [hbind]
    refine ih h₁ fun n ch' hn henter => ?_
    rw [← hbind]
    exact hlines (n + 1) ch' hn henter

/-- **The shell survives any typing** in which Enter is pressed neither on a line that has only blanks in it, nor for the
command `panic`: no index of the loop or of the arguments is out of range. -/
theorem shell_survives (keys : List Char) (hlines : ∀ n ch, keys[n]? = some ch → isEnter ch = true →
    ((keys.take n).forM press .new).Returns fun _ s => Harmless s.line) :
    (keys.forM press .new).Returns fun _ s => s.history.length ≤ 32 ∧ s.history.IsChain (· ≠ ·) ∧
      ∀ i, s.histCursor = some i → i < s.history.length :=
  (run_sound sound_new hlines).imp fun _ _ h => ⟨h.length, h.differ, h.cursor⟩

/-- A command, and the same command again from the history. -/
theorem shell_survives_ls : (("ls".toList ++ ['\n', KEY_UP, '\n', KEY_UP, KEY_DOWN]).forM press .new).Returns fun _ s =>
    s.history.length ≤ 32 ∧ s.history.IsChain (· ≠ ·) ∧ ∀ i, s.histCursor = some i → i < s.history.length := by
  refine shell_survives _ fun n ch hn henter => ?_
  rcases n with _ | _ | _ | _ | _ | _ | _ | n
  · cases hn; cases henter
  · cases hn; cases henter
  · decide +kernel
  · cases hn; cases henter
  · decide +kernel
  · cases hn; cases henter
  · cases hn; cases henter
  · cases hn

/-- **A line of blanks panics**: it is not empty, so it is executed, and `parts[0]` is out of range. -/
theorem blank_line_panics : [' ', '\n'].forM press .new = .panic := by
  rfl

end RustKernel.Shell
