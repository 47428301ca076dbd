import RustKernel.Lib.Json
import RustKernel.Net.Http
import RustKernel.Task.Process

/-!
# The process list of the HTTP server

`api_procs` of `net/http.rs`, and `list` of `task/process.rs` from which it has the processes: a JSON array with one object
for each process of the table, in the order of their pids.

`apiProcs_parse`: **the text is JSON**, whatever the names of the processes are, and says of each process what the table says.
-/

namespace RustKernel.Http

open Lib Lib.Json RustKernel.Task

structure NamedProcess where
  process : Process
  name : List Char

structure Listed where
  pid : ℕ
  parent : ℕ
  name : List Char
  state : ProcessState

def list (procs : Std.ExtTreeMap ℕ NamedProcess) : List Listed :=
  procs.toList.map fun e => ⟨e.2.process.pid, e.2.process.parent, e.2.name, e.2.process.state⟩

def intText (z : ℤ) : List Char := if z < 0 then '-' :: Nat.toDigits 10 z.natAbs else Nat.toDigits 10 z.natAbs

def debugText : ProcessState → List Char
  | .runnable => "Runnable".toList
  | .sleeping => "Sleeping".toList
  | .zombie code => "Zombie(".toList ++ intText code ++ ")".toList

def procText (p : Listed) : List Char :=
  "\x7b\"pid\":".toList ++ Nat.toDigits 10 p.pid ++ ",\"parent\":".toList ++ Nat.toDigits 10 p.parent ++
    ",\"name\":\"".toList ++ escape p.name ++ "\",\"state\":\"".toList ++ debugText p.state ++ "\"\x7d".toList

def apiProcs (procs : Std.ExtTreeMap ℕ NamedProcess) : List Char :=
  (list procs).zipIdx.foldl (fun s e => (if e.2 > 0 then s ++ [','] else s) ++ procText e.1) ['['] ++ [']']

def procJson (p : Listed) : Json :=
  .obj [("pid".toList, .num false p.pid [] 0), ("parent".toList, .num false p.parent [] 0), ("name".toList, .str p.name),
    ("state".toList, .str (debugText p.state))]

/-! ### Strings -/

theorem escape_eq (s : List Char) : escape s = s.flatMap fun c => escape [c] := by simp [escape]

theorem length_le_escape (s : List Char) : s.length ≤ (escape s).length := by
  induction s with
  | nil => exact Nat.zero_le _
  | cons c s ih =>
    have hone : 1 ≤ (escape [c]).length := by
      simp only [escape, List.flatMap_singleton]
      split_ifs <;> simp
    rw [escape_eq, List.flatMap_cons, ← escape_eq, List.length_append, List.length_cons]
    omega

theorem hexDigit_digitChar : ∀ n < 16, hexDigit (Nat.digitChar n) = some n := by decide

theorem encodes_escape (s : List Char) : Encodes (fun c => escape [c]) s := by
  intro c _
  simp only [escape, List.flatMap_singleton]
  split_ifs with hq hb hn hr hlow
  · subst hq
    exact ⟨by decide, fun rest => rfl⟩
  · subst hb
    exact ⟨by decide, fun rest => rfl⟩
  · subst hn
    exact ⟨by decide, fun rest => rfl⟩
  · subst hr
    exact ⟨by decide, fun rest => rfl⟩
  · refine ⟨by simp, fun rest => ?_⟩
    have hhigh := hexDigit_digitChar (c.toNat / 16) (by omega)
    have hdigit := hexDigit_digitChar (c.toNat % 16) (by omega)
    have hcode : ((0 * 16 + 0) * 16 + c.toNat / 16) * 16 + c.toNat % 16 = c.toNat := by omega
    have hhex : hex4 ('0' :: '0' :: Nat.digitChar (c.toNat / 16) :: Nat.digitChar (c.toNat % 16) :: rest) =
        some (c.toNat, rest) := by
      simp only [hex4, hhigh, hdigit, show hexDigit '0' = some 0 from rfl, Option.bind_eq_bind, Option.bind_some, hcode]
      rfl
    change unicode ('0' :: '0' :: Nat.digitChar (c.toNat / 16) :: Nat.digitChar (c.toNat % 16) :: rest) = some (c, rest)
    unfold unicode
    rw [hhex]
    simp only [Option.bind_eq_bind, Option.bind_some]
    rw [if_pos (.inl (by omega)), Char.ofNat_toNat]
    rfl
  · have hplain : Plain c := ⟨by omega, hq, hb⟩
    exact ⟨fun h => hq (Option.some.inj h), fun rest => char_plain hplain⟩

theorem reads_escape (s : List Char) : Reads 1 ('"' :: (escape s ++ ['"'])) (.str s) := by
  have h := reads_string (encodes_escape s) (by rw [← escape_eq]; exact length_le_escape s)
  rwa [← escape_eq] at h

theorem plain_of_isDigit {c : Char} (h : c.isDigit = true) : Plain c := by
  refine ⟨?_, ?_, ?_⟩
  · exact Nat.le_trans (by decide : 0x20 ≤ '0'.toNat) (Char.isDigit_iff_toNat.mp h).1
  · rintro rfl
    cases h
  · rintro rfl
    cases h

theorem plain_intText (z : ℤ) : ∀ c ∈ intText z, Plain c := by
  have hdigits : ∀ c ∈ Nat.toDigits 10 z.natAbs, Plain c := fun c hc =>
    plain_of_isDigit (Nat.isDigit_of_mem_toDigits (by decide) (by decide) hc)
  unfold intText
  split_ifs
  · exact List.forall_mem_cons.mpr ⟨by decide, hdigits⟩
  · exact hdigits

theorem plain_debugText (state : ProcessState) : ∀ c ∈ debugText state, Plain c := by
  cases state with
  | runnable =>
    show ∀ c ∈ "Runnable".toList, Plain c
    simp [Plain]
  | sleeping =>
    show ∀ c ∈ "Sleeping".toList, Plain c
    simp [Plain]
  | zombie code =>
    have hname : ∀ c ∈ "Zombie(".toList, Plain c := by simp [Plain]
    have hclose : ∀ c ∈ ")".toList, Plain c := by simp [Plain]
    exact List.forall_mem_append.mpr ⟨List.forall_mem_append.mpr ⟨hname, plain_intText code⟩, hclose⟩

theorem reads_debugText (state : ProcessState) : Reads 1 ('"' :: (debugText state ++ ['"'])) (.str (debugText state)) := by
  have h := reads_string (encodes_plain (plain_debugText state)) (by rw [List.flatMap_singleton'])
  rwa [List.flatMap_singleton'] at h

/-! ### The list -/

def procMembers (p : Listed) : List Member :=
  [⟨"pid".toList, Nat.toDigits 10 p.pid, .num false p.pid [] 0⟩, ⟨"parent".toList, Nat.toDigits 10 p.parent, .num false p.parent [] 0⟩,
    ⟨"name".toList, '"' :: (escape p.name ++ ['"']), .str p.name⟩,
    ⟨"state".toList, '"' :: (debugText p.state ++ ['"']), .str (debugText p.state)⟩]

theorem procText_eq (p : Listed) : procText p = '\x7b' :: (commas ((procMembers p).map Member.write) ++ ['\x7d']) := by
  have hpid : "\x7b\"pid\":".toList = '\x7b' :: '"' :: ("pid".toList ++ ['"', ':']) := by decide
  have hparent : ",\"parent\":".toList = ',' :: '"' :: ("parent".toList ++ ['"', ':']) := by decide
  have hname : ",\"name\":\"".toList = ',' :: '"' :: ("name".toList ++ ['"', ':', '"']) := by decide
  have hstate : "\",\"state\":\"".toList = '"' :: ',' :: '"' :: ("state".toList ++ ['"', ':', '"']) := by decide
  have hend : "\"\x7d".toList = ['"', '\x7d'] := by decide
  unfold procText
  simp only [hpid, hparent, hname, hstate, hend, procMembers, Member.write, commas, List.map_cons, List.map_nil, List.intercalate_cons_cons,
    List.intercalate_singleton, List.append_assoc, List.cons_append, List.nil_append]

theorem reads_procText (p : Listed) : Reads 2 (procText p) (procJson p) := by
  rw [procText_eq]
  refine reads_object (by simp [procMembers]) ?_ ?_
  · simp only [procMembers, List.forall_mem_cons]
    exact ⟨by simp [Plain], by simp [Plain], by simp [Plain], by simp [Plain], fun _ h => absurd h List.not_mem_nil⟩
  · simp only [procMembers, List.forall_mem_cons]
    exact ⟨reads_number _, reads_number _, reads_escape _, reads_debugText _, fun _ h => absurd h List.not_mem_nil⟩

theorem foldl_procText (ps : List Listed) (i : ℕ) (s : List Char) : (ps.zipIdx (i + 1)).foldl
    (fun s e => (if e.2 > 0 then s ++ [','] else s) ++ procText e.1) s = s ++ ps.flatMap fun p => ',' :: procText p := by
  induction ps generalizing i s with
  | nil => exact (List.append_nil s).symm
  | cons p ps ih =>
    rw [List.zipIdx_cons, List.foldl_cons, if_pos (Nat.succ_pos i), ih, List.append_assoc, List.append_assoc]
    rfl

theorem commas_eq (t : List Char) (ts : List (List Char)) : commas (t :: ts) = t ++ ts.flatMap (',' :: ·) := by
  induction ts generalizing t with
  | nil => rw [commas, List.intercalate_singleton, List.flatMap_nil, List.append_nil]
  | cons t' ts ih => rw [commas, List.intercalate_cons_cons, ← commas, ih, List.append_assoc]; rfl

theorem apiProcs_eq (procs : Std.ExtTreeMap ℕ NamedProcess) :
    apiProcs procs = '[' :: (commas ((list procs).map procText) ++ [']']) := by
  unfold apiProcs
  cases list procs with
  | nil => rfl
  | cons p ps =>
    rw [List.zipIdx_cons, List.foldl_cons, if_neg (Nat.lt_irrefl 0), foldl_procText, List.map_cons, commas_eq, List.flatMap_map]
    simp only [List.cons_append, List.nil_append]

/-- **The process list is JSON**, whatever the names are: an array with, for each process of the table in its order, an
object with its pid, its parent, its name and its state. And what `escape` makes of a string is read as that string. -/
theorem apiProcs_parse (procs : Std.ExtTreeMap ℕ NamedProcess) (s : List Char) :
    parse (apiProcs procs) = some (.arr ((list procs).map procJson)) ∧ parse ('"' :: (escape s ++ ['"'])) = some (.str s) := by
  refine ⟨?_, (reads_escape s).parse (by simp)⟩
  have hreads := @reads_array 2 ((list procs).map fun p => (procText p, procJson p))
    (List.forall_mem_map.mpr fun p _ => reads_procText p)
  rw [List.map_map, List.map_map] at hreads
  rw [apiProcs_eq]
  refine Reads.parse hreads ?_
  rw [List.length_cons, List.length_append]
  exact Nat.succ_le_succ (Nat.succ_le_succ (Nat.le_add_left 1 _))

end RustKernel.Http
