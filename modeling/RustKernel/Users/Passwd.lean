import RustKernel.Persist
import RustKernel.Lib.Lines
import RustKernel.Crypto.Sha256

/-!
# The file of accounts

`parse_passwd` of `users/mod.rs` reads `/etc/passwd`, a line for each account with seven fields between colons, and
`serialize` (in `RustKernel.Persist`) writes it. Lines that are not like that are passed over.

`parsePasswd_serialize` is the round trip: accounts whose fields have no separator in them, whose name does not look like a
comment and whose shell does not end with a carriage return are read back as they were written. The accounts of a text are
such accounts, whatever else is in it, so that one rewriting brings it into its final form (`parsePasswd_normalises`).
-/

namespace RustKernel.Users

open Lib Lib.Lines

def parseFields (line : List Char) : Option User :=
  match line.splitOn ':' with
  | [name, passwordHash, uid, gid, gecos, home, shell] =>
    (parseNat 32 uid).bind fun uid => (parseNat 32 gid).bind fun gid =>
      some { name, passwordHash, uid, gid, gecos, home, shell }
  | _ => none

def parseLine (line : List Char) : Option User :=
  let line := trimEnd '\r' line
  if line = [] ∨ line.head? = some '#' then none else parseFields line

def parsePasswd (content : List Char) : List User := (lines content).filterMap parseLine

def fields (u : User) : List (List Char) :=
  [u.name, u.passwordHash, Nat.toDigits 10 u.uid, Nat.toDigits 10 u.gid, u.gecos, u.home, u.shell]

structure Writable (u : User) : Prop where
  fields : ∀ f ∈ fields u, ':' ∉ f ∧ '\n' ∉ f
  name : u.name.head? ≠ some '#'
  shell : u.shell.getLast? ≠ some '\r'
  uid : u.uid < 2 ^ 32
  gid : u.gid < 2 ^ 32

def row (u : User) : List Char := [':'].intercalate (fields u)

theorem line_eq_row (u : User) : line u = row u ++ ['\n'] := by simp [line, row, fields]

theorem serialize_eq_rows (users : List User) : serialize users = (users.map row).flatMap (· ++ ['\n']) := by
  rw [List.flatMap_map]
  exact congrArg (fun f => users.flatMap f) (funext line_eq_row)

theorem exists_intercalate (name passwordHash uid gid gecos home shell : List Char) :
    ∃ mid, [':'].intercalate [name, passwordHash, uid, gid, gecos, home, shell] = name ++ ':' :: mid ++ ':' :: shell :=
  ⟨passwordHash ++ ':' :: uid ++ ':' :: gid ++ ':' :: gecos ++ ':' :: home, by simp⟩

namespace Writable

variable {u : User}

theorem no_newline (h : Writable u) : '\n' ∉ row u := by
  intro hmem
  have hin : ∀ f ∈ Users.fields u, '\n' ∉ f := fun f hf => (h.fields f hf).2
  simp only [Users.fields, List.mem_cons, forall_eq_or_imp] at hin
  simp [row, Users.fields, hin] at hmem

theorem last (h : Writable u) : (row u).getLast? ≠ some '\r' := by
  obtain ⟨mid, hmid⟩ := exists_intercalate u.name u.passwordHash _ _ u.gecos u.home u.shell
  rw [row, Users.fields, hmid]
  exact fun hlast => h.shell ((getLast?_append_cons (by decide)).mp hlast)

theorem row_ne_nil (u : User) : row u ≠ [] := by simp [row, Users.fields]

theorem head (h : Writable u) : (row u).head? ≠ some '#' := by
  obtain ⟨mid, hmid⟩ := exists_intercalate u.name u.passwordHash _ _ u.gecos u.home u.shell
  rw [row, Users.fields, hmid, List.append_assoc]
  exact fun hhead => h.name ((head?_append_cons (by decide)).mp hhead)

theorem parseLine_row (h : Writable u) : parseLine (row u) = some u := by
  have hsplit : (row u).splitOn ':' = Users.fields u :=
    List.splitOn_intercalate ':' (fun f hf => (h.fields f hf).1) (by simp [Users.fields])
  rw [parseLine, trimEnd_of_last h.last, if_neg (not_or.mpr ⟨row_ne_nil u, h.head⟩), parseFields, hsplit]
  simp only [Users.fields, parseNat_toDigits h.uid, parseNat_toDigits h.gid, Option.bind_some]

end Writable

theorem parsePasswd_serialize {users : List User} (h : ∀ u ∈ users, Writable u) : parsePasswd (serialize users) = users := by
  have hrows : ∀ l ∈ users.map row, '\n' ∉ l := by
    intro l hl
    obtain ⟨u, hu, rfl⟩ := List.mem_map.mp hl
    exact (h u hu).no_newline
  rw [parsePasswd, serialize_eq_rows, lines_unlines hrows, List.map_map, List.filterMap_map]
  induction users with
  | nil => rfl
  | cons u users ih =>
    have hu := h u List.mem_cons_self
    rw [List.filterMap_cons_some (b := u)]
    · congr 1
      exact ih (fun v hv => h v (List.mem_cons_of_mem _ hv)) fun l hl => hrows l (by simp [hl])
    · simp only [Function.comp_apply, stripCr_of_last hu.last, hu.parseLine_row]

theorem writable_of_parseLine {l : List Char} {u : User} (hl : '\n' ∉ l) (h : parseLine l = some u) : Writable u := by
  obtain ⟨hskip, h⟩ := Option.ite_none_left_eq_some.mp h
  have htrim : '\n' ∉ trimEnd '\r' l := fun hin => hl ((List.rdropWhile_prefix _ _).subset hin)
  have hlast := getLast?_trimEnd '\r' l
  generalize trimEnd '\r' l = t at hskip h htrim hlast
  have hcolon : ∀ f ∈ t.splitOn ':', ':' ∉ f := fun f => not_mem_of_mem_splitOn
  have hline := intercalate_splitOn ':' t
  unfold parseFields at h
  split at h
  · next name passwordHash uid gid gecos home shell hsplit =>
    rw [hsplit] at hcolon hline
    obtain ⟨uid', huid, h⟩ := Option.bind_eq_some_iff.mp h
    obtain ⟨gid', hgid, h⟩ := Option.bind_eq_some_iff.mp h
    cases h
    subst hline
    simp only [List.mem_cons, List.not_mem_nil, or_false, forall_eq_or_imp, forall_eq] at hcolon
    obtain ⟨hname, hhash, -, -, hgecos, hhome, hshell⟩ := hcolon
    obtain ⟨mid, hmid⟩ := exists_intercalate name passwordHash uid gid gecos home shell
    refine ⟨?_, fun hhead => hskip (.inr ?_), fun hend => hlast ?_, parseNat_lt huid, parseNat_lt hgid⟩
    · simp only [List.intercalate, List.intersperse, List.flatten_cons, List.flatten_nil, List.mem_append, List.mem_cons,
        List.not_mem_nil, or_false, not_or] at htrim
      obtain ⟨hname', -, hhash', -, -, -, -, -, hgecos', -, hhome', -, hshell'⟩ := htrim
      simp only [fields, List.mem_cons, List.not_mem_nil, or_false, forall_eq_or_imp, forall_eq]
      exact ⟨⟨hname, hname'⟩, ⟨hhash, hhash'⟩, ⟨not_mem_toDigits rfl, not_mem_toDigits rfl⟩,
        ⟨not_mem_toDigits rfl, not_mem_toDigits rfl⟩, ⟨hgecos, hgecos'⟩, ⟨hhome, hhome'⟩, ⟨hshell, hshell'⟩⟩
    · rw [hmid, List.append_assoc]
      exact (head?_append_cons (by decide)).mpr hhead
    · rw [hmid]
      exact (getLast?_append_cons (by decide)).mpr hend
  · cases h

theorem writable_of_mem_parsePasswd {t : List Char} {u : User} (h : u ∈ parsePasswd t) : Writable u := by
  obtain ⟨l, hl, hu⟩ := List.mem_filterMap.mp h
  exact writable_of_parseLine (not_mem_of_mem_lines hl) hu

/-- **The text normalises in one step**: accounts that were read, however their lines looked, are written so that they are
read again as they are. -/
theorem parsePasswd_normalises (t : List Char) : parsePasswd (serialize (parsePasswd t)) = parsePasswd t :=
  parsePasswd_serialize fun _ => writable_of_mem_parsePasswd

end RustKernel.Users
