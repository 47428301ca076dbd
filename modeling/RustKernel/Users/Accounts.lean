import Mathlib.Data.List.Nodup
import RustKernel.Users.Passwd
import RustKernel.Lib.Run

/-!
# Accounts

`create_user`, `set_password`, `delete_user` and `authenticate` of `users/mod.rs`. Each of them reads `/etc/passwd`; those
that change an account write the whole file and save it to the disk.
-/

namespace RustKernel.Users

open Lib Lib.Lines Exec Crypto
open List (map_map mem_map mem_filter not_mem_nil mem_cons getElem_mem)

inductive UserError where
  | nameTaken
  | nameInvalid
  | passwordTooShort
  | saveFailed (e : String)
  deriving DecidableEq

def load : Exec String Storage (List User) := fun s =>
  match s.files Persist.PASSWD_PATH with
  | none => .err "users: /etc/passwd introuvable" s
  | some bytes =>
    match Utf8.decode bytes with
    | none => .err "users: /etc/passwd non-UTF8" s
    | some text => .ok (parsePasswd text) s

def loadOrDefault : Exec UserError Storage (List User) := do
  let r ← attempt load
  pure (r.toOption.getD [])

def find (name : List Char) : Exec Empty Storage (Option User) := do
  let r ← attempt load
  pure (r.toOption.bind fun users => users.find? (·.name == name))

def constantTimeEq (a b : List Byte) : Bool :=
  if a.length ≠ b.length then false
  else (a.zip b).foldl (fun diff p => diff ||| (p.1 ^^^ p.2)) 0 == 0

def hashPassword (password : List Char) : List Char := sha256Hex (Utf8.encode password)

def authenticate (name password : List Char) : Exec Empty Storage (Option User) := do
  match ← find name with
  | none => pure none
  | some user =>
    let computed := hashPassword password
    if constantTimeEq (Utf8.encode computed) (Utf8.encode user.passwordHash) then pure (some user) else pure none

def nameValid (name : List Char) : Bool :=
  if name.isEmpty ∨ (Utf8.encode name).length > 32 then false
  else name.all fun c => c.isAlphanum || c == '_' || c == '-'

def nextUid (users : List User) : Exec UserError Storage ℕ :=
  match ((users.filter (·.uid ≥ 1000)).map User.uid).max? with
  | some m => add 32 m 1
  | none => pure 1000

/-- The account `create_user` makes. -/
def newUser (name password : List Char) (uid : ℕ) : User :=
  { name, passwordHash := hashPassword password, uid, gid := uid, gecos := name
    home := ['/', 'h', 'o', 'm', 'e', '/'] ++ name, shell := ['/', 'b', 'i', 'n', '/', 's', 'h'] }

def createUser (name password : List Char) : Exec UserError Storage User := do
  if nameValid name = false then throw .nameInvalid
  else if (Utf8.encode password).length < 4 then throw .passwordTooShort
  else
    let users ← loadOrDefault
    if users.any (·.name == name) then throw .nameTaken
    else
      let uid ← nextUid users
      mapErr .saveFailed (save (users ++ [newUser name password uid]))
      pure (newUser name password uid)

def setPassword (uid : ℕ) (newPassword : List Char) : Exec UserError Storage Unit := do
  if (Utf8.encode newPassword).length < 4 then throw .passwordTooShort
  else
    let users ← loadOrDefault
    match users.findIdx? (·.uid == uid) with
    | none => throw .nameInvalid
    | some i =>
      mapErr .saveFailed (save (users.modify i fun u => { u with passwordHash := hashPassword newPassword }))

def deleteUser (uid : ℕ) : Exec UserError Storage Unit := do
  if uid = 0 then throw .nameInvalid
  else
    let users ← loadOrDefault
    let kept := users.filter (·.uid != uid)
    if kept.length = users.length then throw .nameInvalid
    else mapErr .saveFailed (save kept)

/-! ### Runs -/

inductive Call where
  | create (name password : List Char)
  | setPassword (uid : ℕ) (password : List Char)
  | delete (uid : ℕ)

variable {c : Call} {α : Type} {a : α} {o : Outcome UserError Storage α}

def Call.exec : Call → Exec UserError Storage (Option User)
  | .create name password => do
    let u ← createUser name password
    pure (some u)
  | .setPassword uid password => do
    Users.setPassword uid password
    pure none
  | .delete uid => do
    deleteUser uid
    pure none

structure System where
  storage : Storage
  log : List (Call × Except UserError (Option User))

def step (s : System) (c : Call) : Option System :=
  (c.exec s.storage).next (fun a storage => { storage, log := s.log ++ [(c, .ok a)] })
    fun e storage => { storage, log := s.log ++ [(c, .error e)] }

def rootUser : User :=
  { name := ['r', 'o', 'o', 't'], passwordHash := sha256Hex (Utf8.encode ['r', 'o', 'o', 't']), uid := 0, gid := 0
    gecos := ['r', 'o', 'o', 't'], home := ['/', 'r', 'o', 'o', 't'], shell := ['/', 'b', 'i', 'n', '/', 's', 'h'] }

def lucUser : User :=
  { name := ['l', 'u', 'c'], passwordHash := sha256Hex (Utf8.encode ['l', 'u', 'c']), uid := 1000, gid := 1000
    gecos := ['L', 'u', 'c'], home := ['/', 'h', 'o', 'm', 'e', '/', 'l', 'u', 'c']
    shell := ['/', 'b', 'i', 'n', '/', 's', 'h'] }

def seed : List Char :=
  ['r', 'o', 'o', 't', ':'] ++ sha256Hex (Utf8.encode ['r', 'o', 'o', 't']) ++
    [':', '0', ':', '0', ':', 'r', 'o', 'o', 't', ':', '/', 'r', 'o', 'o', 't', ':', '/', 'b', 'i', 'n', '/', 's', 'h', '\n'] ++
    ['l', 'u', 'c', ':'] ++ sha256Hex (Utf8.encode ['l', 'u', 'c']) ++
    [':', '1', '0', '0', '0', ':', '1', '0', '0', '0', ':', 'L', 'u', 'c', ':', '/', 'h', 'o', 'm', 'e', '/', 'l', 'u', 'c', ':',
      '/', 'b', 'i', 'n', '/', 's', 'h', '\n']

/-! ### Maps of accounts -/

abbrev Accounts := List Char → Option User

inductive Accounts.Step (m : Accounts) : Call → Except UserError (Option User) → Accounts → Prop
  | create {name password : List Char} {u : User} (hname : u.name = name)
      (hhash : u.passwordHash = hashPassword password) (hnew : m name = none)
      (huid : 1000 ≤ u.uid ∧ ∀ n v, m n = some v → v.uid ≠ u.uid) :
      Step m (.create name password) (.ok (some u)) (Function.update m name (some u))
  | setPassword {uid : ℕ} {name password : List Char} {u : User} (hu : m name = some u) (huid : u.uid = uid) :
      Step m (.setPassword uid password) (.ok none)
        (Function.update m name (some { u with passwordHash := hashPassword password }))
  | delete {uid : ℕ} {name : List Char} {u : User} (hroot : uid ≠ 0) (hu : m name = some u) (huid : u.uid = uid) :
      Step m (.delete uid) (.ok none) (Function.update m name none)
  | fail {c : Call} {e : UserError} : Step m c (.error e) m

inductive Replays (m₀ : Accounts) : List (Call × Except UserError (Option User)) → Accounts → Prop
  | nil : Replays m₀ [] m₀
  | snoc {log : List (Call × Except UserError (Option User))} {m m' : Accounts} {c : Call}
      {r : Except UserError (Option User)} :
      Replays m₀ log m → Accounts.Step m c r m' → Replays m₀ (log ++ [(c, r)]) m'

def mapOf (users : List User) : Accounts := fun name => users.find? (·.name == name)

/-! ### Lists of accounts -/

section Lists

variable {users : List User} {u v : User} {name : List Char}
variable {uid : ℕ} {f : User → User}

theorem mapOf_eq_some (hnames : (users.map User.name).Nodup) : mapOf users name = some u ↔ u ∈ users ∧ u.name = name := by
  constructor
  · intro h
    exact ⟨List.mem_of_find?_eq_some h, by simpa using List.find?_some h⟩
  · rintro ⟨hu, rfl⟩
    cases hfind : mapOf users u.name with
    | none =>
      have := List.find?_eq_none.mp hfind u hu
      simp at this
    | some w =>
      have hw : w ∈ users := List.mem_of_find?_eq_some hfind
      have hname : w.name = u.name := by simpa using List.find?_some hfind
      rw [List.inj_on_of_nodup_map hnames hw hu hname]

theorem mapOf_eq_none : mapOf users name = none ↔ ∀ u ∈ users, u.name ≠ name := by simp [mapOf]

theorem mapOf_eq {m : Accounts} (hnames : (users.map User.name).Nodup)
    (h : ∀ name u, m name = some u ↔ u ∈ users ∧ u.name = name) : mapOf users = m := by
  funext name
  refine Option.ext fun u => ?_
  rw [mapOf_eq_some hnames, h]

theorem mapOf_update {users' : List User} {o : Option User} (hnames : (users.map User.name).Nodup)
    (hnames' : (users'.map User.name).Nodup) (ho : ∀ v, o = some v → v.name = name)
    (h : ∀ v, v ∈ users' ↔ v ∈ users ∧ v.name ≠ name ∨ o = some v) :
    mapOf users' = Function.update (mapOf users) name o := by
  refine mapOf_eq hnames' fun n v => ?_
  rw [h v]
  by_cases hn : n = name
  · subst hn
    rw [Function.update_self]
    constructor
    · exact fun hv => ⟨.inr hv, ho v hv⟩
    · rintro ⟨⟨-, hne⟩ | hv, heq⟩
      · exact absurd heq hne
      · exact hv
  · rw [Function.update_of_ne hn, mapOf_eq_some hnames]
    constructor
    · rintro ⟨hv, rfl⟩
      exact ⟨.inl ⟨hv, hn⟩, rfl⟩
    · rintro ⟨⟨hv, -⟩ | hv, rfl⟩
      · exact ⟨hv, rfl⟩
      · exact absurd (ho v hv) hn

theorem mapOf_append (hnames : (users.map User.name).Nodup) (hnew : ∀ v ∈ users, v.name ≠ u.name) :
    ((users ++ [u]).map User.name).Nodup ∧ mapOf (users ++ [u]) = Function.update (mapOf users) u.name (some u) := by
  have hnodup : ((users ++ [u]).map User.name).Nodup := by
    rw [List.map_append, List.nodup_append]
    refine ⟨hnames, List.nodup_singleton _, ?_⟩
    simpa using hnew
  refine ⟨hnodup, mapOf_update hnames hnodup (fun v hv => Option.some.inj hv ▸ rfl) fun v => ?_⟩
  rw [List.mem_append, List.mem_singleton, Option.some.injEq, eq_comm (a := v)]
  exact or_congr_left ⟨fun hv => ⟨hv, hnew v hv⟩, fun hv => hv.1⟩

theorem modify_eq_map {i : ℕ} (huids : (users.map User.uid).Nodup)
    (hi : users.findIdx? (·.uid == uid) = some i) :
    users.modify i f = users.map fun u => if u.uid = uid then f u else u := by
  obtain ⟨hlt, hfound, -⟩ := List.findIdx?_eq_some_iff_getElem.mp hi
  have huid : users[i].uid = uid := by simpa using hfound
  refine List.ext_getElem? fun j => ?_
  rw [List.getElem?_modify, List.getElem?_map]
  cases hj : users[j]? with
  | none => rfl
  | some v =>
    obtain ⟨hjlt, hv⟩ := List.getElem?_eq_some_iff.mp hj
    simp only [Option.map_some, Option.map_eq_map]
    by_cases hij : i = j
    · subst hij
      rw [if_pos rfl, if_pos (hv ▸ huid)]
    · rw [if_neg hij, if_neg]
      intro hvuid
      have hlt' : i < (users.map User.uid).length := by simpa using hlt
      have hjlt' : j < (users.map User.uid).length := by simpa using hjlt
      refine hij (huids.getElem_inj_iff.mp (?_ : (users.map User.uid)[i] = (users.map User.uid)[j]))
      rw [List.getElem_map, List.getElem_map, huid, hv, hvuid]

section

variable (hnames : (users.map User.name).Nodup) (huids : (users.map User.uid).Nodup)
include hnames huids

theorem uid_eq_iff (hu : u ∈ users)
    (huid : u.uid = uid) (hv : v ∈ users) : v.uid = uid ↔ v.name = u.name := by
  constructor
  · intro h
    rw [List.inj_on_of_nodup_map huids hv hu (h.trans huid.symm)]
  · intro h
    rw [List.inj_on_of_nodup_map hnames hv hu h, huid]

theorem mapOf_map
    (hf : ∀ u, (f u).name = u.name) (hu : u ∈ users) (huid : u.uid = uid) :
    ((users.map fun u => if u.uid = uid then f u else u).map User.name).Nodup ∧
      mapOf (users.map fun u => if u.uid = uid then f u else u) = Function.update (mapOf users) u.name (some (f u)) := by
  have hmap : (users.map fun u => if u.uid = uid then f u else u).map User.name = users.map User.name := by
    rw [map_map]
    refine List.map_congr_left fun v _ => ?_
    rw [Function.comp_apply]
    split_ifs
    · exact hf v
    · rfl
  refine ⟨hmap ▸ hnames, mapOf_update hnames (hmap ▸ hnames) (fun v hv => Option.some.inj hv ▸ hf u) fun v => ?_⟩
  rw [mem_map, Option.some.injEq]
  constructor
  · rintro ⟨w, hw, rfl⟩
    have hiff := uid_eq_iff hnames huids hu huid hw
    by_cases hwuid : w.uid = uid
    · rw [if_pos hwuid, List.inj_on_of_nodup_map hnames hw hu (hiff.mp hwuid)]
      exact .inr rfl
    · rw [if_neg hwuid]
      exact .inl ⟨hw, fun h => hwuid (hiff.mpr h)⟩
  · rintro (⟨hv, hne⟩ | rfl)
    · exact ⟨v, hv, if_neg fun h => hne ((uid_eq_iff hnames huids hu huid hv).mp h)⟩
    · exact ⟨u, hu, if_pos huid⟩

theorem mapOf_filter
    (hu : u ∈ users) (huid : u.uid = uid) :
    ((users.filter (·.uid != uid)).map User.name).Nodup ∧
      mapOf (users.filter (·.uid != uid)) = Function.update (mapOf users) u.name none := by
  have hnodup : ((users.filter (·.uid != uid)).map User.name).Nodup :=
    hnames.sublist (List.filter_sublist.map User.name)
  refine ⟨hnodup, mapOf_update hnames hnodup nofun fun v => ?_⟩
  rw [mem_filter, bne_iff_ne, or_iff_left nofun]
  exact and_congr_right fun hv => not_congr (uid_eq_iff hnames huids hu huid hv)

end

end Lists

/-! ### What the file holds -/

def accounts (s : Storage) : List User := (((s.files Persist.PASSWD_PATH).bind Utf8.decode).map parsePasswd).getD []

variable {s s' : Storage} {users users' : List User} {name password : List Char} {u : User} {β : Type}
  {x : Exec UserError Storage α} {f : α → Exec UserError Storage β}

theorem load_cases (s : Storage) : (∃ e, load s = .err e s ∧ accounts s = []) ∨ load s = .ok (accounts s) s := by
  cases hfile : s.files Persist.PASSWD_PATH with
  | none => exact .inl ⟨"users: /etc/passwd introuvable", by simp only [load, hfile], by simp only [accounts, hfile]; rfl⟩
  | some bytes =>
    cases htext : Utf8.decode bytes with
    | none =>
      refine .inl ⟨"users: /etc/passwd non-UTF8", by simp only [load, hfile, htext], ?_⟩
      simp only [accounts, hfile, Option.bind_some, htext, Option.map_none, Option.getD_none]
    | some text =>
      refine .inr ?_
      simp only [load, accounts, hfile, Option.bind_some, htext, Option.map_some, Option.getD_some]

theorem accounts_of_err {e : String} (h : load s = .err e s') : accounts s = [] := by
  rcases load_cases s with ⟨_, -, hnone⟩ | hok
  · exact hnone
  · cases hok.symm.trans h

theorem loadOrDefault_eq (s : Storage) : loadOrDefault s = .ok (accounts s) s := by
  unfold loadOrDefault
  rw [bind_apply, attempt]
  rcases load_cases s with ⟨e, he, hnone⟩ | hok
  · rw [he, hnone]
    rfl
  · rw [hok]
    rfl

theorem find_eq (name : List Char) (s : Storage) : find name s = .ok (mapOf (accounts s) name) s := by
  unfold find
  rw [bind_apply, attempt]
  rcases load_cases s with ⟨e, he, hnone⟩ | hok
  · rw [he, hnone]
    rfl
  · rw [hok]
    rfl

theorem writable_accounts (s : Storage) : ∀ u ∈ accounts s, Writable u := by
  unfold accounts
  cases (s.files Persist.PASSWD_PATH).bind Utf8.decode with
  | none => exact fun u hu => absurd hu not_mem_nil
  | some text => exact fun u => writable_of_mem_parsePasswd

theorem load_of_file (hfile : s.files Persist.PASSWD_PATH = some (Utf8.encode (serialize users)))
    (h : ∀ u ∈ users, Writable u) : load s = .ok users s ∧ accounts s = users := by
  simp only [load, accounts, hfile, Option.bind_some, Utf8.decode_encode, parsePasswd_serialize h, Option.map_some,
    Option.getD_some, and_self]

def plain (c : Char) : Bool := c.isAlphanum || c == '_' || c == '-' || c == '/'

theorem not_mem_of_plain {f : List Char} {c : Char} (h : ∀ c ∈ f, plain c = true) (hc : plain c = false) : c ∉ f := by
  intro hmem
  cases (h c hmem).symm.trans hc

theorem plain_hex : ∀ c ∈ hashPassword password, plain c = true := by
  intro c hc
  have hHEX : ∀ c ∈ HEX, plain c = true := forall_mem_of_all rfl
  exact hHEX c (mem_sha256Hex hc)

theorem plain_name (h : nameValid name = true) : ∀ c ∈ name, plain c = true := by
  intro c hc
  unfold nameValid at h
  split_ifs at h
  have := List.all_eq_true.mp h c hc
  rw [plain, this, Bool.true_or]

theorem plain_digits {n : ℕ} : ∀ c ∈ Nat.toDigits 10 n, plain c = true := by
  intro c hc
  have hdigit := Nat.isDigit_of_mem_toDigits (by decide) (by decide) hc
  simp [plain, Char.isAlphanum, hdigit]

theorem writable_of_plain (huid : u.uid < 2 ^ 32) (hgid : u.gid < 2 ^ 32)
    (htext : ∀ f ∈ [u.name, u.passwordHash, u.gecos, u.home, u.shell], ∀ c ∈ f, plain c = true) : Writable u := by
  simp only [mem_cons, not_mem_nil, or_false, forall_eq_or_imp, forall_eq] at htext
  obtain ⟨hname, hhash, hgecos, hhome, hshell⟩ := htext
  have hfields : ∀ f ∈ fields u, ∀ c ∈ f, plain c = true := by
    simp only [fields, mem_cons, not_mem_nil, or_false, forall_eq_or_imp, forall_eq]
    exact ⟨hname, hhash, plain_digits, plain_digits, hgecos, hhome, hshell⟩
  refine ⟨fun f hf => ?_, fun hhead => ?_, fun hlast => ?_, huid, hgid⟩
  · exact ⟨not_mem_of_plain (hfields f hf) (by decide), not_mem_of_plain (hfields f hf) (by decide)⟩
  · exact not_mem_of_plain hname (show plain '#' = false by decide) (List.mem_of_head? hhead)
  · exact not_mem_of_plain hshell (show plain '\r' = false by decide) (List.mem_of_getLast? hlast)

def withPassword (password : List Char) (u : User) : User := { u with passwordHash := hashPassword password }

theorem Writable.withPassword (h : Writable u) (password : List Char) : Writable (withPassword password u) := by
  refine ⟨?_, h.name, h.shell, h.uid, h.gid⟩
  have hfields := h.fields
  simp only [Users.fields, mem_cons, forall_eq_or_imp] at hfields ⊢
  exact ⟨hfields.1, ⟨not_mem_of_plain plain_hex (by decide), not_mem_of_plain plain_hex (by decide)⟩, hfields.2.2⟩

/-! ### The calls -/

structure Fresh (users : List User) (name password : List Char) (u : User) : Prop where
  named : u.name = name
  hash : u.passwordHash = hashPassword password
  writable : Writable u
  new : ∀ v ∈ users, v.name ≠ name
  uid : 1000 ≤ u.uid ∧ ∀ v ∈ users, v.uid ≠ u.uid

def UidsBelow (users : List User) : Prop := ∀ u ∈ users, u.uid < 2 ^ 32 - 1

inductive Edit (users : List User) : Call → Option User → List User → Prop
  | create {name password : List Char} {u : User} (h : Fresh users name password u) :
      Edit users (.create name password) (some u) (users ++ [u])
  | setPassword {uid i : ℕ} {password : List Char} (h : users.findIdx? (·.uid == uid) = some i) :
      Edit users (.setPassword uid password) none (users.modify i (withPassword password))
  | delete {uid : ℕ} (hroot : uid ≠ 0) (h : ∃ u ∈ users, u.uid = uid) :
      Edit users (.delete uid) none (users.filter (·.uid != uid))

theorem Edit.writable {a : Option User} (h : Edit users c a users') (hw : ∀ u ∈ users, Writable u) :
    ∀ u ∈ users', Writable u := by
  intro v hv
  cases h with
  | create h =>
    rcases List.mem_append.mp hv with hv | hv
    · exact hw v hv
    · exact List.mem_singleton.mp hv ▸ h.writable
  | setPassword h =>
    obtain ⟨j, hj, rfl⟩ := List.mem_iff_getElem.mp hv
    rw [List.getElem_modify]
    split_ifs
    · exact (hw _ (getElem_mem _)).withPassword _
    · exact hw _ (getElem_mem _)
  | delete _ _ => exact hw v (mem_filter.mp hv).1

theorem nextUid_cases (users : List User) : (¬ UidsBelow users ∧ ∀ s, nextUid users s = .panic) ∨
    UidsBelow users ∧ ∃ uid, (∀ s, nextUid users s = .ok uid s) ∧ uid < 2 ^ 32 ∧ 1000 ≤ uid ∧ ∀ v ∈ users, v.uid ≠ uid := by
  have hmem : ∀ {v : User}, v ∈ users → 1000 ≤ v.uid → v.uid ∈ (users.filter (·.uid ≥ 1000)).map User.uid := by
    intro v hv hge
    exact List.mem_map_of_mem (mem_filter.mpr ⟨hv, by simpa using hge⟩)
  unfold nextUid
  cases hm : ((users.filter (·.uid ≥ 1000)).map User.uid).max? with
  | none =>
    have hlow : ∀ v ∈ users, v.uid < 1000 := fun v hv => by
      by_contra hge
      have := hmem hv (Nat.not_lt.mp hge)
      rw [List.max?_eq_none_iff.mp hm] at this
      exact absurd this not_mem_nil
    exact .inr ⟨fun v hv => by have := hlow v hv; omega, 1000, fun _ => rfl, by decide, le_rfl, fun v hv => (hlow v hv).ne⟩
  | some m =>
    obtain ⟨hmax, hle⟩ := List.max?_eq_some_iff.mp hm
    obtain ⟨u, hu, rfl⟩ := mem_map.mp hmax
    obtain ⟨hu, hge⟩ := mem_filter.mp hu
    have hge : 1000 ≤ u.uid := by simpa using hge
    by_cases hlt : u.uid + 1 < 2 ^ 32
    · have hall : ∀ v ∈ users, v.uid ≤ u.uid := fun v hv => by
        by_cases h : 1000 ≤ v.uid
        · exact hle v.uid (hmem hv h)
        · omega
      refine .inr ⟨fun v hv => by have := hall v hv; omega, u.uid + 1, fun s => ?_, hlt, by omega,
        fun v hv => (Nat.lt_succ_of_le (hall v hv)).ne⟩
      simp only [add_of_lt hlt, pure_apply]
    · refine .inl ⟨fun h => ?_, fun s => ?_⟩
      · have := h u hu
        omega
      · unfold add
        simp only [if_neg hlt, panic_apply]

theorem save_cases (s : Storage) (users : List User) : ∃ s',
    s'.files = written users s.files ∧
      (save users s = .ok () s' ∨ ∃ e, save users s = .err e s') := by
  rw [save, modify_bind]
  have hends := Persist.ends_saveFromRamfs
    { s with files := written users s.files }
  rcases hends.ok_or_err hends.post with ⟨_, s', hok, hfiles, -⟩ | ⟨e, s', herr, hfiles, -⟩
  · exact ⟨s', hfiles, .inl hok⟩
  · exact ⟨s', hfiles, .inr ⟨e, herr⟩⟩

/-- The disk takes the file with these accounts. -/
def Saves (s : Storage) (users : List User) : Prop :=
  Persist.Takes s.drives (Persist.serialize (Persist.collect (written users s.files)))

theorem save_saves (s : Storage) (users : List User) :
    (save users s).Post (fun _ _ => Saves s users) (fun _ _ => ¬ Saves s users) := by
  rw [save, modify_bind]
  exact Persist.saveFromRamfs_takes { s with files := written users s.files }

structure Writes {α : Type} (s : Storage) (users : List User) (a : α) (o : Outcome UserError Storage α) : Prop where
  ok : ∀ s', save users s = .ok () s' → o = .ok a s'
  err : ∀ e s', save users s = .err e s' → o = .err (.saveFailed e) s'

theorem writes_save (s : Storage) (users : List User) : Writes s users () (mapErr .saveFailed (save users) s) :=
  ⟨fun s' h => by rw [mapErr, h], fun e s' h => by rw [mapErr, h]⟩

theorem Writes.cases (h : Writes s users a o) : ∃ s',
    s'.files = written users s.files ∧
      (o = .ok a s' ∨ ∃ e, o = .err (.saveFailed e) s') := by
  obtain ⟨s', hfiles, hok | ⟨e, herr⟩⟩ := save_cases s users
  · exact ⟨s', hfiles, .inl (h.ok s' hok)⟩
  · exact ⟨s', hfiles, .inr ⟨e, h.err e s' herr⟩⟩

theorem Writes.load {b : α} (h : Writes s users a o) (ho : o = .ok b s')
    (hw : ∀ u ∈ users, Writable u) : b = a ∧ load s' = .ok users s' ∧ accounts s' = users := by
  obtain ⟨t, hfiles, hok | ⟨e, herr⟩⟩ := h.cases
  · cases ho.symm.trans hok
    exact ⟨rfl, load_of_file (by rw [hfiles, written_self]) hw⟩
  · cases ho.symm.trans herr

theorem Writes.returns (h : Writes s users a o)
    (hw : ∀ u ∈ users, Writable u) (hsave : Saves s users) : ∃ s', o = .ok a s' ∧ accounts s' = users := by
  obtain ⟨s', -, hok | ⟨e, herr⟩⟩ := save_cases s users
  · exact ⟨s', h.ok s' hok, (h.load (h.ok s' hok) hw).2.2⟩
  · exact absurd hsave ((save_saves s users).err herr)

theorem Writes.bind {b : β}
    (h : Writes s users a (x s)) (hf : ∀ s, f a s = .ok b s) : Writes s users b ((x >>= f) s) := by
  refine ⟨fun s' hs' => ?_, fun e s' hs' => ?_⟩
  · rw [bind_of_ok (h.ok s' hs'), hf]
  · rw [bind_apply, h.err e s' hs']

def Refuses {α : Type} (s : Storage) (o : Outcome UserError Storage α) : Prop :=
  ∃ e, (∀ m, e ≠ .saveFailed m) ∧ o = .err e s

/-- The checks of `create_user`. -/
def Admissible (users : List User) (name password : List Char) : Prop :=
  nameValid name = true ∧ 4 ≤ (Utf8.encode password).length ∧ ∀ v ∈ users, v.name ≠ name

theorem createUser_cases (name password : List Char) (s : Storage) :
    Refuses s (createUser name password s) ∧ ¬ Admissible (accounts s) name password ∨ Admissible (accounts s) name password ∧
      (¬ UidsBelow (accounts s) ∧ (∀ s', nextUid (accounts s) s' = .panic) ∧ createUser name password s = .panic ∨
      UidsBelow (accounts s) ∧ ∃ uid, (∀ s', nextUid (accounts s) s' = .ok uid s') ∧
        Fresh (accounts s) name password (newUser name password uid) ∧
        Writes s (accounts s ++ [newUser name password uid]) (newUser name password uid) (createUser name password s)) := by
  unfold createUser
  by_cases hvalid : nameValid name = false
  · exact .inl ⟨⟨.nameInvalid, nofun, by rw [if_pos hvalid]; rfl⟩, fun h => by cases hvalid.symm.trans h.1⟩
  by_cases hshort : (Utf8.encode password).length < 4
  · exact .inl ⟨⟨.passwordTooShort, nofun, by rw [if_neg hvalid, if_pos hshort]; rfl⟩, fun h => absurd h.2.1 (by omega)⟩
  rw [if_neg hvalid, if_neg hshort, bind_of_ok (loadOrDefault_eq s)]
  by_cases htaken : (accounts s).any (·.name == name) = true
  · refine .inl ⟨⟨.nameTaken, nofun, by rw [if_pos htaken]; rfl⟩, fun h => ?_⟩
    obtain ⟨v, hv, hname⟩ := List.any_eq_true.mp htaken
    exact h.2.2 v hv (beq_iff_eq.mp hname)
  rw [if_neg htaken]
  have hnew : ∀ v ∈ accounts s, v.name ≠ name := fun v hv hname => htaken (List.any_eq_true.mpr ⟨v, hv, beq_iff_eq.mpr hname⟩)
  refine .inr ⟨⟨Bool.not_eq_false _ ▸ hvalid, Nat.not_lt.mp hshort, hnew⟩, ?_⟩
  rcases nextUid_cases (accounts s) with ⟨hbelow, hpanic⟩ | ⟨hbelow, uid, hnext, hlt, hge, huid⟩
  · exact .inl ⟨hbelow, hpanic, by rw [bind_apply, hpanic]⟩
  rw [bind_of_ok (hnext s)]
  have hname := plain_name (Bool.not_eq_false _ ▸ hvalid)
  have hhome : ∀ c ∈ ['/', 'h', 'o', 'm', 'e', '/'], plain c = true := forall_mem_of_all rfl
  refine .inr ⟨hbelow, uid, hnext, ⟨rfl, rfl, writable_of_plain (show uid < 2 ^ 32 from hlt) hlt ?_, hnew, hge, huid⟩,
    (writes_save s _).bind fun _ => rfl⟩
  simp only [mem_cons, not_mem_nil, or_false, forall_eq_or_imp, forall_eq]
  exact ⟨hname, plain_hex, hname, List.forall_mem_append.mpr ⟨hhome, hname⟩, forall_mem_of_all rfl⟩

theorem setPassword_cases (uid : ℕ) (password : List Char) (s : Storage) : Refuses s (setPassword uid password s) ∧
    ((Utf8.encode password).length < 4 ∨ ∀ u ∈ accounts s, u.uid ≠ uid) ∨ 4 ≤ (Utf8.encode password).length ∧
      ∃ i, (accounts s).findIdx? (·.uid == uid) = some i ∧
        Writes s ((accounts s).modify i (withPassword password)) () (setPassword uid password s) := by
  unfold setPassword
  by_cases hshort : (Utf8.encode password).length < 4
  · exact .inl ⟨⟨.passwordTooShort, nofun, by rw [if_pos hshort]; rfl⟩, .inl hshort⟩
  rw [if_neg hshort, bind_of_ok (loadOrDefault_eq s)]
  cases hi : (accounts s).findIdx? (·.uid == uid) with
  | none => exact .inl ⟨⟨.nameInvalid, nofun, rfl⟩, .inr fun u hu => by simpa using List.findIdx?_eq_none_iff.mp hi u hu⟩
  | some i => exact .inr ⟨Nat.not_lt.mp hshort, i, rfl, writes_save s _⟩

theorem deleteUser_cases (uid : ℕ) (s : Storage) : Refuses s (deleteUser uid s) ∧ (uid = 0 ∨ ∀ u ∈ accounts s, u.uid ≠ uid) ∨
    uid ≠ 0 ∧ (∃ u ∈ accounts s, u.uid = uid) ∧
      Writes s ((accounts s).filter (·.uid != uid)) () (deleteUser uid s) := by
  unfold deleteUser
  by_cases hroot : uid = 0
  · exact .inl ⟨⟨.nameInvalid, nofun, by rw [if_pos hroot]; rfl⟩, .inl hroot⟩
  rw [if_neg hroot, bind_of_ok (loadOrDefault_eq s)]
  by_cases hnone : ((accounts s).filter (·.uid != uid)).length = (accounts s).length
  · refine .inl ⟨⟨.nameInvalid, nofun, by rw [if_pos hnone]; rfl⟩, .inr fun u hu => ?_⟩
    simpa using List.length_filter_eq_length_iff.mp hnone u hu
  rw [if_neg hnone]
  refine .inr ⟨hroot, ?_, writes_save s _⟩
  by_contra hno
  refine hnone (List.length_filter_eq_length_iff.mpr fun u hu => bne_iff_ne.mpr fun huid => ?_)
  exact hno ⟨u, hu, huid⟩

theorem Refuses.bind
    (h : Refuses s (x s)) : Refuses s ((x >>= f) s) := by
  obtain ⟨e, hne, he⟩ := h
  exact ⟨e, hne, by rw [bind_apply, he]⟩

theorem exec_cases (c : Call) (s : Storage) : Refuses s (c.exec s) ∨ (¬ UidsBelow (accounts s) ∧ c.exec s = .panic) ∨
    ∃ a users', Edit (accounts s) c a users' ∧ Writes s users' a (c.exec s) := by
  cases c with
  | create name password =>
    rw [Call.exec]
    rcases createUser_cases name password s with ⟨h, -⟩ | ⟨-, ⟨hbelow, -, h⟩ | ⟨-, uid, -, hu, h⟩⟩
    · exact .inl h.bind
    · exact .inr (.inl ⟨hbelow, by rw [bind_apply, h]⟩)
    · exact .inr (.inr ⟨some (newUser name password uid), _, .create hu, h.bind fun _ => rfl⟩)
  | setPassword uid password =>
    rcases setPassword_cases uid password s with ⟨h, -⟩ | ⟨-, i, hi, h⟩
    · exact .inl h.bind
    · exact .inr (.inr ⟨none, _, .setPassword hi, h.bind fun _ => rfl⟩)
  | delete uid =>
    rcases deleteUser_cases uid s with ⟨h, -⟩ | ⟨hroot, hfound, h⟩
    · exact .inl h.bind
    · exact .inr (.inr ⟨none, _, .delete hroot hfound, h.bind fun _ => rfl⟩)

/-! ### Runs of calls on the seeded file -/

structure Distinct (users : List User) : Prop where
  names : (users.map User.name).Nodup
  uids : (users.map User.uid).Nodup
  root : ∃ u ∈ users, u.name = rootUser.name ∧ u.uid = 0

theorem Edit.step {a : Option User} (h : Edit users c a users') (hd : Distinct users) :
    Distinct users' ∧ Accounts.Step (mapOf users) c (.ok a) (mapOf users') := by
  obtain ⟨r, hr, hrname, hrzero⟩ := hd.root
  cases h with
  | @create name password u hu =>
    obtain ⟨hnames, hmap⟩ := mapOf_append hd.names (u := u) fun v hv => hu.named ▸ hu.new v hv
    refine ⟨⟨hnames, ?_, r, List.mem_append_left _ hr, hrname, hrzero⟩, ?_⟩
    · rw [List.map_append, List.nodup_append]
      refine ⟨hd.uids, List.nodup_singleton _, ?_⟩
      simpa using hu.uid.2
    · rw [hmap, hu.named]
      refine .create hu.named hu.hash (mapOf_eq_none.mpr hu.new) ⟨hu.uid.1, fun n v hv => hu.uid.2 v ?_⟩
      exact ((mapOf_eq_some hd.names).mp hv).1
  | @setPassword uid i password hi =>
    obtain ⟨hlt, hfound, -⟩ := List.findIdx?_eq_some_iff_getElem.mp hi
    have huid : users[i].uid = uid := by simpa using hfound
    rw [modify_eq_map hd.uids hi]
    obtain ⟨hnames, hmap⟩ := mapOf_map (f := withPassword password) hd.names hd.uids (fun _ => rfl)
      (getElem_mem hlt) huid
    have hkeep : ∀ v : User, (if v.uid = uid then withPassword password v else v).uid = v.uid := fun v => by split_ifs <;> rfl
    refine ⟨⟨hnames, ?_, _, List.mem_map_of_mem hr, ?_, (hkeep r).trans hrzero⟩, ?_⟩
    · rw [map_map, show User.uid ∘ (fun v => if v.uid = uid then withPassword password v else v) = User.uid from
        funext hkeep]
      exact hd.uids
    · split_ifs
      · exact hrname
      · exact hrname
    · rw [hmap]
      exact .setPassword ((mapOf_eq_some hd.names).mpr ⟨getElem_mem hlt, rfl⟩) huid
  | @delete uid hroot hfound =>
    obtain ⟨u, hu, huid⟩ := hfound
    obtain ⟨hnames, hmap⟩ := mapOf_filter hd.names hd.uids hu huid
    refine ⟨⟨hnames, hd.uids.sublist (List.filter_sublist.map User.uid), r, ?_, hrname, hrzero⟩, ?_⟩
    · exact mem_filter.mpr ⟨hr, bne_iff_ne.mpr (hrzero ▸ hroot.symm)⟩
    · rw [hmap]
      exact .delete hroot ((mapOf_eq_some hd.names).mpr ⟨hu, rfl⟩) huid

structure Holds (s : Storage) (users : List User) : Prop extends Distinct users where
  load : load s = .ok users s

theorem Holds.accounts_eq (h : Holds s users) : accounts s = users := by
  rcases load_cases s with ⟨e, he, -⟩ | hok
  · cases h.load.symm.trans he
  · cases h.load.symm.trans hok
    rfl

/-! ### Passwords -/

theorem foldl_diff_eq_zero : ∀ (l : List (Byte × Byte)) (d : Byte),
    l.foldl (fun diff p => diff ||| (p.1 ^^^ p.2)) d = 0 ↔ d = 0 ∧ ∀ p ∈ l, p.1 = p.2
  | [], d => by simp
  | p :: l, d => by
    rw [List.foldl_cons, foldl_diff_eq_zero l, List.forall_mem_cons]
    have hor : d ||| (p.1 ^^^ p.2) = 0 ↔ d = 0 ∧ p.1 = p.2 := by
      exact BitVec.or_eq_zero_iff.trans (and_congr_right fun _ => BitVec.xor_eq_zero_iff)
    rw [hor, and_assoc]

theorem constantTimeEq_iff {a b : List Byte} : constantTimeEq a b = true ↔ a = b := by
  unfold constantTimeEq
  by_cases hlen : a.length = b.length
  · rw [if_neg (not_not.mpr hlen), beq_iff_eq, foldl_diff_eq_zero]
    constructor
    · rintro ⟨-, hall⟩
      refine List.ext_getElem hlen fun i hi hi' => ?_
      exact hall (a[i], b[i]) (List.mem_iff_getElem.mpr ⟨i, by rw [List.length_zip]; omega, by simp⟩)
    · rintro rfl
      refine ⟨rfl, fun p hp => ?_⟩
      obtain ⟨i, hi, rfl⟩ := List.mem_iff_getElem.mp hp
      simp
  · rw [if_pos hlen]
    constructor
    · intro h
      cases h
    · rintro rfl
      exact absurd rfl hlen

theorem authenticate_eq (s : Storage) (name password : List Char) : authenticate name password s =
    .ok ((mapOf (accounts s) name).filter fun u => hashPassword password == u.passwordHash) s := by
  rw [authenticate, bind_of_ok (find_eq name s)]
  cases hu : mapOf (accounts s) name with
  | none => rfl
  | some u =>
    have hiff : constantTimeEq (Utf8.encode (hashPassword password)) (Utf8.encode u.passwordHash) = true ↔
        hashPassword password = u.passwordHash := by
      rw [constantTimeEq_iff, Utf8.encode_inj]
    by_cases heq : hashPassword password = u.passwordHash
    · rw [Option.filter_some, if_pos (beq_iff_eq.mpr heq)]
      dsimp only
      rw [if_pos (hiff.mpr heq)]
      rfl
    · rw [Option.filter_some, if_neg (by simpa using heq)]
      dsimp only
      rw [if_neg fun hc => heq (hiff.mp hc)]
      rfl

/-! ### Whole runs -/

def SaveSucceeds (s : System) (c : Call) : Prop := ∀ e s', c.exec s.storage ≠ .err (.saveFailed e) s'

def NumbersBelow (s : System) : Prop := ∀ users s', load s.storage = .ok users s' → UidsBelow users

def Refines (s : System) : Prop :=
  ∃ users, Holds s.storage users ∧ Replays (mapOf [rootUser, lucUser]) s.log (mapOf users)

theorem Refines.step {s s' : System} (h : Refines s) (hsave : SaveSucceeds s c) (hmax : NumbersBelow s)
    (hstep : step s c = some s') : Refines s' := by
  obtain ⟨users, hholds, hreplay⟩ := h
  have heq := hholds.accounts_eq
  rw [Users.step] at hstep
  rcases exec_cases c s.storage with ⟨e, -, he⟩ | ⟨hbelow, -⟩ | ⟨a, users', hedit, hwrites⟩
  · rw [he] at hstep
    cases hstep
    exact ⟨users, hholds, hreplay.snoc .fail⟩
  · exact absurd (heq ▸ hmax users _ hholds.load) hbelow
  · obtain ⟨t, -, hok | ⟨e, herr⟩⟩ := hwrites.cases
    · rw [hok] at hstep
      cases hstep
      obtain ⟨hdistinct, hmap⟩ := (heq ▸ hedit).step hholds.toDistinct
      exact ⟨users', ⟨hdistinct, (hwrites.load hok (hedit.writable (writable_accounts _))).2.1⟩, hreplay.snoc hmap⟩
    · exact absurd herr (hsave e t)

theorem seed_eq : seed = serialize [rootUser, lucUser] := by
  have h0 : Nat.toDigits 10 0 = ['0'] := by decide
  have h1000 : Nat.toDigits 10 1000 = ['1', '0', '0', '0'] := by decide
  simp [seed, serialize, line, rootUser, lucUser, h1000]

theorem holds_seed (h : s.files Persist.PASSWD_PATH = some (Utf8.encode seed)) :
    Holds s [rootUser, lucUser] := by
  have hwritable : ∀ u ∈ [rootUser, lucUser], Writable u := by
    simp only [mem_cons, not_mem_nil, or_false, forall_eq_or_imp, forall_eq]
    refine ⟨writable_of_plain (by decide) (by decide) ?_, writable_of_plain (by decide) (by decide) ?_⟩
    all_goals
      simp only [mem_cons, not_mem_nil, or_false, forall_eq_or_imp, forall_eq]
      exact ⟨forall_mem_of_all rfl, plain_hex, forall_mem_of_all rfl, forall_mem_of_all rfl, forall_mem_of_all rfl⟩
  exact ⟨⟨by decide, by decide, rootUser, List.mem_cons_self, rfl, rfl⟩, (load_of_file (seed_eq ▸ h) hwritable).1⟩

/-- **The file of accounts is a map.** After all calls the names and the numbers in the file are distinct and root is there;
the accounts are those of the map that the calls lead to, each of them changing the one account it names or nothing; and a
password is accepted if its hash is the one the map has for the name. A call that is made then returns. -/
theorem accounts_are_map {s₀ : Storage} {tr : List (System × Call)} {s : System} (h : Run step ⟨s₀, []⟩ tr s)
    (hseed : s₀.files Persist.PASSWD_PATH = some (Utf8.encode seed))
    (hok : ∀ x ∈ tr, SaveSucceeds x.1 x.2 ∧ NumbersBelow x.1) :
    ∃ users m, load s.storage = .ok users s.storage ∧ (users.map User.name).Nodup ∧ (users.map User.uid).Nodup ∧
      (∃ u ∈ users, u.name = rootUser.name ∧ u.uid = 0) ∧ Replays (mapOf [rootUser, lucUser]) s.log m ∧
      (∀ name u, m name = some u ↔ u ∈ users ∧ u.name = name) ∧
      (∀ name password, authenticate name password s.storage =
        .ok ((m name).filter fun u => hashPassword password == u.passwordHash) s.storage) ∧
      (UidsBelow users → ∀ c, ∃ s', step s c = some s') := by
  have hrefines : Refines s := by
    refine h.invariant (K := fun s c => SaveSucceeds s c ∧ NumbersBelow s) ⟨_, holds_seed hseed, .nil⟩ hok ?_
    exact fun s c t hs hK hstep => hs.step hK.1 hK.2 hstep
  obtain ⟨users, hholds, hreplay⟩ := hrefines
  refine ⟨users, mapOf users, hholds.load, hholds.names, hholds.uids, hholds.root, hreplay,
    fun name u => mapOf_eq_some hholds.names, hholds.accounts_eq ▸ authenticate_eq s.storage, fun hmax c => ?_⟩
  rcases exec_cases c s.storage with ⟨e, -, he⟩ | ⟨hbelow, -⟩ | ⟨a, users', -, hwrites⟩
  · exact ⟨_, by rw [step, he]; rfl⟩
  · exact absurd (hholds.accounts_eq ▸ hmax) hbelow
  · obtain ⟨t, -, hok | ⟨e, herr⟩⟩ := hwrites.cases
    · exact ⟨_, by rw [step, hok]; rfl⟩
    · exact ⟨_, by rw [step, herr]; rfl⟩

def seeded : Storage :=
  { drives := Persist.bootWith 4096
    files := fun path => if path = Persist.PASSWD_PATH then some (Utf8.encode seed) else none }

theorem save_short {files : Ramfs} (hfiles : ∀ path, path ≠ Persist.PASSWD_PATH → files path = none)
    (hshort : (serialize users).length ≤ 8000) : ∃ s', save users ⟨Persist.bootWith 4096, files⟩ = .ok () s' := by
  rw [save, modify_bind, written]
  have hlength := Utf8.length_encode_le (serialize users)
  generalize Utf8.encode (serialize users) = data at hlength ⊢
  have hcollect : Persist.collect (Function.update files Persist.PASSWD_PATH (some data)) =
      [(Persist.PASSWD_PATH, data)] := by
    have hother := hfiles ['/', 'e', 't', 'c', '/', 's', 'e', 't', 't', 'i', 'n', 'g', 's'] (by decide)
    simp [Persist.collect, Persist.PERSISTED_PATHS, Persist.PASSWD_PATH, hother]
  have hpath : (Utf8.encode Persist.PASSWD_PATH).length = 11 := by decide
  have hbytes : Persist.PERSIST_BYTES = 32768 := rfl
  have hfit : (Persist.serialize (Persist.collect (Function.update files Persist.PASSWD_PATH (some data)))).length ≤
      Persist.PERSIST_BYTES := by
    rw [hcollect]
    exact Persist.length_serialize_single (by omega)
  obtain ⟨s', hsave, -⟩ := Persist.saveFromRamfs_stores
    (s := ⟨Persist.bootWith 4096, Function.update files Persist.PASSWD_PATH (some data)⟩)
    (show (Persist.bootWith 4096).disks = some [Persist.diskWith 4096] from rfl) rfl hfit fun _ _ _ => rfl
  exact ⟨s', hsave⟩

/-- One account is deleted. -/
theorem accounts_are_map_delete : ∃ tr s, Run step ⟨seeded, []⟩ tr s ∧ s.log = [(.delete 1000, .ok none)] ∧
    ∃ users, load s.storage = .ok users s.storage ∧ (users.map User.name).Nodup ∧ ∃ u ∈ users, u.uid = 0 := by
  have hseed : seeded.files Persist.PASSWD_PATH = some (Utf8.encode seed) := by
    simp only [seeded, if_true]
  have hholds := holds_seed hseed
  have hshort : (serialize [rootUser]).length ≤ 8000 := by
    simp [serialize, line, rootUser, length_sha256Hex]
  obtain ⟨s', hsave⟩ : ∃ s', save [rootUser] seeded = .ok () s' := save_short (fun path hpath => if_neg hpath) hshort
  have hexec : (Call.delete 1000).exec seeded = .ok none s' := by
    have hdelete : deleteUser 1000 seeded = .ok () s' := by
      have hkept : [rootUser, lucUser].filter (·.uid != 1000) = [rootUser] := rfl
      rw [deleteUser, if_neg (by decide), bind_of_ok (loadOrDefault_eq seeded), hholds.accounts_eq, hkept, if_neg (by decide), mapErr, hsave]
    rw [Call.exec, bind_of_ok hdelete]
    rfl
  have hstep : step ⟨seeded, []⟩ (.delete 1000) = some ⟨s', [(.delete 1000, .ok none)]⟩ := by
    rw [step, hexec]
    rfl
  have hok : ∀ x ∈ [((⟨seeded, []⟩ : System), Call.delete 1000)], SaveSucceeds x.1 x.2 ∧ NumbersBelow x.1 := by
    intro x hx
    rw [List.mem_singleton.mp hx]
    refine ⟨fun e t he => ?_, fun users t hload => ?_⟩
    · cases hexec.symm.trans he
    · cases hholds.load.symm.trans hload
      unfold UidsBelow
      decide
  obtain ⟨users, -, hload, hnames, -, ⟨u, hu, -, hzero⟩, -⟩ := accounts_are_map (Run.single hstep) hseed hok
  exact ⟨_, _, Run.single hstep, rfl, users, hload, hnames, u, hu, hzero⟩

end RustKernel.Users
