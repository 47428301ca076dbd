import RustKernel.Users.Accounts

/-!
# Accounts under any file

The calls of `users/mod.rs` and the shell's commands `passwd` and `userdel`, on any content of `/etc/passwd`: the file may be
missing or unreadable, names and numbers in it may occur twice, and the disk may fail.
-/

namespace RustKernel.Users

open Lib Exec Crypto

variable {s s' : Storage} {name password : List Char} {u : User}

/-! ### Failures -/

/-- An error leaves the file as it was, and a file that cannot be read is not replaced. -/
def Call.Atomic (c : Call) (s : Storage) : Prop :=
  (∀ e s', c.exec s = .err e s' → s'.files Persist.PASSWD_PATH = s.files Persist.PASSWD_PATH) ∧
  ∀ e, load s = .err e s → ∀ a s', c.exec s = .ok a s' → s'.files Persist.PASSWD_PATH = s.files Persist.PASSWD_PATH

/-- The list may be written: its bytes are those of the file, or the file can be read and the disk takes the list. -/
def MayWrite (s : Storage) (users : List User) : Prop :=
  s.files Persist.PASSWD_PATH = some (Utf8.encode (serialize users)) ∨
    load s = .ok (accounts s) s ∧ Saves s users

/-- What the call would write, if it passes its checks, may be written. -/
def Call.Harmless (s : Storage) : Call → Prop
  | .create name password => Admissible (accounts s) name password → ∀ uid, nextUid (accounts s) s = .ok uid s →
    MayWrite s (accounts s ++ [newUser name password uid])
  | .setPassword uid password => 4 ≤ (Utf8.encode password).length → ∀ i, (accounts s).findIdx? (·.uid == uid) = some i →
    MayWrite s ((accounts s).modify i (withPassword password))
  | .delete uid => uid ≠ 0 → (∃ u ∈ accounts s, u.uid = uid) → MayWrite s ((accounts s).filter (·.uid != uid))

theorem Refuses.atomic {c : Call} (h : Refuses s (c.exec s)) : c.Atomic s := by
  obtain ⟨e, -, he⟩ := h
  refine ⟨fun e' s' h => ?_, fun _ _ a s' h => ?_⟩
  · cases he.symm.trans h
    rfl
  · cases he.symm.trans h

theorem Writes.atomic_iff {c : Call} {users : List User} {a : Option User} (h : Writes s users a (c.exec s)) :
    c.Atomic s ↔ MayWrite s users := by
  obtain ⟨s', hfiles, hsave⟩ := save_cases s users
  have hnew : s'.files Persist.PASSWD_PATH = some (Utf8.encode (serialize users)) := by rw [hfiles, written_self]
  rcases hsave with hok | ⟨e, herr⟩
  · have hexec := h.ok s' hok
    constructor
    · intro hatomic
      rcases load_cases s with ⟨e, he, -⟩ | hload
      · exact .inl ((hatomic.2 e he a s' hexec).symm.trans hnew)
      · exact .inr ⟨hload, (save_saves s users).ok hok⟩
    · refine fun hmay => ⟨fun e t ht => ?_, fun e he b t ht => ?_⟩
      · cases hexec.symm.trans ht
      · cases hexec.symm.trans ht
        rcases hmay with hsame | ⟨hload, -⟩
        · rw [hnew, hsame]
        · cases hload.symm.trans he
  · have hexec := h.err e s' herr
    constructor
    · exact fun hatomic => .inl ((hatomic.1 _ s' hexec).symm.trans hnew)
    · refine fun hmay => ⟨fun e' t ht => ?_, fun _ _ b t ht => ?_⟩
      · cases hexec.symm.trans ht
        rcases hmay with hsame | ⟨-, hsave⟩
        · rw [hnew, hsame]
        · exact absurd hsave ((save_saves s users).err herr)
      · cases hexec.symm.trans ht

/-- **Account operations are atomic on error** exactly if what they would write may be written: a call that its checks refuse
changes nothing; one that passes them has changed the file before the disk is asked. -/
theorem refused_changes_nothing (c : Call) (s : Storage) : c.Atomic s ↔ c.Harmless s := by
  cases c with
  | create name password =>
    rcases createUser_cases name password s with ⟨h, hnot⟩ | ⟨hadm, ⟨-, hnext, h⟩ | ⟨-, uid, hnext, -, h⟩⟩
    · exact iff_of_true h.bind.atomic fun hadm => absurd hadm hnot
    · have hpanic : (Call.create name password).exec s = .panic := by rw [Call.exec, bind_apply, h]
      refine iff_of_true ⟨fun e s' he => ?_, fun _ _ a s' hok => ?_⟩ fun _ uid hok => ?_
      · cases hpanic.symm.trans he
      · cases hpanic.symm.trans hok
      · cases (hnext s).symm.trans hok
    · have hwrites : Writes s _ _ ((Call.create name password).exec s) := h.bind fun _ => rfl
      rw [hwrites.atomic_iff]
      refine ⟨fun hmay _ uid' h' => ?_, fun hall => hall hadm uid (hnext s)⟩
      cases (hnext s).symm.trans h'
      exact hmay
  | setPassword uid password =>
    rcases setPassword_cases uid password s with ⟨h, hno⟩ | ⟨hlong, i, hi, h⟩
    · refine iff_of_true h.bind.atomic fun hlong i hi => ?_
      rcases hno with hshort | hno
      · omega
      · cases (List.findIdx?_eq_none_iff.mpr fun u hu => beq_eq_false_iff_ne.mpr (hno u hu)).symm.trans hi
    · have hwrites : Writes s _ _ ((Call.setPassword uid password).exec s) := h.bind fun _ => rfl
      rw [hwrites.atomic_iff]
      refine ⟨fun hmay _ j hj => ?_, fun hall => hall hlong i hi⟩
      cases hi.symm.trans hj
      exact hmay
  | delete uid =>
    rcases deleteUser_cases uid s with ⟨h, hno⟩ | ⟨hroot, hfound, h⟩
    · refine iff_of_true h.bind.atomic fun hroot hfound => ?_
      rcases hno with hzero | hno
      · exact absurd hzero hroot
      · obtain ⟨u, hu, huid⟩ := hfound
        exact absurd huid (hno u hu)
    · have hwrites : Writes s _ _ ((Call.delete uid).exec s) := h.bind fun _ => rfl
      rw [hwrites.atomic_iff]
      exact ⟨fun hmay _ _ => hmay, fun hall => hall hroot hfound⟩

def fileOf (file : List Byte) : Ramfs := fun path => if path = Persist.PASSWD_PATH then some file else none

theorem fileOf_passwd (file : List Byte) : fileOf file Persist.PASSWD_PATH = some file := if_pos rfl

def noDisk (file : List Byte) : Storage := ⟨{ disks := some [], partitions := none }, fileOf file⟩

theorem save_noDisk (users : List User) (file : List Byte) : ∃ e s', save users (noDisk file) = .err e s' ∧
    s'.files Persist.PASSWD_PATH = some (Utf8.encode (serialize users)) := by
  obtain ⟨s', hfiles, hok | ⟨e, herr⟩⟩ := save_cases (noDisk file) users
  · rw [save, modify_bind] at hok
    unfold Persist.saveFromRamfs at hok
    dsimp only at hok
    split_ifs at hok
    cases hok
  · exact ⟨e, s', herr, by rw [hfiles, written_self]⟩

/-- **A failed save**: `delete_user` returns an error, but the account is gone and its password no longer accepted; and
`create_user` writes over a file that could not be read. -/
theorem failed_save_changes_accounts :
    (∃ e s', (Call.delete 1000).exec (noDisk (Utf8.encode seed)) = .err (.saveFailed e) s' ∧
      authenticate lucUser.name ['l', 'u', 'c'] (noDisk (Utf8.encode seed)) = .ok (some lucUser) (noDisk (Utf8.encode seed)) ∧
      authenticate lucUser.name ['l', 'u', 'c'] s' = .ok none s') ∧
    ∃ e e' s', load (noDisk [0xFF#8]) = .err e (noDisk [0xFF#8]) ∧
      (Call.create ['a'] ['a', 'a', 'a', 'a']).exec (noDisk [0xFF#8]) = .err (.saveFailed e') s' ∧
      s'.files Persist.PASSWD_PATH ≠ some [0xFF#8] := by
  constructor
  · have hholds : Holds (noDisk (Utf8.encode seed)) [rootUser, lucUser] := holds_seed (fileOf_passwd _)
    have haccounts := hholds.accounts_eq
    have hwritable := haccounts ▸ writable_accounts (noDisk (Utf8.encode seed))
    obtain ⟨e, s', hsave, hfile⟩ := save_noDisk [rootUser] (Utf8.encode seed)
    have hdelete : deleteUser 1000 (noDisk (Utf8.encode seed)) = .err (.saveFailed e) s' := by
      have hkept : [rootUser, lucUser].filter (·.uid != 1000) = [rootUser] := rfl
      rw [deleteUser, if_neg (by decide), bind_of_ok (loadOrDefault_eq _), haccounts, hkept, if_neg (by decide), mapErr, hsave]
    have hroot : accounts s' = [rootUser] :=
      (load_of_file hfile fun u hu => hwritable u (List.mem_cons.mpr (.inl (List.mem_singleton.mp hu)))).2
    have hfirst : mapOf [rootUser, lucUser] lucUser.name = some lucUser := rfl
    have hsecond : mapOf [rootUser] lucUser.name = none := rfl
    refine ⟨e, s', by rw [Call.exec, bind_apply, hdelete], ?_, ?_⟩
    · have hhash : hashPassword ['l', 'u', 'c'] = lucUser.passwordHash := rfl
      rw [authenticate_eq, haccounts, hfirst, Option.filter_some, if_pos (beq_iff_eq.mpr hhash)]
    · rw [authenticate_eq, hroot, hsecond, Option.filter_none]
  · obtain ⟨e, s', hsave, hfile⟩ := save_noDisk [newUser ['a'] ['a', 'a', 'a', 'a'] 1000] [0xFF#8]
    have hload : load (noDisk [0xFF#8]) = .err "users: /etc/passwd non-UTF8" (noDisk [0xFF#8]) := by
      simp only [load, noDisk, fileOf_passwd, show Utf8.decode [0xFF#8] = none by decide]
    have hcreate : Writes (noDisk [0xFF#8]) [newUser ['a'] ['a', 'a', 'a', 'a'] 1000] (newUser ['a'] ['a', 'a', 'a', 'a'] 1000)
        (createUser ['a'] ['a', 'a', 'a', 'a'] (noDisk [0xFF#8])) := by
      have hnext : nextUid [] (noDisk [0xFF#8]) = .ok 1000 (noDisk [0xFF#8]) := rfl
      rw [createUser, if_neg (by decide), if_neg (by decide), bind_of_ok (loadOrDefault_eq _), accounts_of_err hload,
        if_neg (by decide), bind_of_ok hnext]
      exact (writes_save _ _).bind fun _ => rfl
    refine ⟨_, e, s', hload, by rw [Call.exec, bind_apply, hcreate.err e s' hsave], fun heq => ?_⟩
    -- the name comes first, and its letter is not the byte that was there
    have hbytes : Utf8.encode (serialize [newUser ['a'] ['a', 'a', 'a', 'a'] 1000]) = [0xFF#8] :=
      Option.some.inj (hfile.symm.trans heq)
    have hhead := congrArg List.head? hbytes
    cases hhead

/-! ### Numbers -/

/-- **A new account has a free number**, from 1000 on, and the others are in the file as they were, exactly if the largest
number is not in use or the call is refused by its checks. -/
theorem createUser_uid_fresh (name password : List Char) (s : Storage) :
    (createUser name password s ≠ .panic ∧ ∀ u s', createUser name password s = .ok u s' →
      1000 ≤ u.uid ∧ accounts s' = accounts s ++ [u] ∧ ∀ v ∈ accounts s, v.uid ≠ u.uid) ↔
    (Admissible (accounts s) name password → UidsBelow (accounts s)) := by
  rcases createUser_cases name password s with ⟨⟨e, -, he⟩, hnot⟩ | ⟨hadm, ⟨hbelow, -, hpanic⟩ | ⟨hbelow, uid, -, hu, hwrites⟩⟩
  · rw [he]
    exact iff_of_true ⟨nofun, nofun⟩ fun hadm => absurd hadm hnot
  · exact iff_of_false (fun h => h.1 hpanic) fun h => hbelow (h hadm)
  · have hw := (Edit.create hu).writable (writable_accounts s)
    refine iff_of_true ⟨fun hpanic => ?_, fun v s' hv => ?_⟩ fun _ => hbelow
    · obtain ⟨s', -, hok | ⟨e, herr⟩⟩ := hwrites.cases
      · cases hok.symm.trans hpanic
      · cases herr.symm.trans hpanic
    · obtain ⟨rfl, -, haccounts⟩ := hwrites.load hv hw
      exact ⟨hu.uid.1, haccounts, hu.uid.2⟩

def onDisk (users : List User) : Storage := ⟨Persist.bootWith 4096, fileOf (Utf8.encode (serialize users))⟩

theorem accounts_onDisk {users : List User} (h : ∀ u ∈ users, Writable u) : accounts (onDisk users) = users :=
  (load_of_file (fileOf_passwd _) h).2

theorem save_onDisk (users : List User) {users' : List User} (h : (serialize users').length ≤ 8000) :
    ∃ s', save users' (onDisk users) = .ok () s' :=
  save_short (fun _ hpath => if_neg hpath) h

def letterUser (c : Char) (uid : ℕ) : User :=
  { name := [c], passwordHash := [], uid, gid := 0, gecos := [], home := [], shell := [] }

theorem writable_letterUser {c : Char} {uid : ℕ} (hc : plain c = true) (huid : uid < 2 ^ 32) : Writable (letterUser c uid) := by
  refine writable_of_plain huid (show 0 < 2 ^ 32 by decide) ?_
  simp [letterUser, hc]

/-- **The largest number is in use**: the next one overflows. -/
theorem createUser_overflows : createUser ['a'] ['a', 'a', 'a', 'a'] (onDisk [letterUser 'x' (2 ^ 32 - 1)]) = .panic := by
  have haccounts : accounts (onDisk [letterUser 'x' (2 ^ 32 - 1)]) = [letterUser 'x' (2 ^ 32 - 1)] :=
    accounts_onDisk fun u hu => List.mem_singleton.mp hu ▸ writable_letterUser rfl (by decide)
  have hnext : nextUid [letterUser 'x' (2 ^ 32 - 1)] (onDisk [letterUser 'x' (2 ^ 32 - 1)]) = .panic := by
    unfold nextUid add
    rfl
  rw [createUser, if_neg (by decide), if_neg (by decide), bind_of_ok (loadOrDefault_eq _), haccounts, if_neg (by decide),
    bind_apply, hnext]

/-! ### Commands of the shell -/

def UserError.message : UserError → String
  | .nameTaken => "nom d'utilisateur déjà pris"
  | .nameInvalid => "nom invalide (lettres/chiffres uniquement, 1..32)"
  | .passwordTooShort => "mot de passe trop court (minimum 4 caractères)"
  | .saveFailed e => e

def cmdUserdel : List (List Char) → Exec Empty Storage String
  | [] => pure "usage: userdel <nom>"
  | name :: _ => do
    match ← find name with
    | none => pure "userdel: utilisateur inconnu"
    | some target =>
      match ← attempt (deleteUser target.uid) with
      | .ok _ => pure ("compte supprimé : " ++ String.ofList name)
      | .error e => pure ("userdel: " ++ e.message)

def cmdPasswd : List (List Char) → Exec Empty Storage String
  | name :: password :: _ => do
    match ← find name with
    | none => pure "passwd: utilisateur inconnu"
    | some target =>
      match ← attempt (setPassword target.uid password) with
      | .ok _ => pure "mot de passe mis à jour"
      | .error e => pure ("passwd: " ++ e.message)
  | _ => pure "usage: passwd <nom> <nouveau_mdp>"

theorem cmdUserdel_of_ok (hfind : find name s = .ok (some u) s) (h : deleteUser u.uid s = .ok () s') :
    cmdUserdel [name] s = .ok ("compte supprimé : " ++ String.ofList name) s' := by
  rw [cmdUserdel, bind_of_ok hfind]
  simp only [bind_apply, attempt, h, pure_apply]

theorem cmdPasswd_of_ok (hfind : find name s = .ok (some u) s) (h : setPassword u.uid password s = .ok () s') :
    cmdPasswd [name, password] s = .ok "mot de passe mis à jour" s' := by
  rw [cmdPasswd, bind_of_ok hfind]
  simp only [bind_apply, attempt, h, pure_apply]

section One

variable {before after : List User}

theorem find_of_split (h : accounts s = before ++ u :: after) (hfirst : ∀ v ∈ before, v.name ≠ u.name) :
    find u.name s = .ok (some u) s := by
  have hnone : before.find? (·.name == u.name) = none := by simpa using hfirst
  rw [find_eq, mapOf, h, List.find?_append, hnone, Option.none_or]
  exact congrArg (fun o => Outcome.ok o s) (List.find?_cons_of_pos (beq_self_eq_true u.name))

theorem modify_append_cons {f : User → User} : ∀ before : List User,
    (before ++ u :: after).modify before.length f = before ++ f u :: after
  | [] => rfl
  | v :: before => congrArg (v :: ·) (modify_append_cons before)

theorem modify_first {users front back : List User} {v : User} {uid i : ℕ} {f : User → User} (h : users = front ++ v :: back)
    (hfront : ∀ w ∈ front, w.uid ≠ uid) (hv : v.uid = uid) (hi : users.findIdx? (·.uid == uid) = some i) :
    users.modify i f = front ++ f v :: back := by
  have hnone : front.findIdx? (·.uid == uid) = none := by simpa using hfront
  rw [h, List.findIdx?_append, hnone, List.findIdx?_cons, if_pos (beq_iff_eq.mpr hv)] at hi
  cases hi
  rw [h]
  exact (congrArg (fun i => (front ++ v :: back).modify i f) (Nat.zero_add _)).trans (modify_append_cons front)

/-- **The commands act on the account they name** and on no other, when the accounts are saved: `passwd` exactly if the first
account with its number is that account (or nothing is to be changed in the two), `userdel` exactly if no other account has
its number. -/
theorem commands_act_on_one (h : accounts s = before ++ u :: after) (hfirst : ∀ v ∈ before, v.name ≠ u.name)
    (hroot : u.uid ≠ 0) (hlong : 4 ≤ (Utf8.encode password).length) :
    (∀ i, (accounts s).findIdx? (·.uid == u.uid) = some i →
      Saves s ((accounts s).modify i (withPassword password)) →
      ∃ s', cmdPasswd [u.name, password] s = .ok "mot de passe mis à jour" s' ∧
        (accounts s' = before ++ withPassword password u :: after ↔
          ∀ v, before.find? (·.uid == u.uid) = some v → withPassword password v = v ∧ withPassword password u = u)) ∧
    (Saves s ((accounts s).filter (·.uid != u.uid)) →
      ∃ s', cmdUserdel [u.name] s = .ok ("compte supprimé : " ++ String.ofList u.name) s' ∧
        (accounts s' = before ++ after ↔ ∀ v ∈ before ++ after, v.uid ≠ u.uid)) := by
  have hmem : u ∈ accounts s := h ▸ List.mem_append_right _ List.mem_cons_self
  have hw := writable_accounts s
  constructor
  · intro i hi hsave
    rcases setPassword_cases u.uid password s with ⟨-, hshort | hno⟩ | ⟨-, j, hj, hwrites⟩
    · exact absurd hlong (Nat.not_le.mpr hshort)
    · exact absurd rfl (hno u hmem)
    obtain rfl : i = j := Option.some.inj (hi.symm.trans hj)
    obtain ⟨s', hok, haccounts⟩ := hwrites.returns ((Edit.setPassword hi).writable hw) hsave
    refine ⟨s', cmdPasswd_of_ok (find_of_split h hfirst) hok, ?_⟩
    rw [haccounts]
    cases hfind : before.find? (·.uid == u.uid) with
    | none =>
      have hbefore : ∀ v ∈ before, v.uid ≠ u.uid := by simpa using hfind
      exact iff_of_true (modify_first h hbefore rfl hi) nofun
    | some v =>
      -- the account that is changed stands before the one that is named
      obtain ⟨hv, front, back, rfl, hfront⟩ := List.find?_eq_some_iff_append.mp hfind
      have hsplit : accounts s = front ++ v :: (back ++ u :: after) := by rw [h, List.append_assoc, List.cons_append]
      rw [modify_first hsplit (by simpa using hfront) (beq_iff_eq.mp hv) hi, List.append_assoc, List.cons_append,
        List.append_cancel_left_eq, List.cons.injEq, List.append_cancel_left_eq, List.cons.injEq]
      constructor
      · rintro ⟨hsame, hu, -⟩ _ ⟨⟩
        exact ⟨hsame, hu.symm⟩
      · exact fun hall => ⟨(hall v rfl).1, (hall v rfl).2.symm, rfl⟩
  · intro hsave
    rcases deleteUser_cases u.uid s with ⟨-, hzero | hno⟩ | ⟨-, hfound, hwrites⟩
    · exact absurd hzero hroot
    · exact absurd rfl (hno u hmem)
    obtain ⟨s', hok, haccounts⟩ := hwrites.returns ((Edit.delete hroot hfound).writable hw) hsave
    refine ⟨s', cmdUserdel_of_ok (find_of_split h hfirst) hok, ?_⟩
    rw [haccounts, h, List.filter_append, List.filter_cons_of_neg (by simp), ← List.filter_append, List.filter_eq_self]
    simp only [bne_iff_ne]

def twoUsers (uid : ℕ) : List User := [letterUser 'a' 1000, letterUser 'b' uid]

theorem accounts_twoUsers {uid : ℕ} (huid : uid < 2 ^ 32) : accounts (onDisk (twoUsers uid)) = twoUsers uid := by
  refine accounts_onDisk ?_
  simp only [twoUsers, List.mem_cons, List.not_mem_nil, or_false, forall_eq_or_imp, forall_eq]
  exact ⟨writable_letterUser rfl (by decide), writable_letterUser rfl huid⟩

theorem commands_act_on_one_distinct : ∃ s s', cmdUserdel [['b']] s = .ok "compte supprimé : b" s' ∧
    accounts s = twoUsers 1001 ∧ accounts s' = [letterUser 'a' 1000] := by
  have haccounts := accounts_twoUsers (show 1001 < 2 ^ 32 by decide)
  have hdigits : Nat.toDigits 10 1000 = ['1', '0', '0', '0'] := by decide
  obtain ⟨t, ht⟩ := save_onDisk (twoUsers 1001) (show (serialize [letterUser 'a' 1000]).length ≤ 8000 by
    simp [serialize, line, letterUser, hdigits])
  obtain ⟨s', hcmd, hs'⟩ := (commands_act_on_one
    (show _ = [letterUser 'a' 1000] ++ letterUser 'b' 1001 :: [] from haccounts) (by decide) (by decide)
    (show 4 ≤ (Utf8.encode ['a', 'a', 'a', 'a']).length by decide)).2
    (by rw [haccounts]; exact (save_saves ..).ok ht)
  exact ⟨_, s', hcmd, haccounts, hs'.mpr (by decide)⟩

/-- **Two accounts with one number**: `passwd b` changes the password of `a`, and `userdel b` removes both. -/
theorem commands_act_on_others :
    (∃ s', cmdPasswd [['b'], ['a', 'a', 'a', 'a']] (onDisk (twoUsers 1000)) = .ok "mot de passe mis à jour" s' ∧
      accounts s' = [withPassword ['a', 'a', 'a', 'a'] (letterUser 'a' 1000), letterUser 'b' 1000]) ∧
    ∃ s', cmdUserdel [['b']] (onDisk (twoUsers 1000)) = .ok "compte supprimé : b" s' ∧ accounts s' = [] := by
  have haccounts := accounts_twoUsers (show 1000 < 2 ^ 32 by decide)
  have hdigits : Nat.toDigits 10 1000 = ['1', '0', '0', '0'] := by decide
  have hw := writable_accounts (onDisk (twoUsers 1000))
  have hfind : find ['b'] (onDisk (twoUsers 1000)) = .ok (some (letterUser 'b' 1000)) (onDisk (twoUsers 1000)) := by
    rfl
  have hmem : letterUser 'b' 1000 ∈ accounts (onDisk (twoUsers 1000)) := by
    rw [haccounts]
    exact List.mem_cons_of_mem _ List.mem_cons_self
  constructor
  · obtain ⟨t, ht⟩ := save_onDisk (twoUsers 1000) (show (serialize
        [withPassword ['a', 'a', 'a', 'a'] (letterUser 'a' 1000), letterUser 'b' 1000]).length ≤ 8000 by
      simp [serialize, line, letterUser, withPassword, hashPassword, length_sha256Hex, hdigits])
    rcases setPassword_cases 1000 ['a', 'a', 'a', 'a'] (onDisk (twoUsers 1000)) with ⟨-, h | h⟩ | ⟨-, i, hi, hwrites⟩
    · exact absurd h (by decide)
    · exact absurd rfl (h _ hmem)
    have hlist := (show Edit _ (.setPassword _ ['a', 'a', 'a', 'a']) _ _ from .setPassword hi).writable hw
    cases hi
    obtain ⟨s', hok, hs'⟩ := hwrites.returns hlist ((save_saves ..).ok ht)
    exact ⟨s', cmdPasswd_of_ok hfind hok, hs'⟩
  · obtain ⟨t, ht⟩ := save_onDisk (twoUsers 1000) (show (serialize []).length ≤ 8000 from Nat.zero_le _)
    rcases deleteUser_cases 1000 (onDisk (twoUsers 1000)) with ⟨-, h | h⟩ | ⟨hroot, hfound, hwrites⟩
    · exact absurd h (by decide)
    · exact absurd rfl (h _ hmem)
    have hlist := (Edit.delete hroot hfound).writable hw
    rw [haccounts] at hwrites hlist
    obtain ⟨s', hok, hs'⟩ := hwrites.returns hlist ((save_saves ..).ok ht)
    exact ⟨s', cmdUserdel_of_ok hfind hok, hs'⟩

end One

end RustKernel.Users
