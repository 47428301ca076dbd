import Mathlib.Algebra.Order.Ring.Nat
import Mathlib.Data.List.Basic

/-!
# JSON

The grammar of RFC 8259 as a reader: one function for each of its rules, from a text to the value it begins with and to
what comes after that. White space may stand around every token; strings are decoded, with surrogate pairs put together.
-/

namespace RustKernel.Lib

open List (length_cons mem_cons_self append_assoc length_append cons_append append_nil map_cons map_map)

inductive Json
  | null
  | bool (b : Bool)
  | num (negative : Bool) (int : ℕ) (frac : List Char) (exp : ℤ)
  | str (s : List Char)
  | arr (vs : List Json)
  | obj (ms : List (List Char × Json))

namespace Json

/-! ### The reader -/

def isWs (c : Char) : Bool := c = ' ' || c = '\t' || c = '\n' || c = '\r'

def ws (cs : List Char) : List Char := cs.dropWhile isWs

def hexDigit (c : Char) : Option ℕ :=
  if c.isDigit then some (c.toNat - 0x30)
  else if 'a' ≤ c ∧ c ≤ 'f' then some (c.toNat - 0x57)
  else if 'A' ≤ c ∧ c ≤ 'F' then some (c.toNat - 0x37)
  else none

def hex4 : List Char → Option (ℕ × List Char)
  | a :: b :: c :: d :: rest => do
    let a ← hexDigit a
    let b ← hexDigit b
    let c ← hexDigit c
    let d ← hexDigit d
    pure (((a * 16 + b) * 16 + c) * 16 + d, rest)
  | _ => none

def unicode (cs : List Char) : Option (Char × List Char) := do
  let (n, rest) ← hex4 cs
  if n < 0xD800 ∨ 0xDFFF < n then pure (Char.ofNat n, rest)
  else if 0xDC00 ≤ n then none
  else match rest with
    | '\\' :: 'u' :: rest => do
      let (m, rest) ← hex4 rest
      if 0xDC00 ≤ m ∧ m ≤ 0xDFFF then pure (Char.ofNat (0x10000 + (n - 0xD800) * 0x400 + (m - 0xDC00)), rest) else none
    | _ => none

def shortEscapes : List (Char × Char) :=
  [('"', '"'), ('\\', '\\'), ('/', '/'), ('b', '\x08'), ('f', '\x0c'), ('n', '\n'), ('r', '\r'), ('t', '\t')]

def char : List Char → Option (Char × List Char)
  | [] => none
  | c :: rest =>
    if c = '\\' then match rest with
      | [] => none
      | e :: rest => if e = 'u' then unicode rest else (shortEscapes.lookup e).map (·, rest)
    else if c.toNat < 0x20 ∨ c = '"' then none
    else some (c, rest)

def string : ℕ → List Char → Option (List Char × List Char)
  | 0, _ => none
  | n + 1, cs =>
    if cs.head? = some '"' then some ([], cs.tail)
    else do
      let (c, rest) ← char cs
      let (s, rest) ← string n rest
      pure (c :: s, rest)

def frac (cs : List Char) : Option (List Char × List Char) :=
  if cs.head? = some '.' then
    let digits := cs.tail.takeWhile Char.isDigit
    if digits = [] then none else some (digits, cs.tail.dropWhile Char.isDigit)
  else some ([], cs)

def exp (cs : List Char) : Option (ℤ × List Char) :=
  if cs.head? = some 'e' ∨ cs.head? = some 'E' then
    let signed := cs.tail.head? = some '+' ∨ cs.tail.head? = some '-'
    let rest := if signed then cs.tail.tail else cs.tail
    let digits := rest.takeWhile Char.isDigit
    let n : ℕ := Nat.ofDigitChars 10 digits 0
    if digits = [] then none
    else some (if cs.tail.head? = some '-' then -n else n, rest.dropWhile Char.isDigit)
  else some (0, cs)

def number (cs : List Char) : Option (Json × List Char) := do
  let negative : Bool := cs.head? = some '-'
  let cs := if negative then cs.tail else cs
  let digits := cs.takeWhile Char.isDigit
  if digits = [] ∨ (digits.head? = some '0' ∧ digits ≠ ['0']) then none
  else do
    let (f, rest) ← frac (cs.dropWhile Char.isDigit)
    let (e, rest) ← exp rest
    pure (.num negative (Nat.ofDigitChars 10 digits 0) f e, rest)

def literal (cs : List Char) : Option (Json × List Char) :=
  [("true".toList, bool true), ("false".toList, bool false), ("null".toList, null)].findSome? fun l =>
    if l.1.isPrefixOf cs then some (l.2, cs.drop l.1.length) else none

def token (c : Char) (cs : List Char) : Option (List Char) := if (ws cs).head? = some c then some (ws cs).tail else none

def separated {α : Type} (item : List Char → Option (α × List Char)) (close : Char) :
    ℕ → List Char → Option (List α × List Char)
  | 0, _ => none
  | n + 1, cs => do
    let (v, rest) ← item cs
    match token ',' rest with
    | some rest => do
      let (vs, rest) ← separated item close n rest
      pure (v :: vs, rest)
    | none => do
      let rest ← token close rest
      pure ([v], rest)

def member (item : List Char → Option (Json × List Char)) (cs : List Char) : Option ((List Char × Json) × List Char) := do
  let rest ← token '"' cs
  let (key, rest) ← string rest.length rest
  let rest ← token ':' rest
  let (v, rest) ← item rest
  pure ((key, v), rest)

def value : ℕ → List Char → Option (Json × List Char)
  | 0, _ => none
  | n + 1, cs =>
    match ws cs with
    | [] => none
    | c :: rest =>
      if c = '"' then (string rest.length rest).map fun r => (str r.1, r.2)
      else if c = '[' then
        match token ']' rest with
        | some rest => some (arr [], rest)
        | none => (separated (value n) ']' rest.length rest).map fun r => (arr r.1, r.2)
      else if c = '\x7b' then
        match token '\x7d' rest with
        | some rest => some (obj [], rest)
        | none => (separated (member (value n)) '\x7d' rest.length rest).map fun r => (obj r.1, r.2)
      else if c.isDigit ∨ c = '-' then number (c :: rest)
      else literal (c :: rest)

def parse (cs : List Char) : Option Json := do
  let (v, rest) ← value (cs.length + 1) cs
  if ws rest = [] then pure v else none

/-! ### Strings -/

variable {s rest text : List Char} {n k : ℕ} {c : Char} {v : Json} {enc : Char → List Char} {α : Type}
  {item : List Char → Option (α × List Char)} {close : Char} {es : List (List Char × α)}

def Encodes (enc : Char → List Char) (s : List Char) : Prop :=
  ∀ c ∈ s, (enc c).head? ≠ some '"' ∧ ∀ rest, char (enc c ++ rest) = some (c, rest)

def Plain (c : Char) : Prop := 0x20 ≤ c.toNat ∧ c ≠ '"' ∧ c ≠ '\\'
deriving Decidable

theorem char_plain (h : Plain c) : char (c :: rest) = some (c, rest) := by
  have hno : ¬ (c.toNat < 0x20 ∨ c = '"') := by
    rintro (hlt | rfl)
    · exact absurd h.1 (by omega)
    · exact h.2.1 rfl
  unfold char
  dsimp only
  rw [if_neg h.2.2, if_neg hno]

theorem encodes_plain (h : ∀ c ∈ s, Plain c) : Encodes (fun c => [c]) s := by
  intro c hc
  refine ⟨fun hq => (h c hc).2.1 (Option.some.inj hq), fun rest => char_plain (h c hc)⟩

theorem string_encodes (h : Encodes enc s) (hn : s.length < n) :
    string n (s.flatMap enc ++ '"' :: rest) = some (s, rest) := by
  induction s generalizing n with
  | nil =>
    obtain ⟨n, rfl⟩ := Nat.exists_eq_succ_of_ne_zero (by omega : n ≠ 0)
    rfl
  | cons c s ih =>
    rw [length_cons] at hn
    obtain ⟨n, rfl⟩ := Nat.exists_eq_succ_of_ne_zero (by omega : n ≠ 0)
    obtain ⟨hquote, hchar⟩ := h c mem_cons_self
    have htail := @ih n (fun c hc => h c (List.mem_cons_of_mem _ hc)) (by omega)
    have hhead : (enc c ++ (s.flatMap enc ++ '"' :: rest)).head? ≠ some '"' := by
      cases henc : enc c with
      | nil =>
        -- nothing written for `c` would be read as the rest of the string
        have hnil := hchar []
        rw [henc] at hnil
        cases hnil
      | cons d ds =>
        rw [henc] at hquote
        exact hquote
    rw [List.flatMap_cons, append_assoc, string, if_neg hhead, hchar]
    simp [htail]

/-! ### Values -/

theorem ws_cons (h : isWs c = false) : ws (c :: rest) = c :: rest := by
  rw [ws, List.dropWhile_cons_of_neg (by rw [h]; exact Bool.false_ne_true)]

theorem token_self (h : isWs c = false) : token c (c :: rest) = some rest := by
  rw [token, ws_cons h]
  exact if_pos rfl

theorem token_other {d : Char} (h : isWs d = false) (hd : d ≠ c) : token c (d :: rest) = none := by
  rw [token, ws_cons h]
  exact if_neg fun heq => hd (Option.some.inj heq)

def Closes : List Char → Prop
  | [] => True
  | c :: _ => c = ',' ∨ c = ']' ∨ c = '\x7d'

def Reads (k : ℕ) (text : List Char) (v : Json) : Prop :=
  (∃ c t, text = c :: t ∧ isWs c = false ∧ c ≠ ']') ∧
    ∀ n rest, k ≤ n → Closes rest → value n (text ++ rest) = some (v, rest)

theorem reads_string (h : Encodes enc s) (hlen : s.length ≤ (s.flatMap enc).length) :
    Reads 1 ('"' :: (s.flatMap enc ++ ['"'])) (str s) := by
  refine ⟨⟨'"', _, rfl, by decide, by decide⟩, fun n rest hn _ => ?_⟩
  obtain ⟨n, rfl⟩ := Nat.exists_eq_add_one_of_ne_zero (by omega : n ≠ 0)
  have hlt : s.length < (s.flatMap enc ++ '"' :: rest).length := by
    rw [length_append, length_cons]
    omega
  rw [cons_append, append_assoc, value, ws_cons (by decide)]
  dsimp only [List.singleton_append]
  rw [string_encodes h hlt]
  rfl

theorem head?_toDigits {m : ℕ} (hm : m ≠ 0) : (Nat.toDigits 10 m).head? ≠ some '0' := by
  induction m using Nat.strongRecOn with
  | ind m ih =>
    by_cases hlt : m < 10
    · rw [Nat.toDigits_of_lt_base hlt]
      intro h
      exact hm (Nat.digitChar_eq_zero.mp (Option.some.inj h))
    · rw [Nat.toDigits_of_base_le (by decide) (by omega), List.head?_append_of_ne_nil _ Nat.toDigits_ne_nil]
      exact ih (m / 10) (by omega) (by omega)

theorem not_isDigit_of_closes (h : Closes (c :: rest)) : c.isDigit = false ∧ c ≠ '.' ∧ c ≠ 'e' ∧ c ≠ 'E' := by
  rcases h with rfl | rfl | rfl <;> decide

theorem reads_number (m : ℕ) : Reads 1 (Nat.toDigits 10 m) (num false m [] 0) := by
  have hdigits : ∀ c ∈ Nat.toDigits 10 m, c.isDigit = true := fun c hc => Nat.isDigit_of_mem_toDigits (by decide) (by decide) hc
  obtain ⟨c, t, ht⟩ := List.exists_cons_of_ne_nil (Nat.toDigits_ne_nil (n := m) (b := 10))
  have hc : c.isDigit = true := hdigits c (ht ▸ mem_cons_self)
  have hne : ∀ d : Char, d.isDigit = false → c ≠ d := by
    rintro d hd rfl
    cases hd.symm.trans hc
  have hws : isWs c = false := by
    simp [isWs, hne ' ' (by decide), hne '\t' (by decide), hne '\n' (by decide), hne '\r' (by decide)]
  refine ⟨⟨c, t, ht, hws, hne _ (by decide)⟩, fun n rest hn hrest => ?_⟩
  obtain ⟨n, rfl⟩ := Nat.exists_eq_add_one_of_ne_zero (by omega : n ≠ 0)
  have htake : (Nat.toDigits 10 m ++ rest).takeWhile Char.isDigit = Nat.toDigits 10 m := by
    rw [List.takeWhile_append_of_pos hdigits]
    cases rest with
    | nil => exact append_nil _
    | cons d rest => rw [List.takeWhile_cons_of_neg (by simp [(not_isDigit_of_closes hrest).1]), append_nil]
  have hdrop : (Nat.toDigits 10 m ++ rest).dropWhile Char.isDigit = rest := by
    rw [List.dropWhile_append_of_pos hdigits]
    cases rest with
    | nil => rfl
    | cons d rest => exact List.dropWhile_cons_of_neg (by simp [(not_isDigit_of_closes hrest).1])
  have hfrac : frac rest = some ([], rest) := by
    refine if_neg fun h => ?_
    cases rest with
    | nil => cases h
    | cons d rest => exact (not_isDigit_of_closes hrest).2.1 (Option.some.inj h)
  have hexp : exp rest = some (0, rest) := by
    refine if_neg fun h => ?_
    cases rest with
    | nil => rcases h with h | h <;> cases h
    | cons d rest =>
      have hd := (not_isDigit_of_closes hrest).2.2
      exact h.elim (fun h => hd.1 (Option.some.inj h)) fun h => hd.2 (Option.some.inj h)
  have hzero : ¬ (Nat.toDigits 10 m = [] ∨ ((Nat.toDigits 10 m).head? = some '0' ∧ Nat.toDigits 10 m ≠ ['0'])) := by
    rintro (h | ⟨h, hne⟩)
    · exact Nat.toDigits_ne_nil h
    · by_cases hm : m = 0
      · exact hne (hm ▸ rfl)
      · exact head?_toDigits hm h
  have hnumber : number (Nat.toDigits 10 m ++ rest) = some (num false m [] 0, rest) := by
    have hminus : (Nat.toDigits 10 m ++ rest).head? ≠ some '-' := by
      rw [ht]
      exact fun h => hne '-' (by decide) (Option.some.inj h)
    unfold number
    simp only [hminus, decide_false, Bool.false_eq_true, if_false, htake, hdrop, hzero, hfrac, hexp, Option.bind_eq_bind,
      Option.bind_some, Nat.ofDigitChars_toDigits (by decide : 1 < 10) (by decide)]
    rfl
  rw [← hnumber, ht, cons_append, value, ws_cons hws]
  dsimp only
  rw [if_neg (hne _ (by decide)), if_neg (hne _ (by decide)), if_neg (hne _ (by decide)), if_pos (.inl hc)]

/-! ### Arrays and objects -/

def commas (ts : List (List Char)) : List Char := [','].intercalate ts

theorem length_le_commas (ts : List (List Char)) : ts.length ≤ (commas ts).length + 1 := by
  induction ts with
  | nil => exact Nat.zero_le _
  | cons t ts ih =>
    cases ts with
    | nil => exact Nat.succ_le_succ (Nat.zero_le _)
    | cons t' ts =>
      rw [commas, List.intercalate_cons_cons, ← commas]
      simp only [length_append, length_cons] at ih ⊢
      omega

theorem separated_commas (hne : es ≠ []) (hclose : close = ']' ∨ close = '\x7d')
    (h : ∀ e ∈ es, ∀ rest, Closes rest → item (e.1 ++ rest) = some (e.2, rest)) (hn : es.length ≤ n) :
    separated item close n (commas (es.map Prod.fst) ++ close :: rest) = some (es.map Prod.snd, rest) := by
  have hcomma : isWs close = false ∧ close ≠ ',' := by rcases hclose with rfl | rfl <;> decide
  induction es generalizing n with
  | nil => exact absurd rfl hne
  | cons e es ih =>
    rw [length_cons] at hn
    obtain ⟨n, rfl⟩ := Nat.exists_eq_add_one_of_ne_zero (by omega : n ≠ 0)
    have he := h e mem_cons_self
    cases es with
    | nil =>
      have hv := he (close :: rest) (.inr hclose)
      simp only [map_cons, List.map_nil, commas, List.intercalate_singleton]
      rw [separated, hv]
      simp only [Option.bind_eq_bind, Option.bind_some, token_other hcomma.1 hcomma.2, token_self hcomma.1]
      rfl
    | cons e' es =>
      have hv := he (',' :: (commas ((e' :: es).map Prod.fst) ++ close :: rest)) (.inl rfl)
      have htail := @ih n (by simp) (fun e he => h e (List.mem_cons_of_mem _ he)) (by omega)
      have htext : commas ((e :: e' :: es).map Prod.fst) ++ close :: rest =
          e.1 ++ ',' :: (commas ((e' :: es).map Prod.fst) ++ close :: rest) := by
        simp [commas]
      rw [htext, separated, hv]
      simp only [Option.bind_eq_bind, Option.bind_some, token_self (by decide : isWs ',' = false), htail]
      rfl

theorem commas_cons (t : List Char) (ts : List (List Char)) : ∃ u, commas (t :: ts) = t ++ u := by
  cases ts with
  | nil => exact ⟨[], by rw [commas, List.intercalate_singleton, append_nil]⟩
  | cons t' ts => exact ⟨_, by rw [commas, List.intercalate_cons_cons, append_assoc]⟩

theorem bracket_commas (rest : List Char) (hne : es ≠ []) (hclose : close = ']' ∨ close = '\x7d')
    (hfirst : ∀ e ∈ es, ∃ c t, e.1 = c :: t ∧ isWs c = false ∧ c ≠ close)
    (h : ∀ e ∈ es, ∀ rest, Closes rest → item (e.1 ++ rest) = some (e.2, rest)) :
    let text := commas (es.map Prod.fst) ++ close :: rest
    token close text = none ∧ separated item close text.length text = some (es.map Prod.snd, rest) := by
  refine ⟨?_, separated_commas hne hclose h ?_⟩
  · obtain ⟨e, es, rfl⟩ := List.exists_cons_of_ne_nil hne
    obtain ⟨c, t, ht, hws, hc⟩ := hfirst e mem_cons_self
    obtain ⟨u, hu⟩ := commas_cons e.1 (es.map Prod.fst)
    rw [map_cons, hu, ht]
    exact token_other hws hc
  · have hle := length_le_commas (es.map Prod.fst)
    rw [List.length_map] at hle
    rw [length_append, length_cons]
    omega

theorem reads_array {es : List (List Char × Json)} (h : ∀ e ∈ es, Reads k e.1 e.2) :
    Reads (k + 1) ('[' :: (commas (es.map Prod.fst) ++ [']'])) (arr (es.map Prod.snd)) := by
  refine ⟨⟨'[', _, rfl, by decide, by decide⟩, fun n rest hn _ => ?_⟩
  obtain ⟨n, rfl⟩ := Nat.exists_eq_add_one_of_ne_zero (by omega : n ≠ 0)
  rw [cons_append, append_assoc, value, ws_cons (by decide)]
  dsimp only [List.singleton_append]
  by_cases hes : es = []
  · subst hes
    rfl
  · obtain ⟨hnone, hitems⟩ := bracket_commas rest hes (.inl rfl) (fun e he => (h e he).1)
      fun e he rest hrest => (h e he).2 n rest (by omega) hrest
    rw [hnone]
    rw [hitems]
    rfl

structure Member where
  key : List Char
  text : List Char
  value : Json

def Member.write (m : Member) : List Char := '"' :: (m.key ++ '"' :: ':' :: m.text)

theorem member_write {m : Member} (hkey : ∀ c ∈ m.key, Plain c) (h : Reads k m.text m.value) (hn : k ≤ n)
    (hrest : Closes rest) : member (value n) (m.write ++ rest) = some ((m.key, m.value), rest) := by
  have hstring : string (m.key ++ '"' :: ':' :: (m.text ++ rest)).length (m.key ++ '"' :: ':' :: (m.text ++ rest)) =
      some (m.key, ':' :: (m.text ++ rest)) := by
    have hlt : m.key.length < (m.key ++ '"' :: ':' :: (m.text ++ rest)).length := by
      rw [List.length_append, List.length_cons]
      omega
    have hkeys := @string_encodes m.key (':' :: (m.text ++ rest)) _ _ (encodes_plain hkey) hlt
    rwa [List.flatMap_singleton'] at hkeys
  unfold member Member.write
  simp only [List.cons_append, List.append_assoc, Option.bind_eq_bind, Option.bind_some,
    token_self (by decide : isWs '"' = false), hstring, token_self (by decide : isWs ':' = false), h.2 n rest hn hrest]
  rfl

theorem reads_object {ms : List Member} (hne : ms ≠ []) (hkey : ∀ m ∈ ms, ∀ c ∈ m.key, Plain c)
    (h : ∀ m ∈ ms, Reads k m.text m.value) :
    Reads (k + 1) ('\x7b' :: (commas (ms.map Member.write) ++ ['\x7d'])) (obj (ms.map fun m => (m.key, m.value))) := by
  refine ⟨⟨'\x7b', _, rfl, by decide, by decide⟩, fun n rest hn _ => ?_⟩
  obtain ⟨n, rfl⟩ := Nat.exists_eq_add_one_of_ne_zero (by omega : n ≠ 0)
  rw [cons_append, append_assoc, value, ws_cons (by decide)]
  dsimp only [List.singleton_append]
  have hitems := @bracket_commas _ (member (value n)) '\x7d' (ms.map fun m => (m.write, (m.key, m.value))) rest
    (List.map_eq_nil_iff.not.mpr hne) (.inr rfl)
    (List.forall_mem_map.mpr fun m _ => ⟨'"', _, rfl, by decide, by decide⟩)
    (List.forall_mem_map.mpr fun m hm rest hrest => member_write (hkey m hm) (h m hm) (by omega : k ≤ n) hrest)
  rw [map_map, map_map] at hitems
  rw [show ms.map Member.write = ms.map (Prod.fst ∘ fun m => (m.write, (m.key, m.value))) from rfl, hitems.1]
  rw [hitems.2]
  rfl

theorem Reads.parse (h : Reads k text v) (hk : k ≤ text.length + 1) : parse text = some v := by
  have hvalue := h.2 (text.length + 1) [] hk trivial
  rw [append_nil] at hvalue
  unfold Json.parse
  rw [hvalue]
  rfl

end Json

end RustKernel.Lib
