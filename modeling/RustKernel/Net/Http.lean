import RustKernel.Lib.Lines
import RustKernel.Lib.Run
import RustKernel.Lib.Utf8

/-!
# The HTTP server

`net/http.rs`: a server on one TCP socket. Every tenth of a second `tick` takes what has been received, up to 1024 bytes, and
takes it for a request.
-/

namespace RustKernel.Http

open Lib Lib.Lines

/-! ### Responses -/

structure Site where
  dashboard : List Char
  apiUptime : List Char
  apiMem : List Char
  apiProcs : List Char
  apiNet : List Char
  resolveA : List Char → Option (List Char)

def response (code : ℕ) (reason contentType body : List Char) : List Char :=
  "HTTP/1.1 ".toList ++ Nat.toDigits 10 code ++ ' ' :: reason ++ "\r\nContent-Type: ".toList ++ contentType ++
    "\r\nContent-Length: ".toList ++ Nat.toDigits 10 (Utf8.encode body).length ++ "\r\nConnection: close\r\n\r\n".toList ++ body

def responseHtml (code : ℕ) (reason body : List Char) : List Char :=
  response code reason "text/html; charset=utf-8".toList body

def responseJson (code : ℕ) (body : List Char) : List Char := response code "OK".toList "application/json".toList body

def responseText (code : ℕ) (reason body : List Char) : List Char :=
  response code reason "text/plain; charset=utf-8".toList body

def escape (s : List Char) : List Char := s.flatMap fun c =>
  if c = '"' then ['\\', '"']
  else if c = '\\' then ['\\', '\\']
  else if c = '\n' then ['\\', 'n']
  else if c = '\r' then ['\\', 'r']
  else if c.toNat < 0x20 then ['\\', 'u', '0', '0', Nat.digitChar (c.toNat / 16), Nat.digitChar (c.toNat % 16)]
  else [c]

def cutAt (c : Char) (s : List Char) : List Char × Option (List Char) :=
  match s.dropWhile (· != c) with
  | [] => (s, none)
  | _ :: rest => (s.takeWhile (· != c), some rest)

def queryParam (q key : List Char) : Option (List Char) :=
  ((q.splitOn '&').map (cutAt '=')).findSome? fun kv => if kv.1 = key then some (kv.2.getD []) else none

def apiDns (site : Site) (query : List Char) : List Char :=
  let host := (queryParam query "host".toList).getD []
  if host = [] then "\x7b\"error\":\"missing host param\"\x7d".toList
  else match site.resolveA host with
    | some addr => "\x7b\"host\":\"".toList ++ escape host ++ "\",\"a\":\"".toList ++ addr ++ "\"\x7d".toList
    | none => "\x7b\"host\":\"".toList ++ escape host ++ "\",\"error\":\"resolve failed\"\x7d".toList

def route (site : Site) (path : List Char) : List Char :=
  let p := (cutAt '?' path).1
  let q := (cutAt '?' path).2.getD []
  if p = "/".toList ∨ p = "/index.html".toList then responseHtml 200 "OK".toList site.dashboard
  else if p = "/api/uptime".toList then responseJson 200 site.apiUptime
  else if p = "/api/mem".toList then responseJson 200 site.apiMem
  else if p = "/api/procs".toList then responseJson 200 site.apiProcs
  else if p = "/api/net".toList then responseJson 200 site.apiNet
  else if p = "/api/dns".toList then responseJson 200 (apiDns site q)
  else responseText 404 "Not Found".toList "404 — disponibles: / /api/\x7buptime,mem,procs,net,dns\x7d\n".toList

/-! ### Requests -/

def isAsciiWhitespace (c : Char) : Bool := c == ' ' || c == '\t' || c == '\n' || c == '\x0c' || c == '\r'

def splitAsciiWhitespace (s : List Char) : List (List Char) := (s.splitOnP isAsciiWhitespace).filter (· ≠ [])

def parseRequestLine (req : List Char) : List Char × List Char :=
  let words := splitAsciiWhitespace ((lines req).headD [])
  (words.getD 0 [], words.getD 1 ['/'])

def GET : List Char := ['G', 'E', 'T']

def answer (site : Site) (bytes : List Byte) : List Char :=
  let req := (Utf8.decode bytes).getD []
  let line := parseRequestLine req
  if line.1 ≠ GET then responseText 405 "Method Not Allowed".toList "Only GET\n".toList else route site line.2

/-! ### The connection -/

inductive TcpState where
  | closed | listen | synSent | synReceived | established | finWait1 | finWait2 | closeWait | closing | lastAck | timeWait
  deriving DecidableEq

def RX_SIZE : ℕ := 2048
def TX_SIZE : ℕ := 16384

structure Socket where
  state : TcpState
  rx : List Byte
  txUsed : ℕ
  deriving DecidableEq

def Socket.listening : Socket := { state := .listen, rx := [], txUsed := 0 }

def Socket.accepts (s : Socket) (n : ℕ) : ℕ :=
  if s.state = .established ∨ s.state = .closeWait then min n (TX_SIZE - s.txUsed) else 0

structure Server where
  current : Option Socket
  pieces : List (List Byte)
  sent : List (List Byte)

def tick (site : Site) (s : Server) : Server :=
  match s.current with
  | none => s
  | some sock =>
    let bytes := sock.rx.take 1024
    let sock := { sock with rx := sock.rx.drop 1024 }
    if sock.state = .closed then { s with current := some .listening }
    else if sock.state = .closeWait then { s with current := some { sock with state := .lastAck } }
    else if bytes = [] then { s with current := some sock }
    else
      let resp := Utf8.encode (answer site bytes)
      let n := sock.accepts resp.length
      { s with current := some { sock with txUsed := sock.txUsed + n }, sent := s.sent ++ [resp.take n] }

inductive Event where
  | connect
  | piece
  | fin
  | drain (n : ℕ)
  | acked
  | tick (site : Site)

def step (s : Server) : Event → Option Server
  | .connect => s.current.bind fun sock =>
    if sock.state = .listen then some { s with current := some { sock with state := .established } } else none
  | .piece => s.current.bind fun sock =>
    match s.pieces with
    | [] => none
    | p :: rest =>
      if sock.state = .established ∧ sock.rx.length + p.length ≤ RX_SIZE then
        some { s with current := some { sock with rx := sock.rx ++ p }, pieces := rest }
      else none
  | .fin => s.current.bind fun sock =>
    if sock.state = .established ∧ s.pieces = [] then
      some { s with current := some { sock with state := .closeWait } }
    else none
  | .drain n => s.current.bind fun sock => some { s with current := some { sock with txUsed := sock.txUsed - n } }
  | .acked => s.current.bind fun sock =>
    if sock.state = .lastAck ∧ sock.txUsed = 0 then some { s with current := some { sock with state := .closed } } else none
  | .tick site => some (tick site s)

def start (pieces : List (List Byte)) : Server := { current := some .listening, pieces, sent := [] }

/-! ### Request lines -/

structure GetRequest where
  path : List Char
  version : List Char
  headers : List Byte
  path_ne : path ≠ []
  path_plain : ∀ c ∈ path, isAsciiWhitespace c = false
  version_plain : ∀ c ∈ version, isAsciiWhitespace c = false
  headers_end : [13#8, 10#8] <:+ headers

namespace GetRequest

def line (r : GetRequest) : List Char := GET ++ ' ' :: (r.path ++ ' ' :: r.version)

def bytes (r : GetRequest) : List Byte := Utf8.encode (r.line ++ ['\r', '\n']) ++ r.headers

theorem plain_GET : ∀ c ∈ GET, isAsciiWhitespace c = false := forall_mem_of_all rfl

section

variable (r : GetRequest)

theorem words_line : ∃ rest, splitAsciiWhitespace r.line = GET :: r.path :: rest := by
  refine ⟨(r.version.splitOnP isAsciiWhitespace).filter (· ≠ []), ?_⟩
  rw [splitAsciiWhitespace, line, List.splitOnP_append_cons_of_forall_mem plain_GET _ (by decide),
    List.splitOnP_append_cons_of_forall_mem r.path_plain _ (by decide), List.filter_cons_of_pos (by decide),
    List.filter_cons_of_pos (by simpa using r.path_ne)]

theorem lines_head (text : List Char) : (lines (r.line ++ ['\r', '\n'] ++ text)).headD [] = r.line := by
  have hnewline : ∀ c ∈ r.line ++ ['\r'], (c == '\n') = false := by
    have hplain : ∀ c, isAsciiWhitespace c = false → (c == '\n') = false := by
      intro c hc
      rw [beq_eq_false_iff_ne]
      rintro rfl
      exact absurd hc (by decide)
    simp only [line, List.mem_append, List.mem_cons, List.not_mem_nil, or_false]
    rintro c ((hc | rfl | hc | rfl | hc) | rfl)
    · exact hplain c (plain_GET c hc)
    · rfl
    · exact hplain c (r.path_plain c hc)
    · rfl
    · exact hplain c (r.version_plain c hc)
    · rfl
  have htext : r.line ++ ['\r', '\n'] ++ text = (r.line ++ ['\r']) ++ '\n' :: text := by simp
  have hsplit : (r.line ++ ['\r', '\n'] ++ text).splitOn '\n' = (r.line ++ ['\r']) :: text.splitOn '\n' := by
    rw [htext]
    exact List.splitOnP_append_cons_of_forall_mem hnewline _ (beq_self_eq_true '\n') text
  have hstrip : stripCr (r.line ++ ['\r']) = r.line := by simp [stripCr]
  rw [lines, hsplit, List.dropLast_cons_of_ne_nil (List.splitOn_ne_nil _ _), List.map_cons, hstrip]
  rfl

theorem answer_bytes (site : Site) (hutf8 : (Utf8.decode r.headers).isSome) :
    answer site r.bytes = route site r.path := by
  obtain ⟨text, htext⟩ := Option.isSome_iff_exists.mp hutf8
  obtain ⟨rest, hwords⟩ := r.words_line
  have hparse : parseRequestLine ((Utf8.decode r.bytes).getD []) = (GET, r.path) := by
    rw [bytes, Utf8.decode_encode_append, htext, Option.map_some, Option.getD_some, parseRequestLine, r.lines_head, hwords]
    rfl
  simp only [answer, hparse, ne_eq, not_true_eq_false, if_false]

theorem bytes_ne_nil : r.bytes ≠ [] := by
  obtain ⟨h, hh⟩ := r.headers_end
  simp [bytes, ← hh]

end

end GetRequest

/-! ### Runs -/

def Undisturbed (r : GetRequest) (s : Server) : Event → Prop
  | .tick site => ∀ sock ∈ s.current, sock.rx ≠ [] → s.pieces = [] ∧ sock.state = .established ∧
      (Utf8.encode (route site r.path)).length ≤ TX_SIZE - sock.txUsed
  | _ => True

structure Unread (r : GetRequest) (s : Server) : Prop where
  socket : ∃ sock, s.current = some sock ∧ sock.rx ++ s.pieces.flatten = r.bytes ∧
    (sock.state = .listen ∨ sock.state = .established ∨ sock.state = .closeWait ∧ s.pieces = [])
  sent : s.sent = []

structure Answered (r : GetRequest) (tr : List (Server × Event)) (s : Server) : Prop where
  read : s.pieces = [] ∧ ∀ sock ∈ s.current, sock.rx = []
  sent : ∃ site, s.sent = [Utf8.encode (route site r.path)] ∧ ∃ x ∈ tr, x.2 = .tick site

section Steps

variable {r : GetRequest} {s s' : Server} {site : Site} {tr : List (Server × Event)}

theorem Unread.tick (h : Unread r s) (hshort : r.bytes.length ≤ 1024) (hutf8 : (Utf8.decode r.headers).isSome)
    (hok : Undisturbed r s (.tick site)) : Unread r (tick site s) ∧ s.pieces ≠ [] ∨
      Answered r (tr ++ [(s, .tick site)]) (tick site s) := by
  obtain ⟨⟨sock, hcur, hbytes, hstate⟩, hsent⟩ := h
  have hclosed : sock.state ≠ .closed := by rcases hstate with h | h | h <;> simp [h]
  by_cases hrx : sock.rx = []
  · rw [hrx] at hbytes
    have hpieces : s.pieces ≠ [] := by
      intro hnil
      rw [hnil] at hbytes
      exact r.bytes_ne_nil hbytes.symm
    have hwait : sock.state ≠ .closeWait := by
      rcases hstate with h | h | h
      · simp [h]
      · simp [h]
      · exact absurd h.2 hpieces
    have htick : Http.tick site s = { s with current := some { sock with rx := [] } } := by
      simp only [Http.tick, hcur, hrx, List.take_nil, List.drop_nil, if_neg hclosed, if_neg hwait, if_true]
    refine Or.inl ⟨htick ▸ ⟨⟨{ sock with rx := [] }, rfl, hbytes, ?_⟩, hsent⟩, hpieces⟩
    exact hstate.imp id (Or.imp id fun h => absurd h.2 hpieces)
  · obtain ⟨hpieces, hest, hroom⟩ := hok sock hcur hrx
    rw [hpieces, List.flatten_nil, List.append_nil] at hbytes
    have htake : sock.rx.take 1024 = r.bytes := by rw [hbytes, List.take_of_length_le hshort]
    have hdrop : sock.rx.drop 1024 = [] := by rw [hbytes, List.drop_of_length_le hshort]
    have haccepts : Socket.accepts { sock with rx := [] } (Utf8.encode (route site r.path)).length =
        (Utf8.encode (route site r.path)).length := by
      rw [Socket.accepts, if_pos (Or.inl hest), min_eq_left hroom]
    have htick : Http.tick site s = { s with
        current := some { sock with rx := [], txUsed := sock.txUsed + (Utf8.encode (route site r.path)).length }
        sent := [Utf8.encode (route site r.path)] } := by
      simp only [Http.tick, hcur, htake, hdrop, hest, reduceCtorEq, if_false, r.bytes_ne_nil, r.answer_bytes site hutf8, hsent,
        List.nil_append]
      rw [hest] at haccepts
      rw [haccepts, List.take_length]
    rw [htick]
    refine Or.inr ⟨⟨hpieces, ?_⟩, site, rfl, (s, .tick site), by simp, rfl⟩
    intro sock' hsock'
    rw [← Option.some.inj hsock']

theorem Unread.step {e : Event} (h : Unread r s) (hshort : r.bytes.length ≤ 1024) (hutf8 : (Utf8.decode r.headers).isSome)
    (hok : Undisturbed r s e) (hstep : step s e = some s') : Unread r s' ∨ Answered r (tr ++ [(s, e)]) s' := by
  obtain ⟨⟨sock, hcur, hbytes, hstate⟩, hsent⟩ := id h
  cases e with
  | connect =>
    simp only [Http.step, hcur, Option.bind_some, Option.ite_none_right_eq_some, Option.some.injEq] at hstep
    obtain ⟨-, rfl⟩ := hstep
    exact Or.inl ⟨⟨_, rfl, hbytes, Or.inr (Or.inl rfl)⟩, hsent⟩
  | piece =>
    cases hp : s.pieces with
    | nil => simp [Http.step, hp] at hstep
    | cons p rest =>
      simp only [Http.step, hcur, hp, Option.bind_some, Option.ite_none_right_eq_some, Option.some.injEq] at hstep
      obtain ⟨⟨hest, -⟩, rfl⟩ := hstep
      rw [hp, List.flatten_cons, ← List.append_assoc] at hbytes
      exact Or.inl ⟨⟨_, rfl, hbytes, Or.inr (Or.inl hest)⟩, hsent⟩
  | fin =>
    simp only [Http.step, hcur, Option.bind_some, Option.ite_none_right_eq_some, Option.some.injEq] at hstep
    obtain ⟨⟨-, hpieces⟩, rfl⟩ := hstep
    exact Or.inl ⟨⟨_, rfl, hbytes, Or.inr (Or.inr ⟨rfl, hpieces⟩)⟩, hsent⟩
  | drain n =>
    simp only [Http.step, hcur, Option.bind_some, Option.some.injEq] at hstep
    subst hstep
    exact Or.inl ⟨⟨_, rfl, hbytes, hstate⟩, hsent⟩
  | acked =>
    simp only [Http.step, hcur] at hstep
    rcases hstate with h | h | h <;> simp [h] at hstep
  | tick site =>
    cases hstep
    exact (h.tick hshort hutf8 hok).imp And.left id

theorem Answered.step {e : Event} (h : Answered r tr s) (hstep : step s e = some s') : Answered r (tr ++ [(s, e)]) s' := by
  obtain ⟨⟨hpieces, hrx⟩, site, hsent, x, hx, hxs⟩ := h
  have hsent' : ∀ {s' : Server}, s'.sent = s.sent → ∃ site, s'.sent = [Utf8.encode (route site r.path)] ∧
      ∃ y ∈ tr ++ [(s, e)], y.2 = .tick site := fun hs' =>
    ⟨site, hs'.trans hsent, x, List.mem_append_left _ hx, hxs⟩
  cases hcur : s.current with
  | none =>
    cases e with
    | tick site' =>
      cases hstep
      have htick : tick site' s = s := by simp only [tick, hcur]
      rw [htick]
      exact ⟨⟨hpieces, hrx⟩, hsent' rfl⟩
    | connect | piece | fin | drain n | acked => simp [Http.step, hcur] at hstep
  | some sock =>
    have hempty : sock.rx = [] := hrx sock hcur
    have hdone : ∀ {s' : Server} {sock' : Socket}, s'.current = some sock' → sock'.rx = [] → s'.pieces = [] →
        s'.sent = s.sent → Answered r (tr ++ [(s, e)]) s' := by
      intro s' sock' hcur' hrx' hpieces' hs'
      refine ⟨⟨hpieces', fun sock'' h'' => ?_⟩, hsent' hs'⟩
      cases hcur'.symm.trans h''
      exact hrx'
    cases e with
    | connect | fin | acked =>
      simp only [Http.step, hcur, Option.bind_some, Option.ite_none_right_eq_some, Option.some.injEq] at hstep
      obtain ⟨-, rfl⟩ := hstep
      exact hdone rfl hempty hpieces rfl
    | piece => simp [Http.step, hpieces] at hstep
    | drain n =>
      simp only [Http.step, hcur, Option.bind_some, Option.some.injEq] at hstep
      subst hstep
      exact hdone rfl hempty hpieces rfl
    | tick site' =>
      cases hstep
      simp only [tick, hcur, hempty, List.take_nil]
      split_ifs
      · exact hdone rfl rfl hpieces rfl
      · exact hdone rfl rfl hpieces rfl
      · exact hdone rfl rfl hpieces rfl

end Steps

/-- **The request is answered once, with the page of its path and to the last byte**, if no tick spoils it: nothing is sent
before, and after a tick that comes when everything has arrived the answer has been sent. -/
theorem answers_whole_request {r : GetRequest} {pieces : List (List Byte)} {tr : List (Server × Event)} {s : Server}
    (h : Run step (start pieces) tr s) (hpieces : pieces.flatten = r.bytes) (hshort : r.bytes.length ≤ 1024)
    (hutf8 : (Utf8.decode r.headers).isSome) (hok : ∀ x ∈ tr, Undisturbed r x.1 x.2) :
    (s.sent = [] ∨ ∃ site, s.sent = [Utf8.encode (route site r.path)] ∧ ∃ x ∈ tr, x.2 = .tick site) ∧
      ∀ site, Undisturbed r s (.tick site) → s.pieces = [] →
        ∃ site', (tick site s).sent = [Utf8.encode (route site' r.path)] ∧ (site' = site ∨ ∃ x ∈ tr, x.2 = .tick site') := by
  have hstart : Unread r (start pieces) := ⟨⟨_, rfl, by rw [start]; exact hpieces, Or.inl rfl⟩, rfl⟩
  have hinv : Unread r s ∨ Answered r tr s := by
    refine h.history (I := fun tr s => Unread r s ∨ Answered r tr s) (K := Undisturbed r) (Or.inl hstart) hok ?_
    rintro tr a e b (hu | ha) hK hstep
    · exact hu.step hshort hutf8 hK hstep
    · exact Or.inr (ha.step hstep)
  refine ⟨hinv.imp Unread.sent Answered.sent, fun site hsite hall => ?_⟩
  have hnext : Answered r (tr ++ [(s, .tick site)]) (tick site s) := by
    rcases hinv with hu | ha
    · exact (hu.tick hshort hutf8 hsite).resolve_left fun hleft => hleft.2 hall
    · exact ha.step rfl
  obtain ⟨site', hsent, x, hx, hxs⟩ := hnext.sent
  refine ⟨site', hsent, ?_⟩
  rcases List.mem_append.mp hx with hx | hx
  · exact Or.inr ⟨x, hx, hxs⟩
  · rw [List.mem_singleton.mp hx] at hxs
    exact Or.inl (Event.tick.inj hxs).symm

def rootRequest : GetRequest :=
  { path := ['/'], version := ['H', 'T', 'T', 'P', '/', '1', '.', '1'], headers := [13#8, 10#8], path_ne := by decide
    path_plain := forall_mem_of_all rfl, version_plain := forall_mem_of_all rfl, headers_end := List.suffix_rfl }

def emptySite : Site :=
  { dashboard := [], apiUptime := [], apiMem := [], apiProcs := [], apiNet := [], resolveA := fun _ => none }

instance (r : GetRequest) (s : Server) (e : Event) : Decidable (Undisturbed r s e) := by
  unfold Undisturbed
  split <;> infer_instance

/-- Two pieces that have both arrived when the tick comes. -/
theorem answers_whole_request_root : ∃ tr s, Run step (start [rootRequest.bytes.take 2, rootRequest.bytes.drop 2]) tr s ∧
    (∀ x ∈ tr, Undisturbed rootRequest x.1 x.2) ∧ s.sent.length = 1 ∧
    ∃ site, s.sent = [Utf8.encode (route site rootRequest.path)] := by
  have hfinal : (exec step (fun s e => Undisturbed rootRequest s e)
      (start [rootRequest.bytes.take 2, rootRequest.bytes.drop 2])
      [.connect, .tick emptySite, .piece, .piece, .tick emptySite, .tick emptySite]).any fun s => s.sent.length = 1 := by
    decide +kernel
  obtain ⟨tr, s, hrun, hok, hs⟩ := exists_run_of_any hfinal
  obtain ⟨hsent, -⟩ := answers_whole_request hrun (by decide +kernel) (by decide +kernel) (by decide +kernel) hok
  refine ⟨tr, s, hrun, hok, hs, ?_⟩
  rcases hsent with hnil | ⟨site, hsite, -⟩
  · rw [hnil] at hs
    cases hs
  · exact ⟨site, hsite⟩

/-- **Pieces are taken for requests**: the same two pieces with a tick between them are refused one after the other, and the
request is dropped if the client closes its side before the tick comes. -/
theorem pieces_are_requests :
    (∃ tr s, Run step (start [rootRequest.bytes.take 2, rootRequest.bytes.drop 2]) tr s ∧ s.pieces = [] ∧
      s.sent = List.replicate 2 (Utf8.encode (responseText 405 "Method Not Allowed".toList "Only GET\n".toList))) ∧
    ∃ tr s, Run step (start [rootRequest.bytes]) tr s ∧ s.pieces = [] ∧ s.sent = [] ∧
      s.current = some { state := .lastAck, rx := [], txUsed := 0 } := by
  have htwice : (exec step (fun _ _ => True) (start [rootRequest.bytes.take 2, rootRequest.bytes.drop 2])
      [.connect, .piece, .tick emptySite, .piece, .tick emptySite]).any fun s => s.pieces = [] ∧
        s.sent = List.replicate 2 (Utf8.encode (responseText 405 "Method Not Allowed".toList "Only GET\n".toList)) := by
    decide +kernel
  have hdropped : (exec step (fun _ _ => True) (start [rootRequest.bytes]) [.connect, .piece, .fin, .tick emptySite]).any
      fun s => s.pieces = [] ∧ s.sent = [] ∧ s.current = some { state := .lastAck, rx := [], txUsed := 0 } := by
    decide +kernel
  obtain ⟨tr₁, s₁, hrun₁, -, hs₁⟩ := exists_run_of_any htwice
  obtain ⟨tr₂, s₂, hrun₂, -, hs₂⟩ := exists_run_of_any hdropped
  exact ⟨⟨tr₁, s₁, hrun₁, hs₁⟩, tr₂, s₂, hrun₂, hs₂⟩

end RustKernel.Http
