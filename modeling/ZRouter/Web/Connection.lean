import ZRouter.Web.Base64
import ZRouter.Web.Conf
import ZRouter.Web.Event

/-!
# A connection to the web server (`processConnection` in `httpd.lua`)

The header is read line by line; `Content-Length` is turned into a number on the way.  Then follow the
request line, the credentials, and either an answer or the call of `handleRequest`.  Where the source
uses a value that may be `nil`, the model raises the error that Lua would.

* `receiveLine`, `headerLoop`: the lines of a request;
* `credentials`, `userGroup`: Basic authentication against the configuration;
* `processConnection`;
* `returns_iff_numeric_length`: the requests that do not stop the server.
-/

namespace ZRouter.Web

open Pattern

/-! ### The header -/

/-- `client:receive("*l")`: a line without its end, and without any carriage return; `none` when the
client closes the connection first. -/
def receiveLine (s : Bytes) : Option (Bytes × Bytes) :=
  match s.dropWhile (· ≠ lf) with
  | [] => none
  | _ :: rest => some ((s.takeWhile (· ≠ lf)).filter (· ≠ cr), rest)

/-- The class `[^:\r\n]`. -/
def isValue (c : UInt8) : Bool := c ≠ 58 && c ≠ cr && c ≠ lf

/-- The pattern `Field: ([^:\r\n]+)` for a name without special characters. -/
def fieldItems (start : Bytes) : List (Item UInt8) := lit start ++ [.opens, .plus isValue, .closes]

/-- The first capture of a pattern; `none` is `nil`. -/
def capture (items : List (Item UInt8)) (s : Bytes) : Option Bytes :=
  match find items s with
  | some (_, c :: _, _) => some c
  | _ => none

/-- What the header loop sets. -/
structure Header where
  contentLength : Option Number
  text : Bytes

/-- `rq.ContentLength = -1`, and no header yet. -/
def Header.start : Header := ⟨some ⟨true, .finite 1 10 0⟩, []⟩

/-- One line of the header. -/
def Header.line (h : Header) (data : Bytes) : Header where
  contentLength := match capture (fieldItems (str "Content-Length: ")) data with
    | some len => tonumber len
    | none => h.contentLength
  text := h.text ++ data ++ crlf

/-- The header loop, and what the client has sent after the header. -/
def headerLoop : ℕ → Header → Bytes → Header × Bytes
  | 0, h, s => (h, s)
  | n + 1, h, s =>
      match receiveLine s with
      | none => (h, [])
      | some (data, rest) =>
          if data = [] then (h.line data, rest) else headerLoop n (h.line data) rest

/-! ### Authentication -/

/-- The path of a user, `http.users.user[%d]`. -/
def userPath (k : ℕ) : Bytes := str "http.users.user[" ++ decimal k ++ [93]

/-- The user number `k` of the configuration. -/
def user (conf : Elem) (k : ℕ) : Option Elem := getNode conf (userPath k)

/-- `_u` and `_p`: the captures of `(.-)%:(.*)`. -/
def credentials (pair : Bytes) : Option Bytes × Option Bytes :=
  match find [.opens, .lazy anyByte, .closes, .one (· = 58), .opens, .star anyByte, .closes] pair with
  | some (_, [u, p], _) => (some u, some p)
  | _ => (none, none)

/-- One pass of the loop over the users. -/
def userPass (conf : Elem) (u p : Option Bytes) (group : Option Bytes) (k : ℕ) : Option Bytes :=
  match user conf k with
  | none => group
  | some e =>
      if e.getAttr (str "username") = u ∧ e.getAttr (str "password") = p then
        e.getAttr (str "group")
      else group

/-- `rq.Group` after the loop over the users. -/
def userGroup (conf : Elem) (u p : Option Bytes) : Option Bytes :=
  [1, 2, 3, 4, 5, 6, 7, 8].foldl (userPass conf u p) none

/-- `rq.Group`: with an `Authorization` field, what follows `Basic` is decoded. -/
def requestGroup (conf : Elem) (header : Bytes) : Lua (Option Bytes) :=
  match capture (fieldItems (str "Authorization: ")) header with
  | none => .ok none
  | some _ =>
      match capture (fieldItems (str "Basic ")) header with
      | none => .ok none
      | some basic => (b64dec basic).map fun pair =>
          userGroup conf (credentials pair).1 (credentials pair).2

/-! ### The connection -/

/-- What becomes of a connection: one of two error pages, or the call of `handleRequest` with the
method, the decoded path and the body. -/
inductive Answer
  | notImplemented (message : Bytes)
  | unauthorized
  | handle (method path : Bytes) (body : Option Bytes)

/-- The captures of the request line; both are `nil` if there is none. -/
def lineCaptures (header : Bytes) : Option Bytes × Option Bytes :=
  match find headerItems header with
  | some (_, method :: path :: _, _) => (some method, some path)
  | _ => (none, none)

/-- The text of the answer to other methods. -/
def notImplementedMessage (method : Option Bytes) : Bytes :=
  str "Method not implemented" ++
    match method with
    | none => str "."
    | some m => str ": " ++ urlEncode m

/-- `processConnection`, for the address of the client and the bytes that it sends.  `body` is
`client:receive(n)`, which gives `nil` when fewer bytes come. -/
def processConnection (conf : Elem) (body : Number → Bytes → Option Bytes) (ip : Option Bytes)
    (s : Bytes) : Lua Answer := do
  let (h, rest) := headerLoop (s.length + 1) .start s
  let n ← Lua.get .compare h.contentLength
  let requestBody := if n.nonneg then body n rest else none
  let (method, path) := lineCaptures h.text
  if method ≠ some (str "GET") ∧ method ≠ some (str "POST") then
    return .notImplemented (notImplementedMessage method)
  let method ← Lua.get .argument method
  let path ← Lua.get .argument path
  let group ← requestGroup conf h.text
  if group = none ∧ ip ≠ some (str "127.0.0.1") then
    return .unauthorized
  return .handle method (urlDecode path) requestBody

/-! ### The requests that raise an error -/

/-- The lines of a header, up to the first empty one. -/
def headerLines : ℕ → Bytes → List Bytes
  | 0, _ => []
  | n + 1, s =>
      match receiveLine s with
      | none => []
      | some (data, rest) => if data = [] then [data] else data :: headerLines n rest

/-- The last value of `Content-Length` in the header. -/
def lastLength (s : Bytes) : Option Bytes :=
  ((headerLines (s.length + 1) s).filterMap
    (capture (fieldItems (str "Content-Length: ")))).getLast?

/-- The loop goes through the lines one by one. -/
theorem headerLoop_fst (n : ℕ) (h : Header) (s : Bytes) :
    (headerLoop n h s).1 = (headerLines n s).foldl Header.line h := by
  induction n generalizing h s with
  | zero => rfl
  | succ n ih =>
    rw [headerLoop, headerLines]
    cases receiveLine s with
    | none => rfl
    | some r =>
      obtain ⟨data, rest⟩ := r
      dsimp only
      split_ifs with hd
      · rfl
      · rw [ih]
        rfl

/-- The last value wins. -/
theorem contentLength_foldl (lines : List Bytes) (h : Header) :
    (lines.foldl Header.line h).contentLength =
      match (lines.filterMap (capture (fieldItems (str "Content-Length: ")))).getLast? with
      | some v => tonumber v
      | none => h.contentLength := by
  induction lines using List.reverseRecOn with
  | nil => rfl
  | append_singleton lines data ih =>
    rw [List.foldl_append, List.foldl_cons, List.foldl_nil, List.filterMap_append]
    change (match capture (fieldItems (str "Content-Length: ")) data with
      | some len => tonumber len
      | none => (lines.foldl Header.line h).contentLength) = _
    cases hc : capture (fieldItems (str "Content-Length: ")) data with
    | none => simp [hc, ih]
    | some v => simp [hc]

theorem requestGroup_returns (conf : Elem) (header : Bytes) :
    ∃ group, requestGroup conf header = .ok group := by
  unfold requestGroup
  split
  · exact ⟨_, rfl⟩
  · split
    · exact ⟨_, rfl⟩
    · obtain ⟨pair, hpair⟩ := b64dec_returns ‹_›
      exact ⟨_, by rw [hpair]; rfl⟩

/-- The two captures are both there or both missing. -/
theorem lineCaptures_cases (header : Bytes) :
    (lineCaptures header = (none, none)) ∨ ∃ m p, lineCaptures header = (some m, some p) := by
  unfold lineCaptures
  split
  · exact Or.inr ⟨_, _, rfl⟩
  · exact Or.inl rfl

/-- What follows the comparison. -/
def answer (ip group : Option Bytes) (body : Option Bytes) : Option Bytes × Option Bytes → Answer
  | (some method, some path) =>
      if method = str "GET" ∨ method = str "POST" then
        if group = none ∧ ip ≠ some (str "127.0.0.1") then .unauthorized
        else .handle method (urlDecode path) body
      else .notImplemented (notImplementedMessage (some method))
  | _ => .notImplemented (notImplementedMessage none)

/-- After the comparison nothing raises an error. -/
theorem processConnection_eq {conf : Elem} {body : Number → Bytes → Option Bytes}
    {ip : Option Bytes} {s : Bytes} {n : Number} {group : Option Bytes}
    (hn : (headerLoop (s.length + 1) .start s).1.contentLength = some n)
    (hg : requestGroup conf (headerLoop (s.length + 1) .start s).1.text = .ok group) :
    processConnection conf body ip s = .ok (answer ip group
      (if n.nonneg then body n (headerLoop (s.length + 1) .start s).2 else none)
      (lineCaptures (headerLoop (s.length + 1) .start s).1.text)) := by
  unfold processConnection
  rcases lineCaptures_cases (headerLoop (s.length + 1) .start s).1.text with hr | ⟨m, p, hr⟩
  · simp only [hn, hr, Lua.get, bind, Except.bind, pure, Except.pure, answer]
    rw [if_pos (by simp)]
  · simp only [hn, hr, hg, Lua.get, bind, Except.bind, pure, Except.pure, answer]
    by_cases hm : m = str "GET" ∨ m = str "POST"
    · rw [if_neg (by simpa [or_iff_not_imp_left] using hm), if_pos hm]
      by_cases hgroup : group = none ∧ ip ≠ some (str "127.0.0.1")
      · rw [if_pos hgroup, if_pos hgroup]
      · rw [if_neg hgroup, if_neg hgroup]
    · rw [if_pos (by simpa [not_or] using hm), if_neg hm]

/-- **`processConnection` returns exactly when the last `Content-Length` of the header, if there is
one, is a numeral.**  Otherwise `tonumber` gives `nil`, and the comparison with zero raises an error. -/
theorem returns_iff_numeric_length (conf : Elem) (body : Number → Bytes → Option Bytes)
    (ip : Option Bytes) (s : Bytes) :
    (∃ a, processConnection conf body ip s = .ok a) ↔
      ∀ v, lastLength s = some v → (tonumber v).isSome = true := by
  have hlen := contentLength_foldl (headerLines (s.length + 1) s) .start
  rw [← headerLoop_fst] at hlen
  change _ = (match lastLength s with
    | some v => tonumber v
    | none => Header.start.contentLength) at hlen
  obtain ⟨group, hg⟩ := requestGroup_returns conf (headerLoop (s.length + 1) .start s).1.text
  cases hn : (headerLoop (s.length + 1) .start s).1.contentLength with
  | none =>
    have hraise : processConnection conf body ip s = .error .compare := by
      unfold processConnection
      simp only [hn, Lua.get, bind, Except.bind]
    rw [hn] at hlen
    rw [hraise]
    constructor
    · rintro ⟨a, ha⟩
      cases ha
    · intro hall
      cases hv : lastLength s with
      | none =>
        rw [hv] at hlen
        cases hlen
      | some v =>
        have hsome := hall v hv
        rw [hv] at hlen
        dsimp only at hlen
        rw [← hlen] at hsome
        cases hsome
  | some n =>
    refine ⟨fun _ v hv => ?_, fun _ => ⟨_, processConnection_eq hn hg⟩⟩
    rw [hn, hv] at hlen
    dsimp only at hlen
    rw [← hlen]
    rfl

/-- A request whose `Content-Length` is a word. -/
def wordLength : Bytes := str "GET / HTTP/1.0" ++ crlf ++ str "Content-Length: none" ++ crlf ++ crlf

/-- It stops the server. -/
theorem word_length_raises :
    ¬ ∀ conf body ip s, ∃ a, processConnection conf body ip s = .ok a := by
  intro hall
  have h := (returns_iff_numeric_length (.root []) (fun _ _ => none) (some (str "10.0.0.7"))
    wordLength).1 (hall _ _ _ _) (str "none") (by decide +kernel)
  revert h
  decide +kernel

end ZRouter.Web
