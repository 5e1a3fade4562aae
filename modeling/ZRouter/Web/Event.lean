import ZRouter.Web.Collector

/-!
# Event requests in the web server (`httpd.lua`)

The collector forwards a query line as the query of `/event.xml`.  `processConnection` decodes the
whole path and `handleRequest` splits it at `?`; `parse_query` then decodes every field once more.

* `requestHeader`, `readRequest`: from the lines of a request to `rq.GET`;
* `HttpClient`: the lines that `socket.http` sends;
* `readRequest_client`: what the server makes of a forwarded query line;
* `Clean`, `same_table_iff_clean`: the tables that collector and server both read as they were
  written.
-/

namespace ZRouter.Web

open Pattern

/-! ### The model -/

/-- `rq.RequestHeader`: the lines up to the first empty one, that one included. -/
def requestHeader : List Bytes → Bytes
  | [] => []
  | data :: lines => data ++ crlf ++ if data = [] then [] else requestHeader lines

/-- The pattern `([A-Z]+) (.+) HTTP/(%d).(%d)`. -/
def headerItems : List (Item UInt8) :=
  .opens :: .plus isupper :: .closes :: .one (· = 32) :: .opens :: .plus anyByte :: .closes ::
    (lit (str " HTTP/") ++ versionItems)

/-- `string.gsub(path, "%?.*", "")`. -/
def scriptName (path : Bytes) : Bytes := gsub [.one (· = 63), .star anyByte] (fun _ _ => []) path

/-- `string.gsub(path, ".*%?", "")`. -/
def afterQuestion (path : Bytes) : Bytes :=
  gsub [.star anyByte, .one (· = 63)] (fun _ _ => []) path

/-- The fields of `rq` that the scripts for events read. -/
structure Request where
  scriptName : Bytes
  queryString : Bytes
  get : Table

/-- The start of `handleRequest`, for a decoded path. -/
def splitPath (path : Bytes) : Request :=
  let file := scriptName path
  let query := if file ≠ path then afterQuestion path else []
  ⟨file, query, parseQuery query⟩

/-- `processConnection` up to the call of `handleRequest`; `none` when it answers 501. -/
def readRequest (lines : List Bytes) : Option Request :=
  match find headerItems (requestHeader lines) with
  | some (_, method :: path :: _, _) =>
      if method = str "GET" ∨ method = str "POST" then some (splitPath (urlDecode path)) else none
  | _ => none

/-- What `socket.http` sends after the request line: the headers `host`, `connection`, `te` and
`user-agent`, in the order in which `pairs` gives them, the last with the version of the C library.  The
server relies on there being no further ` HTTP/` in them. -/
structure HttpClient where
  headers : List Bytes
  nonempty : ∀ l ∈ headers, l ≠ []
  noVersion : ∀ l ∈ headers, ¬ str " HTTP/" <:+: l

/-- The lines of `http.request("http://127.0.0.1:80/event.xml?" .. q)`.  `url.parse` and `url.build` give
the path and the query of this URL back as they are; what stands behind a `#` is taken off and put on
again. -/
def HttpClient.lines (c : HttpClient) (q : Bytes) : List Bytes :=
  (str "GET /event.xml?" ++ q ++ str " HTTP/1.1") :: (c.headers ++ [[]])

/-! ### Reading the request line -/

theorem run_version {d d' x : UInt8} (hd : isdigit d = true) (hd' : isdigit d' = true)
    (start : Bytes) (caps : List Bytes) (s : Bytes) :
    Pattern.run (lit (str " HTTP/") ++ versionItems) start caps
      (str " HTTP/" ++ d :: x :: d' :: s) = some (caps ++ [[d], [d']], s) := by
  rw [run_lit, if_pos (List.prefix_append _ _), List.drop_left]
  simp [versionItems, Pattern.run, hd, hd', anyByte]

/-- Where ` HTTP/` does not stand, the end of a request line is not matched. -/
theorem run_version_none {start : Bytes} {caps : List Bytes} {s : Bytes}
    (h : ¬ str " HTTP/" <+: s) :
    Pattern.run (.closes :: (lit (str " HTTP/") ++ versionItems)) start caps s = none := by
  rw [Pattern.run, run_lit, if_neg h]

theorem not_prefix_of_head {c : UInt8} {l s : Bytes} (h : s.head? ≠ some c) : ¬ c :: l <+: s := by
  rintro ⟨t, rfl⟩
  exact h rfl

/-- The method at the start of a request line is its first capture. -/
theorem exec_method {method s : Bytes} (items : List (Item UInt8)) (hm : method ≠ [])
    (hup : ∀ c ∈ method, isupper c = true) {m : List Bytes × Bytes}
    (h : ∀ start, Pattern.run items start [method] s = some m) :
    exec (.opens :: .plus isupper :: .closes :: .one (· = 32) :: items) (method ++ 32 :: s) =
      some m := by
  refine run_plus_before hm hup (by simp [isupper]) ?_
  simpa [Pattern.run] using h _

/-- A capture that goes as far as the first occurrence of the byte `c`. -/
theorem run_lazy_capture {x s : Bytes} (items : List (Item UInt8)) {c : UInt8} (hc : c ∉ x)
    (start : Bytes) (caps : List Bytes) {m : List Bytes × Bytes}
    (hnone : ∀ start caps t, t.head? ≠ some c → Pattern.run items start caps t = none)
    (h : Pattern.run items (x ++ s) (caps ++ [x]) s = some m) :
    Pattern.run (.opens :: .lazy anyByte :: .closes :: items) start caps (x ++ s) = some m := by
  change minExpand anyByte _ (x ++ s) = _
  refine minExpand_append (fun _ _ => rfl) (by rw [run_closes, h]) ?_
  intro u v huv hv
  obtain ⟨y, v, rfl⟩ := List.exists_cons_of_ne_nil hv
  refine hnone _ _ _ ?_
  have hy : y ∈ x := by simp [huv]
  simpa using ne_of_mem_of_not_mem hy hc

/-- The query of a request line. -/
theorem requestQuery_line {method path q tail : Bytes} {d x d' : UInt8} (hm : method ≠ [])
    (hup : ∀ c ∈ method, isupper c = true) (hpath : 63 ∉ path) (hq : 32 ∉ q)
    (hd : isdigit d = true) (hd' : isdigit d' = true) :
    requestQuery (method ++ 32 :: (path ++ 63 :: (q ++ (str " HTTP/" ++ d :: x :: d' :: tail)))) =
      some q := by
  have hexec : exec requestItems
      (method ++ 32 :: (path ++ 63 :: (q ++ (str " HTTP/" ++ d :: x :: d' :: tail)))) =
        some ([method, path, q] ++ [[d], [d']], tail) := by
    refine exec_method _ hm hup fun start => ?_
    refine run_lazy_capture _ hpath start [method] ?_ ?_
    · intro start caps t ht
      cases t with
      | nil => rfl
      | cons y t =>
        have hy : y ≠ 63 := by simpa using ht
        simp [Pattern.run, hy]
    · change Pattern.run (.opens :: .lazy anyByte :: .closes :: _)
        (path ++ 63 :: (q ++ (str " HTTP/" ++ d :: x :: d' :: tail))) [method, path] (q ++ _) = _
      refine run_lazy_capture _ hq _ [method, path] ?_ (run_version hd hd' _ _ _)
      intro start caps t ht
      have hns : ¬ str " HTTP/" <+: t := not_prefix_of_head ht
      rw [run_lit, if_neg hns]
  rw [requestQuery, find_of_exec hexec]
  rfl

/-! ### The forwarded request -/

theorem requestHeader_lines (c : HttpClient) (line : Bytes) (hl : line ≠ []) :
    requestHeader (line :: (c.headers ++ [[]])) =
      line ++ crlf ++ requestHeader (c.headers ++ [[]]) := by
  rw [requestHeader, if_neg hl]

/-- The rest of the header has no ` HTTP/`. -/
theorem HttpClient.noVersion_rest (c : HttpClient) :
    ¬ str " HTTP/" <:+: requestHeader (c.headers ++ [[]]) := by
  have key : ∀ ls : List Bytes, (∀ l ∈ ls, l ≠ []) → (∀ l ∈ ls, ¬ str " HTTP/" <:+: l) →
      ¬ str " HTTP/" <:+: requestHeader (ls ++ [[]]) := by
    intro ls
    induction ls with
    | nil => exact fun _ _ => by decide
    | cons l ls ih =>
      intro h1 h2 hin
      rw [List.cons_append, requestHeader, if_neg (h1 l (by simp)), crlf, List.append_assoc] at hin
      rcases infix_split (by decide) hin with hin | hin
      · exact h2 l (by simp) hin
      · rcases @infix_split _ [] _ lf (by decide) hin with hin | hin
        · exact absurd hin (by decide)
        · exact ih (fun x hx => h1 x (by simp [hx])) (fun x hx => h2 x (by simp [hx])) hin
  exact key c.headers c.nonempty c.noVersion

/-- **What the server makes of a forwarded query line**, whatever the line is. -/
theorem readRequest_client (c : HttpClient) (q : Bytes) :
    readRequest (c.lines q) = some (splitPath (urlDecode (str "/event.xml?" ++ q))) := by
  set rest := crlf ++ requestHeader (c.headers ++ [[]]) with hrest
  have hheader : requestHeader (c.lines q) =
      str "GET" ++ 32 :: (str "/event.xml?" ++ q ++ (str " HTTP/" ++ 49 :: 46 :: 49 :: rest)) := by
    rw [HttpClient.lines, requestHeader_lines c _ (by simp [str]), hrest]
    simp [str]
  have hexec : exec headerItems (str "GET" ++ 32 :: (str "/event.xml?" ++ q ++
      (str " HTTP/" ++ 49 :: 46 :: 49 :: rest))) =
        some ([str "GET", str "/event.xml?" ++ q] ++ [[49], [49]], rest) := by
    refine exec_method _ (by decide) (by decide +kernel) fun start => ?_
    set tail := str " HTTP/" ++ 49 :: 46 :: 49 :: rest with htail
    change maxExpand anyByte (Pattern.run (.closes :: (lit (str " HTTP/") ++ versionItems))
      (str "/event.xml?" ++ q ++ tail) [str "GET"]) (str "event.xml?" ++ q ++ tail) = _
    refine maxExpand_append (fun _ _ => rfl) ?_ ?_
    · rw [run_closes]
      exact run_version (by decide) (by decide) _ _ _
    · intro u v huv hu _
      refine run_version_none fun hv => ?_
      obtain ⟨x, u, rfl⟩ := List.exists_cons_of_ne_nil hu
      have hsuf : v <:+ str "HTTP/1.1" ++ cr :: ([] ++ lf :: requestHeader (c.headers ++ [[]])) :=
        ⟨u, (List.cons.inj huv).2.symm⟩
      rcases infix_split (by decide) (hv.isInfix.trans hsuf.isInfix) with hin | hin
      · exact absurd hin (by decide)
      · rcases infix_split (by decide) hin with hin | hin
        · exact absurd hin (by decide)
        · exact c.noVersion_rest hin
  rw [readRequest, hheader, find_of_exec hexec]
  rfl

/-! ### Splitting the path -/

theorem scriptName_append {pre : Bytes} (h : 63 ∉ pre) (s : Bytes) :
    scriptName (pre ++ 63 :: s) = pre := by
  have hall : exec [.one (· = 63), .star anyByte] (63 :: s) = some ([], []) := by
    change maxExpand anyByte _ s = _
    rw [← List.append_nil s]
    exact maxExpand_before (fun _ _ => rfl) (by simp) rfl
  induction pre with
  | nil =>
    rw [List.nil_append, scriptName, gsub_match hall (by simp), gsub_nil rfl]
    rfl
  | cons c pre ih =>
    have hc : c ≠ 63 := fun hc => h (by simp [hc])
    have hx : exec [.one (· = 63), .star anyByte] (c :: (pre ++ 63 :: s)) = none := by
      simp [exec, Pattern.run, hc]
    rw [List.cons_append, scriptName, gsub_skip hx]
    exact congrArg _ (ih fun hm => h (by simp [hm]))

theorem afterQuestion_append {s : Bytes} (h : 63 ∉ s) (pre : Bytes) :
    afterQuestion (pre ++ 63 :: s) = s := by
  have hnone : ∀ {t start : Bytes}, 63 ∉ t → Pattern.run [.one (· = 63)] start [] t = none := by
    intro t start ht
    cases t with
    | nil => rfl
    | cons c t =>
      have hc : c ≠ 63 := fun hc => ht (by simp [hc])
      simp [Pattern.run, hc]
  have hx : exec [.star anyByte, .one (· = 63)] (pre ++ 63 :: s) = some ([], s) := by
    refine maxExpand_append (fun _ _ => rfl) (by simp [Pattern.run]) ?_
    intro u v huv hu _
    obtain ⟨c, u, rfl⟩ := List.exists_cons_of_ne_nil hu
    refine hnone fun hv => h ?_
    rw [(List.cons.inj huv).2]
    simp [hv]
  have hs : gsub [.star anyByte, .one (· = 63)] (fun _ _ => []) s = s := by
    refine gsub_of_none fun t ht => maxExpand_eq_none fun u v huv _ => hnone fun hv => h ?_
    exact ht.subset (by rw [huv]; simp [hv])
  rw [afterQuestion, gsub_match hx (by simp; omega), hs]
  rfl

/-- The last `?` splits a string. -/
theorem exists_last_question {s : Bytes} (h : 63 ∈ s) : ∃ u v, s = u ++ 63 :: v ∧ 63 ∉ v := by
  obtain ⟨a, b, hab, hb⟩ := List.eq_append_cons_of_mem (List.mem_reverse.2 h)
  refine ⟨b.reverse, a.reverse, ?_, by simpa using hb⟩
  have := congrArg List.reverse hab
  simpa using this

/-- The query that the server reads is what stands behind the last `?` of the decoded line. -/
theorem splitPath_event (s : Bytes) :
    splitPath (urlDecode (str "/event.xml?" ++ s)) =
      ⟨str "/event.xml", afterQuestion (str "/event.xml" ++ 63 :: urlDecode s),
        parseQuery (afterQuestion (str "/event.xml" ++ 63 :: urlDecode s))⟩ := by
  have hdec : urlDecode (str "/event.xml?" ++ s) = str "/event.xml" ++ 63 :: urlDecode s := by
    have hq : ∀ t : Bytes, urlDecode (63 :: t) = 63 :: urlDecode t :=
      urlDecode_cons (by decide) (by decide) (by decide)
    have hpre : ∀ pre t : Bytes, (∀ c ∈ pre, c ≠ 43 ∧ c ≠ 37 ∧ c ≠ cr) →
        urlDecode (pre ++ t) = pre ++ urlDecode t := by
      intro pre t
      induction pre with
      | nil => exact fun _ => rfl
      | cons c pre ih =>
        intro h
        obtain ⟨⟨h1, h2, h3⟩, h4⟩ := List.forall_mem_cons.1 h
        rw [List.cons_append, urlDecode_cons h1 h2 h3, ih h4, List.cons_append]
    rw [show str "/event.xml?" ++ s = str "/event.xml" ++ 63 :: s by simp [str],
      hpre _ _ (by decide +kernel), hq]
  have hname := @scriptName_append (str "/event.xml") (by decide) (urlDecode s)
  have hne : str "/event.xml" ≠ str "/event.xml" ++ 63 :: urlDecode s := by simp
  rw [hdec, splitPath]
  simp only [hname, hne, ne_eq, not_false_eq_true, if_true]

end ZRouter.Web
