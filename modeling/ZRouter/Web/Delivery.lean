import ZRouter.Lib.Lua
import ZRouter.Web.ConfPath
import ZRouter.Web.Event

/-!
# Delivering events (`event.xml`, `handleRequest` and `call_server`)

The web server answers 200 before it runs the script of a page, and it runs the script under `pcall`;
the collector takes the answer for the deed.

* `Httpd`, `System`, `eventXml`: the page `event.xml`, with what it leaves when it raises an error;
* `servePage`: the answer of `handleRequest`;
* `Network`, `World`, `request`: what happens to a call of the collector;
* `CallReady`: the requests for which the page does what the event says;
* `events_stored`: every run of the collector whose acknowledged calls are all ready.
-/

namespace ZRouter.Web

/-! ### The page -/

/-- The globals of the server that the page reads and writes: the configuration `c` and the tables in
`r`. -/
structure Httpd where
  c : Elem
  r : Bytes → Option Table

/-- What the page gets from the system: the output of `io.popen`, whether `os.execute` gives 0, the
text of `tdump`, and whether the page can be opened. -/
structure System where
  popen : Bytes → Option Bytes
  execute : Bytes → Bool
  tdump : Table → Bytes
  fileExists : Bool

/-- `run_dhclient`. -/
def runDhclient (sys : System) (c : Elem) (iface : Bytes) : Lua Unit :=
  let path := str "interfaces." ++ iface ++ str ".Static"
  match getNode c path with
  | none => .ok ()
  | some node =>
      if node.getAttr (str "enable") ≠ some (str "true") then .ok ()
      else
        match getNode c (path ++ str ".dhcp") with
        | none => .ok ()
        | some dhcp =>
            if dhcp.getAttr (str "enable") ≠ some (str "true") then .ok ()
            else
              (Lua.get .index
                (sys.popen (str "ifconfig -v " ++ iface ++ str " | grep 'status: active'"))).map
                  fun _ => ()

/-- `c:getNode(key):value()`, as part of a text. -/
def getValue (c : Elem) (key : Option Bytes) : Lua Bytes := do
  let node ← Lua.get .index (getNode c (key.getD []))
  Lua.get .concat node.value

/-- What the page does with the new state of an interface, before it stores anything. -/
def eventAction (sys : System) (c : Elem) (get : Table) (iface : Bytes) : Lua Unit :=
  if get (str "state") = some (str "up") then
    if iface = str "wan0" then (Lua.get .index (get (str "ip"))).map fun _ => () else .ok ()
  else if get (str "state") = some (str "linkup") then runDhclient sys c iface
  else .ok ()

/-- `process` of the page: its text, and the globals after it. -/
def eventXml (sys : System) (rq : Request) (s : Httpd) : Lua Bytes × Httpd :=
  if rq.get (str "cmd") = some (str "get") then (getValue s.c (rq.get (str "key")), s)
  else if rq.get (str "cmd") = some (str "set") then
    let key := (rq.get (str "key")).getD []
    match locate (key.length + 1) s.c key with
    | none => (.error .index, s)
    | some pos =>
        let c := match rq.get (str "value") with
          | none => s.c
          | some value => s.c.modify pos (·.setValue value)
        (getValue c (some key), { s with c := c })
  else if rq.get (str "restore") = some (str "config") then
    (.ok
      (if !sys.execute (str "rm /tmp/etc/www/config.xml") then str "Can't remove current config"
      else if !sys.execute (str "/etc/rc.save_config") then
        str "Error saving configuration block to flash"
      else if !sys.execute (str "reboot &") then str "Error when trying reboot"
      else str "Configuration restored successful"), s)
  else if rq.get (str "cmd") = some (str "event") then
    match rq.get (str "iface") with
    | none => (.ok (str "event.lua: ERROR: Interface not defined"), s)
    | some iface =>
        let info := (s.r iface).getD fun _ => none
        match eventAction sys s.c rq.get iface with
        | .error e => (.error e, { s with r := Function.update s.r iface (some info) })
        | .ok () =>
            (.ok (str "OK"), { s with r := Function.update s.r iface (some (info.merge rq.get)) })
  else if rq.get (str "cmd") = some (str "revent") then
    match rq.get (str "iface") with
    | none => (.error .concat, s)
    | some iface =>
        match s.r iface with
        | some info => (.ok (sys.tdump info), s)
        | none => (.ok (str "ERROR: no data for interface " ++ iface), s)
  else (.ok (str "ERROR: unknown command"), s)

/-- `handleRequest` for the page: the code in its header, which is sent before the script runs, and the
globals after the script. -/
def servePage (sys : System) (rq : Request) (s : Httpd) : ℕ × Httpd :=
  if sys.fileExists then (200, (eventXml sys rq s).2) else (404, s)

/-! ### The calls of the collector -/

/-- What becomes of a call: it does not reach the server, its answer is lost, or it is answered. -/
inductive Exchange
  | unreached
  | lost
  | answered

/-- The network and the system, for each call of the collector; `others` is what other clients did to
the globals of the server before it. -/
structure Network where
  client : HttpClient
  exchange : ℕ → Exchange
  system : ℕ → System
  others : ℕ → Httpd → Httpd

/-- A call, as the server saw it. -/
structure Visit where
  system : System
  before : Httpd
  after : Httpd

/-- The server, and the calls so far. -/
structure World where
  httpd : Httpd
  visits : List Visit

/-- What the server does with the request line of a URL. -/
def answerUrl (net : Network) (sys : System) (url : Bytes) (s : Httpd) : ℕ × Httpd :=
  match readRequest (net.client.lines
      (url.drop (str "http://127.0.0.1:80/event.xml?").length)) with
  | none => (501, s)
  | some rq => servePage sys rq s

/-- `http.request`, for the URLs of `call_server`. -/
def request (net : Network) (w : World) (url : Bytes) : Option ℕ × World :=
  let n := w.visits.length
  let s := net.others n w.httpd
  let answer := match net.exchange n with
    | .unreached => (none, s)
    | .lost => (none, (answerUrl net (net.system n) url s).2)
    | .answered =>
        (some (answerUrl net (net.system n) url s).1, (answerUrl net (net.system n) url s).2)
  (answer.1, ⟨answer.2, w.visits ++ [⟨net.system n, s, answer.2⟩]⟩)

/-! ### What an event says -/

/-- The table that the server reads from a query line. -/
def serverTable (q : Bytes) : Table := (splitPath (urlDecode (str "/event.xml?" ++ q))).get

/-- What the server should hold after the event with that query line. -/
def Stored (q : Bytes) (s : Httpd) : Prop :=
  ∃ iface info, parseQuery q (str "iface") = some iface ∧ s.r iface = some info ∧
    ∀ k v, k ≠ str "iface" → k ≠ str "cmd" → parseQuery q k = some v → info k = some v

/-- The event branch of the page runs to its end, and with the table of the collector. -/
structure CallReady (q : Bytes) (sys : System) (s : Httpd) : Prop where
  same : serverTable q = parseQuery q
  restore : parseQuery q (str "restore") ≠ some (str "config")
  ip : parseQuery q (str "state") = some (str "up") →
    parseQuery q (str "iface") = some (str "wan0") → (parseQuery q (str "ip")).isSome = true
  dhclient : parseQuery q (str "state") = some (str "linkup") →
    ∀ iface, parseQuery q (str "iface") = some iface → runDhclient sys s.c iface = .ok ()

/-- An event with an interface, as the collector accepts it. -/
def IsEvent (q : Bytes) : Prop :=
  parseQuery q (str "cmd") = some (str "event") ∧ (parseQuery q (str "iface")).isSome = true

/-- The action raises no error for an event that is ready. -/
theorem eventAction_returns {q : Bytes} {sys : System} {s : Httpd} (hr : CallReady q sys s)
    {iface : Bytes} (hi : parseQuery q (str "iface") = some iface) :
    eventAction sys s.c (parseQuery q) iface = .ok () := by
  rw [eventAction]
  split_ifs with hup hwan hlink
  · obtain ⟨ip, hip⟩ := Option.isSome_iff_exists.1 (hr.ip hup (by rw [hi, hwan]))
    rw [hip]
    rfl
  · rfl
  · exact hr.dhclient hlink iface hi
  · rfl

/-- **The page stores an event that is ready.** -/
theorem eventXml_stores {q : Bytes} {sys : System} {s : Httpd} (he : IsEvent q)
    (hr : CallReady q sys s) {rq : Request} (hget : rq.get = parseQuery q) :
    (eventXml sys rq s).1 = .ok (str "OK") ∧ Stored q (eventXml sys rq s).2 := by
  obtain ⟨hcmd, hiface⟩ := he
  obtain ⟨iface, hi⟩ := Option.isSome_iff_exists.1 hiface
  have hne : ∀ w, w ≠ str "event" → ¬ parseQuery q (str "cmd") = some w := by
    intro w hw h
    rw [hcmd, Option.some.injEq] at h
    exact hw h.symm
  have hpage : eventXml sys rq s = (.ok (str "OK"),
      ⟨s.c, Function.update s.r iface
        (some (((s.r iface).getD fun _ => none).merge (parseQuery q)))⟩) := by
    unfold eventXml
    rw [hget, if_neg (hne _ (by decide +kernel)), if_neg (hne _ (by decide +kernel)),
      if_neg hr.restore, if_pos hcmd, hi]
    dsimp only
    rw [eventAction_returns hr hi]
  rw [hpage]
  refine ⟨rfl, iface, _, hi, Function.update_self .., fun k v hk hk' hv => ?_⟩
  rw [Table.merge, if_neg (not_or.2 ⟨hk, hk'⟩), hv]
  rfl

/-- What the server makes of a call of the collector. -/
theorem answerUrl_eq (net : Network) (sys : System) (q : Bytes) (s : Httpd) :
    answerUrl net sys (str "http://127.0.0.1:80/event.xml?" ++ q) s =
      servePage sys (splitPath (urlDecode (str "/event.xml?" ++ q))) s := by
  have hdrop : (str "http://127.0.0.1:80/event.xml?" ++ q).drop
      (str "http://127.0.0.1:80/event.xml?").length = q := List.drop_left
  unfold answerUrl
  rw [hdrop, readRequest_client]

/-- The visit that belongs to a call: if the collector got a 200, the page was run. -/
def Visited (call : Entry × Bool) (v : Visit) : Prop :=
  call.2 = true →
    v.after = (eventXml v.system (splitPath (urlDecode (str "/event.xml?" ++ call.1.query)))
      v.before).2

theorem callServer_eq {σ : Type*} (request : σ → Bytes → Option ℕ × σ) (w : σ) (q : Bytes) :
    ∃ url, url = str "http://127.0.0.1:80/event.xml?" ++ q ∧
      callServer request w q = (decide ((request w url).1 = some 200), (request w url).2) :=
  ⟨_, rfl, rfl⟩

/-- One call of `call_server`. -/
theorem callServer_visit (net : Network) (w : World) (e : Entry) :
    ∃ v, (callServer (request net) w e.query).2.visits = w.visits ++ [v] ∧
      Visited (e, (callServer (request net) w e.query).1) v := by
  obtain ⟨url, hurl, hcall⟩ := callServer_eq (request net) w e.query
  have hanswer : ∀ sys s, answerUrl net sys url s =
      servePage sys (splitPath (urlDecode (str "/event.xml?" ++ e.query))) s := by
    intro sys s
    rw [hurl]
    exact answerUrl_eq net sys e.query s
  rw [hcall]
  refine ⟨_, rfl, fun hok => ?_⟩
  have hcode : (request net w url).1 = some 200 := of_decide_eq_true hok
  rw [request] at hcode
  dsimp only at hcode ⊢
  cases hx : net.exchange w.visits.length with
  | unreached =>
    rw [hx] at hcode
    cases hcode
  | lost =>
    rw [hx] at hcode
    cases hcode
  | answered =>
    rw [hx] at hcode
    have hserve := hanswer (net.system w.visits.length) (net.others w.visits.length w.httpd)
    rw [servePage] at hserve
    by_cases hfile : (net.system w.visits.length).fileExists = true
    · rw [if_pos hfile] at hserve
      dsimp only
      rw [hserve]
    · rw [if_neg hfile] at hserve
      dsimp only at hcode
      rw [hserve] at hcode
      cases hcode

/-! ### A run -/

/-- The visits of the loop over the queue. -/
theorem flushFrom_visits (net : Network) (i : ℕ) : ∀ (queue : List Entry) (w : World),
    ∃ vs, (flushFrom (request net) i queue w).2.2.visits = w.visits ++ vs ∧
      List.Forall₂ Visited (flushFrom (request net) i queue w).1 vs := by
  induction i with
  | zero => exact fun queue w => ⟨[], (List.append_nil _).symm, .nil⟩
  | succ i ih =>
    intro queue w
    rw [flushFrom]
    cases queue[i]? with
    | none => exact ih queue w
    | some e =>
      dsimp only
      by_cases hhandled : e.handled = true
      · rw [if_pos hhandled]
        exact ih queue w
      · rw [if_neg hhandled]
        obtain ⟨v, hv, hvisited⟩ := callServer_visit net w e
        obtain ⟨vs, hvs, hall⟩ := ih (if (callServer (request net) w e.query).1 then
          queue.eraseIdx i else queue) (callServer (request net) w e.query).2
        refine ⟨v :: vs, ?_, .cons hvisited hall⟩
        dsimp only
        rw [hvs, hv, List.append_assoc]
        rfl

theorem flush_visits (net : Network) (s : Collector World) :
    ∃ vs, (flush (request net) s).2.net.visits = s.net.visits ++ vs ∧
      List.Forall₂ Visited (flush (request net) s).1 vs :=
  flushFrom_visits net s.queue.length s.queue s.net

variable {σ : Type*}

/-- The queue holds events with an interface. -/
def EventQueue (s : Collector σ) : Prop := ∀ e ∈ s.queue, IsEvent e.query

theorem serve_eventQueue {inp : Input} {s s' : Collector σ} {e : Option Entry}
    (hs : EventQueue s) (h : serve inp s = some (e, s')) : EventQueue s' := by
  rcases serve_cases h with ⟨-, rfl⟩ | ⟨entry, q, -, henq⟩
  · exact hs
  · intro x hx
    rw [henq.queue] at hx
    rcases List.mem_cons.1 hx with rfl | hx
    · rw [henq.query]
      exact ⟨henq.isEvent, henq.hasIface⟩
    · exact hs x hx

theorem serve_net {inp : Input} {s s' : Collector σ} {e : Option Entry}
    (h : serve inp s = some (e, s')) : s'.net = s.net := by
  rcases serve_cases h with ⟨-, rfl⟩ | ⟨entry, q, -, henq⟩
  · rfl
  · exact henq.net

/-- Every call of a run is for an event, and belongs to a visit. -/
theorem run_visits {net : Network} {inps : List Input} : ∀ {s s' : Collector World} {h : List Pass},
    s.Sound → EventQueue s → run (request net) inps s = some (h, s') →
    (∀ c ∈ calls h, IsEvent c.1.query) ∧
      ∃ vs, s'.net.visits = s.net.visits ++ vs ∧ List.Forall₂ Visited (calls h) vs := by
  induction inps with
  | nil =>
    intro s s' h _ _ hrun
    cases hrun
    exact ⟨fun c hc => absurd hc List.not_mem_nil, [], (List.append_nil _).symm, .nil⟩
  | cons inp inps ih =>
    intro s s' h hs hq hrun
    obtain ⟨p, s₁, h₁, ht, hrun₁, rfl⟩ := run_cons hrun
    have hturn := turn_spec hs ht
    obtain ⟨⟨e, s₀⟩, hserve, ht⟩ := Option.map_eq_some_iff.1 ht
    have hq₀ := serve_eventQueue hq hserve
    have hs₀ : ∀ e ∈ s₀.queue, e.handled = false := by
      rcases serve_cases hserve with ⟨-, rfl⟩ | ⟨entry, q, -, henq⟩
      · exact hs.handled
      · rw [henq.queue]
        exact List.forall_mem_cons.2 ⟨henq.handled, hs.handled⟩
    obtain ⟨vs, hvs, hall⟩ := flush_visits net s₀
    have hspec := @flush_spec World (request net) s₀ (flush (request net) s₀).2
      (flush (request net) s₀).1 hs₀ rfl
    simp only [Prod.mk.injEq] at ht
    obtain ⟨rfl, rfl⟩ := ht
    -- the calls of the pass are for elements of the queue
    have hcalls : ∀ c ∈ (flush (request net) s₀).1, c.1 ∈ s₀.queue := by
      intro c hc
      have hmem := List.mem_map_of_mem (f := Prod.fst) hc
      rw [hspec.1] at hmem
      exact List.mem_reverse.1 hmem
    have hq₁ : EventQueue (flush (request net) s₀).2 := by
      intro x hx
      rw [hspec.2.1, List.mem_reverse] at hx
      obtain ⟨c, hc, rfl⟩ := List.mem_map.1 hx
      exact hq₀ _ (hcalls c (List.mem_filter.1 hc).1)
    obtain ⟨hevents, vs', hvs', hall'⟩ := ih hturn.sound hq₁ hrun₁
    constructor
    · intro c hc
      rw [calls, List.flatMap_cons, List.mem_append] at hc
      rcases hc with hc | hc
      · exact hq₀ _ (hcalls c hc)
      · exact hevents c hc
    · refine ⟨vs ++ vs', ?_, ?_⟩
      · rw [hvs', hvs, serve_net hserve, List.append_assoc]
      · rw [calls, List.flatMap_cons]
        exact List.rel_append hall hall'

/-- **An event leaves the queue only when the server holds what it says**, in every run in which each
call that was answered with 200 was ready when it came.  The calls of a run and the visits of the
server belong together one by one. -/
theorem events_stored {net : Network} {inps : List Input} {httpd : Httpd} {h : List Pass}
    {s : Collector World} (hrun : run (request net) inps (Collector.init ⟨httpd, []⟩) = some (h, s))
    (hready : ∀ c v, (c, v) ∈ (calls h).zip s.net.visits → c.2 = true →
      CallReady c.1.query v.system v.before) :
    List.Forall₂ (fun c v => c.2 = true → Stored c.1.query v.after) (calls h) s.net.visits := by
  obtain ⟨hevents, vs, hvs, hall⟩ := run_visits (Collector.sound_init _)
    (fun e he => absurd he List.not_mem_nil) hrun
  have hvisits : s.net.visits = vs := hvs
  rw [hvisits] at hready ⊢
  rw [List.forall₂_iff_zip] at hall ⊢
  refine ⟨hall.1, fun {c v} hcv hok => ?_⟩
  have hr := hready c v hcv hok
  rw [hall.2 hcv hok]
  exact (eventXml_stores (hevents c (List.of_mem_zip hcv).1) hr hr.same).2

/-- A network without faults. -/
def quietNetwork : Network where
  client := ⟨[], by simp, by simp⟩
  exchange _ := .answered
  system _ := ⟨fun _ => none, fun _ => false, fun _ => [], true⟩
  others _ s := s

/-- The server as it starts. -/
def freshServer : Httpd := ⟨.root [], fun _ => none⟩

/-- What a run of one pass shows: its calls, and the state of `wan0` in the server after them. -/
def onePass (line : String) : Option (List (Bytes × Bool) × List (Option Bytes)) :=
  (run (request quietNetwork) [oneLine line] (Collector.init ⟨freshServer, []⟩)).map fun x =>
    ((calls x.1).map fun c => (c.1.query, c.2),
      x.2.net.visits.map fun v => (v.after.r (str "wan0")).bind (· (str "state")))

theorem onePass_eq {line : String} {cs : List (Bytes × Bool)} {states : List (Option Bytes)}
    (h : onePass line = some (cs, states)) :
    ∃ ps s, run (request quietNetwork) [oneLine line] (Collector.init ⟨freshServer, []⟩) =
        some (ps, s) ∧ (calls ps).map (fun c => (c.1.query, c.2)) = cs ∧
      s.net.visits.map (fun v => (v.after.r (str "wan0")).bind (· (str "state"))) = states := by
  obtain ⟨⟨ps, s⟩, hrun, hx⟩ := Option.map_eq_some_iff.1 h
  rw [Prod.mk.injEq] at hx
  exact ⟨ps, s, hrun, hx.1, hx.2⟩

/-- The interface goes down. -/
theorem events_stored_down :
    ∃ ps s, run (request quietNetwork) [oneLine "GET /?cmd=event&iface=wan0&state=down HTTP/1.0"]
        (Collector.init ⟨freshServer, []⟩) = some (ps, s) ∧
      List.Forall₂ (fun c v => c.2 = true → Stored c.1.query v.after) (calls ps) s.net.visits := by
  have hpass : onePass "GET /?cmd=event&iface=wan0&state=down HTTP/1.0" =
      some ([(str "cmd=event&iface=wan0&state=down", true)], [some (str "down")]) := by
    decide +kernel
  obtain ⟨ps, s, hrun, hcalls, -⟩ := onePass_eq hpass
  refine ⟨ps, s, hrun, events_stored hrun fun c v hcv _ => ?_⟩
  have hq : c.1.query = str "cmd=event&iface=wan0&state=down" := by
    have hmem := List.mem_map_of_mem (f := fun c : Entry × Bool => (c.1.query, c.2))
      (List.of_mem_zip hcv).1
    rw [hcalls, List.mem_singleton, Prod.mk.injEq] at hmem
    exact hmem.1
  have hline : afterQuestion (str "/event.xml" ++
      63 :: urlDecode (str "cmd=event&iface=wan0&state=down")) =
        str "cmd=event&iface=wan0&state=down" := by
    decide +kernel
  have hstate : parseQuery (str "cmd=event&iface=wan0&state=down") (str "state") =
      some (str "down") := by
    decide +kernel
  rw [hq]
  refine ⟨?_, by decide +kernel, fun hup => ?_, fun hlink => ?_⟩
  · rw [serverTable, splitPath_event, hline]
  · rw [hstate] at hup
    exact absurd hup (by decide +kernel)
  · rw [hstate] at hlink
    exact absurd hlink (by decide +kernel)

/-- An event without an address is acknowledged and lost. -/
theorem up_event_lost :
    ¬ ∀ (net : Network) (inps : List Input) (httpd : Httpd) (ps : List Pass) (s : Collector World),
      run (request net) inps (Collector.init ⟨httpd, []⟩) = some (ps, s) →
      List.Forall₂ (fun c v => c.2 = true → Stored c.1.query v.after) (calls ps) s.net.visits := by
  intro hall
  have hpass : onePass "GET /?cmd=event&iface=wan0&state=up HTTP/1.0" =
      some ([(str "cmd=event&iface=wan0&state=up", true)], [none]) := by
    decide +kernel
  obtain ⟨ps, s, hrun, hcalls, hstates⟩ := onePass_eq hpass
  have hstored := hall _ _ _ ps s hrun
  obtain ⟨c, hc⟩ := List.length_eq_one_iff.1 (by simpa using congrArg List.length hcalls)
  obtain ⟨v, hv⟩ := List.length_eq_one_iff.1 (by simpa using congrArg List.length hstates)
  rw [hc, List.map_singleton, List.singleton_inj, Prod.mk.injEq] at hcalls
  rw [hv, List.map_singleton, List.singleton_inj] at hstates
  rw [hc, hv, List.forall₂_cons] at hstored
  obtain ⟨iface, info, hiface, hinfo, hall⟩ := hstored.1 hcalls.2
  rw [hcalls.1] at hiface hall
  have hwan : parseQuery (str "cmd=event&iface=wan0&state=up") (str "iface") = some (str "wan0") := by
    decide +kernel
  rw [hwan, Option.some.injEq] at hiface
  have hup := hall (str "state") (str "up") (by decide +kernel) (by decide +kernel)
    (by decide +kernel)
  rw [hiface, hinfo, Option.bind_some, hup] at hstates
  cases hstates

end ZRouter.Web
