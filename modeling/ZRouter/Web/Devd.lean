import ZRouter.Lib.Captures
import ZRouter.Web.Replica
import ZRouter.Web.SameTable

/-!
# Events of the kernel (`devd.lua`)

The script reads the messages of `/dev/devctl` and passes them on as requests for `event.xml`.  A request that
does not reach the server is not sent again, and a message without the fields that its branch uses ends the
script.  What `os.execute` runs is left out.

* `messageFields`, `relayQuery`, `systemEvent`, `devdRun`: the script;
* `linkEvent`: the messages that say something about the link of an interface;
* `relayQuery_cases`, `generic_table`, `link_tables`: the requests, and what the server reads in them;
* `systemEvent_state`: one message;
* `link_state_followed`: the server knows the link state of the last message that reached it.
-/

namespace ZRouter.Web

open Pattern

/-! ### The script -/

/-- The pattern `(%w+)=(%S+)`. -/
def messageItems : List (Item UInt8) :=
  [.opens, .plus isalnum, .closes, .one (· = 61), .opens, .plus fun c => !isspace c, .closes]

/-- The table `m`. -/
def messageFields (msg : Bytes) : Table :=
  Table.ofPairs ((gmatch messageItems msg).filterMap fun caps =>
    match caps with
    | [k, v] => some (k, v)
    | _ => none)

/-- The query of `generic_event`. -/
def genericQuery (system subsystem type msg : Bytes) : Bytes :=
  str "cmd=event" ++
    str "&system=" ++ system ++
    str "&subsystem=" ++ subsystem ++
    str "&type=" ++ type ++
    str "&data=" ++ urlEncode msg

/-- The query for a change of the link. -/
def linkQuery (subsystem linkstate : Bytes) : Bytes :=
  str "cmd=event" ++
    str "&iface=" ++ urlEncode subsystem ++
    str "&state=" ++ linkstate

/-- `linkstate`, for a message of the system `IFNET`. -/
def linkstate (type : Bytes) : Option Bytes :=
  if type = str "LINK_UP" then some (str "linkup")
  else if type = str "LINK_DOWN" then some (str "linkdown")
  else none

/-- The interface and the state in a message about a link. -/
def linkEvent (msg : Bytes) : Option (Bytes × Bytes) :=
  let m := messageFields msg
  match m (str "system"), m (str "subsystem"), m (str "type") with
  | some system, some subsystem, some type =>
      if system = str "IFNET" then (linkstate type).map fun state => (subsystem, state) else none
  | _, _, _ => none

/-- The systems whose messages are passed on. -/
def isRelayed (system : Bytes) : Bool :=
  system = str "IFNET" || system = str "DEVFS" || system = str "USB" || system = str "GPIO"

/-- The request for a message, if there is one. -/
def relayQuery (msg : Bytes) : Option Bytes :=
  let m := messageFields msg
  match m (str "system"), m (str "subsystem"), m (str "type") with
  | some system, some subsystem, some type =>
      if isRelayed system then
        match linkEvent msg with
        | some (subsystem, state) => some (linkQuery subsystem state)
        | none => some (genericQuery system subsystem type msg)
      else none
  | _, _, _ => none

/-- What follows the request, with its errors: the numbers of a new device are used, and the time for which the
button was held. -/
def afterRelay (resetPin msg : Bytes) : Lua Unit :=
  let m := messageFields msg
  if m (str "system") = some (str "USB") ∧ m (str "subsystem") = some (str "DEVICE") ∧
      m (str "type") = some (str "ATTACH") then do
    let _ ← Lua.get .arithmetic ((m (str "vendor")).bind tonumber)
    let _ ← Lua.get .arithmetic ((m (str "product")).bind tonumber)
    let _ ← Lua.get .index (m (str "ugen"))
    return ()
  else if m (str "system") = some (str "GPIO") ∧ m (str "subsystem") = some resetPin ∧
      m (str "bus") = some (str "gpiobus0") ∧ m (str "type") = some (str "PIN_LOW") then do
    let _ ← Lua.get .compare ((m (str "period")).bind tonumber)
    return ()
  else .ok ()

section Script

variable {σ : Type*} (call : σ → Bytes → Bool × σ) (resetPin : Bytes)

/-- `system_event`, with what it leaves when it raises an error. -/
def systemEvent (msg : Bytes) (net : σ) : Lua Unit × σ :=
  match relayQuery msg with
  | none => (.ok (), net)
  | some q => (afterRelay resetPin msg, (call net q).2)

/-- The main loop, for the lines that it reads. -/
def devdRun : List Bytes → σ → Lua Unit × σ
  | [], net => (.ok (), net)
  | [] :: lines, net => devdRun lines net
  | (t :: msg) :: lines, net =>
      if t = 33 then
        match systemEvent call resetPin msg net with
        | (.ok (), net) => devdRun lines net
        | (.error e, net) => (.error e, net)
      else devdRun lines net

end Script

/-! ### What reaches the server -/

/-- The messages of `system_event` among the lines. -/
def messages : List Bytes → List Bytes
  | [] => []
  | [] :: lines => messages lines
  | (t :: msg) :: lines => if t = 33 then msg :: messages lines else messages lines

/-- The server gets the request. -/
def Exchange.reaches : Exchange → Bool
  | .unreached => false
  | _ => true

/-- The messages about links whose requests reach the server; `n` is the number of the next call. -/
def reachedEvents (net : Network) : ℕ → List Bytes → List (Bytes × Bytes)
  | _, [] => []
  | n, msg :: msgs =>
      if (relayQuery msg).isNone then reachedEvents net n msgs
      else (if (net.exchange n).reaches then (linkEvent msg).toList else []) ++ reachedEvents net (n + 1) msgs

/-- What the last message about an interface says. -/
def lastState (i : Bytes) : List (Bytes × Bytes) → Option Bytes
  | [] => none
  | e :: es => (lastState i es).or (if e.1 = i then some e.2 else none)

theorem lastState_append (i : Bytes) (es es' : List (Bytes × Bytes)) :
    lastState i (es ++ es') = (lastState i es').or (lastState i es) := by
  induction es with
  | nil => exact (Option.or_none).symm
  | cons e es ih => rw [List.cons_append, lastState, ih, lastState, Option.or_assoc]

/-- The fields of a request for a link. -/
def linkPairs (subsystem state : Bytes) : List (Bytes × Bytes) :=
  [(str "cmd", str "event"), (str "iface", subsystem), (str "state", state)]

/-- The fields of a request for any other message. -/
def genericPairs (system subsystem type msg : Bytes) : List (Bytes × Bytes) :=
  [(str "cmd", str "event"), (str "system", system), (str "subsystem", subsystem), (str "type", type),
    (str "data", msg)]

/-- A string without `%`, `&`, `+`, `?` and carriage returns. -/
def Bare (s : Bytes) : Prop := ∀ c ∈ [37, 38, 43, 63, cr], c ∉ s

instance (s : Bytes) : Decidable (Bare s) := inferInstanceAs (Decidable (∀ c ∈ [37, 38, 43, 63, cr], c ∉ s))

/-- The page is there, and `io.popen` succeeds. -/
def SystemWorks (net : Network) : Prop :=
  ∀ n, (net.system n).fileExists = true ∧ ∀ cmd, ((net.system n).popen cmd).isSome = true

/-! ### Messages and requests -/

/-- The fields of a message are parts of it. -/
theorem messageFields_part {msg k v : Bytes} (h : messageFields msg k = some v) : v <:+: msg := by
  obtain ⟨caps, hcaps, hpair⟩ := List.mem_filterMap.1 (Table.mem_of_ofPairs h)
  rcases caps with _ | ⟨a, _ | ⟨b, _ | ⟨c, caps⟩⟩⟩
  · cases hpair
  · cases hpair
  · cases hpair
    exact gmatch_captures hcaps (by simp)
  · cases hpair

/-- A message that is passed on has the three fields that the script looks at first. -/
theorem fields_of_relayed {msg : Bytes} (h : (linkEvent msg).isSome = true ∨ (relayQuery msg).isSome = true) :
    ∃ system subsystem type, messageFields msg (str "system") = some system ∧
      messageFields msg (str "subsystem") = some subsystem ∧ messageFields msg (str "type") = some type := by
  cases hsystem : messageFields msg (str "system") with
  | none => simp [linkEvent, relayQuery, hsystem] at h
  | some system =>
    cases hsub : messageFields msg (str "subsystem") with
    | none => simp [linkEvent, relayQuery, hsystem, hsub] at h
    | some subsystem =>
      cases htype : messageFields msg (str "type") with
      | none => simp [linkEvent, relayQuery, hsystem, hsub, htype] at h
      | some type => exact ⟨system, subsystem, type, rfl, rfl, rfl⟩

theorem linkEvent_eq_some {msg subsystem state : Bytes} (h : linkEvent msg = some (subsystem, state)) :
    subsystem <:+: msg ∧ (state = str "linkup" ∨ state = str "linkdown") := by
  obtain ⟨system, sub, type, hsystem, hsub, htype⟩ := fields_of_relayed (Or.inl (by rw [h]; rfl))
  unfold linkEvent at h
  dsimp only at h
  rw [hsystem, hsub, htype] at h
  dsimp only at h
  split_ifs at h
  obtain ⟨state', hstate, hpair⟩ := Option.map_eq_some_iff.1 h
  rw [Prod.mk.injEq] at hpair
  obtain ⟨rfl, rfl⟩ := hpair
  refine ⟨messageFields_part hsub, ?_⟩
  unfold linkstate at hstate
  split_ifs at hstate
  · exact Or.inl (Option.some.inj hstate).symm
  · exact Or.inr (Option.some.inj hstate).symm

/-- The two kinds of requests. -/
theorem relayQuery_cases {msg q : Bytes} (h : relayQuery msg = some q) :
    (∃ subsystem state, linkEvent msg = some (subsystem, state) ∧ q = linkQuery subsystem state) ∨
      linkEvent msg = none ∧ ∃ system subsystem type, system <:+: msg ∧ subsystem <:+: msg ∧
        type <:+: msg ∧ q = genericQuery system subsystem type msg := by
  obtain ⟨system, sub, type, hsystem, hsub, htype⟩ := fields_of_relayed (Or.inr (by rw [h]; rfl))
  unfold relayQuery at h
  dsimp only at h
  rw [hsystem, hsub, htype] at h
  dsimp only at h
  split_ifs at h
  rcases hlink : linkEvent msg with _ | ⟨subsystem, state⟩
  · rw [hlink] at h
    exact Or.inr ⟨rfl, system, sub, type, messageFields_part hsystem, messageFields_part hsub,
      messageFields_part htype, (Option.some.inj h).symm⟩
  · rw [hlink] at h
    exact Or.inl ⟨subsystem, state, rfl, (Option.some.inj h).symm⟩

/-! ### What the server reads -/

theorem Bare.part {s u : Bytes} (h : Bare s) (hu : u <:+: s) : Bare u :=
  fun c hc hmem => h c hc (hu.subset hmem)

theorem Bare.literal {s : Bytes} (h : Bare s) : Literal s := by
  have hpercent : 37 ∉ s := h 37 (by decide)
  have hcr : cr ∉ s := h cr (by decide)
  exact ⟨h 43 (by decide), fun _ _ _ ht => absurd (ht.subset (List.mem_cons_self ..)) hpercent,
    fun ht => hcr (ht.subset (List.mem_cons_self ..))⟩

/-- Fields that are bare are clean, under keys without `=` and `;`. -/
theorem clean_of_bare {l : List (Bytes × Bytes)}
    (hkeys : ∀ k ∈ l.map Prod.fst, Bare k ∧ 61 ∉ k ∧ 59 ∉ k) (hvalues : ∀ v ∈ l.map Prod.snd, Bare v) :
    Clean l := by
  have hk : ∀ p ∈ l, Bare p.1 ∧ 61 ∉ p.1 ∧ 59 ∉ p.1 := fun p hp => hkeys p.1 (List.mem_map_of_mem hp)
  have hv : ∀ p ∈ l, Bare p.2 := fun p hp => hvalues p.2 (List.mem_map_of_mem hp)
  refine ⟨fun p hp => ⟨(hk p hp).1.literal, (hv p hp).literal⟩,
    fun p hp => ⟨(hk p hp).1 63 (by decide), hv p hp 63 (by decide)⟩,
    fun p hp => ⟨(hk p hp).1 38 (by decide), hv p hp 38 (by decide)⟩,
    fun p hp => (hk p hp).2.1, fun p hp e he hpre => ?_⟩
  have hsemi : ∀ e ∈ [str "amp;", str "lt;", str "gt;"], (59 : UInt8) ∈ e := by decide
  exact (hk p (List.mem_of_mem_tail hp)).2.2 (hpre.subset (hsemi e he))

/-- The server reads the fields that the line holds after one decoding. -/
theorem serverTable_of_raw {q : Bytes} {l : List (Bytes × Bytes)} (hq : urlDecode q = rawQuery l)
    (hl : Clean l) : serverTable q = Table.ofPairs l := by
  rw [serverTable, splitPath_event, hq, afterQuestion_rawQuery hl.question, parseQuery, hl.queryPairs]

theorem urlDecode_append_of_not_mem {a : Bytes} (b : Bytes) (h : ∀ c ∈ [37, 43, cr], c ∉ a) :
    urlDecode (a ++ b) = a ++ urlDecode b := by
  induction a with
  | nil => rfl
  | cons c a ih =>
    have hne : ∀ d ∈ [37, 43, cr], c ≠ d := fun d hd => (List.ne_of_not_mem_cons (h d hd)).symm
    rw [List.cons_append, urlDecode_cons (hne 43 (by decide)) (hne 37 (by decide)) (hne cr (by decide)),
      ih fun d hd => List.not_mem_of_not_mem_cons (h d hd), List.cons_append]

/-- The words of the requests need no encoding. -/
theorem request_words :
    (∀ k ∈ [str "cmd", str "system", str "subsystem", str "type", str "data"], Bare k ∧ 61 ∉ k ∧ 59 ∉ k) ∧
      (∀ k ∈ [str "cmd", str "iface", str "state"], Bare k ∧ 61 ∉ k ∧ 59 ∉ k) ∧
      (Bare (str "event") ∧ Bare (str "linkup") ∧ Bare (str "linkdown")) ∧
      (∀ c ∈ [37, 43, cr], c ∉ str "cmd=event" ∧ c ∉ str "&system=" ∧ c ∉ str "&subsystem=" ∧
        c ∉ str "&type=" ∧ c ∉ str "&data=") ∧
      urlEncode (str "cmd") = str "cmd" ∧ urlEncode (str "event") = str "event" ∧
      urlEncode (str "iface") = str "iface" ∧ urlEncode (str "state") = str "state" ∧
      urlEncode (str "linkup") = str "linkup" ∧ urlEncode (str "linkdown") = str "linkdown" := by
  decide +kernel

/-- The server reads the fields of a message as they are. -/
theorem generic_table {system subsystem type msg : Bytes} (hmsg : Bare msg) (hsystem : system <:+: msg)
    (hsubsystem : subsystem <:+: msg) (htype : type <:+: msg) :
    serverTable (genericQuery system subsystem type msg) =
      Table.ofPairs (genericPairs system subsystem type msg) := by
  obtain ⟨hkeys, -, ⟨hevent, -, -⟩, hwords, -⟩ := request_words
  refine serverTable_of_raw ?_ (clean_of_bare hkeys ?_)
  · have hsub : ∀ c ∈ [37, 43, cr], c ∈ [37, 38, 43, 63, cr] := by simp
    have hstart : str "cmd=event" = str "cmd" ++ 61 :: str "event" := rfl
    have hsys : str "&system=" = 38 :: (str "system" ++ [61]) := rfl
    have hss : str "&subsystem=" = 38 :: (str "subsystem" ++ [61]) := rfl
    have hty : str "&type=" = 38 :: (str "type" ++ [61]) := rfl
    have hdata : str "&data=" = 38 :: (str "data" ++ [61]) := rfl
    rw [genericQuery, urlDecode_append_of_not_mem, urlDecode_urlEncode]
    · rw [genericPairs, rawQuery_cons_cons, rawQuery_cons_cons, rawQuery_cons_cons, rawQuery_cons_cons, rawQuery,
        List.map_singleton, List.intercalate_singleton, rawField, rawField, rawField, rawField, rawField,
        hstart, hsys, hss, hty, hdata]
      simp only [List.append_assoc, List.cons_append, List.nil_append]
    · intro c hc
      obtain ⟨h1, h2, h3, h4, h5⟩ := hwords c hc
      have hbare := hmsg c (hsub c hc)
      simp only [List.mem_append, not_or]
      exact ⟨⟨⟨⟨⟨⟨⟨h1, h2⟩, fun h => hbare (hsystem.subset h)⟩, h3⟩,
        fun h => hbare (hsubsystem.subset h)⟩, h4⟩, fun h => hbare (htype.subset h)⟩, h5⟩
  · intro v hv
    rw [genericPairs, List.map_cons, List.map_cons, List.map_cons, List.map_cons, List.map_cons, List.map_nil] at hv
    rcases List.mem_cons.1 hv with rfl | hv
    · exact hevent
    · refine hmsg.part ?_
      rcases List.mem_cons.1 hv with rfl | hv
      · exact hsystem
      rcases List.mem_cons.1 hv with rfl | hv
      · exact hsubsystem
      rcases List.mem_cons.1 hv with rfl | hv
      · exact htype
      · rw [List.mem_singleton.1 hv]

theorem linkQuery_eq {subsystem state : Bytes} (hstate : state = str "linkup" ∨ state = str "linkdown") :
    linkQuery subsystem state = encodeQuery (linkPairs subsystem state) := by
  obtain ⟨-, -, -, -, hcmd, hevent, hiface, hst, hup, hdown⟩ := request_words
  have hencode : urlEncode state = state := by
    rcases hstate with rfl | rfl
    · exact hup
    · exact hdown
  have hstart : str "cmd=event" = str "cmd" ++ 61 :: str "event" := rfl
  have hmiddle : str "&iface=" = 38 :: (str "iface" ++ [61]) := rfl
  have hend : str "&state=" = 38 :: (str "state" ++ [61]) := rfl
  rw [linkQuery, linkPairs, encodeQuery, List.map_cons, List.map_cons, List.map_cons, List.map_nil,
    encodeField, encodeField, encodeField, hcmd, hevent, hiface, hst, hencode, hstart, hmiddle, hend,
    List.intercalate_cons_cons, List.intercalate_cons_cons, List.intercalate_singleton]
  simp only [List.append_assoc, List.cons_append, List.nil_append]

/-- Both sides read the fields of a request for a link. -/
theorem link_tables {subsystem state : Bytes} (hstate : state = str "linkup" ∨ state = str "linkdown")
    (hbare : Bare subsystem) :
    serverTable (linkQuery subsystem state) = Table.ofPairs (linkPairs subsystem state) ∧
      parseQuery (linkQuery subsystem state) = Table.ofPairs (linkPairs subsystem state) := by
  obtain ⟨-, hkeys, hwords, -⟩ := request_words
  rw [linkQuery_eq hstate]
  refine ⟨serverTable_of_raw (urlDecode_encodeQuery _) (clean_of_bare hkeys fun v hv => ?_),
    parseQuery_encodeQuery _⟩
  rw [linkPairs, List.map_cons, List.map_cons, List.map_cons, List.map_nil] at hv
  rcases List.mem_cons.1 hv with rfl | hv
  · exact hwords.1
  rcases List.mem_cons.1 hv with rfl | hv
  · exact hbare
  · rw [List.mem_singleton.1 hv]
    rcases hstate with rfl | rfl
    · exact hwords.2.1
    · exact hwords.2.2

theorem linkPairs_nodup (subsystem state : Bytes) : ((linkPairs subsystem state).map Prod.fst).Nodup := by
  have hnodup : [str "cmd", str "iface", str "state"].Nodup := by decide
  exact hnodup

/-! ### One request -/

/-- A call, as far as the globals of the server go. -/
theorem callServer_reaches (net : Network) (w : World) (q : Bytes) :
    (callServer (request net) w q).2.visits.length = w.visits.length + 1 ∧
      ((net.exchange w.visits.length).reaches = false →
        (callServer (request net) w q).2.httpd = net.others w.visits.length w.httpd) ∧
      ((net.exchange w.visits.length).reaches = true → (callServer (request net) w q).2.httpd =
        (servePage (net.system w.visits.length) (splitPath (urlDecode (str "/event.xml?" ++ q)))
          (net.others w.visits.length w.httpd)).2) := by
  obtain ⟨url, hurl, hcall⟩ := callServer_eq (request net) w q
  have hanswer : ∀ sys s, answerUrl net sys url s =
      servePage sys (splitPath (urlDecode (str "/event.xml?" ++ q))) s := by
    intro sys s
    rw [hurl]
    exact answerUrl_eq net sys q s
  rw [hcall]
  dsimp only
  rw [request]
  dsimp only
  refine ⟨by rw [List.length_append, List.length_singleton], fun h => ?_, fun h => ?_⟩
  · cases hex : net.exchange w.visits.length with
    | unreached => rfl
    | lost =>
      rw [hex] at h
      cases h
    | answered =>
      rw [hex] at h
      cases h
  · cases hex : net.exchange w.visits.length with
    | unreached =>
      rw [hex] at h
      cases h
    | lost =>
      dsimp only
      rw [hanswer]
    | answered =>
      dsimp only
      rw [hanswer]

/-- A page for no event of an interface leaves the server as it is. -/
theorem eventXml_harmless {rq : Request} (hcmd : rq.get (str "cmd") = some (str "event"))
    (hiface : rq.get (str "iface") = none) (hrestore : rq.get (str "restore") ≠ some (str "config"))
    (sys : System) (s : Httpd) : (eventXml sys rq s).2 = s := by
  have hne : ∀ w, w ≠ str "event" → ¬ rq.get (str "cmd") = some w := by
    intro w hw h
    rw [hcmd, Option.some.injEq] at h
    exact hw h.symm
  unfold eventXml
  rw [if_neg (hne _ (by decide)), if_neg (hne _ (by decide)), if_neg hrestore, if_pos hcmd,
    hiface]

/-- A request that is no event of an interface changes nothing. -/
theorem servePage_harmless {rq : Request} (hcmd : rq.get (str "cmd") = some (str "event"))
    (hiface : rq.get (str "iface") = none) (hrestore : rq.get (str "restore") ≠ some (str "config"))
    (sys : System) (s : Httpd) : (servePage sys rq s).2 = s := by
  have hpage := eventXml_harmless hcmd hiface hrestore sys s
  rw [servePage]
  by_cases hfile : sys.fileExists = true
  · rw [if_pos hfile]
    exact hpage
  · rw [if_neg hfile]

/-- A request for any other message changes nothing. -/
theorem generic_unchanged {system subsystem type msg : Bytes} {rq : Request}
    (hget : rq.get = Table.ofPairs (genericPairs system subsystem type msg)) (sys : System) (s : Httpd) :
    (servePage sys rq s).2 = s := by
  have hkeys : [str "cmd", str "system", str "subsystem", str "type", str "data"].Nodup := by decide
  have hnodup : ((genericPairs system subsystem type msg).map Prod.fst).Nodup := hkeys
  have habsent : str "iface" ∉ [str "cmd", str "system", str "subsystem", str "type", str "data"] ∧
      str "restore" ∉ [str "cmd", str "system", str "subsystem", str "type", str "data"] := by decide
  have hnone : ∀ k v, k ∉ [str "cmd", str "system", str "subsystem", str "type", str "data"] →
      rq.get k ≠ some v := by
    intro k v hk h
    rw [hget] at h
    have hmem := List.mem_map_of_mem (f := Prod.fst) (Table.mem_of_ofPairs h)
    exact hk hmem
  refine servePage_harmless ?_ (Option.eq_none_iff_forall_ne_some.2 fun v => hnone _ v habsent.1)
    (hnone _ _ habsent.2) sys s
  rw [hget]
  exact (Table.ofPairs_eq_some_iff hnodup).2 List.mem_cons_self

theorem runDhclient_works {sys : System} (h : ∀ cmd, (sys.popen cmd).isSome = true) (c : Elem) (iface : Bytes) :
    runDhclient sys c iface = .ok () := by
  unfold runDhclient
  dsimp only
  split
  · rfl
  · split_ifs
    · rfl
    · split
      · rfl
      · split_ifs
        · rfl
        · obtain ⟨out, hout⟩ := Option.isSome_iff_exists.1 (h (str "ifconfig -v " ++ iface ++
            str " | grep 'status: active'"))
          rw [hout]
          rfl

/-- A page that is ready for an event updates its table. -/
theorem servePage_event {q : Bytes} (he : IsEvent q) {rq : Request} (hget : rq.get = parseQuery q) {sys : System}
    {s : Httpd} (hready : CallReady q sys s) (hfile : sys.fileExists = true) (i k : Bytes) :
    shown (servePage sys rq s).2.r i k = (tells i k (parseQuery q)).or (shown s.r i k) := by
  have hpage := (eventXml_shown he hget sys s i k).2 hready
  rw [servePage, if_pos hfile]
  dsimp only
  exact hpage

/-- A request for a link sets the state of its interface. -/
theorem servePage_link {sys : System} (hfile : sys.fileExists = true)
    (hpopen : ∀ cmd, (sys.popen cmd).isSome = true) {subsystem state q : Bytes}
    (hstate : state = str "linkup" ∨ state = str "linkdown")
    (hparse : parseQuery q = Table.ofPairs (linkPairs subsystem state)) (hserver : serverTable q = parseQuery q)
    {rq : Request} (hget : rq.get = parseQuery q) (s : Httpd) (i : Bytes) :
    shown (servePage sys rq s).2.r i (str "state") =
      (if subsystem = i then some state else none).or (shown s.r i (str "state")) := by
  have hfield : ∀ k v, (k, v) ∈ linkPairs subsystem state → parseQuery q k = some v := by
    intro k v hmem
    rw [hparse]
    exact (Table.ofPairs_eq_some_iff (linkPairs_nodup subsystem state)).2 hmem
  have hcmd : parseQuery q (str "cmd") = some (str "event") := hfield _ _ List.mem_cons_self
  have hiface : parseQuery q (str "iface") = some subsystem :=
    hfield _ _ (List.mem_cons_of_mem _ List.mem_cons_self)
  have hvalue : parseQuery q (str "state") = some state :=
    hfield _ _ (List.mem_cons_of_mem _ (List.mem_cons_of_mem _ List.mem_cons_self))
  have hrestore : parseQuery q (str "restore") ≠ some (str "config") := by
    intro h
    rw [hparse] at h
    have hmem := List.mem_map_of_mem (f := Prod.fst) (Table.mem_of_ofPairs h)
    have hnot : str "restore" ∉ [str "cmd", str "iface", str "state"] := by decide
    exact hnot hmem
  have hevent : IsEvent q := ⟨hcmd, by rw [hiface]; rfl⟩
  have hready : CallReady q sys s := by
    refine ⟨hserver, hrestore, fun hup => ?_, fun _ iface _ => runDhclient_works hpopen _ _⟩
    have hne : str "linkup" ≠ str "up" ∧ str "linkdown" ≠ str "up" := by decide
    rw [hvalue, Option.some.injEq] at hup
    rcases hstate with rfl | rfl
    · exact absurd hup hne.1
    · exact absurd hup hne.2
  have htells : tells i (str "state") (parseQuery q) = if subsystem = i then some state else none := by
    have hne : str "state" ≠ str "iface" ∧ str "state" ≠ str "cmd" := by decide
    rw [tells, hiface, hvalue]
    by_cases hi : subsystem = i
    · rw [if_pos ⟨congrArg some hi, hne⟩, if_pos hi]
    · rw [if_neg fun h => hi (Option.some.inj h.1), if_neg hi]
  rw [servePage_event hevent hget hready hfile, htells]

/-! ### Runs -/

section Runs

variable {net : Network} {i : Bytes}

/-- Each message makes at most one call. -/
theorem reachedEvents_cons (n : ℕ) (msg : Bytes) (msgs : List Bytes) :
    reachedEvents net n (msg :: msgs) =
      reachedEvents net n [msg] ++ reachedEvents net (n + (relayQuery msg).toList.length) msgs := by
  rw [reachedEvents, reachedEvents]
  cases relayQuery msg with
  | none => rfl
  | some q => simp [reachedEvents]

/-- One request, at the state of an interface. -/
theorem relay_state (hothers : ∀ n t, shown (net.others n t).r i (str "state") = shown t.r i (str "state"))
    (hworks : SystemWorks net) {msg q : Bytes} (hq : relayQuery msg = some q) (hbare : Bare msg) (w : World) :
    shown (callServer (request net) w q).2.httpd.r i (str "state") =
      (lastState i (reachedEvents net w.visits.length [msg])).or (shown w.httpd.r i (str "state")) := by
  obtain ⟨-, hlost, hreached⟩ := callServer_reaches net w q
  rw [reachedEvents, hq, if_neg (by simp), reachedEvents, List.append_nil]
  cases hex : (net.exchange w.visits.length).reaches with
  | false =>
    rw [hlost hex, hothers]
    rfl
  | true =>
    rw [hreached hex, ← hothers w.visits.length w.httpd, if_pos rfl]
    obtain ⟨hfile, hpopen⟩ := hworks w.visits.length
    rcases relayQuery_cases hq with ⟨subsystem, state, hlink, rfl⟩ |
      ⟨hlink, system, subsystem, type, hsystem, hsubsystem, htype, rfl⟩
    · obtain ⟨hsub, hstate⟩ := linkEvent_eq_some hlink
      obtain ⟨hserver, hparse⟩ := link_tables hstate (hbare.part hsub)
      rw [hlink, servePage_link hfile hpopen hstate hparse (hserver.trans hparse.symm)
        (hserver.trans hparse.symm)]
      rfl
    · have htable := generic_table hbare hsystem hsubsystem htype
      rw [hlink, generic_unchanged htable]
      rfl

/-- **One message.** -/
theorem systemEvent_state (hothers : ∀ n t, shown (net.others n t).r i (str "state") = shown t.r i (str "state"))
    (hworks : SystemWorks net) {resetPin msg : Bytes} (hbare : (relayQuery msg).isSome = true → Bare msg)
    {w w' : World} {res : Lua Unit} (h : systemEvent (callServer (request net)) resetPin msg w = (res, w')) :
    w'.visits.length = w.visits.length + (relayQuery msg).toList.length ∧
      shown w'.httpd.r i (str "state") =
        (lastState i (reachedEvents net w.visits.length [msg])).or (shown w.httpd.r i (str "state")) := by
  unfold systemEvent at h
  cases hq : relayQuery msg with
  | none =>
    rw [hq] at h
    cases h
    rw [reachedEvents, reachedEvents, hq]
    exact ⟨rfl, rfl⟩
  | some q =>
    rw [hq] at h
    simp only [Prod.mk.injEq] at h
    obtain ⟨-, rfl⟩ := h
    exact ⟨(callServer_reaches net w q).1, relay_state hothers hworks hq (hbare (by rw [hq]; rfl)) w⟩

/-- A message that ends the script has been passed on before. -/
theorem systemEvent_error {σ : Type*} {call : σ → Bytes → Bool × σ} {resetPin msg : Bytes} {net₀ net₁ : σ}
    {e : LuaError} (h : systemEvent call resetPin msg net₀ = (.error e, net₁)) :
    (relayQuery msg).isSome = true ∧ afterRelay resetPin msg = .error e := by
  unfold systemEvent at h
  cases hq : relayQuery msg with
  | none =>
    rw [hq] at h
    cases h
  | some q =>
    rw [hq] at h
    exact ⟨rfl, (Prod.mk.inj h).1⟩

/-- **The link states that the server shows.**  After any lines, the state of an interface in the table of the
server is that of the last message about its link that reached the server, or the old one when none did.  No
other client may write it, the page and `io.popen` must be there, and the messages must hold nothing that the
server decodes.  When a message ends the script, this holds with the messages up to and including that one. -/
theorem link_state_followed
    (hothers : ∀ n t, shown (net.others n t).r i (str "state") = shown t.r i (str "state"))
    (hworks : SystemWorks net) {resetPin : Bytes} {lines : List Bytes} {w w' : World} {res : Lua Unit}
    (hrun : devdRun (callServer (request net)) resetPin lines w = (res, w'))
    (hbare : ∀ msg ∈ messages lines, (relayQuery msg).isSome = true → Bare msg) :
    ∃ done, done <+: messages lines ∧ (res = .ok () → done = messages lines) ∧
      (∀ e, res = .error e → ∃ init msg, done = init ++ [msg] ∧ (relayQuery msg).isSome = true ∧
        afterRelay resetPin msg = .error e) ∧
      shown w'.httpd.r i (str "state") =
        (lastState i (reachedEvents net w.visits.length done)).or (shown w.httpd.r i (str "state")) := by
  induction lines generalizing w with
  | nil =>
    cases hrun
    exact ⟨[], List.prefix_rfl, fun _ => rfl, fun e h => (by cases h), rfl⟩
  | cons line lines ih =>
    cases line with
    | nil => exact ih hrun hbare
    | cons t msg =>
      rw [devdRun] at hrun
      rw [messages] at hbare ⊢
      by_cases ht : t = 33
      · rw [if_pos ht] at hrun hbare ⊢
        rcases hevent : systemEvent (callServer (request net)) resetPin msg w with ⟨_ | _, w₁⟩
        · -- the script ends
          rw [hevent] at hrun
          cases hrun
          refine ⟨[msg], List.prefix_append [msg] _, fun h => (by cases h), fun e he => ?_,
            (systemEvent_state hothers hworks (hbare msg List.mem_cons_self) hevent).2⟩
          obtain rfl := Except.error.inj he
          exact ⟨[], msg, rfl, systemEvent_error hevent⟩
        · rw [hevent] at hrun
          obtain ⟨hvisits, hstate⟩ :=
            systemEvent_state hothers hworks (hbare msg List.mem_cons_self) hevent
          obtain ⟨done, hdone, hall, hends, hrest⟩ :=
            ih hrun fun m hm => hbare m (List.mem_cons_of_mem msg hm)
          refine ⟨msg :: done, List.cons_prefix_cons.2 ⟨rfl, hdone⟩, fun h => by rw [hall h],
            fun e he => ?_, ?_⟩
          · obtain ⟨init, last, rfl, hlast⟩ := hends e he
            exact ⟨msg :: init, last, rfl, hlast⟩
          rw [hrest, hstate, reachedEvents_cons _ msg done, lastState_append, Option.or_assoc, hvisits]
      · rw [if_neg ht] at hrun hbare ⊢
        exact ih hrun hbare

end Runs

/-- A network that loses the second call. -/
def lossyNetwork : Network :=
  { quietNetwork with
    exchange := fun n => if n = 1 then .unreached else .answered
    system := fun _ => ⟨fun _ => some [], fun _ => true, fun _ => [], true⟩ }

/-- The link of `wan0` comes up and goes down, and a device node is made. -/
def linkLines : List Bytes :=
  [str "!system=IFNET subsystem=wan0 type=LINK_UP", str "!system=IFNET subsystem=wan0 type=LINK_DOWN",
    str "+rt0 at   on nexus0", str "!system=DEVFS subsystem=CDEV type=CREATE cdev=usbctl"]

/-- The server does not learn that the link is down. -/
theorem link_state_followed_lossy :
    shown (devdRun (callServer (request lossyNetwork)) (str "pin010") linkLines ⟨freshServer, []⟩).2.httpd.r
      (str "wan0") (str "state") = some (str "linkup") := by
  have hends : (devdRun (callServer (request lossyNetwork)) (str "pin010") linkLines
      ⟨freshServer, []⟩).1.isOk = true := by decide +kernel
  have hreached : lastState (str "wan0") (reachedEvents lossyNetwork 0 (messages linkLines)) =
      some (str "linkup") := by decide +kernel
  have hbare : ∀ msg ∈ messages linkLines, (relayQuery msg).isSome = true → Bare msg := by decide +kernel
  rcases hrun : devdRun (callServer (request lossyNetwork)) (str "pin010") linkLines ⟨freshServer, []⟩ with
    ⟨e | u, w⟩
  · rw [hrun] at hends
    cases hends
  · obtain ⟨done, -, hall, -, hstate⟩ :=
      link_state_followed (fun _ _ => rfl) (fun _ => ⟨rfl, fun _ => rfl⟩) hrun hbare
    rw [hall rfl] at hstate
    refine hstate.trans ?_
    dsimp only [List.length_nil]
    rw [hreached, Option.some_or]

end ZRouter.Web
