import ZRouter.Lib.Pending
import ZRouter.Web.Delivery

/-!
# What the server knows and what the collector knows (`collector.lua`, `event.xml`)

Both keep a table for each interface.  The collector updates its own when it accepts an event, and the server
does when the event is delivered.

* `shown`, `tells`: an entry of these tables, and what an event says about it;
* `process_shown`, `eventXml_shown`: an event that is accepted, and one that is delivered;
* `serve_settles`, `flush_settles`: the two halves of a pass of the main loop;
* `collector_ahead`: in every run the table of the collector is that of the server with the queue still to
  come.
-/

namespace ZRouter.Web

open Pending

/-! ### What an event says -/

/-- `r[i][k]`; a table that is not there shows nothing. -/
def shown (r : Bytes → Option Table) (i k : Bytes) : Option Bytes := (r i).bind (· k)

/-- The value that the event `q` brings for `r[i][k]`. -/
def tells (i k : Bytes) (q : Table) : Option Bytes :=
  if q (str "iface") = some i ∧ k ≠ str "iface" ∧ k ≠ str "cmd" then q k else none

/-- An update of one table, seen at `r[i][k]`. -/
theorem shown_merge (r : Bytes → Option Table) {q : Table} {iface : Bytes}
    (hi : q (str "iface") = some iface) (i k : Bytes) :
    shown (Function.update r iface (some (((r iface).getD fun _ => none).merge q))) i k =
      (tells i k q).or (shown r i k) := by
  have hold : (((r iface).getD fun _ => none) k) = shown r iface k := by
    rw [shown]
    cases r iface <;> rfl
  by_cases hne : i = iface
  · subst hne
    rw [shown, Function.update_self, Option.bind_some, Table.merge, tells, hi, hold]
    by_cases hk : k = str "iface" ∨ k = str "cmd"
    · rw [if_pos hk, if_neg (by tauto), Option.none_or]
    · rw [if_neg hk, if_pos ⟨rfl, not_or.1 hk⟩]
  · have hother : ¬ (q (str "iface") = some i ∧ k ≠ str "iface" ∧ k ≠ str "cmd") := by
      rw [hi, Option.some.injEq]
      exact fun h => hne h.1.symm
    rw [shown, Function.update_of_ne hne, tells, if_neg hother, Option.none_or, shown]

/-! ### The collector -/

section Collector

variable {σ : Type*} {inp : Input} {s s' : Collector σ} {i k : Bytes}

/-- An event that is accepted. -/
theorem process_shown {q : Table} {query text : Bytes} {e : Entry}
    (h : process inp q query s = some (text, some e, s')) (i k : Bytes) :
    shown s'.r i k = (tells i k e.qt).or (shown s.r i k) := by
  unfold process at h
  split_ifs at h with hev hre
  · cases hi : Function.update q (str "timestamp") (some inp.date) (str "iface") with
    | none =>
      simp only [hi] at h
      cases h
    | some iface =>
      simp only [hi, acceptEvent, Option.map_map, Option.map_eq_some_iff] at h
      obtain ⟨effects, -, h⟩ := h
      cases h
      exact shown_merge s.r hi i k
  · cases hi : q (str "iface") with
    | none => simp [hi] at h
    | some iface =>
      simp only [hi] at h
      cases hr : s.r iface with
      | none =>
        simp only [hr] at h
        cases h
      | some info =>
        simp only [hr] at h
        split_ifs at h
        cases h
  · cases h

/-- An element that `serve` puts into the queue comes from `process`. -/
theorem serve_process {e : Entry} (h : serve inp s = some (some e, s')) :
    ∃ query text, process inp (parseQuery query) query s = some (text, some e, s') := by
  unfold serve at h
  cases hl : inp.lines with
  | none =>
    rw [hl] at h
    cases h
  | some lines =>
    simp only [hl] at h
    cases hc : inp.closes with
    | false => simp [hc] at h
    | true =>
      rw [hc, if_pos rfl] at h
      cases hq : lines.findSome? requestQuery with
      | none =>
        rw [hq] at h
        cases h
      | some query =>
        simp only [hq] at h
        by_cases hcmd : parseQuery query (str "cmd") = none
        · rw [if_pos hcmd] at h
          cases h
        rw [if_neg hcmd] at h
        rcases hp : process inp (parseQuery query) query s with _ | ⟨text, e₁, s₁⟩
        · simp [hp] at h
        · simp only [hp] at h
          split_ifs at h
          cases h
          exact ⟨query, text, hp⟩

/-- **The first half of a pass**: what is accepted comes to the end of what is still to be settled. -/
theorem serve_settles {e : Option Entry} (h : serve inp s = some (e, s')) {x : Option Bytes}
    (hs : shown s.r i k = settle x (s.queue.reverse.map fun e => tells i k e.qt)) :
    shown s'.r i k = settle x (s'.queue.reverse.map fun e => tells i k e.qt) := by
  rcases serve_cases h with ⟨-, rfl⟩ | ⟨entry, q, rfl, henq⟩
  · exact hs
  · obtain ⟨query, text, hp⟩ := serve_process h
    rw [process_shown hp, hs, henq.queue, List.reverse_cons, List.map_append, settle_append]
    rfl

/-- The table of an element tells what its query line tells, but for the time. -/
theorem Enqueues.tells {q : Bytes} {e : Entry} (h : Enqueues s q e s') (i : Bytes) {k : Bytes}
    (hk : k ≠ str "timestamp") : Web.tells i k e.qt = Web.tells i k (parseQuery e.query) := by
  rw [Web.tells, Web.tells, h.qt _ hk, h.qt (str "iface") (by decide), h.query]

end Collector

/-! ### The server -/

/-- The event branch of the page, with what it leaves when the action raises an error. -/
theorem eventXml_event {q : Bytes} (he : IsEvent q) {rq : Request} (hget : rq.get = parseQuery q)
    (hrestore : parseQuery q (str "restore") ≠ some (str "config")) (sys : System) (s : Httpd) :
    ∃ iface, parseQuery q (str "iface") = some iface ∧
      (∀ e, eventAction sys s.c (parseQuery q) iface = .error e → (eventXml sys rq s).2.r =
        Function.update s.r iface (some ((s.r iface).getD fun _ => none))) ∧
      (eventAction sys s.c (parseQuery q) iface = .ok () → (eventXml sys rq s).2.r =
        Function.update s.r iface (some (((s.r iface).getD fun _ => none).merge (parseQuery q)))) := by
  obtain ⟨hcmd, hiface⟩ := he
  obtain ⟨iface, hi⟩ := Option.isSome_iff_exists.1 hiface
  have hne : ∀ w, w ≠ str "event" → ¬ parseQuery q (str "cmd") = some w := by
    intro w hw h
    rw [hcmd, Option.some.injEq] at h
    exact hw h.symm
  unfold eventXml
  rw [hget, if_neg (hne _ (by decide)), if_neg (hne _ (by decide)), if_neg hrestore,
    if_pos hcmd, hi]
  refine ⟨iface, rfl, fun e haction => ?_, fun haction => ?_⟩
  · simp only [haction]
  · simp only [haction]

/-- An event that is delivered: the page updates its table, or raises an error and leaves it.  It updates it
when it is ready. -/
theorem eventXml_shown {q : Bytes} (he : IsEvent q) {rq : Request} (hget : rq.get = parseQuery q)
    (sys : System) (s : Httpd) (i k : Bytes) :
    (shown (eventXml sys rq s).2.r i k = shown s.r i k ∨
      shown (eventXml sys rq s).2.r i k = (tells i k (parseQuery q)).or (shown s.r i k)) ∧
    (CallReady q sys s →
      shown (eventXml sys rq s).2.r i k = (tells i k (parseQuery q)).or (shown s.r i k)) := by
  by_cases hrestore : parseQuery q (str "restore") = some (str "config")
  · have hsame : (eventXml sys rq s).2 = s := by
      have hne : ∀ w, w ≠ str "event" → ¬ parseQuery q (str "cmd") = some w := by
        intro w hw h
        rw [he.1, Option.some.injEq] at h
        exact hw h.symm
      unfold eventXml
      rw [hget, if_neg (hne _ (by decide)), if_neg (hne _ (by decide)), if_pos hrestore]
    rw [hsame]
    exact ⟨Or.inl rfl, fun hr => absurd hrestore hr.restore⟩
  · obtain ⟨iface, hi, herror, hok⟩ := eventXml_event he hget hrestore sys s
    cases haction : eventAction sys s.c (parseQuery q) iface with
    | error e =>
      refine ⟨Or.inl ?_, fun hr => ?_⟩
      · -- an empty table shows what no table shows
        rw [herror e haction, shown, shown]
        by_cases hne : i = iface
        · subst hne
          rw [Function.update_self]
          cases s.r i <;> rfl
        · rw [Function.update_of_ne hne]
      · rw [eventAction_returns hr hi] at haction
        cases haction
    | ok u =>
      have hmerge := shown_merge s.r hi i k
      rw [← hok haction] at hmerge
      exact ⟨Or.inr hmerge, fun _ => hmerge⟩

/-! ### A call -/

/-- What a call does to the server. -/
theorem request_httpd (net : Network) (w : World) (url : Bytes) :
    (request net w url).2.visits = w.visits ++
        [⟨net.system w.visits.length, net.others w.visits.length w.httpd, (request net w url).2.httpd⟩] ∧
      ((request net w url).2.httpd = net.others w.visits.length w.httpd ∨
        (request net w url).2.httpd =
          (answerUrl net (net.system w.visits.length) url (net.others w.visits.length w.httpd)).2) := by
  refine ⟨rfl, ?_⟩
  rw [request]
  dsimp only
  cases net.exchange w.visits.length with
  | unreached => exact Or.inl rfl
  | lost => exact Or.inr rfl
  | answered => exact Or.inr rfl

/-- The visit that belongs to a call. -/
theorem callServer_world (net : Network) (w : World) (e : Entry) :
    ∃ v, (callServer (request net) w e.query).2.visits = w.visits ++ [v] ∧
      v.before = net.others w.visits.length w.httpd ∧
      v.after = (callServer (request net) w e.query).2.httpd ∧
      (v.after = v.before ∨ v.after =
        (eventXml v.system (splitPath (urlDecode (str "/event.xml?" ++ e.query))) v.before).2) ∧
      Visited (e, (callServer (request net) w e.query).1) v := by
  obtain ⟨v, hv, hvisited⟩ := callServer_visit net w e
  obtain ⟨url, hurl, hcall⟩ := callServer_eq (request net) w e.query
  obtain ⟨hvisits, hhttpd⟩ := request_httpd net w url
  have hanswer : ∀ sys s, answerUrl net sys url s =
      servePage sys (splitPath (urlDecode (str "/event.xml?" ++ e.query))) s := by
    intro sys s
    rw [hurl]
    exact answerUrl_eq net sys e.query s
  rw [hanswer, servePage] at hhttpd
  have hworld : (callServer (request net) w e.query).2 = (request net w url).2 := by rw [hcall]
  rw [hworld] at hv ⊢
  have hlast := List.singleton_inj.1 (List.append_cancel_left (hvisits.symm.trans hv))
  have hbefore : net.others w.visits.length w.httpd = v.before := congrArg Visit.before hlast
  have hafter : (request net w url).2.httpd = v.after := congrArg Visit.after hlast
  have hsystem : net.system w.visits.length = v.system := congrArg Visit.system hlast
  rw [hbefore, hafter, hsystem] at hhttpd
  refine ⟨v, hv, hbefore.symm, hafter.symm, ?_, hvisited⟩
  rcases hhttpd with h | h
  · exact Or.inl h
  · by_cases hfile : v.system.fileExists = true
    · rw [if_pos hfile] at h
      dsimp only at h
      exact Or.inr h
    · rw [if_neg hfile] at h
      dsimp only at h
      exact Or.inl h

section Replica

variable {net : Network} {i k : Bytes}

/-- What the elements of the queue are: events that the server reads as the collector does. -/
def Readable (i k : Bytes) (queue : List Entry) : Prop :=
  ∀ e ∈ queue, IsEvent e.query ∧ serverTable e.query = parseQuery e.query ∧
    tells i k e.qt = tells i k (parseQuery e.query)

/-- The calls that were acknowledged found the page ready, as far as `r[i][k]` goes. -/
def AllReady (i k : Bytes) (calls : List (Entry × Bool)) (vs : List Visit) : Prop :=
  ∀ c v, (c, v) ∈ calls.zip vs → c.2 = true → tells i k c.1.qt ≠ none →
    CallReady c.1.query v.system v.before

/-- A call of `call_server`, at `r[i][k]`. -/
theorem callServer_writes (hothers : ∀ n t, shown (net.others n t).r i k = shown t.r i k) {w : World}
    {e : Entry} (he : IsEvent e.query) (hsame : serverTable e.query = parseQuery e.query)
    (htells : tells i k e.qt = tells i k (parseQuery e.query)) :
    ∃ v, (callServer (request net) w e.query).2.visits = w.visits ++ [v] ∧
      (((callServer (request net) w e.query).1 = true → tells i k e.qt ≠ none →
          CallReady e.query v.system v.before) →
        Writes (fun e : Entry => tells i k e.qt) (fun w : World => shown w.httpd.r i k) w e
          (callServer (request net) w e.query)) := by
  obtain ⟨v, hvisits, hbefore, hworld, hafter, hvisited⟩ := callServer_world net w e
  refine ⟨v, hvisits, fun hready => ?_⟩
  have hstart : shown v.before.r i k = shown w.httpd.r i k := by rw [hbefore, hothers]
  obtain ⟨hpage, hpageReady⟩ := @eventXml_shown e.query he
    (splitPath (urlDecode (str "/event.xml?" ++ e.query))) hsame v.system v.before i k
  rw [← htells, hstart] at hpage hpageReady
  refine ⟨fun hok => ?_, fun _ => ?_⟩
  · have hrun := hvisited hok
    dsimp only at hrun ⊢
    rw [← hworld, hrun]
    by_cases hnone : tells i k e.qt = none
    · rcases hpage with h | h
      · rw [h, hnone, Option.none_or]
      · exact h
    · exact hpageReady (hready hok hnone)
  · rw [← hworld]
    rcases hafter with h | h
    · rw [h]
      exact Or.inl hstart
    · rw [h]
      exact hpage

/-- **The second half of a pass**: what the server and the queue come to stays. -/
theorem flush_settles (hothers : ∀ n t, shown (net.others n t).r i k = shown t.r i k)
    {s s' : Collector World} {cs : List (Entry × Bool)} (hhandled : ∀ e ∈ s.queue, e.handled = false)
    (hread : Readable i k s.queue) (hf : flush (request net) s = (cs, s'))
    (hno : NoOvertaking (fun e : Entry => tells i k e.qt) cs) :
    s'.r = s.r ∧ ∃ vs, s'.net.visits = s.net.visits ++ vs ∧ vs.length = cs.length ∧
      (AllReady i k cs vs →
        settle (shown s'.net.httpd.r i k) (s'.queue.reverse.map fun e => tells i k e.qt) =
          settle (shown s.net.httpd.r i k) (s.queue.reverse.map fun e => tells i k e.qt)) := by
  have hqueue := (flush_spec hhandled hf).2.1
  have hpass := @flushFrom_eq_pass _ (request net) s.queue.length s.queue s.net hhandled
  rw [flush, hpass] at hf
  simp only [Prod.mk.injEq] at hf
  obtain ⟨rfl, rfl⟩ := hf
  refine ⟨rfl, ?_⟩
  dsimp only at hqueue ⊢
  rw [hqueue, List.reverse_reverse]
  have hrule := Retry.pass_rule (fun w (e : Entry) => callServer (request net) w e.query)
    (P := fun done rest w => (∀ e ∈ rest, e ∈ s.queue) ∧ ∃ vs, w.visits = s.net.visits ++ vs ∧
      vs.length = done.length ∧ (AllReady i k done vs →
        settle (shown w.httpd.r i k) ((Retry.refused done ++ rest).map fun e => tells i k e.qt) =
          settle (shown s.net.httpd.r i k) (s.queue.reverse.map fun e => tells i k e.qt)))
    s.queue.length s.queue s.net [] le_rfl ?_ ?_
  · obtain ⟨-, vs, hvs, hlen, hsettle⟩ := hrule
    rw [List.append_nil] at hsettle
    exact ⟨vs, hvs, hlen, hsettle⟩
  · rintro d e rest w hd ⟨hmem, vs, hvs, hlen, hsettle⟩
    obtain ⟨he, hsame, htells⟩ := hread e (hmem e List.mem_cons_self)
    obtain ⟨v, hv, hwrites⟩ := callServer_writes (w := w) hothers he hsame htells
    refine ⟨fun x hx => hmem x (List.mem_cons_of_mem e hx), vs ++ [v], by rw [hv, hvs, List.append_assoc],
      by simp [hlen], fun hready => ?_⟩
    rw [AllReady, List.zip_append hlen.symm] at hready
    have hd' : NoOvertaking (fun e : Entry => tells i k e.qt)
        (d ++ [(e, (callServer (request net) w e.query).1)]) := List.Pairwise.sublist hd.sublist hno
    rw [step_settles (hwrites fun hok hne => hready (e, _) v (by simp) hok hne) hd' rest]
    exact hsettle fun c x hcx => hready c x (List.mem_append_left _ hcx)
  · rw [List.take_length]
    exact ⟨fun e he => List.mem_reverse.1 he, [], (List.append_nil _).symm, rfl, fun _ => rfl⟩

/-- **A run.**  `r[i][k]` of the collector is what the server comes to with the queue. -/
theorem run_settles (hothers : ∀ n t, shown (net.others n t).r i k = shown t.r i k)
    (hk : k ≠ str "timestamp") {inps : List Input} : ∀ {s s' : Collector World} {h : List Pass},
    s.Sound → Readable i k s.queue → run (request net) inps s = some (h, s') →
    (∀ e ∈ accepted h, serverTable e.query = parseQuery e.query) →
    (∀ p ∈ h, NoOvertaking (fun e : Entry => tells i k e.qt) p.calls) →
    ∃ vs, s'.net.visits = s.net.visits ++ vs ∧ vs.length = (calls h).length ∧
      (AllReady i k (calls h) vs →
        shown s.r i k = settle (shown s.net.httpd.r i k) (s.queue.reverse.map fun e => tells i k e.qt) →
        shown s'.r i k = settle (shown s'.net.httpd.r i k) (s'.queue.reverse.map fun e => tells i k e.qt)) := by
  induction inps with
  | nil =>
    intro s s' h _ _ hrun _ _
    cases hrun
    exact ⟨[], (List.append_nil _).symm, rfl, fun _ hs => hs⟩
  | cons inp inps ih =>
    intro s s' h hs hread hrun hsame hno
    obtain ⟨p, s₁, h₁, ht, hrun₁, rfl⟩ := run_cons hrun
    have hturn := turn_spec hs ht
    obtain ⟨⟨e, s₀⟩, hserve, ht⟩ := Option.map_eq_some_iff.1 ht
    rcases hflush : flush (request net) s₀ with ⟨cs, s₂⟩
    simp only [hflush, Prod.mk.injEq] at ht
    obtain ⟨rfl, rfl⟩ := ht
    have hq₀ : (∀ x ∈ s₀.queue, x.handled = false) ∧ Readable i k s₀.queue := by
      rcases serve_cases hserve with ⟨-, rfl⟩ | ⟨entry, q, rfl, henq⟩
      · exact ⟨hs.handled, hread⟩
      · rw [henq.queue]
        refine ⟨List.forall_mem_cons.2 ⟨henq.handled, hs.handled⟩, List.forall_mem_cons.2 ⟨?_, hread⟩⟩
        refine ⟨?_, hsame entry (by simp [accepted]), henq.tells i hk⟩
        rw [henq.query]
        exact ⟨henq.isEvent, henq.hasIface⟩
    obtain ⟨hr, vs, hvs, hlen, hsettle⟩ := flush_settles hothers hq₀.1 hq₀.2 hflush (hno _ List.mem_cons_self)
    have hread₁ : Readable i k s₂.queue := by
      intro x hx
      have hspec := flush_spec hq₀.1 hflush
      rw [hspec.2.1, List.mem_reverse] at hx
      obtain ⟨c, hc, rfl⟩ := List.mem_map.1 hx
      have hmem := List.mem_map_of_mem (f := Prod.fst) (List.mem_filter.1 hc).1
      rw [hspec.1, List.mem_reverse] at hmem
      exact hq₀.2 _ hmem
    obtain ⟨vs', hvs', hlen', hrest⟩ := ih hturn.sound hread₁ hrun₁
      (fun x hx => hsame x (by rw [accepted_cons]; exact List.mem_append_right _ hx))
      (fun q hq => hno q (List.mem_cons_of_mem _ hq))
    have hcalls : calls (⟨e, cs⟩ :: h₁) = cs ++ calls h₁ := rfl
    refine ⟨vs ++ vs', by rw [hvs', hvs, serve_net hserve, List.append_assoc],
      by rw [hcalls, List.length_append, List.length_append, hlen, hlen'], fun hready hstart => ?_⟩
    rw [AllReady, hcalls, List.zip_append hlen.symm] at hready
    refine hrest (fun c v hcv => hready c v (List.mem_append_right _ hcv)) ?_
    rw [hsettle fun c v hcv => hready c v (List.mem_append_left _ hcv), hr, serve_net hserve]
    exact serve_settles hserve hstart

end Replica

/-- **The server lags behind the collector by the queue.**  In every run in which no other client writes
`r[i][k]`, the queries mean the same to both, no delivery overtakes an older event that says something else
there, and each acknowledged call found the page ready: what the collector holds at `r[i][k]` is what the
server holds, with the events of the queue on top.  When none of these speaks of it, both hold the same. -/
theorem collector_ahead {net : Network} {inps : List Input} {httpd : Httpd} {h : List Pass}
    {s : Collector World} {i k : Bytes} (hk : k ≠ str "timestamp")
    (hrun : run (request net) inps (Collector.init ⟨httpd, []⟩) = some (h, s))
    (hstart : shown httpd.r i k = none) (hothers : ∀ n t, shown (net.others n t).r i k = shown t.r i k)
    (hsame : ∀ e ∈ accepted h, serverTable e.query = parseQuery e.query)
    (hno : ∀ p ∈ h, NoOvertaking (fun e : Entry => tells i k e.qt) p.calls)
    (hready : AllReady i k (calls h) s.net.visits) :
    shown s.r i k = settle (shown s.net.httpd.r i k) (s.queue.reverse.map fun e => tells i k e.qt) ∧
      ((∀ e ∈ s.queue, tells i k e.qt = none) → shown s.r i k = shown s.net.httpd.r i k) := by
  obtain ⟨vs, hvs, -, hsettle⟩ := run_settles hothers hk (Collector.sound_init _)
    (fun e he => absurd he List.not_mem_nil) hrun hsame hno
  have hvisits : s.net.visits = vs := hvs
  have hend := hsettle (hvisits ▸ hready) hstart.symm
  refine ⟨hend, fun hnone => hend.trans (settle_none _ fun v hv => ?_)⟩
  obtain ⟨e, he, rfl⟩ := List.mem_map.1 hv
  exact hnone e (List.mem_reverse.1 he)

/-- The query of an event that needs nothing from the router. -/
def downQuery : Bytes := str "cmd=event&iface=wan0&state=down"

theorem serverTable_down : serverTable downQuery = parseQuery downQuery := by
  have hline : afterQuestion (str "/event.xml" ++ 63 :: urlDecode downQuery) = downQuery := by
    decide +kernel
  rw [serverTable, splitPath_event, hline]

theorem down_ready (sys : System) (s : Httpd) : CallReady downQuery sys s := by
  have hstate : parseQuery downQuery (str "state") = some (str "down") := by decide +kernel
  refine ⟨serverTable_down, by decide +kernel, fun hup => ?_, fun hlink => ?_⟩
  · rw [hstate] at hup
    exact absurd hup (by decide)
  · rw [hstate] at hlink
    exact absurd hlink (by decide)

/-- A network in which no call gets through. -/
def deadNetwork : Network := { quietNetwork with exchange := fun _ => .unreached }

/-- The call is lost, and the server is one event behind. -/
theorem collector_ahead_lost :
    ∃ ps s, run (request deadNetwork) [oneLine "GET /?cmd=event&iface=wan0&state=down HTTP/1.0"]
        (Collector.init ⟨freshServer, []⟩) = some (ps, s) ∧
      s.queue.map Entry.query = [downQuery] ∧ shown s.net.httpd.r (str "wan0") (str "state") = none ∧
      shown s.r (str "wan0") (str "state") = settle (shown s.net.httpd.r (str "wan0") (str "state"))
        (s.queue.reverse.map fun e => tells (str "wan0") (str "state") e.qt) := by
  have hkey : (run (request deadNetwork) [oneLine "GET /?cmd=event&iface=wan0&state=down HTTP/1.0"]
      (Collector.init ⟨freshServer, []⟩)).map (fun x => (x.1.map fun p =>
        (p.accepted.map Entry.query, p.calls.map fun c => c.1.query), x.2.queue.map Entry.query,
        shown x.2.net.httpd.r (str "wan0") (str "state"))) =
        some ([(some downQuery, [downQuery])], [downQuery], none) := by
    decide +kernel
  obtain ⟨⟨ps, s⟩, hrun, hx⟩ := Option.map_eq_some_iff.1 hkey
  obtain ⟨hpasses, hx⟩ := Prod.mk.inj hx
  obtain ⟨hqueue, hserver⟩ := Prod.mk.inj hx
  have hp : ∀ p ∈ ps, p.accepted.map Entry.query = some downQuery ∧
      (p.calls.map fun c => c.1.query) = [downQuery] := by
    intro p hp
    have hmem := List.mem_map_of_mem (f := fun p : Pass =>
      (p.accepted.map Entry.query, p.calls.map fun c => c.1.query)) hp
    rw [hpasses, List.mem_singleton, Prod.mk.injEq] at hmem
    exact hmem
  refine ⟨ps, s, hrun, hqueue, hserver, (collector_ahead (by decide) hrun rfl (fun _ _ => rfl)
    (fun e he => ?_) (fun p hmem => ?_) fun c v hcv _ _ => ?_).1⟩
  · obtain ⟨p, hmem, hacc⟩ := List.mem_filterMap.1 he
    have hquery := (hp p hmem).1
    rw [hacc, Option.map_some, Option.some.injEq] at hquery
    rw [hquery]
    exact serverTable_down
  · have hlen := congrArg List.length (hp p hmem).2
    rw [List.length_map] at hlen
    obtain ⟨c, hc⟩ := List.length_eq_one_iff.1 hlen
    rw [hc]
    exact List.pairwise_singleton _ _
  · obtain ⟨p, hmem, hc⟩ := List.mem_flatMap.1 (List.of_mem_zip hcv).1
    have hquery : c.1.query ∈ p.calls.map fun c => c.1.query := List.mem_map_of_mem hc
    rw [(hp p hmem).2, List.mem_singleton] at hquery
    rw [hquery]
    exact down_ready _ _

end ZRouter.Web
