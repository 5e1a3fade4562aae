import ZRouter.Lib.Retry
import ZRouter.Web.UrlCode

/-!
# The event collector (`collector.lua`)

The collector reads event requests, keeps what it knows about each interface, and forwards the query
lines to the web server until the server answers 200.  `socket.http` is a parameter: `request` gives
the status code of a URL, and the state of the network and of the server after it.  A Lua error ends
the program; it is `none`.

* `process`, `callServer`, `flush`, `turn`: the functions of the source and a pass of its main loop;
* `run`: the main loop, with a record of what each pass accepted and offered (`Pass`);
* `flush_eq_pass`: the walk over the queue is `Retry.pass`;
* `collector_accounts` and `delivered_in_order`: what a whole run does with the accepted events.
-/

namespace ZRouter.Web

open Pattern

/-! ### The model -/

/-- Any byte. -/
def anyByte : UInt8 → Bool := fun _ => true

/-- The captures `(%d).(%d)`. -/
def versionItems : List (Item UInt8) :=
  [.opens, .one isdigit, .closes, .one anyByte, .opens, .one isdigit, .closes]

/-- The pattern `([A-Z]+) (.-)%?(.-) HTTP/(%d).(%d)`. -/
def requestItems : List (Item UInt8) :=
  .opens :: .plus isupper :: .closes :: .one (· = 32) :: .opens :: .lazy anyByte :: .closes ::
    .one (· = 63) :: .opens :: .lazy anyByte :: .closes :: (lit (str " HTTP/") ++ versionItems)

/-- The query of a request line, its third capture. -/
def requestQuery (data : Bytes) : Option Bytes := (find requestItems data).bind fun m => m.2.1[2]?

/-- An element of the queue.  `id` tells the tables apart. -/
structure Entry where
  id : ℕ
  handled : Bool
  query : Bytes
  qt : Table

/-- What the collector does to the router. -/
inductive Effect
  | route (gw : Bytes)
  | led (on : Bool)
  | resolvConf (dns : List Bytes)

/-- The state of the collector: `r`, `queue`, the number of queue elements made so far, what was
done to the router, and the state of the network. -/
structure Collector (σ : Type*) where
  r : Bytes → Option Table
  queue : List Entry
  created : ℕ
  effects : List Effect
  net : σ

/-- The collector as it starts. -/
def Collector.init {σ : Type*} (net : σ) : Collector σ := ⟨fun _ => none, [], 0, [], net⟩

/-- What one pass of the main loop gets from outside: the lines of a connection (`none` when no one
connects), `os.date`, whether there is an `INTERNET_LED`, whether `/etc/resolv.conf` can be opened,
whether the socket calls succeed, and the order in which `pairs` enumerates a table. -/
structure Input where
  lines : Option (List Bytes)
  date : Bytes
  internetLed : Bool
  resolvOpens : Bool
  sends : Bool
  closes : Bool
  pairs : Table → List (Bytes × Bytes)

/-- Copy the values of an event, without `iface` and `cmd`. -/
def Table.merge (old q : Table) : Table := fun k =>
  if k = str "iface" ∨ k = str "cmd" then old k else (q k).or (old k)

/-- The name servers of an event. -/
def nameservers (q : Table) : List Bytes :=
  [str "dns1", str "dns2"].filterMap fun k => (q k).filter fun v => 7 ≤ v.length

/-- What the event branch does after the values were copied; `none` when `/etc/resolv.conf` cannot
be opened. -/
def react (inp : Input) (q info : Table) : Option (List Effect) :=
  let up :=
    if q (str "state") = some (str "up") then
      let route := match info (str "gw") with
        | some gw => .route gw :: if inp.internetLed then [.led true] else []
        | none => []
      let dns := nameservers q
      if dns = [] then some route
      else if inp.resolvOpens then some (route ++ [.resolvConf dns])
      else none
    else some []
  up.map fun effects =>
    if q (str "state") = some (str "down") ∧ (info (str "gw")).isSome ∧ inp.internetLed then
      effects ++ [.led false]
    else effects

variable {σ : Type*}

/-- The `event` branch of `process`, for an event with an interface. -/
def acceptEvent (inp : Input) (q : Table) (queryline iface : Bytes) (s : Collector σ) :
    Option (Entry × Collector σ) :=
  let info := Table.merge ((s.r iface).getD fun _ => none) q
  let entry : Entry := ⟨s.created, false, queryline, q⟩
  (react inp q info).map fun effects =>
    (entry, { s with
      r := Function.update s.r iface (some info)
      queue := entry :: s.queue
      created := s.created + 1
      effects := s.effects ++ effects })

/-- `process`: the text to send, the element put into the queue, and the new state. -/
def process (inp : Input) (q : Table) (queryline : Bytes) (s : Collector σ) :
    Option (Bytes × Option Entry × Collector σ) :=
  if q (str "cmd") = some (str "event") then
    let q := Function.update q (str "timestamp") (some inp.date)
    match q (str "iface") with
    | none => some (str "collector.lua: ERROR: Interface not defined", none, s)
    | some iface =>
        (acceptEvent inp q queryline iface s).map fun x => (str "OK", some x.1, x.2)
  else if q (str "cmd") = some (str "revent") then
    match q (str "iface") with
    | none => none
    | some iface =>
        match s.r iface with
        | some info =>
            if inp.pairs info = [] then none else some (encodeQuery (inp.pairs info), none, s)
        | none => some (str "ERROR: no data for interface " ++ iface, none, s)
  else some (str "ERROR: unknown command", none, s)

/-- A connection: the first line with a query is taken. -/
def serve (inp : Input) (s : Collector σ) : Option (Option Entry × Collector σ) :=
  match inp.lines with
  | none => some (none, s)
  | some lines =>
      let served : Option (Option Entry × Collector σ) :=
        match lines.findSome? requestQuery with
        | none => some (none, s)
        | some query =>
            let q := parseQuery query
            if q (str "cmd") = none then some (none, s)
            else
              match process inp q query s with
              | none => none
              | some (_, entry, s) => if inp.sends then some (entry, s) else none
      if inp.closes then served else none

/-- `call_server`. -/
def callServer (request : σ → Bytes → Option ℕ × σ) (net : σ) (q : Bytes) : Bool × σ :=
  let (code, net) := request net (str "http://127.0.0.1:80/event.xml?" ++ q)
  (code = some 200, net)

/-- The loop over the queue, from the position `i` down. -/
def flushFrom (request : σ → Bytes → Option ℕ × σ) :
    ℕ → List Entry → σ → List (Entry × Bool) × List Entry × σ
  | 0, queue, net => ([], queue, net)
  | i + 1, queue, net =>
      match queue[i]? with
      | none => flushFrom request i queue net
      | some e =>
          if e.handled then flushFrom request i queue net
          else
            let (ok, net) := callServer request net e.query
            let (calls, queue, net) :=
              flushFrom request i (if ok then queue.eraseIdx i else queue) net
            ((e, ok) :: calls, queue, net)

/-- The second half of the main loop: the calls that it made, and the state after it. -/
def flush (request : σ → Bytes → Option ℕ × σ) (s : Collector σ) :
    List (Entry × Bool) × Collector σ :=
  let (calls, queue, net) := flushFrom request s.queue.length s.queue s.net
  (calls, { s with queue := queue, net := net })

/-- What one pass of the main loop did: the event it accepted, and its calls of `call_server`. -/
structure Pass where
  accepted : Option Entry
  calls : List (Entry × Bool)

/-- One pass of the main loop. -/
def turn (request : σ → Bytes → Option ℕ × σ) (inp : Input) (s : Collector σ) :
    Option (Pass × Collector σ) :=
  (serve inp s).map fun x =>
    let (calls, s) := flush request x.2
    (⟨x.1, calls⟩, s)

/-- The main loop: its passes, and the state after them. -/
def run (request : σ → Bytes → Option ℕ × σ) :
    List Input → Collector σ → Option (List Pass × Collector σ)
  | [], s => some ([], s)
  | inp :: inps, s =>
      match turn request inp s with
      | none => none
      | some (p, s) => (run request inps s).map fun x => (p :: x.1, x.2)

/-- The events accepted in a run, in order. -/
def accepted (h : List Pass) : List Entry := h.filterMap (·.accepted)

/-- The calls made in a run, in order. -/
def calls (h : List Pass) : List (Entry × Bool) := h.flatMap (·.calls)

/-- The events for which `call_server` returned true, in order. -/
def delivered (h : List Pass) : List Entry := Retry.taken (calls h)

/-! ### One pass -/

section Step

variable {request : σ → Bytes → Option ℕ × σ} {inp : Input} {s s' : Collector σ}

/-- The event with the query line `q` was put at the front of the queue. -/
structure Enqueues (s : Collector σ) (q : Bytes) (e : Entry) (s' : Collector σ) : Prop where
  id : e.id = s.created
  handled : e.handled = false
  query : e.query = q
  isEvent : parseQuery q (str "cmd") = some (str "event")
  hasIface : (parseQuery q (str "iface")).isSome = true
  qt : ∀ k, k ≠ str "timestamp" → e.qt k = parseQuery q k
  queue : s'.queue = e :: s.queue
  created : s'.created = s.created + 1
  net : s'.net = s.net

/-- `process` puts an element into the queue, or leaves the state as it is. -/
theorem process_cases {query text : Bytes} {e : Option Entry}
    (h : process inp (parseQuery query) query s = some (text, e, s')) :
    (e = none ∧ s' = s) ∨ ∃ entry, e = some entry ∧ Enqueues s query entry s' := by
  unfold process at h
  split_ifs at h with hev hre
  · have hstamp : ∀ k, k ≠ str "timestamp" →
        Function.update (parseQuery query) (str "timestamp") (some inp.date) k =
          parseQuery query k := fun k hk => Function.update_of_ne hk _ _
    have hiface := hstamp (str "iface") (by decide)
    simp only [hiface] at h
    cases hi : parseQuery query (str "iface") with
    | none =>
      simp only [hi] at h
      cases h
      exact Or.inl ⟨rfl, rfl⟩
    | some iface =>
      simp only [hi, acceptEvent, Option.map_map, Option.map_eq_some_iff] at h
      obtain ⟨effects, -, h⟩ := h
      cases h
      exact Or.inr ⟨_, rfl, rfl, rfl, rfl, hev, by rw [hi]; rfl, hstamp, rfl, rfl, rfl⟩
  · cases hi : parseQuery query (str "iface") with
    | none => simp [hi] at h
    | some iface =>
      simp only [hi] at h
      cases hr : s.r iface with
      | none =>
        simp only [hr] at h
        cases h
        exact Or.inl ⟨rfl, rfl⟩
      | some info =>
        simp only [hr] at h
        split_ifs at h
        cases h
        exact Or.inl ⟨rfl, rfl⟩
  · cases h
    exact Or.inl ⟨rfl, rfl⟩

/-- What a connection leaves behind: at most one new element. -/
theorem serve_cases {e : Option Entry} (h : serve inp s = some (e, s')) :
    (e = none ∧ s' = s) ∨ ∃ entry query, e = some entry ∧ Enqueues s query entry s' := by
  unfold serve at h
  cases hl : inp.lines with
  | none =>
    rw [hl] at h
    cases h
    exact Or.inl ⟨rfl, rfl⟩
  | some lines =>
    simp only [hl] at h
    cases hc : inp.closes with
    | false => simp [hc] at h
    | true =>
      rw [hc, if_pos rfl] at h
      cases hq : lines.findSome? requestQuery with
      | none =>
        rw [hq] at h
        cases h
        exact Or.inl ⟨rfl, rfl⟩
      | some query =>
        simp only [hq] at h
        by_cases hcmd : parseQuery query (str "cmd") = none
        · rw [if_pos hcmd] at h
          cases h
          exact Or.inl ⟨rfl, rfl⟩
        rw [if_neg hcmd] at h
        rcases hp : process inp (parseQuery query) query s with _ | ⟨text, e₁, s₁⟩
        · simp [hp] at h
        · simp only [hp] at h
          split_ifs at h
          cases h
          rcases process_cases hp with h1 | ⟨entry, h1, h2⟩
          · exact Or.inl h1
          · exact Or.inr ⟨entry, query, h1, h2⟩

/-- Over elements that were not handled, the loop of the source is the walk of `Retry.pass`. -/
theorem flushFrom_eq_pass (i : ℕ) : ∀ (queue : List Entry) (net : σ),
    (∀ e ∈ queue, e.handled = false) →
      flushFrom request i queue net =
        Retry.pass (fun w e => callServer request w e.query) i queue net := by
  induction i with
  | zero => exact fun _ _ _ => rfl
  | succ i ih =>
    intro queue net hq
    cases hget : queue[i]? with
    | none => simp only [flushFrom, Retry.pass, hget, ih queue net hq]
    | some e =>
      have he : e.handled = false := hq e (List.mem_of_getElem? hget)
      rcases hcall : callServer request net e.query with ⟨ok, net'⟩
      have hq' : ∀ x ∈ (if ok then queue.eraseIdx i else queue), x.handled = false := by
        intro x hx
        split_ifs at hx
        · exact hq x (List.mem_of_mem_eraseIdx hx)
        · exact hq x hx
      simp only [flushFrom, Retry.pass, hget, he, hcall, Bool.false_eq_true, if_false,
        ih _ net' hq']

/-- The second half of the main loop offers every element once, the oldest first, and keeps those
for which `call_server` does not return true. -/
theorem flush_spec {h : List (Entry × Bool)} (hq : ∀ e ∈ s.queue, e.handled = false)
    (hf : flush request s = (h, s')) :
    h.map Prod.fst = s.queue.reverse ∧ s'.queue = (Retry.refused h).reverse ∧
      s'.created = s.created := by
  have hspec := Retry.pass_spec (fun w e => callServer request w e.query) s.queue s.net
  rw [← flushFrom_eq_pass _ _ _ hq] at hspec
  unfold flush at hf
  rcases hx : flushFrom request s.queue.length s.queue s.net with ⟨cs, queue, net⟩
  simp only [hx] at hf hspec
  cases hf
  exact ⟨hspec.1, hspec.2, rfl⟩

/-- What holds of the queue between two passes. -/
structure Collector.Sound (s : Collector σ) : Prop where
  handled : ∀ e ∈ s.queue, e.handled = false
  below : ∀ e ∈ s.queue, e.id < s.created
  nodup : (s.queue.map Entry.id).Nodup

theorem Collector.sound_init (net : σ) : (Collector.init net).Sound :=
  ⟨by simp [Collector.init], by simp [Collector.init], by simp [Collector.init]⟩

/-- What one pass of the main loop does: the queue with the new element is offered from its end, and
the refused elements stay. -/
structure Turns (s : Collector σ) (p : Pass) (s' : Collector σ) : Prop where
  offered : p.calls.map Prod.fst = (p.accepted.toList ++ s.queue).reverse
  kept : s'.queue = (Retry.refused p.calls).reverse
  created : s'.created = s.created + p.accepted.toList.length
  id : ∀ e ∈ p.accepted, e.id = s.created
  below : ∀ e ∈ p.calls.map Prod.fst, e.id < s'.created
  nodup : ((p.calls.map Prod.fst).map Entry.id).Nodup
  sound : s'.Sound

/-- **One pass of the main loop.** -/
theorem turn_spec {p : Pass} (hs : s.Sound) (h : turn request inp s = some (p, s')) :
    Turns s p s' := by
  obtain ⟨⟨e, s₁⟩, hserve, h⟩ := Option.map_eq_some_iff.1 h
  have hq : s₁.queue = e.toList ++ s.queue ∧ s₁.created = s.created + e.toList.length ∧
      (∀ x ∈ e, x.id = s.created) ∧ s₁.Sound := by
    rcases serve_cases hserve with ⟨rfl, rfl⟩ | ⟨entry, q, rfl, henq⟩
    · exact ⟨rfl, rfl, by simp, hs⟩
    · refine ⟨henq.queue, henq.created, by simpa using henq.id, ?_, ?_, ?_⟩
      · rw [henq.queue]
        exact List.forall_mem_cons.2 ⟨henq.handled, hs.handled⟩
      · rw [henq.queue, henq.created]
        exact List.forall_mem_cons.2 ⟨by have := henq.id; omega,
          fun x hx => (hs.below x hx).trans (Nat.lt_succ_self _)⟩
      · rw [henq.queue, List.map_cons, List.nodup_cons]
        refine ⟨fun hmem => ?_, hs.nodup⟩
        obtain ⟨x, hx, hid⟩ := List.mem_map.1 hmem
        have h1 := hs.below x hx
        have h2 := henq.id
        omega
  rcases hf : flush request s₁ with ⟨cs, s₂⟩
  simp only [hf] at h
  cases h
  obtain ⟨hqueue, hcreated, hid, hs₁⟩ := hq
  obtain ⟨h1, h2, h3⟩ := flush_spec hs₁.handled hf
  have hsub : (Retry.refused cs).reverse.Sublist s₁.queue := by
    have hsub : (Retry.refused cs).Sublist (cs.map Prod.fst) := List.filter_sublist.map _
    rw [h1] at hsub
    exact List.reverse_sublist.1 (by rwa [List.reverse_reverse])
  refine ⟨by rw [h1, hqueue], h2, h3.trans hcreated, hid, ?_, ?_, ?_, ?_, ?_⟩
  · rw [h1, h3]
    exact fun x hx => hs₁.below x (List.mem_reverse.1 hx)
  · rw [h1, List.map_reverse]
    exact List.nodup_reverse.2 hs₁.nodup
  · rw [h2]
    exact fun x hx => hs₁.handled x (hsub.subset hx)
  · rw [h2, h3]
    exact fun x hx => hs₁.below x (hsub.subset hx)
  · rw [h2]
    exact hs₁.nodup.sublist (hsub.map _)

end Step

/-! ### A run -/

section Run

variable {request : σ → Bytes → Option ℕ × σ} {inps : List Input} {s s' : Collector σ}
  {h : List Pass}

theorem run_cons {inp : Input} (hrun : run request (inp :: inps) s = some (h, s')) :
    ∃ p s₁ h₁, turn request inp s = some (p, s₁) ∧ run request inps s₁ = some (h₁, s') ∧
      h = p :: h₁ := by
  rcases ht : turn request inp s with _ | ⟨p, s₁⟩
  · simp [run, ht] at hrun
  · simp only [run, ht, Option.map_eq_some_iff] at hrun
    obtain ⟨⟨h₁, s₂⟩, h1, h2⟩ := hrun
    cases h2
    exact ⟨p, s₁, h₁, rfl, h1, rfl⟩

theorem accepted_cons (p : Pass) (h : List Pass) :
    accepted (p :: h) = p.accepted.toList ++ accepted h := by
  cases hp : p.accepted <;> simp [accepted, hp]

theorem delivered_cons (p : Pass) (h : List Pass) :
    delivered (p :: h) = Retry.taken p.calls ++ delivered h := by
  simp [delivered, calls, Retry.taken]

/-- What was in the queue or came into it is still there or was delivered. -/
theorem run_perm (hs : s.Sound) (hrun : run request inps s = some (h, s')) :
    (accepted h ++ s.queue).Perm (s'.queue ++ delivered h) := by
  induction inps generalizing s h with
  | nil =>
    cases hrun
    simp [accepted, delivered, calls, Retry.taken]
  | cons inp inps ih =>
    obtain ⟨p, s₁, h₁, ht, hrun₁, rfl⟩ := run_cons hrun
    have hturn := turn_spec hs ht
    have hpass : (Retry.taken p.calls ++ s₁.queue).Perm (p.accepted.toList ++ s.queue) := by
      rw [hturn.kept]
      refine ((List.reverse_perm _).append_left _).trans ?_
      refine (Retry.taken_append_refused_perm _).trans ?_
      rw [hturn.offered]
      exact List.reverse_perm _
    rw [accepted_cons, delivered_cons]
    calc (p.accepted.toList ++ accepted h₁ ++ s.queue).Perm
          (accepted h₁ ++ (p.accepted.toList ++ s.queue)) := by
          rw [← List.append_assoc]
          exact List.perm_append_comm.append_right _
      _ |>.Perm (accepted h₁ ++ (Retry.taken p.calls ++ s₁.queue)) := hpass.symm.append_left _
      _ |>.Perm (Retry.taken p.calls ++ (accepted h₁ ++ s₁.queue)) := by
          rw [← List.append_assoc, ← List.append_assoc]
          exact List.perm_append_comm.append_right _
      _ |>.Perm (Retry.taken p.calls ++ (s'.queue ++ delivered h₁)) :=
          (ih hturn.sound hrun₁).append_left _
      _ |>.Perm (s'.queue ++ (Retry.taken p.calls ++ delivered h₁)) := by
          rw [← List.append_assoc, ← List.append_assoc]
          exact List.perm_append_comm.append_right _

/-- Every call is for an element of the queue, or for one that came later. -/
theorem run_calls_id (hs : s.Sound) (hrun : run request inps s = some (h, s')) :
    ∀ c ∈ calls h, c.1 ∈ s.queue ∨ s.created ≤ c.1.id := by
  induction inps generalizing s h with
  | nil =>
    cases hrun
    simp [calls]
  | cons inp inps ih =>
    obtain ⟨p, s₁, h₁, ht, hrun₁, rfl⟩ := run_cons hrun
    have hturn := turn_spec hs ht
    have hpass : ∀ e ∈ p.calls.map Prod.fst, e ∈ s.queue ∨ s.created ≤ e.id := by
      intro e he
      rw [hturn.offered, List.mem_reverse, List.mem_append, Option.mem_toList] at he
      rcases he with he | he
      · exact Or.inr (hturn.id e he).ge
      · exact Or.inl he
    intro c hc
    rw [calls, List.flatMap_cons, List.mem_append] at hc
    rcases hc with hc | hc
    · exact hpass _ (List.mem_map_of_mem hc)
    · rcases ih hturn.sound hrun₁ c hc with hq | hle
      · rw [hturn.kept, List.mem_reverse] at hq
        obtain ⟨x, hx, hxe⟩ := List.mem_map.1 hq
        exact hpass _ (hxe ▸ List.mem_map_of_mem (List.mem_filter.1 hx).1)
      · have := hturn.created
        exact Or.inr (by omega)

/-- After `call_server` returned true for an element it is not called for it again. -/
theorem run_not_again (hs : s.Sound) (hrun : run request inps s = some (h, s')) :
    (calls h).Pairwise fun a b => a.2 = true → b.1.id ≠ a.1.id := by
  induction inps generalizing s h with
  | nil =>
    cases hrun
    simp [calls]
  | cons inp inps ih =>
    obtain ⟨p, s₁, h₁, ht, hrun₁, rfl⟩ := run_cons hrun
    have hturn := turn_spec hs ht
    -- within the pass the elements are distinct
    have hnodup : (p.calls.map fun c => c.1.id).Nodup := by
      have := hturn.nodup
      rwa [List.map_map] at this
    have hdistinct : p.calls.Pairwise fun a b => a.1.id ≠ b.1.id := List.pairwise_map.1 hnodup
    rw [calls, List.flatMap_cons, List.pairwise_append]
    refine ⟨hdistinct.imp fun hab _ => hab.symm, ih hturn.sound hrun₁, ?_⟩
    intro a ha b hb htrue hid
    rcases run_calls_id hturn.sound hrun₁ b hb with hq | hle
    · rw [hturn.kept, List.mem_reverse] at hq
      obtain ⟨⟨x, ok⟩, hx, rfl⟩ := List.mem_map.1 hq
      obtain ⟨hx, hok⟩ := List.mem_filter.1 hx
      have hinj := List.inj_on_of_nodup_map hnodup hx ha hid
      rw [← hinj] at htrue
      exact absurd htrue (by simpa using hok)
    · have := hturn.below a.1 (List.mem_map_of_mem ha)
      omega

/-- In a run of orderly passes the accepted events are the delivered ones and then the queue. -/
theorem run_orderly (hs : s.Sound) (hrun : run request inps s = some (h, s'))
    (hord : ∀ p ∈ h, Retry.Orderly p.calls) :
    s.queue.reverse ++ accepted h = delivered h ++ s'.queue.reverse := by
  induction inps generalizing s h with
  | nil =>
    cases hrun
    simp [accepted, delivered, calls, Retry.taken]
  | cons inp inps ih =>
    obtain ⟨p, s₁, h₁, ht, hrun₁, rfl⟩ := run_cons hrun
    have hturn := turn_spec hs ht
    have hp := (hord p (by simp)).taken_append_refused
    rw [hturn.offered, List.reverse_append] at hp
    have h1 := ih hturn.sound hrun₁ fun q hq => hord q (by simp [hq])
    rw [hturn.kept, List.reverse_reverse] at h1
    have hone : p.accepted.toList.reverse = p.accepted.toList := by cases p.accepted <;> rfl
    rw [accepted_cons, delivered_cons, ← List.append_assoc, List.append_assoc (Retry.taken _), ← h1,
      ← List.append_assoc, hp, hone]

/-- The elements are numbered in the order in which they were accepted. -/
theorem run_ids (hs : s.Sound) (hrun : run request inps s = some (h, s')) :
    (accepted h).map Entry.id = List.range' s.created (accepted h).length := by
  induction inps generalizing s h with
  | nil =>
    cases hrun
    rfl
  | cons inp inps ih =>
    obtain ⟨p, s₁, h₁, ht, hrun₁, rfl⟩ := run_cons hrun
    have hturn := turn_spec hs ht
    have h1 := ih hturn.sound hrun₁
    rw [hturn.created] at h1
    rw [accepted_cons, List.map_append, h1, List.length_append]
    cases hp : p.accepted with
    | none => simp
    | some e =>
      have hid := hturn.id e hp
      simp [hid, Nat.add_comm 1, List.range'_succ]

end Run

/-! ### The collector -/

/-- A network that answers 200 or not, as listed. -/
def listedAnswers (answers : List Bool) (_ : Bytes) : Option ℕ × List Bool :=
  (if answers.headD false then some 200 else none, answers.tail)

/-- A connection with one request line. -/
def oneLine (line : String) : Input :=
  ⟨some [str line], str "2012-01-01 00:00:00", false, true, true, true, fun _ => []⟩

/-- Two events in three passes. -/
def twoEvents : List Input :=
  [oneLine "GET /?cmd=event&iface=wan0&state=up HTTP/1.0",
    oneLine "GET /?cmd=event&iface=wan0&state=down HTTP/1.0",
    { oneLine "" with lines := none }]

/-- **The collector neither loses nor repeats an event**: at every point between two passes an
accepted event is in the queue or was delivered, and no event is offered again after `call_server`
returned true for it. -/
theorem collector_accounts (request : σ → Bytes → Option ℕ × σ) (inps : List Input) (net : σ)
    (h : List Pass) (s : Collector σ) (hrun : run request inps (Collector.init net) = some (h, s)) :
    (accepted h : Multiset Entry) = (s.queue : Multiset Entry) + (delivered h : Multiset Entry) ∧
      (calls h).Pairwise fun a b => a.2 = true → b.1.id ≠ a.1.id := by
  have hs := Collector.sound_init net
  refine ⟨?_, run_not_again hs hrun⟩
  have hperm := run_perm hs hrun
  rw [show (Collector.init net).queue = [] from rfl, List.append_nil] at hperm
  rw [Multiset.coe_add, Multiset.coe_eq_coe]
  exact hperm

theorem collector_accounts_twoEvents :
    ∃ h s, run listedAnswers twoEvents (Collector.init [false, true, false]) = some (h, s) ∧
      (accepted h : Multiset Entry) = (s.queue : Multiset Entry) + (delivered h : Multiset Entry) ∧
        (calls h).Pairwise fun a b => a.2 = true → b.1.id ≠ a.1.id := by
  have hkey : (run listedAnswers twoEvents (Collector.init [false, true, false])).isSome = true := by
    decide +kernel
  obtain ⟨⟨h, s⟩, hrun⟩ := Option.isSome_iff_exists.1 hkey
  exact ⟨h, s, hrun, collector_accounts listedAnswers twoEvents _ h s hrun⟩

/-- Two elements of the first part of a list stand in it as they stand in the list. -/
theorem pair_sublist_left {α : Type*} {l r : List α} {a b : α} (hnd : (l ++ r).Nodup) (hb : b ∈ l)
    (h : [a, b].Sublist (l ++ r)) : [a, b].Sublist l := by
  obtain ⟨u, v, huv, hu, hv⟩ := List.sublist_append_iff.1 h
  rcases List.eq_nil_or_concat v with rfl | ⟨v', x, rfl⟩
  · rw [huv, List.append_nil]
    exact hu
  · rw [List.concat_eq_append] at hv huv
    rw [← List.append_assoc] at huv
    obtain rfl : b = x := by
      have := congrArg List.getLast? huv
      simpa using this
    exact absurd (hv.subset (by simp)) (List.disjoint_of_nodup_append hnd hb)

/-- Of two delivered events, the one that was accepted first was delivered first. -/
def InOrder (h : List Pass) : Prop :=
  ∀ a b, [a, b].Sublist (accepted h) → a ∈ delivered h → b ∈ delivered h →
    [a, b].Sublist (delivered h)

/-- **Events are delivered in the order in which they were accepted**, in every run in which no pass
delivers an event after a failed delivery.  What was delivered last for an interface is then what
was reported last, once no event for it is left in the queue. -/
theorem delivered_in_order (request : σ → Bytes → Option ℕ × σ) (inps : List Input) (net : σ)
    (h : List Pass) (s : Collector σ) (hrun : run request inps (Collector.init net) = some (h, s))
    (hord : ∀ p ∈ h, Retry.Orderly p.calls) :
    InOrder h ∧
      ∀ iface, (∀ e ∈ s.queue, e.qt (str "iface") ≠ some iface) →
        ((delivered h).filter (·.qt (str "iface") = some iface)).getLast? =
          ((accepted h).filter (·.qt (str "iface") = some iface)).getLast? := by
  have hs := Collector.sound_init net
  have hsplit : accepted h = delivered h ++ s.queue.reverse := run_orderly hs hrun hord
  have hnd : (accepted h).Nodup := by
    refine List.Nodup.of_map Entry.id ?_
    rw [run_ids hs hrun]
    exact List.nodup_range'
  refine ⟨fun a b hab _ hb => ?_, fun iface hq => ?_⟩
  · rw [hsplit] at hab hnd
    exact pair_sublist_left hnd hb hab
  · have hnil : s.queue.reverse.filter (·.qt (str "iface") = some iface) = [] :=
      List.filter_eq_nil_iff.2 fun e he => by simpa using hq e (List.mem_reverse.1 he)
    rw [hsplit, List.filter_append, hnil, List.append_nil]

theorem delivered_in_order_twoEvents :
    ∃ h s, run listedAnswers twoEvents (Collector.init [true, true]) = some (h, s) ∧
      InOrder h := by
  have hkey : (run listedAnswers twoEvents (Collector.init [true, true])).map
      (fun x => x.1.map fun p => p.calls.map Prod.snd) = some [[true], [true], []] := by
    decide +kernel
  obtain ⟨⟨h, s⟩, hrun, hcalls⟩ := Option.map_eq_some_iff.1 hkey
  refine ⟨h, s, hrun, (delivered_in_order listedAnswers twoEvents _ h s hrun fun p hp => ?_).1⟩
  have hmem : p.calls.map Prod.snd ∈ [[true], [true], []] := by
    rw [← hcalls]
    exact List.mem_map_of_mem hp
  have hall : ∀ c ∈ p.calls, c.2 = true := by
    intro c hc
    have hc' : c.2 ∈ p.calls.map Prod.snd := List.mem_map_of_mem hc
    simp only [List.mem_cons, List.not_mem_nil, or_false, or_self_left] at hmem
    rcases hmem with hmem | hmem <;> simp_all
  exact List.Pairwise.imp_of_mem (fun ha _ _ hfalse => absurd hfalse (by simp [hall _ ha]))
    (List.pairwise_of_forall fun _ _ => trivial)

/-- The newer event is delivered while the older one is still refused. -/
theorem newer_event_first :
    ¬ ∀ h s, run listedAnswers twoEvents (Collector.init [false, false, true, true]) = some (h, s) →
      InOrder h := by
  intro hall
  have hkey : (run listedAnswers twoEvents (Collector.init [false, false, true, true])).map
      (fun x => ((accepted x.1).map Entry.id, (delivered x.1).map Entry.id)) =
        some ([0, 1], [1, 0]) := by
    decide +kernel
  obtain ⟨⟨h, s⟩, hrun, hids⟩ := Option.map_eq_some_iff.1 hkey
  obtain ⟨hacc, hdel⟩ := Prod.mk.inj hids
  have hlen : ∀ {l : List Entry} {x y : ℕ}, l.map Entry.id = [x, y] → l.length = 2 :=
    fun hl => by simpa using congrArg List.length hl
  -- nothing is left in the queue, so both events are delivered
  have hperm := run_perm (Collector.sound_init _) hrun
  rw [show (Collector.init [false, false, true, true]).queue = [] from rfl, List.append_nil]
    at hperm
  have hq : s.queue = [] := by
    have hl := hperm.length_eq
    rw [List.length_append, hlen hacc, hlen hdel] at hl
    exact List.length_eq_zero_iff.1 (by omega)
  rw [hq, List.nil_append] at hperm
  obtain ⟨a, b, hab⟩ := List.length_eq_two.1 (hlen hacc)
  have hsub := hall h s hrun a b (by rw [hab]) (hperm.subset (by simp [hab]))
    (hperm.subset (by simp [hab]))
  have hids := hsub.map Entry.id
  rw [hab] at hacc
  rw [hdel, hacc] at hids
  revert hids
  decide

end ZRouter.Web
