import ZRouter.Cdevd.Config

/-!
# The processes of the event daemon (`run_handler`, `event_loop`)

For each rule that matches an event the daemon forks, and waits for the child.  A child whose `execve` fails is
a second daemon: it returns from `run_handler`, handles the rest of the event and reads on, while its parent
waits until it ends.  The events that are pending at the start are handled before `daemon` is called; a child that
goes on there ends in its own call of `daemon`, so that its parent goes on beside it, and the model stops at this
point.  Signals are left out.

* `Daemon`, `handleEvent`, `readEvents`, `Daemon.eventLoop`, `resume`, `stop`: the process that runs and the
  parents that wait;
* `handleEvent_processEvent`, `readEvents_eventLoop`: what is run where every program can be executed;
* `daemon_runs`: until the end of the events each program is run once for each event that it is for, in order;
* `daemon_stops`: how often it has been run when the last parent ends.
-/

namespace ZRouter.Cdevd

/-! ### The model -/

/-- A program that was run, with its environment. -/
abbrev Run := Bytes × Bytes

/-- The environment of a handler: `snprintf` into 1024 bytes. -/
def environment (line : Bytes) : Bytes := (str "CDEVD_EVENT=" ++ line).take 1023

/-- The daemon: the programs run so far, and the parents that wait, each with the rules that it has still to
compare with its event; the innermost one is first. -/
structure Daemon where
  runs : List Run
  waiting : List (List ConfigLine × Bytes)

/-- `process_event` in the process that runs.  `execve` says which programs can be executed; where one cannot,
the child goes on with the other rules. -/
def handleEvent (reg : Reg) (execve : Bytes → Bool) (buffer : Bytes) : List ConfigLine → Daemon → Exec Daemon
  | [], d => .ret d
  | entry :: rules, d =>
      match entry.regex with
      | none => .undefined
      | some regex =>
          if regMatch reg regex buffer = 1 then
            match entry.handler with
            | none => .undefined
            | some name =>
                if execve name then
                  handleEvent reg execve buffer rules { d with runs := d.runs ++ [(name, environment buffer)] }
                else handleEvent reg execve buffer rules { d with waiting := (rules, buffer) :: d.waiting }
          else handleEvent reg execve buffer rules d

/-- What `read` gave, without the newlines at its end; if there is nothing else, the bytes in front of `buffer`
are looked at. -/
def eventText (data : Bytes) : Exec Bytes :=
  match data.reverse.dropWhile (· = lf) with
  | [] => .undefined
  | text => .ret (cstr text.reverse)

/-- The events of `event_loop`, for what `read` gives. -/
def readEvents (reg : Reg) (execve : Bytes → Bool) (rules : List ConfigLine) :
    List Bytes → Daemon → Exec Daemon
  | [], d => .ret d
  | data :: reads, d =>
      eventText data >>= fun buffer =>
      handleEvent reg execve buffer rules d >>= fun d => readEvents reg execve rules reads d

/-- What `event_loop` comes to. -/
inductive Outcome
  /-- `daemon` is called by the first process, and the rest is read until the end of file. -/
  | daemon (d : Daemon)
  /-- A child went on before `daemon` was called, and there is more than one process from there on. -/
  | parted

/-- `event_loop`: the events that are pending at the start, the call of `daemon`, and the events behind it. -/
def Daemon.eventLoop (reg : Reg) (execve : Bytes → Bool) (rules : List ConfigLine) (pending reads : List Bytes) :
    Exec Outcome :=
  readEvents reg execve rules pending ⟨[], []⟩ >>= fun d =>
  if d.waiting.isEmpty then readEvents reg execve rules reads d >>= fun d => .ret (.daemon d)
  else .ret .parted

/-- What a parent still runs when its child has ended.  Its children find the end of file. -/
def resume (reg : Reg) (execve : Bytes → Bool) (buffer : Bytes) : List ConfigLine → Exec (List Run)
  | [] => .ret []
  | entry :: rules =>
      match entry.regex with
      | none => .undefined
      | some regex =>
          if regMatch reg regex buffer = 1 then
            match entry.handler with
            | none => .undefined
            | some name =>
                if execve name then
                  resume reg execve buffer rules >>= fun runs => .ret ((name, environment buffer) :: runs)
                else
                  resume reg execve buffer rules >>= fun child =>
                  resume reg execve buffer rules >>= fun runs => .ret (child ++ runs)
          else resume reg execve buffer rules

/-- The parents end, the innermost one first. -/
def stop (reg : Reg) (execve : Bytes → Bool) : List (List ConfigLine × Bytes) → Exec (List Run)
  | [] => .ret []
  | (rules, buffer) :: waiting =>
      resume reg execve buffer rules >>= fun runs =>
      stop reg execve waiting >>= fun runs' => .ret (runs ++ runs')

/-- The whole life of a daemon that has read its events: all programs that it runs. -/
def Daemon.life (reg : Reg) (execve : Bytes → Bool) (d : Daemon) : Exec (List Run) :=
  stop reg execve d.waiting >>= fun runs => .ret (d.runs ++ runs)

/-- **Where every program can be executed**, an event has the runs that `process_event` calls for, whatever is in
the list of rules. -/
theorem handleEvent_processEvent (reg : Reg) {execve : Bytes → Bool} (h : ∀ name, execve name = true)
    (buffer : Bytes) (rules : List ConfigLine) : ∀ d : Daemon, handleEvent reg execve buffer rules d =
      processEvent reg buffer rules >>= fun calls =>
        .ret { d with runs := d.runs ++ calls.map fun c => (c.1, environment c.2) } := by
  induction rules with
  | nil =>
    intro d
    rw [handleEvent, processEvent, Exec.ret_bind, List.map_nil, List.append_nil]
  | cons entry rules ih =>
    intro d
    rw [handleEvent, processEvent]
    cases entry.regex with
    | none => rfl
    | some regex =>
      dsimp only
      split_ifs with hmatch
      · cases entry.handler with
        | none => rfl
        | some name =>
          dsimp only
          rw [if_pos (h name), ih, Exec.bind_assoc]
          congr 1
          funext calls
          rw [Exec.ret_bind, List.map_cons, List.append_assoc, List.singleton_append]
      · exact ih d

/-! ### What should be run -/

section Rules

variable (reg : Reg) (execve : Bytes → Bool)

/-- The programs for an event that can be executed. -/
def runsFor (rules : List Rule) (event : Bytes) : List Run :=
  ((handlersFor reg rules event).filter fun c => execve c.1).map fun c => (c.1, environment c.2)

/-- The programs for an event that cannot be executed. -/
def failuresFor (rules : List Rule) (event : Bytes) : List Call :=
  (handlersFor reg rules event).filter fun c => ¬ execve c.1

/-- The programs for an event, each as often as the programs in front of it make it: twice as often for each
one that cannot be executed. -/
def repeated (event : Bytes) : ℕ → List Rule → List Run
  | _, [] => []
  | k, r :: rules =>
      if regMatch reg r.1 event = 1 then
        if execve r.2 then List.replicate (2 ^ k) (r.2, environment event) ++ repeated event k rules
        else repeated event (k + 1) rules
      else repeated event k rules

/-- What `read` gave as an event. -/
def eventOf (data : Bytes) : Bytes := cstr (data.reverse.dropWhile (· = lf)).reverse

variable {reg execve}

theorem eventText_eq {data : Bytes} (h : ∃ c ∈ data, c ≠ lf) : eventText data = .ret (eventOf data) := by
  have hne : data.reverse.dropWhile (· = lf) ≠ [] := by
    obtain ⟨c, hc, hlf⟩ := h
    rw [ne_eq, List.dropWhile_eq_nil_iff]
    exact fun hall => hlf (by simpa using hall c (List.mem_reverse.2 hc))
  rw [eventText, eventOf]
  split
  · next heq => exact absurd heq hne
  · rfl

theorem handlersFor_cons (r : Rule) (rules : List Rule) (event : Bytes) :
    handlersFor reg (r :: rules) event =
      (if regMatch reg r.1 event = 1 then [(r.2, event)] else []) ++ handlersFor reg rules event := by
  rw [handlersFor, handlersFor, List.filter_cons]
  by_cases h : regMatch reg r.1 event = 1 <;> simp [h]

variable (reg execve) in
/-- The parents that an event leaves waiting. -/
def waitingFor (event : Bytes) : List Rule → List (List ConfigLine × Bytes)
  | [] => []
  | r :: rules =>
      waitingFor event rules ++
        if regMatch reg r.1 event = 1 ∧ ¬ execve r.2 then [(rules.map entryOf, event)] else []

theorem length_waitingFor (event : Bytes) (rules : List Rule) :
    (waitingFor reg execve event rules).length = (failuresFor reg execve rules event).length := by
  induction rules with
  | nil => rfl
  | cons r rules ih =>
    rw [waitingFor, List.length_append, ih, failuresFor, failuresFor, handlersFor_cons, List.filter_append,
      List.length_append, Nat.add_comm]
    by_cases hmatch : regMatch reg r.1 event = 1
    · cases hexec : execve r.2 <;> simp [hmatch, hexec]
    · simp [hmatch]

/-- **One event**: the process that runs has run each program once, and one more parent waits for each program
that could not be executed. -/
theorem handleEvent_rules (event : Bytes) (rules : List Rule) : ∀ d : Daemon,
    handleEvent reg execve event (rules.map entryOf) d =
      .ret ⟨d.runs ++ runsFor reg execve rules event, waitingFor reg execve event rules ++ d.waiting⟩ := by
  induction rules with
  | nil => exact fun d => by simp [handleEvent, runsFor, handlersFor, waitingFor]
  | cons r rules ih =>
    intro d
    rw [List.map_cons, handleEvent, entryOf]
    dsimp only
    rw [runsFor, handlersFor_cons, waitingFor]
    by_cases hmatch : regMatch reg r.1 event = 1
    · rw [if_pos hmatch, if_pos hmatch]
      cases hexec : execve r.2 with
      | true =>
        rw [if_pos rfl, ih]
        simp [runsFor, hexec]
      | false =>
        rw [if_neg Bool.false_ne_true, ih]
        simp [runsFor, hexec, hmatch]
    · rw [if_neg hmatch, if_neg hmatch, ih]
      simp [runsFor, hmatch]

/-- Behind a program that cannot be executed everything is run twice. -/
theorem repeated_succ (event : Bytes) (rules : List Rule) : ∀ k,
    (repeated reg execve event (k + 1) rules).Perm
      (repeated reg execve event k rules ++ repeated reg execve event k rules) := by
  induction rules with
  | nil => exact fun k => .refl []
  | cons r rules ih =>
    intro k
    rw [repeated, repeated]
    split_ifs
    · rw [pow_succ, Nat.mul_two, List.replicate_add]
      refine ((ih k).append_left _).trans ?_
      rw [← Multiset.coe_eq_coe]
      simp only [← Multiset.coe_add]
      abel
    · exact ih (k + 1)
    · exact ih k

/-- What a parent still runs. -/
theorem resume_rules (event : Bytes) (rules : List Rule) :
    ∃ runs, resume reg execve event (rules.map entryOf) = .ret runs ∧
      runs.Perm (repeated reg execve event 0 rules) := by
  induction rules with
  | nil => exact ⟨[], rfl, .refl []⟩
  | cons r rules ih =>
    obtain ⟨runs, hruns, hperm⟩ := ih
    rw [List.map_cons, resume, entryOf, repeated]
    dsimp only
    rw [hruns]
    split_ifs
    · refine ⟨_, rfl, ?_⟩
      rw [pow_zero, List.replicate_one, List.singleton_append]
      exact hperm.cons _
    · exact ⟨runs ++ runs, rfl, (hperm.append hperm).trans (repeated_succ event rules 0).symm⟩
    · exact ⟨runs, rfl, hperm⟩

theorem stop_append {waiting waiting' : List (List ConfigLine × Bytes)} {runs runs' : List Run}
    (h : stop reg execve waiting = .ret runs) (h' : stop reg execve waiting' = .ret runs') :
    stop reg execve (waiting ++ waiting') = .ret (runs ++ runs') := by
  induction waiting generalizing runs with
  | nil =>
    cases h
    exact h'
  | cons x waiting ih =>
    obtain ⟨rules, buffer⟩ := x
    rw [stop] at h
    obtain ⟨first, hfirst, h⟩ := Exec.bind_eq_ret h
    obtain ⟨rest, hrest, h⟩ := Exec.bind_eq_ret h
    cases h
    rw [List.cons_append, stop, hfirst, Exec.ret_bind, ih hrest, Exec.ret_bind, List.append_assoc]

/-- The parents that an event has left, when they end. -/
theorem stop_waitingFor (event : Bytes) (rules : List Rule) :
    ∃ runs, stop reg execve (waitingFor reg execve event rules) = .ret runs ∧
      (runsFor reg execve rules event ++ runs).Perm (repeated reg execve event 0 rules) := by
  induction rules with
  | nil => exact ⟨[], rfl, .refl []⟩
  | cons r rules ih =>
    obtain ⟨runs, hruns, hperm⟩ := ih
    rw [waitingFor, repeated, runsFor, handlersFor_cons]
    by_cases hmatch : regMatch reg r.1 event = 1
    · cases hexec : execve r.2 with
      | true =>
        refine ⟨runs, ?_, ?_⟩
        · simpa [hexec] using hruns
        · rw [if_pos hmatch, if_pos hmatch, if_pos rfl, pow_zero, List.replicate_one]
          simpa [runsFor, hexec] using hperm
      | false =>
        obtain ⟨runs', hruns', hperm'⟩ := @resume_rules reg execve event rules
        have hparent : stop reg execve [(rules.map entryOf, event)] = .ret (runs' ++ []) := by
          rw [stop, hruns']
          rfl
        refine ⟨runs ++ (runs' ++ []), ?_, ?_⟩
        · rw [if_pos ⟨hmatch, by simp⟩]
          exact stop_append hruns hparent
        · rw [if_pos hmatch, if_pos hmatch, if_neg Bool.false_ne_true]
          refine List.Perm.trans ?_ (repeated_succ event rules 0).symm
          refine List.Perm.trans ?_ (hperm.append hperm')
          simp [runsFor, hexec]
    · refine ⟨runs, ?_, ?_⟩
      · simpa [hmatch] using hruns
      · rw [if_neg hmatch, if_neg hmatch]
        exact hperm

/-! ### The whole life -/

/-- What `read` gave has something beside newlines. -/
def HasText (data : Bytes) : Prop := ∃ c ∈ data, c ≠ lf

/-- **Where every program can be executed**, the events that are read have the calls of `event_loop`. -/
theorem readEvents_eventLoop (h : ∀ name, execve name = true) (rules : List ConfigLine) : ∀ {reads : List Bytes},
    (∀ data ∈ reads, HasText data) → ∀ d : Daemon, readEvents reg execve rules reads d =
      eventLoop reg rules (reads.map eventOf) >>= fun calls =>
        .ret { d with runs := d.runs ++ calls.map fun c => (c.1, environment c.2) } := by
  intro reads
  induction reads with
  | nil =>
    intro _ d
    rw [readEvents, List.map_nil, eventLoop, Exec.ret_bind, List.map_nil, List.append_nil]
  | cons data reads ih =>
    intro hdata d
    rw [readEvents, eventText_eq (hdata data List.mem_cons_self), Exec.ret_bind, handleEvent_processEvent reg h,
      List.map_cons, eventLoop, Exec.bind_assoc, Exec.bind_assoc]
    congr 1
    funext calls
    rw [Exec.ret_bind, ih (fun x hx => hdata x (List.mem_cons_of_mem data hx)), Exec.bind_assoc]
    congr 1
    funext calls'
    rw [Exec.ret_bind, List.map_append, List.append_assoc]

/-- The events read, and the parents that wait then. -/
theorem readEvents_rules {rules : List Rule} : ∀ {reads : List Bytes} {d : Daemon}, (∀ data ∈ reads, HasText data) →
    readEvents reg execve (rules.map entryOf) reads d =
      .ret ⟨d.runs ++ reads.flatMap (fun data => runsFor reg execve rules (eventOf data)),
        ((reads.map fun data => waitingFor reg execve (eventOf data) rules).reverse.flatten) ++ d.waiting⟩ := by
  intro reads
  induction reads with
  | nil => exact fun _ => by simp [readEvents]
  | cons data reads ih =>
    intro d hdata
    rw [readEvents, eventText_eq (hdata data List.mem_cons_self), Exec.ret_bind, handleEvent_rules,
      Exec.ret_bind, ih fun x hx => hdata x (List.mem_cons_of_mem data hx)]
    simp

/-- Where the programs for the events pending at the start can be executed, no process parts from
another. -/
theorem Daemon.eventLoop_rules {rules : List Rule} {pending reads : List Bytes} (hpending : ∀ data ∈ pending, HasText data)
    (hstart : ∀ data ∈ pending, failuresFor reg execve rules (eventOf data) = [])
    (hdata : ∀ data ∈ reads, HasText data) :
    Daemon.eventLoop reg execve (rules.map entryOf) pending reads =
      .ret (.daemon ⟨(pending ++ reads).flatMap (fun data => runsFor reg execve rules (eventOf data)),
        (reads.map fun data => waitingFor reg execve (eventOf data) rules).reverse.flatten⟩) := by
  have hnone : (pending.map fun data => waitingFor reg execve (eventOf data) rules).reverse.flatten = [] := by
    refine List.flatten_eq_nil_iff.2 fun waiting hw => ?_
    obtain ⟨data, hmem, rfl⟩ := List.mem_map.1 (List.mem_reverse.1 hw)
    rw [← List.length_eq_zero_iff, length_waitingFor, hstart data hmem, List.length_nil]
  rw [Daemon.eventLoop, readEvents_rules hpending, Exec.ret_bind, hnone]
  dsimp only
  rw [List.append_nil, List.isEmpty_nil, if_pos rfl, readEvents_rules hdata, Exec.ret_bind, List.append_nil,
    List.nil_append, List.flatMap_append]

/-- **While there are events**, the process that runs has run each program once for each event that it is for,
in order, and as many parents wait as programs could not be executed, if those for the events that were pending at
the start could be. -/
theorem daemon_runs {rules : List Rule} {pending reads : List Bytes} (hpending : ∀ data ∈ pending, HasText data)
    (hstart : ∀ data ∈ pending, failuresFor reg execve rules (eventOf data) = [])
    (hdata : ∀ data ∈ reads, HasText data) :
    ∃ d, Daemon.eventLoop reg execve (rules.map entryOf) pending reads = .ret (.daemon d) ∧
      d.runs = (pending ++ reads).flatMap (fun data => runsFor reg execve rules (eventOf data)) ∧
      d.waiting.length = (reads.map fun data => (failuresFor reg execve rules (eventOf data)).length).sum := by
  refine ⟨_, Daemon.eventLoop_rules hpending hstart hdata, rfl, ?_⟩
  rw [List.length_flatten, List.map_reverse, List.sum_reverse, List.map_map]
  congr 1
  exact List.map_congr_left fun data _ => length_waitingFor (eventOf data) rules

/-- Three rules; the program of the second one does not exist. -/
def brokenRules : List Rule :=
  [(str "+", str "/etc/attach"), (str "!", str "/missing"), (str "!sys", str "/etc/notify")]

/-- A device that is attached before the daemon starts, and two notifications. -/
theorem daemon_runs_broken :
    ∃ d, Daemon.eventLoop prefixReg (· ≠ str "/missing") (brokenRules.map entryOf) [str "+rt0\n"]
        [str "!system=A\n", str "!x\n"] = .ret (.daemon d) ∧
      d.runs = [(str "/etc/attach", str "CDEVD_EVENT=+rt0"), (str "/etc/notify", str "CDEVD_EVENT=!system=A")] ∧
      d.waiting.length = 2 := by
  obtain ⟨d, hd, hruns, hlen⟩ := @daemon_runs prefixReg (· ≠ str "/missing") brokenRules [str "+rt0\n"]
    [str "!system=A\n", str "!x\n"]
    (by
      intro data hdata
      rw [List.mem_singleton.1 hdata]
      exact ⟨43, by decide, by decide⟩)
    (by decide +kernel)
    (by
      intro data hdata
      rcases List.mem_pair.1 hdata with rfl | rfl
      · exact ⟨33, by decide, by decide⟩
      · exact ⟨33, by decide, by decide⟩)
  exact ⟨d, hd, hruns.trans (by decide +kernel), hlen.trans (by decide +kernel)⟩

/-- **In the end** each program has been run for each event that it is for `2 ^ k` times, where `k` programs for
the event that stand in front of it could not be executed. -/
theorem daemon_stops {rules : List Rule} {pending reads : List Bytes} (hpending : ∀ data ∈ pending, HasText data)
    (hstart : ∀ data ∈ pending, failuresFor reg execve rules (eventOf data) = [])
    (hdata : ∀ data ∈ reads, HasText data) :
    ∃ d runs, Daemon.eventLoop reg execve (rules.map entryOf) pending reads = .ret (.daemon d) ∧
      d.life reg execve = .ret runs ∧
      (pending ++ reads).flatMap (fun data => runsFor reg execve rules (eventOf data)) <+: runs ∧
      runs.Perm ((pending ++ reads).flatMap fun data => repeated reg execve (eventOf data) 0 rules) := by
  have hstop : ∃ runs, stop reg execve
      ((reads.map fun data => waitingFor reg execve (eventOf data) rules).reverse.flatten) = .ret runs ∧
        (reads.flatMap (fun data => runsFor reg execve rules (eventOf data)) ++ runs).Perm
          (reads.flatMap fun data => repeated reg execve (eventOf data) 0 rules) := by
    clear hdata
    induction reads with
    | nil => exact ⟨[], rfl, .refl []⟩
    | cons data reads ih =>
      obtain ⟨runs, hruns, hperm⟩ := ih
      obtain ⟨runs', hruns', hperm'⟩ := @stop_waitingFor reg execve (eventOf data) rules
      refine ⟨runs ++ runs', ?_, ?_⟩
      · rw [List.map_cons, List.reverse_cons, List.flatten_append, List.flatten_singleton]
        exact stop_append hruns hruns'
      · rw [List.flatMap_cons, List.flatMap_cons]
        refine List.Perm.trans ?_ (hperm'.append hperm)
        rw [← Multiset.coe_eq_coe]
        simp only [← Multiset.coe_add]
        abel
  -- nothing waits for what was pending, so that each of these programs is run once
  have honce : ∀ data ∈ pending,
      (runsFor reg execve rules (eventOf data)).Perm (repeated reg execve (eventOf data) 0 rules) := by
    intro data hmem
    obtain ⟨runs', hruns', hperm'⟩ := @stop_waitingFor reg execve (eventOf data) rules
    have hnone : waitingFor reg execve (eventOf data) rules = [] := by
      rw [← List.length_eq_zero_iff, length_waitingFor, hstart data hmem, List.length_nil]
    rw [hnone, stop] at hruns'
    cases hruns'
    rwa [List.append_nil] at hperm'
  obtain ⟨runs, hruns, hperm⟩ := hstop
  refine ⟨_, _, Daemon.eventLoop_rules hpending hstart hdata, ?_, List.prefix_append _ runs, ?_⟩
  · rw [Daemon.life, hruns]
    rfl
  · rw [List.flatMap_append, List.flatMap_append, List.append_assoc]
    exact (List.Perm.flatMap_left pending honce).append hperm

/-- Behind the program that does not exist, the next one is run twice. -/
theorem daemon_stops_broken :
    ∃ d runs, Daemon.eventLoop prefixReg (· ≠ str "/missing") (brokenRules.map entryOf) [str "+rt0\n"]
        [str "!system=A\n"] = .ret (.daemon d) ∧ d.life prefixReg (· ≠ str "/missing") = .ret runs ∧
      runs.Perm [(str "/etc/attach", str "CDEVD_EVENT=+rt0"), (str "/etc/notify", str "CDEVD_EVENT=!system=A"),
        (str "/etc/notify", str "CDEVD_EVENT=!system=A")] := by
  obtain ⟨d, runs, hd, hruns, -, hperm⟩ := @daemon_stops prefixReg (· ≠ str "/missing") brokenRules
    [str "+rt0\n"] [str "!system=A\n"]
    (by
      intro data hdata
      rw [List.mem_singleton.1 hdata]
      exact ⟨43, by decide, by decide⟩)
    (by decide +kernel)
    (by
      intro data hdata
      rw [List.mem_singleton.1 hdata]
      exact ⟨33, by decide, by decide⟩)
  have hrepeated : ([str "+rt0\n"] ++ [str "!system=A\n"]).flatMap
      (fun data => repeated prefixReg (· ≠ str "/missing") (eventOf data) 0 brokenRules) =
      [(str "/etc/attach", str "CDEVD_EVENT=+rt0"), (str "/etc/notify", str "CDEVD_EVENT=!system=A"),
        (str "/etc/notify", str "CDEVD_EVENT=!system=A")] := by decide +kernel
  exact ⟨d, runs, hd, hruns, hrepeated ▸ hperm⟩

end Rules

end ZRouter.Cdevd
