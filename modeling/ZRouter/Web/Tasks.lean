import ZRouter.Lib.Lua
import ZRouter.Lib.Walk

/-!
# The tasks of the web server (`periodic_tasks`, `start_server`)

After each connection the server counts down its tasks.  A task whose counter has come to zero is called after
every connection until it returns true; then it is deleted.

* `Countdown`, `periodicTasks`, `serverLoop`: the tasks, what follows a connection, and the loop;
* `periodicFrom_eq_walk`: the loop over the tasks is `Walk.walk`;
* `pass_spec`, `serverLoop_tasks`: which tasks one pass calls, and which a whole run;
* `startup_tasks`: the two tasks that the server starts with.
-/

namespace ZRouter.Web

/-! ### The model -/

/-- An element of `r.tasks.countdown`.  `id` tells the tables apart. -/
structure Countdown (σ : Type*) where
  id : ℕ
  count : ℤ
  task : σ → Lua (Bool × σ)

/-- The server while it goes through the tasks: its state, and the calls so far with what they returned. -/
structure Server (σ : Type*) where
  state : σ
  ran : List (ℕ × Bool)

variable {σ : Type*}

/-- The loop of `periodic_tasks`, from the position `i` down. -/
def periodicFrom (step : ℤ) : ℕ → List (Countdown σ) → Server σ → Lua (List (Countdown σ) × Server σ)
  | 0, countdown, s => .ok (countdown, s)
  | i + 1, countdown, s =>
      match countdown[i]? with
      | none => .error .index
      | some t =>
          let t := { t with count := t.count - step }
          let countdown := countdown.set i t
          if t.count ≤ 0 then
            match t.task s.state with
            | .error e => .error e
            | .ok (done, state) =>
                let countdown := if done then countdown.eraseIdx i else countdown
                periodicFrom step i countdown ⟨state, s.ran ++ [(t.id, done)]⟩
          else periodicFrom step i countdown s

/-- `periodic_tasks`. -/
def periodicTasks (step : ℤ) (countdown : List (Countdown σ)) (s : σ) :
    Lua (List (Countdown σ) × Server σ) :=
  periodicFrom step countdown.length countdown ⟨s, []⟩

/-- `n` passes of the loop of `start_server`, from the one with the number `k` on: the calls of each pass, the
tasks that are left, and the state.  `connection k` is what `processConnection` does. -/
def serverLoop (connection : ℕ → σ → Lua σ) (step : ℤ) :
    ℕ → ℕ → List (Countdown σ) → σ → Lua (List (List (ℕ × Bool)) × List (Countdown σ) × σ)
  | 0, _, countdown, s => .ok ([], countdown, s)
  | n + 1, k, countdown, s =>
      match connection k s with
      | .error e => .error e
      | .ok s =>
          match periodicTasks step countdown s with
          | .error e => .error e
          | .ok (countdown, s) =>
              match serverLoop connection step n (k + 1) countdown s.state with
              | .error e => .error e
              | .ok (runs, countdown, state) => .ok (s.ran :: runs, countdown, state)

/-- The tasks that the server registers before it starts. -/
def startupTasks (configureWan racoonRun : σ → Lua σ) : List (Countdown σ) :=
  [⟨0, 2, fun s => (configureWan s).map fun s => (true, s)⟩,
    ⟨1, 10, fun s => (racoonRun s).map fun s => (true, s)⟩]

/-- `r.tasks.step`. -/
def tasksStep : ℤ := 5

/-! ### One pass -/

/-- The counter after `n` passes. -/
def Countdown.after (step : ℤ) (n : ℕ) (t : Countdown σ) : Countdown σ :=
  { t with count := t.count - step * n }

@[simp] theorem Countdown.after_id (step : ℤ) (n : ℕ) (t : Countdown σ) : (t.after step n).id = t.id := rfl

theorem Countdown.after_zero (step : ℤ) (t : Countdown σ) : t.after step 0 = t := by
  simp [Countdown.after]

theorem Countdown.after_succ (step : ℤ) (n : ℕ) (t : Countdown σ) :
    (t.after step 1).after step n = t.after step (n + 1) := by
  simp only [Countdown.after, Countdown.mk.injEq, true_and, and_true]
  push_cast
  ring

/-- The task is called in the pass with that number. -/
def Countdown.Due (step : ℤ) (m : ℕ) (t : Countdown σ) : Prop := t.count ≤ step * (m + 1)

instance (step : ℤ) (m : ℕ) (t : Countdown σ) : Decidable (t.Due step m) :=
  inferInstanceAs (Decidable (t.count ≤ step * (m + 1)))

/-- What the loop does with one task. -/
def visitTask (step : ℤ) (s : Server σ) (t : Countdown σ) : Lua (Option (Countdown σ) × Server σ) :=
  if t.Due step 0 then
    (t.task s.state).map fun x => (if x.1 then none else some (t.after step 1), ⟨x.2, s.ran ++ [(t.id, x.1)]⟩)
  else .ok (some (t.after step 1), s)

/-- The loop over the tasks is a walk from their end. -/
theorem periodicFrom_eq_walk (step : ℤ) (i : ℕ) : ∀ (l : List (Countdown σ)) (s : Server σ), i ≤ l.length →
    periodicFrom step i l s = Walk.walk (visitTask step) i l s := by
  induction i with
  | zero => exact fun _ _ _ => rfl
  | succ i ih =>
    intro l s hi
    have hget : l[i]? = some l[i] := List.getElem?_eq_getElem (by omega)
    generalize l[i] = t at hget
    have hcount : t.count - step ≤ 0 ↔ t.Due step 0 := by simp [Countdown.Due]
    have hafter : (⟨t.id, t.count - step, t.task⟩ : Countdown σ) = t.after step 1 := by simp [Countdown.after]
    rw [periodicFrom, Walk.walk, hget]
    dsimp only
    rw [visitTask]
    by_cases hdue : t.Due step 0
    · rw [if_pos (hcount.2 hdue), if_pos hdue, hafter]
      cases t.task s.state with
      | error e => rfl
      | ok x =>
        obtain ⟨done, state⟩ := x
        cases done with
        | true =>
          have hdelete : (l.set i (t.after step 1)).eraseIdx i = l.eraseIdx i := List.eraseIdx_set_eq
          dsimp only
          rw [if_pos rfl, hdelete]
          exact ih _ _ (by rw [List.length_eraseIdx]; split <;> omega)
        | false =>
          dsimp only
          rw [if_neg Bool.false_ne_true]
          exact ih _ _ (by rw [List.length_set]; omega)
    · rw [if_neg (fun h => hdue (hcount.1 h)), if_neg hdue, hafter]
      exact ih _ s (by rw [List.length_set]; omega)

/-- The value is one that the task returns. -/
def Countdown.Returns (t : Countdown σ) (b : Bool) : Prop := ∃ s s', t.task s = .ok (b, s')

/-- What calls that the tasks in `l` got, in order, leave of them: `runs` are the calls. -/
structure Called (step : ℤ) (l : List (Countdown σ)) (runs : List (ℕ × Bool)) (rs : List (Option (Countdown σ))) :
    Prop where
  ids : runs.map Prod.fst = (l.filter fun t => t.Due step 0).map Countdown.id
  left : rs = l.map fun t => if (t.id, true) ∈ runs then none else some (t.after step 1)
  returns : ∀ r ∈ runs, ∃ t ∈ l, t.id = r.1 ∧ t.Returns r.2

/-- The visit of one task. -/
theorem visitTask_ok {step : ℤ} {t : Countdown σ} {s s' : Server σ} {r : Option (Countdown σ)}
    (h : visitTask step s t = .ok (r, s')) :
    (¬ t.Due step 0 ∧ r = some (t.after step 1) ∧ s' = s) ∨
      (t.Due step 0 ∧ ∃ done, t.Returns done ∧ r = (if done then none else some (t.after step 1)) ∧
        s'.ran = s.ran ++ [(t.id, done)]) := by
  rw [visitTask] at h
  by_cases hdue : t.Due step 0
  · rw [if_pos hdue] at h
    cases htask : t.task s.state with
    | error e =>
      rw [htask] at h
      cases h
    | ok x =>
      rw [htask] at h
      cases h
      exact Or.inr ⟨hdue, x.1, ⟨s.state, x.2, htask⟩, rfl, rfl⟩
  · rw [if_neg hdue] at h
    cases h
    exact Or.inl ⟨hdue, rfl, rfl⟩

/-- The tasks of a pass, in the order in which they are visited. -/
theorem visitAll_called {step : ℤ} : ∀ {l : List (Countdown σ)} {s s' : Server σ}
    {rs : List (Option (Countdown σ))}, (l.map Countdown.id).Nodup →
    Walk.visitAll (visitTask step) l s = .ok (rs, s') → ∃ runs, s'.ran = s.ran ++ runs ∧ Called step l runs rs := by
  intro l
  induction l with
  | nil =>
    intro s s' rs _ h
    cases h
    exact ⟨[], (List.append_nil _).symm, rfl, rfl, fun r hr => absurd hr List.not_mem_nil⟩
  | cons t l ih =>
    intro s s' rs hid h
    rw [List.map_cons, List.nodup_cons] at hid
    obtain ⟨r, s₁, rs₁, hvisit, hrest, rfl⟩ := Walk.visitAll_cons_ok h
    obtain ⟨runs, hran, hcalled⟩ := ih hid.2 hrest
    -- the other tasks have other numbers
    have hother : ∀ b, (t.id, b) ∉ runs := by
      intro b hmem
      obtain ⟨t', ht', hid', -⟩ := hcalled.returns _ hmem
      exact hid.1 (List.mem_map.2 ⟨t', ht', hid'⟩)
    have hlater : ∀ t' ∈ l, t'.id ≠ t.id := fun t' ht' heq => hid.1 (List.mem_map.2 ⟨t', ht', heq⟩)
    rcases visitTask_ok hvisit with ⟨hdue, rfl, rfl⟩ | ⟨hdue, done, hreturns, rfl, hs₁⟩
    · refine ⟨runs, hran, ?_, ?_, fun r hr => ?_⟩
      · rw [List.filter_cons_of_neg (by simpa using hdue), hcalled.ids]
      · rw [List.map_cons, if_neg (hother true), hcalled.left]
      · obtain ⟨t', ht', hr'⟩ := hcalled.returns r hr
        exact ⟨t', List.mem_cons_of_mem t ht', hr'⟩
    · refine ⟨(t.id, done) :: runs, by rw [hran, hs₁, List.append_assoc]; rfl, ?_, ?_, fun r hr => ?_⟩
      · rw [List.filter_cons_of_pos (by simpa using hdue), List.map_cons, List.map_cons, hcalled.ids]
      · have hhead : ((t.id, true) ∈ (t.id, done) :: runs) ↔ done = true := by
          rw [List.mem_cons, Prod.mk.injEq]
          exact ⟨fun h => h.elim (fun h => h.2.symm) fun h => absurd h (hother true),
            fun h => Or.inl ⟨rfl, h.symm⟩⟩
        rw [List.map_cons, hcalled.left]
        simp only [hhead]
        congr 1
        refine List.map_congr_left fun t' ht' => ?_
        simp only [List.mem_cons, Prod.mk.injEq, hlater t' ht', false_and, false_or]
      · rcases List.mem_cons.1 hr with rfl | hr
        · exact ⟨t, List.mem_cons_self, rfl, hreturns⟩
        · obtain ⟨t', ht', hr'⟩ := hcalled.returns r hr
          exact ⟨t', List.mem_cons_of_mem t ht', hr'⟩

/-- **One pass of `periodic_tasks`**: the tasks that are due are called, the last one first, and those that
returned true are deleted. -/
theorem pass_spec {step : ℤ} {l l' : List (Countdown σ)} {s : σ} {s' : Server σ}
    (hid : (l.map Countdown.id).Nodup) (h : periodicTasks step l s = .ok (l', s')) :
    s'.ran.map Prod.fst = ((l.filter fun t => t.Due step 0).map Countdown.id).reverse ∧
      l' = (l.filter fun t => (t.id, true) ∉ s'.ran).map (Countdown.after step 1) ∧
      ∀ r ∈ s'.ran, ∃ t ∈ l, t.id = r.1 ∧ t.Returns r.2 := by
  rw [periodicTasks, periodicFrom_eq_walk step _ _ _ le_rfl, Walk.walk_eq] at h
  cases hvisit : Walk.visitAll (visitTask step) l.reverse ⟨s, []⟩ with
  | error e =>
    rw [hvisit] at h
    cases h
  | ok x =>
    rw [hvisit] at h
    cases h
    obtain ⟨runs, hran, hcalled⟩ := visitAll_called
      (by rw [List.map_reverse, List.nodup_reverse]; exact hid) hvisit
    rw [List.nil_append] at hran
    rw [hran]
    refine ⟨?_, ?_, fun r hr => ?_⟩
    · rw [hcalled.ids, List.filter_reverse, List.map_reverse]
    · rw [hcalled.left]
      exact Walk.remaining_reverse_map (fun t => (t.id, true) ∈ runs) (Countdown.after step 1) l
    · obtain ⟨t, ht, hr'⟩ := hcalled.returns r hr
      exact ⟨t, List.mem_reverse.1 ht, hr'⟩

/-! ### A run -/

/-- A run of the loop, taken apart at its first pass. -/
theorem serverLoop_succ {connection : ℕ → σ → Lua σ} {step : ℤ} {n k : ℕ} {l l' : List (Countdown σ)} {s s' : σ}
    {logs : List (List (ℕ × Bool))} (h : serverLoop connection step (n + 1) k l s = .ok (logs, l', s')) :
    ∃ s₁ l₁ sv logs₁, connection k s = .ok s₁ ∧ periodicTasks step l s₁ = .ok (l₁, sv) ∧
      serverLoop connection step n (k + 1) l₁ sv.state = .ok (logs₁, l', s') ∧ logs = sv.ran :: logs₁ := by
  rw [serverLoop] at h
  cases hconn : connection k s with
  | error e =>
    rw [hconn] at h
    cases h
  | ok s₁ =>
    rw [hconn] at h
    dsimp only at h
    cases hpass : periodicTasks step l s₁ with
    | error e =>
      rw [hpass] at h
      cases h
    | ok x =>
      rw [hpass] at h
      dsimp only at h
      cases hrest : serverLoop connection step n (k + 1) x.1 x.2.state with
      | error e =>
        rw [hrest] at h
        cases h
      | ok y =>
        rw [hrest] at h
        cases h
        exact ⟨s₁, x.1, x.2, y.1, rfl, hpass, hrest, rfl⟩

/-- The task returned true in one of the passes. -/
def Finished (logs : List (List (ℕ × Bool))) (t : Countdown σ) : Prop := ∃ runs ∈ logs, (t.id, true) ∈ runs

instance (logs : List (List (ℕ × Bool))) (t : Countdown σ) : Decidable (Finished logs t) :=
  inferInstanceAs (Decidable (∃ runs ∈ logs, (t.id, true) ∈ runs))

theorem finished_cons {runs : List (ℕ × Bool)} {logs : List (List (ℕ × Bool))} {t : Countdown σ} :
    Finished (runs :: logs) t ↔ (t.id, true) ∈ runs ∨ Finished logs t := by
  simp [Finished]

theorem finished_after {logs : List (List (ℕ × Bool))} {step : ℤ} {n : ℕ} {t : Countdown σ} :
    Finished logs (t.after step n) ↔ Finished logs t := Iff.rfl

theorem due_after {step : ℤ} {m : ℕ} {t : Countdown σ} : (t.after step 1).Due step m ↔ t.Due step (m + 1) := by
  simp only [Countdown.Due, Countdown.after]
  push_cast
  constructor <;> intro h <;> linarith

/-- What a run does with the tasks in `l`: `logs` are the calls of each pass, and `l'` is left. -/
structure TasksRun (step : ℤ) (l : List (Countdown σ)) (logs : List (List (ℕ × Bool))) (l' : List (Countdown σ)) :
    Prop where
  calls : ∀ m runs, logs[m]? = some runs → runs.map Prod.fst =
    ((l.filter fun t => t.Due step m ∧ ¬ Finished (logs.take m) t).map Countdown.id).reverse
  returns : ∀ runs ∈ logs, ∀ r ∈ runs, ∃ t ∈ l, t.id = r.1 ∧ t.Returns r.2
  left : l' = (l.filter fun t => ¬ Finished logs t).map (Countdown.after step logs.length)

/-- The passes of a run, by induction on their number. -/
theorem serverLoop_tasks {connection : ℕ → σ → Lua σ} {step : ℤ} {n : ℕ} : ∀ {k : ℕ} {l l' : List (Countdown σ)}
    {s s' : σ} {logs : List (List (ℕ × Bool))}, (l.map Countdown.id).Nodup →
    serverLoop connection step n k l s = .ok (logs, l', s') → logs.length = n ∧ TasksRun step l logs l' := by
  induction n with
  | zero =>
    intro k l l' s s' logs _ h
    cases h
    refine ⟨rfl, fun m runs h => by simp at h, fun runs h => absurd h List.not_mem_nil, ?_⟩
    have hall : l.filter (fun t => ¬ Finished [] t) = l :=
      List.filter_eq_self.2 fun t _ => by simp [Finished]
    rw [hall, List.length_nil]
    exact (List.map_id'' (Countdown.after_zero step) l).symm
  | succ n ih =>
    intro k l l' s s' logs hid h
    obtain ⟨s₁, l₁, sv, logs₁, -, hpass, hrest, rfl⟩ := serverLoop_succ h
    obtain ⟨hran, rfl, hreturns⟩ := pass_spec hid hpass
    have hid₁ : (((l.filter fun t => (t.id, true) ∉ sv.ran).map (Countdown.after step 1)).map
        Countdown.id).Nodup := by
      rw [List.map_map]
      exact hid.sublist (List.filter_sublist.map _)
    obtain ⟨hlen, hcalls, hreturns₁, hleft⟩ := ih hid₁ hrest
    refine ⟨by rw [List.length_cons, hlen], fun m runs hm => ?_, fun runs hruns r hr => ?_, ?_⟩
    · cases m with
      | zero =>
        obtain rfl := Option.some.inj hm
        rw [hran]
        simp [Finished]
      | succ m =>
        rw [hcalls m runs hm, List.filter_map, List.map_map, List.filter_filter, List.take_succ_cons]
        congr 2
        refine List.filter_congr fun t _ => ?_
        simp only [Function.comp_apply, due_after, finished_after, finished_cons, not_or,
          Bool.decide_and, decide_not]
        rw [Bool.and_assoc, Bool.and_comm (!decide (Finished (logs₁.take m) t))]
    · rcases List.mem_cons.1 hruns with rfl | hruns
      · exact hreturns r hr
      · obtain ⟨t, ht, hrt⟩ := hreturns₁ runs hruns r hr
        obtain ⟨t₀, ht₀, rfl⟩ := List.mem_map.1 ht
        exact ⟨t₀, (List.mem_filter.1 ht₀).1, hrt⟩
    · rw [hleft, List.filter_map, List.map_map, List.filter_filter, List.length_cons]
      have hafter : Countdown.after step logs₁.length ∘ Countdown.after step 1 =
          (Countdown.after step (logs₁.length + 1) : Countdown σ → Countdown σ) :=
        funext fun t => t.after_succ step _
      rw [hafter]
      congr 1
      refine List.filter_congr fun t _ => ?_
      simp only [Function.comp_apply, finished_after, finished_cons, not_or, Bool.decide_and, decide_not]
      rw [Bool.and_comm]

/-! ### Tasks that run once -/

section Once

variable {step : ℤ} {l l' : List (Countdown σ)} {logs : List (List (ℕ × Bool))} {t : Countdown σ}

theorem TasksRun.mem_runs (h : TasksRun step l logs l') (hid : (l.map Countdown.id).Nodup) (ht : t ∈ l) {m : ℕ}
    {runs : List (ℕ × Bool)} (hm : logs[m]? = some runs) :
    (∃ b, (t.id, b) ∈ runs) ↔ t.Due step m ∧ ¬ Finished (logs.take m) t := by
  have hmap : (∃ b, (t.id, b) ∈ runs) ↔ t.id ∈ runs.map Prod.fst := by simp
  rw [hmap, h.calls m runs hm, List.mem_reverse, List.mem_map]
  constructor
  · rintro ⟨t', ht', hid'⟩
    obtain ⟨hmem, hp⟩ := List.mem_filter.1 ht'
    obtain rfl := List.inj_on_of_nodup_map hid hmem ht hid'
    exact of_decide_eq_true hp
  · exact fun hp => ⟨t, List.mem_filter.2 ⟨ht, decide_eq_true hp⟩, rfl⟩

/-- A task that never asks for another call is done with when it was due once. -/
theorem TasksRun.finished_iff (h : TasksRun step l logs l') (hid : (l.map Countdown.id).Nodup) (ht : t ∈ l)
    (htrue : ∀ b, t.Returns b → b = true) {m : ℕ} (hm : m ≤ logs.length) :
    Finished (logs.take m) t ↔ ∃ j < m, t.Due step j := by
  induction m with
  | zero => simp [Finished]
  | succ m ih =>
    have hget : logs[m]? = some logs[m] := List.getElem?_eq_getElem (by omega)
    have hresult : (t.id, true) ∈ logs[m] ↔ ∃ b, (t.id, b) ∈ logs[m] := by
      refine ⟨fun hmem => ⟨true, hmem⟩, fun ⟨b, hmem⟩ => ?_⟩
      obtain ⟨t', ht', hid', hreturns⟩ := h.returns _ (List.getElem_mem _) _ hmem
      obtain rfl := List.inj_on_of_nodup_map hid ht' ht hid'
      rwa [htrue b hreturns] at hmem
    have hlast : Finished (logs.take (m + 1)) t ↔ Finished (logs.take m) t ∨ (t.id, true) ∈ logs[m] := by
      rw [List.take_succ_eq_append_getElem (by omega)]
      simp only [Finished, List.mem_append, List.mem_singleton, or_and_right, exists_or, exists_eq_left]
    have hold := ih (by omega)
    rw [hlast, hresult, h.mem_runs hid ht hget, hold]
    constructor
    · rintro (⟨j, hj, hdue⟩ | ⟨hdue, -⟩)
      · exact ⟨j, by omega, hdue⟩
      · exact ⟨m, by omega, hdue⟩
    · rintro ⟨j, hj, hdue⟩
      by_cases hbefore : ∃ j < m, t.Due step j
      · exact Or.inl hbefore
      · obtain rfl : j = m := by
          by_contra hne
          exact hbefore ⟨j, by omega, hdue⟩
        exact Or.inr ⟨hdue, hbefore⟩

/-- It is called in the first pass in which it is due, and in no other. -/
theorem TasksRun.called_once (h : TasksRun step l logs l') (hid : (l.map Countdown.id).Nodup) (ht : t ∈ l)
    (htrue : ∀ b, t.Returns b → b = true) {m : ℕ} (hm : m < logs.length) :
    (t.Due step m ∧ ¬ Finished (logs.take m) t) ↔ t.Due step m ∧ ∀ j < m, ¬ t.Due step j := by
  rw [h.finished_iff hid ht htrue hm.le]
  simp

end Once

/-- A task that asks for another call until there were three connections, behind one that is done at once. -/
def smallTasks : List (Countdown ℕ) :=
  [⟨0, 2, fun s => .ok (true, s)⟩, ⟨1, 5, fun s => .ok (3 ≤ s, s)⟩]

end ZRouter.Web
