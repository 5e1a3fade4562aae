import Mathlib

/-!
# A queue that is walked from its oldest end

New events are put at the front of a list.  A pass offers every event to a server, from the last one
to the first, and removes those that the server takes.

* `pass`: the walk by index, with removal while it goes;
* `pass_spec`: every event is offered once, oldest first, and exactly the refused ones stay;
* `pass_rule`: what each offer keeps, the pass keeps;
* `taken`, `Orderly`: the events that were taken, and a pass in which none is taken after a refusal.
-/

namespace ZRouter.Retry

variable {ε σ : Type*}

/-- Offer the events at the positions below `i`, the highest first.  The result is the offers made,
the queue, and the state of the server. -/
def pass (call : σ → ε → Bool × σ) : ℕ → List ε → σ → List (ε × Bool) × List ε × σ
  | 0, q, w => ([], q, w)
  | i + 1, q, w =>
      match q[i]? with
      | none => pass call i q w
      | some e =>
          let (ok, w) := call w e
          let (offers, q, w) := pass call i (if ok then q.eraseIdx i else q) w
          ((e, ok) :: offers, q, w)

/-- The events that were taken. -/
def taken (offers : List (ε × Bool)) : List ε := (offers.filter (·.2)).map Prod.fst

/-- The events that were refused. -/
def refused (offers : List (ε × Bool)) : List ε := (offers.filter (!·.2)).map Prod.fst

/-- No event is taken after a refusal. -/
def Orderly (offers : List (ε × Bool)) : Prop :=
  offers.Pairwise fun a b => a.2 = false → b.2 = false

/-- The walk over the first `i` events. -/
theorem pass_take (call : σ → ε → Bool × σ) (i : ℕ) : ∀ (q : List ε) (w : σ), i ≤ q.length →
    (pass call i q w).1.map Prod.fst = (q.take i).reverse ∧
      (pass call i q w).2.1 = (refused (pass call i q w).1).reverse ++ q.drop i := by
  induction i with
  | zero => exact fun q w _ => ⟨rfl, rfl⟩
  | succ i ih =>
    intro q w hi
    have hget : q[i]? = some q[i] := List.getElem?_eq_getElem (by omega)
    have htake : q.take (i + 1) = q.take i ++ [q[i]] := by simp
    have hdrop : q.drop i = q[i] :: q.drop (i + 1) := List.drop_eq_getElem_cons (by omega)
    rcases hc : call w q[i] with ⟨ok, w'⟩
    simp only [pass, hget, hc]
    cases ok with
    | true =>
      have hq : q.eraseIdx i = q.take i ++ q.drop (i + 1) := List.eraseIdx_eq_take_drop_succ q i
      have hlen : (q.take i).length = i := by
        rw [List.length_take]
        omega
      obtain ⟨h1, h2⟩ := ih (q.eraseIdx i) w' (by rw [List.length_eraseIdx]; split <;> omega)
      rw [hq, List.take_left' hlen] at h1
      rw [hq, List.drop_left' hlen] at h2
      rw [← hq] at h1 h2
      simp only [if_true, List.map_cons, h1, htake, List.reverse_append, List.reverse_singleton,
        List.singleton_append, h2, true_and]
      simp [refused]
    | false =>
      obtain ⟨h1, h2⟩ := ih q w' (by omega)
      simp only [Bool.false_eq_true, if_false, List.map_cons, h1, htake, List.reverse_append,
        List.reverse_singleton, List.singleton_append, h2, true_and, hdrop]
      simp [refused]

/-- **A pass offers every event once, the oldest first, and keeps the refused ones.** -/
theorem pass_spec (call : σ → ε → Bool × σ) (q : List ε) (w : σ) :
    (pass call q.length q w).1.map Prod.fst = q.reverse ∧
      (pass call q.length q w).2.1 = (refused (pass call q.length q w).1).reverse := by
  have h := pass_take call q.length q w le_rfl
  rwa [List.take_length, List.drop_length, List.append_nil] at h

/-- **The rule for a pass.**  `P done rest w` speaks of the offers made so far, the events that are still to be
offered, and the server; each offer of the pass keeps it. -/
theorem pass_rule (call : σ → ε → Bool × σ) {P : List (ε × Bool) → List ε → σ → Prop} (i : ℕ) :
    ∀ (q : List ε) (w : σ) (done : List (ε × Bool)), i ≤ q.length →
      (∀ d e rest v, d ++ [(e, (call v e).1)] <+: done ++ (pass call i q w).1 → P d (e :: rest) v →
        P (d ++ [(e, (call v e).1)]) rest (call v e).2) →
      P done (q.take i).reverse w → P (done ++ (pass call i q w).1) [] (pass call i q w).2.2 := by
  induction i with
  | zero =>
    intro q w done _ _ h
    rw [pass, List.append_nil]
    exact h
  | succ i ih =>
    intro q w done hi hstep h
    have hget : q[i]? = some q[i] := List.getElem?_eq_getElem (by omega)
    have htake : (q.take (i + 1)).reverse = q[i] :: (q.take i).reverse := by simp
    rw [htake] at h
    have herase : (if (call w q[i]).1 then q.eraseIdx i else q).take i = q.take i := by
      split_ifs
      · rw [List.eraseIdx_eq_take_drop_succ, List.take_left' (by rw [List.length_take]; omega)]
      · rfl
    have hlen : i ≤ (if (call w q[i]).1 then q.eraseIdx i else q).length := by
      split_ifs
      · rw [List.length_eraseIdx]
        split <;> omega
      · omega
    have hpass : pass call (i + 1) q w = ((q[i], (call w q[i]).1) ::
        (pass call i (if (call w q[i]).1 then q.eraseIdx i else q) (call w q[i]).2).1,
        (pass call i (if (call w q[i]).1 then q.eraseIdx i else q) (call w q[i]).2).2) := by
      simp only [pass, hget]
    have hdone := ih _ (call w q[i]).2 (done ++ [(q[i], (call w q[i]).1)]) hlen (fun d e rest v hd => by
      rw [List.append_assoc, List.singleton_append] at hd
      rw [hpass] at hstep
      exact hstep d e rest v hd) (by
      rw [herase]
      rw [hpass] at hstep
      exact hstep done q[i] _ w (by simp) h)
    rw [hpass]
    rw [List.append_assoc, List.singleton_append] at hdone
    exact hdone

/-- What was offered was either taken or refused. -/
theorem taken_append_refused_perm (offers : List (ε × Bool)) :
    (taken offers ++ refused offers).Perm (offers.map Prod.fst) := by
  rw [taken, refused, ← List.map_append]
  exact (List.filter_append_perm _ _).map _

/-- In an orderly pass the taken events come first. -/
theorem Orderly.taken_append_refused {offers : List (ε × Bool)} (h : Orderly offers) :
    taken offers ++ refused offers = offers.map Prod.fst := by
  induction offers with
  | nil => rfl
  | cons o offers ih =>
    obtain ⟨h1, h2⟩ := List.pairwise_cons.1 h
    rcases o with ⟨e, ok⟩
    cases ok with
    | true =>
      rw [List.map_cons, ← ih h2]
      simp [taken, refused]
    | false =>
      have hall : ∀ o ∈ offers, o.2 = false := fun o ho => h1 o ho rfl
      have ht : offers.filter (·.2) = [] := List.filter_eq_nil_iff.2 fun o ho => by simp [hall o ho]
      have hr : offers.filter (!·.2) = offers :=
        List.filter_eq_self.2 fun o ho => by simp [hall o ho]
      simp [taken, refused, ht, hr]

end ZRouter.Retry
