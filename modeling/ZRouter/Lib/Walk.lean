import Mathlib

/-!
# A list that is walked by index from its end

A visit may replace the element that it gets, or delete it, and it may fail.  What is deleted moves only what
has been visited.

* `walk`: the walk by index, with deletion while it goes;
* `visitAll`, `visitAll_cons_ok`: the visits one after the other;
* `walk_eq`: every element is visited once, the last one first.
-/

namespace ZRouter.Walk

variable {α σ ε : Type*}

/-- Visit the elements at the positions below `i`, the highest first. -/
def walk (visit : σ → α → Except ε (Option α × σ)) : ℕ → List α → σ → Except ε (List α × σ)
  | 0, l, s => .ok (l, s)
  | i + 1, l, s =>
      match l[i]? with
      | none => walk visit i l s
      | some a => do
          let (r, s) ← visit s a
          walk visit i (r.elim (l.eraseIdx i) (l.set i)) s

/-- Visit the elements in order. -/
def visitAll (visit : σ → α → Except ε (Option α × σ)) : List α → σ → Except ε (List (Option α) × σ)
  | [], s => .ok ([], s)
  | a :: l, s => do
      let (r, s) ← visit s a
      let (rs, s) ← visitAll visit l s
      .ok (r :: rs, s)

/-- What is left of the elements, for results that stand in the opposite order. -/
def remaining (rs : List (Option α)) : List α := rs.reduceOption.reverse

theorem remaining_cons (r : Option α) (rs : List (Option α)) :
    remaining (r :: rs) = remaining rs ++ r.toList := by
  cases r <;> simp [remaining, List.reduceOption]

theorem remaining_append (rs rs' : List (Option α)) : remaining (rs ++ rs') = remaining rs' ++ remaining rs := by
  rw [remaining, List.reduceOption_append, List.reverse_append, remaining, remaining]

/-- Visits that delete the elements with `p` and change the others by `f`. -/
theorem remaining_reverse_map (p : α → Prop) [DecidablePred p] (f : α → α) (l : List α) :
    remaining (l.reverse.map fun a => if p a then none else some (f a)) =
      (l.filter fun a => ¬ p a).map f := by
  induction l with
  | nil => rfl
  | cons a l ih =>
    rw [List.reverse_cons, List.map_append, remaining_append, ih, List.map_singleton, remaining_cons]
    by_cases ha : p a
    · rw [if_pos ha, List.filter_cons_of_neg (by simpa using ha)]
      rfl
    · rw [if_neg ha, List.filter_cons_of_pos (by simpa using ha)]
      rfl

variable {visit : σ → α → Except ε (Option α × σ)}

theorem visitAll_cons_ok {a : α} {l : List α} {s s' : σ} {rs : List (Option α)}
    (h : visitAll visit (a :: l) s = .ok (rs, s')) :
    ∃ r s₁ rs₁, visit s a = .ok (r, s₁) ∧ visitAll visit l s₁ = .ok (rs₁, s') ∧ rs = r :: rs₁ := by
  rw [visitAll] at h
  cases ha : visit s a with
  | error e =>
    rw [ha] at h
    cases h
  | ok x =>
    rw [ha] at h
    change (visitAll visit l x.2 >>= fun y => Except.ok (x.1 :: y.1, y.2)) = _ at h
    cases hl : visitAll visit l x.2 with
    | error e =>
      rw [hl] at h
      cases h
    | ok y =>
      rw [hl] at h
      cases h
      exact ⟨x.1, x.2, y.1, rfl, hl, rfl⟩

/-- The walk over the first `i` elements. -/
theorem walk_take (i : ℕ) : ∀ (l : List α) (s : σ), i ≤ l.length →
    walk visit i l s =
      (visitAll visit (l.take i).reverse s).map fun x => (remaining x.1 ++ l.drop i, x.2) := by
  induction i with
  | zero => exact fun l s _ => rfl
  | succ i ih =>
    intro l s hi
    have hget : l[i]? = some l[i] := List.getElem?_eq_getElem (by omega)
    have htake : (l.take (i + 1)).reverse = l[i] :: (l.take i).reverse := by simp
    have hlen : (l.take i).length = i := List.length_take_of_le (by omega)
    rw [htake, walk, hget, visitAll]
    dsimp only
    cases visit s l[i] with
    | error e => rfl
    | ok x =>
      obtain ⟨r, s'⟩ := x
      -- the list with the visited element replaced or deleted
      have hnext : r.elim (l.eraseIdx i) (l.set i) = l.take i ++ (r.toList ++ l.drop (i + 1)) := by
        cases r with
        | none => exact List.eraseIdx_eq_take_drop_succ l i
        | some a => exact List.set_eq_take_append_cons_drop .. |>.trans (if_pos (by omega))
      show walk visit i (r.elim (l.eraseIdx i) (l.set i)) s' = _
      rw [hnext, ih _ _ (by rw [List.length_append, hlen]; omega), List.take_left' hlen,
        List.drop_left' hlen]
      show _ = (visitAll visit (l.take i).reverse s' >>= fun x => Except.ok (r :: x.1, x.2)).map _
      cases visitAll visit (l.take i).reverse s' with
      | error e => rfl
      | ok x =>
        show Except.ok _ = Except.ok _
        dsimp only
        rw [remaining_cons, List.append_assoc]

/-- **Every element is visited once, the last one first**, and what the visits leave keeps its order. -/
theorem walk_eq (l : List α) (s : σ) :
    walk visit l.length l s = (visitAll visit l.reverse s).map fun x => (remaining x.1, x.2) := by
  rw [walk_take l.length l s le_rfl, List.take_length, List.drop_length]
  simp only [List.append_nil]

end ZRouter.Walk
