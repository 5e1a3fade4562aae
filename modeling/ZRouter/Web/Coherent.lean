import ZRouter.Web.Form

/-!
# `getNode` after `getOrCreateNode`

`getOrCreateNode` makes what is missing of a path by a walk of its own.  A name with an index is never
entered by it, and it makes one element, however far the index is ahead.

* `createPart_cases`: what the walk does at one name;
* `createParts_grow`: what a walk leaves alone, for every path;
* `creatable_of_follow`: if the path leads to where the walk ends, its elements could be made;
* `Coherent`, `coherent_iff`: the two functions agree exactly on the paths that are `Ready`.
-/

namespace ZRouter.Web

/-- `getNode` agrees with `getOrCreateNode`: it leads to the element that was returned, a second call
returns the same element and makes nothing, and a path that led to an element leads to the same
one. -/
structure Coherent (t : Elem) (ps : List Part) : Prop where
  found : locate ((renderPath ps).length + 1) (getOrCreateNode t (renderPath ps)).1 (renderPath ps) =
    some (getOrCreateNode t (renderPath ps)).2
  again : getOrCreateNode (getOrCreateNode t (renderPath ps)).1 (renderPath ps) =
    getOrCreateNode t (renderPath ps)
  keeps : ∀ (qs : List Part) (pos : List ℕ) (c : Elem),
    locate ((renderPath qs).length + 1) t (renderPath qs) = some pos → t.at pos = some c →
      locate ((renderPath qs).length + 1) (getOrCreateNode t (renderPath ps)).1 (renderPath qs) =
        some pos ∧
      ∃ c', (getOrCreateNode t (renderPath ps)).1.at pos = some c' ∧ SameData c c'

theorem locate_steps (t : Elem) (ps : List Part) :
    locate ((renderPath ps).length + 1) t (renderPath ps) = follow t (stepsOf ps) :=
  locate_render ps (Nat.lt_succ_of_le (length_le_renderPath ps))

/-! ### Positions of paths -/

theorem follow_length {q : Steps} : ∀ {t : Elem} {pos : List ℕ}, follow t q = some pos →
    pos.length = q.length := by
  induction q with
  | nil =>
    intro t pos h
    cases h
    rfl
  | cons s q ih =>
    intro t pos h
    obtain ⟨i, -, h⟩ := Option.bind_eq_some_iff.1 h
    obtain ⟨c, -, h⟩ := Option.bind_eq_some_iff.1 h
    obtain ⟨r, hr, rfl⟩ := Option.map_eq_some_iff.1 h
    rw [List.length_cons, List.length_cons, ih hr]

/-- The start of a path leads to the start of its position. -/
theorem follow_append {q q' : Steps} : ∀ {t : Elem} {pos : List ℕ},
    follow t (q ++ q') = some pos → follow t q = some (pos.take q.length) := by
  induction q with
  | nil => intro t pos _; rfl
  | cons s q ih =>
    intro t pos h
    obtain ⟨i, hi, h⟩ := Option.bind_eq_some_iff.1 h
    obtain ⟨c, hc, h⟩ := Option.bind_eq_some_iff.1 h
    obtain ⟨r, hr, rfl⟩ := Option.map_eq_some_iff.1 h
    rw [follow, hi, Option.bind_some, hc, Option.bind_some, ih hr]
    rfl

/-! ### The walk -/

/-- At one name the walk enters the first element, makes a new one, or stays where it is. -/
theorem createPart_cases {t e : Elem} {pos : List ℕ} (he : t.at pos = some e) (p : Part) :
    (p.index = none ∧ ∃ i, findChild p.name 1 e.children = some i ∧
      createPart (t, pos) p.text = (t, pos ++ [i])) ∨
    ((p.index = none → findChild p.name 1 e.children = none) ∧
      createPart (t, pos) p.text =
        (t.modify pos (attachNode (createNode p.name)), pos ++ [e.children.length])) ∨
    createPart (t, pos) p.text = (t, pos) := by
  rw [createPart, he]
  dsimp only
  rw [splitIndex_text]
  dsimp only
  cases hid : p.index with
  | none =>
    cases hfind : findChild p.name 1 e.children with
    | some i => exact Or.inl ⟨rfl, i, rfl, rfl⟩
    | none =>
      refine Or.inr (Or.inl ⟨fun _ => rfl, ?_⟩)
      exact if_pos (Or.inl (findChild_one_eq_none.1 hfind))
  | some id =>
    refine Or.inr ?_
    dsimp only [Option.map_some]
    split_ifs
    · exact Or.inl ⟨fun h => absurd h (by simp), rfl⟩
    · exact Or.inr rfl

/-- A walk goes down from where it started, at most one level for a name, and leaves all paths as they
are. -/
theorem createParts_grow (ps : List Part) : ∀ {t e : Elem} {pos : List ℕ}, t.at pos = some e →
    ∃ t' pos' e', (ps.map Part.text).foldl createPart (t, pos) = (t', pos') ∧ Preserves t t' ∧
      pos <+: pos' ∧ pos'.length ≤ pos.length + ps.length ∧ t'.at pos' = some e' := by
  induction ps with
  | nil => exact fun {t e pos} he => ⟨t, pos, e, rfl, Preserves.refl t, List.prefix_rfl, le_rfl, he⟩
  | cons p ps ih =>
    intro t e pos he
    rw [List.map_cons, List.foldl_cons]
    rcases createPart_cases he p with ⟨-, i, hi, hpart⟩ | ⟨-, hpart⟩ | hpart
    · obtain ⟨attr, children, hchild⟩ := findChild_eq_some hi
      have hat : t.at (pos ++ [i]) = some ⟨attr, children⟩ := by
        rw [at_concat, he, Option.bind_some, child_of_getElem? hchild]
      obtain ⟨t', pos', e', hfold, hpres, hpre, hlen, hat'⟩ := ih hat
      rw [List.length_append, List.length_singleton] at hlen
      exact ⟨t', pos', e', by rw [hpart, hfold], hpres, (List.prefix_append pos [i]).trans hpre,
        by rw [List.length_cons]; omega, hat'⟩
    · obtain ⟨hpres₁, hat, -⟩ := attach_spec he p.name
      obtain ⟨t', pos', e', hfold, hpres, hpre, hlen, hat'⟩ := ih hat
      rw [List.length_append, List.length_singleton] at hlen
      exact ⟨t', pos', e', by rw [hpart, hfold], hpres₁.trans hpres,
        (List.prefix_append pos _).trans hpre, by rw [List.length_cons]; omega, hat'⟩
    · obtain ⟨t', pos', e', hfold, hpres, hpre, hlen, hat'⟩ := ih he
      exact ⟨t', pos', e', by rw [hpart, hfold], hpres, hpre, by rw [List.length_cons]; omega, hat'⟩

/-- A new element can only be reached by its own number. -/
theorem matched_of_follow {t e t' : Elem} {pos pos' : List ℕ} {q : Steps} {p : Part}
    {ps : List Part} (he : t.at pos = some e) (hq : follow t q = some pos)
    (hpres : Preserves (t.modify pos (attachNode (createNode p.name))) t')
    (hpre : pos ++ [e.children.length] <+: pos')
    (hend : follow t' (q ++ stepsOf (p :: ps)) = some pos') :
    p.step = (p.name, matched p.name e + 1) := by
  obtain ⟨-, hat, hnew⟩ := attach_spec he p.name
  have hreach := (hpres _ _ _ (hnew q hq) hat).1
  have hstart : follow t' (q ++ [p.step]) = some (pos ++ [e.children.length]) := by
    have hsplit : q ++ stepsOf (p :: ps) = (q ++ [p.step]) ++ stepsOf ps := by
      rw [stepsOf, List.map_cons, List.append_assoc]
      rfl
    rw [hsplit] at hend
    rw [follow_append hend, List.length_append, List.length_singleton, ← follow_length hq]
    obtain ⟨r, rfl⟩ := hpre
    rw [List.take_left' (by simp)]
  have := follow_inj hstart hreach
  rwa [List.append_cancel_left_eq, List.singleton_inj] at this

/-- **If a path leads to where the walk along it ends, its elements could be made.** -/
theorem creatable_of_follow (ps : List Part) : ∀ {t e t' : Elem} {pos pos' : List ℕ} {q : Steps},
    t.at pos = some e → follow t q = some pos →
      (ps.map Part.text).foldl createPart (t, pos) = (t', pos') →
      follow t' (q ++ stepsOf ps) = some pos' → creatable e ps = true := by
  induction ps with
  | nil => exact fun _ _ _ _ => rfl
  | cons p ps ih =>
    intro t e t' pos pos' q he hq hfold hend
    have hsplit : q ++ stepsOf (p :: ps) = (q ++ [p.step]) ++ stepsOf ps := by
      rw [stepsOf, List.map_cons, List.append_assoc]
      rfl
    rw [List.map_cons, List.foldl_cons] at hfold
    rcases createPart_cases he p with ⟨hid, i, hi, hpart⟩ | ⟨hnone, hpart⟩ | hpart
    · obtain ⟨attr, children, hchild⟩ := findChild_eq_some hi
      have hat : t.at (pos ++ [i]) = some ⟨attr, children⟩ := by
        rw [at_concat, he, Option.bind_some, child_of_getElem? hchild]
      have hstep : p.step = (p.name, 1) := by rw [Part.step, hid]; rfl
      have hq' : follow t (q ++ [p.step]) = some (pos ++ [i]) := by
        rw [follow_concat, hq, Option.bind_some, he, Option.bind_some, hstep, hi]
        rfl
      rw [hpart] at hfold
      rw [hsplit] at hend
      have hrest := ih hat hq' hfold hend
      rw [creatable, hid]
      dsimp only
      rw [hi, Option.bind_some, child_of_getElem? hchild]
      exact hrest
    · obtain ⟨-, hat, hnew⟩ := attach_spec he p.name
      obtain ⟨t₂, pos₂, e₂, hfold₂, hpres, hpre, -, -⟩ := createParts_grow ps hat
      rw [hpart] at hfold
      obtain ⟨rfl, rfl⟩ := Prod.mk.inj (hfold.symm.trans hfold₂)
      have hstep := matched_of_follow he hq hpres hpre hend
      have hq' := hnew q hq
      rw [← hstep] at hq'
      rw [hsplit] at hend
      have hrest := ih hat hq' hfold hend
      rw [creatable]
      cases hid : p.index with
      | none =>
        dsimp only
        rw [hnone hid, Option.bind_none]
        exact hrest
      | some id =>
        have hk : digitsVal id = matched p.name e + 1 := by
          rw [Part.step, hid] at hstep
          exact (Prod.mk.inj hstep).2
        dsimp only
        rw [hk, decide_eq_true rfl, Bool.true_and]
        exact hrest
    · -- the walk stays where it is and ends too high up
      obtain ⟨t₂, pos₂, e₂, hfold₂, -, -, hlen, -⟩ := createParts_grow ps he
      rw [hpart] at hfold
      obtain ⟨rfl, rfl⟩ := Prod.mk.inj (hfold.symm.trans hfold₂)
      have h1 := follow_length hend
      have h2 := follow_length hq
      rw [List.length_append, stepsOf, List.length_map, List.length_cons] at h1
      omega

/-- **`getNode` and `getOrCreateNode` agree on a path exactly when it leads to an element or its
elements can be made.** -/
theorem coherent_iff (t : Elem) (ps : List Part) : Coherent t ps ↔ Ready t ps := by
  constructor
  · intro h
    cases hres : follow t (stepsOf ps) with
    | some pos =>
      obtain ⟨e, he⟩ := at_of_follow hres
      refine Or.inl ⟨e, ?_⟩
      rw [getNode_render, Elem.look, hres, Option.bind_some, he]
    | none =>
      have hget : getOrCreateNode t (renderPath ps) =
          (ps.map Part.text).foldl createPart (t, []) := by
        rw [getOrCreateNode, locate_steps, hres]
        dsimp only
        rw [pathParts_render]
      have hfound := h.found
      rw [locate_steps, hget] at hfound
      exact Or.inr (creatable_of_follow ps (q := []) rfl rfl rfl hfound)
  · intro hr
    obtain ⟨t', pos, hget, hpres, hres⟩ := getOrCreateNode_spec hr
    have hlocate : locate ((renderPath ps).length + 1) t' (renderPath ps) = some pos := by
      rw [locate_steps, hres]
    refine ⟨by rw [hget]; exact hlocate, ?_, fun qs pos' c hq hc => ?_⟩
    · rw [hget]
      dsimp only
      rw [getOrCreateNode, hlocate]
    · rw [locate_steps] at hq
      rw [hget, locate_steps]
      exact hpres _ _ _ hq hc

/-- In a tree with a user without a name, the name is not made where it is looked for. -/
theorem not_coherent_user :
    ¬ ∀ (t : Elem) (ps : List Part), (∀ p ∈ ps, 1 ≤ p.step.2) → Coherent t ps := by
  intro hall
  have hindex : ∀ p ∈ [httpPart, firstUser, namePart], 1 ≤ p.step.2 := by decide +kernel
  have hfound := (hall (.root [.element (str "http") none [.element (str "user") none []]])
    [httpPart, firstUser, namePart] hindex).found
  revert hfound
  decide +kernel

end ZRouter.Web
