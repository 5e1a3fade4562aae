import ZRouter.Json.Setting

/-!
# Deleting a node

With `-D` the last component of the path is looked at again, in the container that was found for the
components before it.  A path of one component has no such container; a number may be one for which
the lookup finds nothing, and which the deletion takes all the same.

* `Removed`: a tree without one of its nodes;
* `LostIndex`: a number for which the lookup and the deletion do not agree;
* `DeletesExactly`, `deletesExactly_iff`: when the node of a path is deleted, and nothing else.
-/

namespace ZRouter.Json

/-! ### Removing a node -/

/-- The tree `t'` is `t` without the node at `pos`.  In an array the elements behind it move down;
the other entries of an object may be in another order. -/
def Removed (t : Value) (pos : Ptr) (t' : Value) : Prop :=
  ∃ q i, pos = q ++ [i] ∧
    match t.node q with
    | some (.array es) => t' = t.replaceAt q (.array (es.eraseIdx i))
    | some (.object fs) =>
        ∃ fs' : Fields, fs'.Perm (fs.eraseIdx i) ∧ t' = t.replaceAt q (.object fs')
    | _ => False

theorem eq_of_replaceAt_eq {t n n' : Value} {q : Ptr} (hn : t.node q = some n)
    (h : t.replaceAt q n' = t) : n' = n := by
  have hn' := node_replaceAt_self (n := n') hn
  rw [h, hn] at hn'
  exact (Option.some_inj.1 hn').symm

theorem eraseIdx_ne {α : Type*} {l : List α} {i : ℕ} (hi : i < l.length) : l.eraseIdx i ≠ l := by
  intro h
  have := congrArg List.length h
  rw [List.length_eraseIdx_of_lt hi] at this
  omega

/-- A tree is not itself without one of its nodes. -/
theorem not_removed_self {t c : Value} {pos : Ptr} (hc : t.node pos = some c) :
    ¬ Removed t pos t := by
  rintro ⟨q, i, rfl, h⟩
  rw [node_append] at hc
  obtain ⟨n, hn, hi⟩ := Option.bind_eq_some_iff.1 hc
  rw [hn] at h
  rw [node_cons] at hi
  cases n with
  | array es =>
    obtain ⟨e, he, -⟩ := Option.bind_eq_some_iff.1 hi
    have heq := Value.array.inj (eq_of_replaceAt_eq hn h.symm)
    exact eraseIdx_ne (List.getElem?_eq_some_iff.1 he).1 heq
  | object fs =>
    obtain ⟨e, he, -⟩ := Option.bind_eq_some_iff.1 hi
    obtain ⟨f, hf, -⟩ := Option.map_eq_some_iff.1 he
    obtain ⟨fs', hperm, h⟩ := h
    have heq := Value.object.inj (eq_of_replaceAt_eq hn h.symm)
    have hlen := hperm.length_eq
    have hi := (List.getElem?_eq_some_iff.1 hf).1
    rw [heq, List.length_eraseIdx_of_lt hi] at hlen
    omega
  | _ => exact h

/-! ### The step -/

theorem length_components (key : Bytes) : (components key).length = key.count 46 + 1 := by
  induction key with
  | nil => rfl
  | cons c key ih =>
    rw [components] at ih
    rw [components, List.splitOn_cons_eq_if_modifyHead]
    by_cases h : c = 46
    · subst h
      simpa using ih
    · simpa [h, List.count_cons] using ih

/-- The last component is a number in an array for which the lookup finds nothing, and which is not
past the end: it is below zero, or an element that is null has it. -/
def LostIndex (ulongMax : ℕ) (t : Value) (key : Bytes) : Prop :=
  2 ≤ (components key).length ∧
    ∃ q es, locate ulongMax t (components key).dropLast = some (q, .array es) ∧
      (strtoulEnd ulongMax (lastOf key)).2 = true ∧
      (toInt (strtoulEnd ulongMax (lastOf key)).1 < 0 ∨
        es[(toInt (strtoulEnd ulongMax (lastOf key)).1).toNat]? = some .null)

/-- With `-D` a key is carried out as it says: the node it leads to is removed, and the tree has to
be saved; a key that leads nowhere changes nothing. -/
def DeletesExactly (E : Libraries) (s : State) (key : Bytes) : Prop :=
  ∃ s', process E s key = some s' ∧
    match resolve E.ulongMax s.root key with
    | some r =>
        Removed s.root r.1 s'.root ∧ s'.flags = { s.flags with dirtyData := true }
    | none => s'.root = s.root ∧ s'.flags = s.flags

/-- A node is removed from its container. -/
theorem deleteExisting_eq (E : Libraries) {s : State} {key last : Bytes} {child : Option Value}
    {parent : Option Bytes} {n c : Value} {q : Ptr} {i : ℕ} (hdistinct : s.root.distinct = true)
    (hn : s.root.node q = some n) (hc : (getChild E.ulongMax n last).1 = some (i, c)) :
    ∃ s', deleteExisting E s key ⟨child, some q, parent, last⟩ = some s' ∧
      Removed s.root (q ++ [i]) s'.root ∧ s'.flags = { s.flags with dirtyData := true } := by
  cases n with
  | array es =>
    rw [getChild_array] at hc
    split_ifs at hc with hcheck
    obtain ⟨hidx, hi, hlive⟩ := arrayGetIdx_eq_some.1 hc
    obtain ⟨hlen, -⟩ := List.getElem?_eq_some_iff.1 hi
    have hpos : ¬ (i : ℤ) < 0 := Int.not_lt.2 (Int.natCast_nonneg i)
    have hbelow : ¬ (i : ℤ) ≥ es.length := Int.not_le.2 (Int.ofNat_lt.2 hlen)
    refine ⟨s.modify q (.array (es.eraseIdx i)), ?_, ⟨q, i, rfl, ?_⟩, rfl⟩
    · simp only [deleteExisting, hn, hcheck, hidx, Bool.not_true, Bool.false_eq_true, if_false,
        if_neg hbelow, if_neg hpos, Int.toNat_natCast, shiftDown_eq es hlen]
    · rw [hn]
      rfl
  | object fs =>
    have hnodup := (distinct_object.1 (distinct_node hdistinct hn)).1
    have hget : objectGet fs last = some (i, c) := hc
    have hi := ((objectGet_eq_some hnodup).1 hget).1
    refine ⟨s.modify q (.object (E.objectDel fs last)), ?_, ⟨q, i, rfl, ?_⟩, rfl⟩
    · simp only [deleteExisting, hn, hget, Option.isNone_some, Bool.false_eq_true, if_false]
    · rw [hn]
      have hperm := E.objectDel_perm fs last
      rw [filter_eq_eraseIdx hnodup hi] at hperm
      exact ⟨_, hperm, rfl⟩
  | _ => cases hc

theorem eq_null {t : Value} (h : t.live = false) : t = .null := by
  cases t with
  | null => rfl
  | _ => cases h

/-- Where the last lookup finds nothing, the deletion finds nothing either, unless the component is
a number that is below zero or that a null element has. -/
theorem deleteExisting_none (E : Libraries) {s : State} {key last : Bytes} {child : Option Value}
    {parent : Option Bytes} {n : Value} {q : Ptr} (hn : s.root.node q = some n)
    (hc : (getChild E.ulongMax n last).1 = none) :
    (∃ s', deleteExisting E s key ⟨child, some q, parent, last⟩ = some s' ∧
      s'.root = s.root ∧ s'.flags = s.flags) ↔
    ¬ ∃ es, n = .array es ∧ (strtoulEnd E.ulongMax last).2 = true ∧
      (toInt (strtoulEnd E.ulongMax last).1 < 0 ∨
        es[(toInt (strtoulEnd E.ulongMax last).1).toNat]? = some .null) := by
  cases n with
  | array es =>
    rw [getChild_array] at hc
    cases hcheck : (strtoulEnd E.ulongMax last).2 with
    | false =>
      refine iff_of_true ⟨s.warn (wrongIndex last parent), ?_, rfl, rfl⟩ (by simp)
      simp only [deleteExisting, hn, hcheck, Bool.not_false, if_true]
    | true =>
      rw [if_pos hcheck] at hc
      obtain ⟨idx, hidx⟩ : ∃ idx, toInt (strtoulEnd E.ulongMax last).1 = idx := ⟨_, rfl⟩
      rw [hidx] at hc ⊢
      have hdel : deleteExisting E s key ⟨child, some q, parent, last⟩ =
          if idx ≥ es.length then some (s.warn (wrongIndex last parent))
          else if idx < 0 then none
          else some (s.modify q
            (.array (shiftDown (es.length - 1 - idx.toNat) idx.toNat es).dropLast)) := by
        simp only [deleteExisting, hn, hcheck, hidx, Bool.not_true, Bool.false_eq_true, if_false]
      rw [hdel]
      by_cases hpast : idx ≥ es.length
      · rw [if_pos hpast]
        refine iff_of_true ⟨_, rfl, rfl, rfl⟩ ?_
        rintro ⟨es', heq, -, hneg | hnull⟩
        · omega
        · cases heq
          rw [List.getElem?_eq_none (by omega)] at hnull
          cases hnull
      · rw [if_neg hpast]
        by_cases hneg : idx < 0
        · rw [if_pos hneg]
          exact iff_of_false (by simp) fun h => h ⟨es, rfl, rfl, Or.inl hneg⟩
        · -- the element is there, and is null
          rw [if_neg hneg]
          have hlen : idx.toNat < es.length := by omega
          have hnull : es[idx.toNat]? = some .null := by
            rw [List.getElem?_eq_getElem hlen]
            cases hlive : es[idx.toNat].live with
            | false => rw [eq_null hlive]
            | true =>
              have hget : arrayGetIdx es idx = some (idx.toNat, es[idx.toNat]) :=
                arrayGetIdx_eq_some.2 ⟨by omega, List.getElem?_eq_getElem hlen, hlive⟩
              rw [hget] at hc
              cases hc
          refine iff_of_false ?_ fun h => h ⟨es, rfl, rfl, Or.inr hnull⟩
          rintro ⟨s', heq, hroot, -⟩
          cases heq
          rw [shiftDown_eq es hlen] at hroot
          exact eraseIdx_ne hlen (Value.array.inj (eq_of_replaceAt_eq hn hroot))
  | object fs =>
    have hget : objectGet fs last = none := hc
    refine iff_of_true ⟨s.print (notFound last key), ?_, rfl, rfl⟩ (by simp)
    simp only [deleteExisting, hn, hget, Option.isNone_none, if_true]
  | _ =>
    refine iff_of_true ⟨s.print (notFound last key), ?_, rfl, rfl⟩ (by simp)
    simp only [deleteExisting, hn]

/-- With a `=` in the key `-D` only prints the usage. -/
theorem process_usage (E : Libraries) {s : State} {key : Bytes}
    (hmode : s.flags.deleteMode = true ∧ s.flags.searchMode = false) (hkey : 61 ∈ key)
    (hshort : (components key).length ≤ maxTreePath) :
    ∃ out, process E s key = some (s.print out) := by
  obtain ⟨a, b, rfl, ha⟩ := List.eq_append_cons_of_mem hkey
  have hlen : (components a).length ≤ maxTreePath := by
    rw [length_components, List.count_append] at hshort
    rw [length_components]
    omega
  obtain ⟨out, parent, hprocess⟩ :=
    process_eq E hmode.2 (strsep_append ha (61 :: b) (by simp)) hlen
  refine ⟨out ++ usage, ?_⟩
  rw [hprocess, List.tail?_cons]
  simp only [dispatch, State.print, hmode.1, List.append_assoc]

/-- **A node is deleted, and nothing else,** if and only if the key leads to it through more than
one component and has no `=`, or leads nowhere and does not end with a lost index. -/
theorem deletesExactly_iff (E : Libraries) {s : State} {key : Bytes}
    (hmode : s.flags.deleteMode = true ∧ s.flags.searchMode = false)
    (hdistinct : s.root.distinct = true) (hshort : (components key).length ≤ maxTreePath) :
    DeletesExactly E s key ↔
      if (resolve E.ulongMax s.root key).isSome then
        61 ∉ key ∧ 2 ≤ (components key).length
      else 61 ∈ key ∨ ¬ LostIndex E.ulongMax s.root key := by
  rw [DeletesExactly, resolve_eq E.ulongMax s.root hshort]
  by_cases hkey : 61 ∈ key
  · obtain ⟨out, hprocess⟩ := process_usage E hmode hkey hshort
    rw [hprocess]
    cases hloc : locate E.ulongMax s.root (components key) with
    | none => exact iff_of_true ⟨_, rfl, rfl, rfl⟩ (by simp [hkey])
    | some r =>
      refine iff_of_false ?_ (by simp [hkey])
      rintro ⟨s', heq, hremoved, -⟩
      cases heq
      exact not_removed_self (locate_node hloc) hremoved
  · obtain ⟨out, parent, hprocess⟩ :=
      process_eq E hmode.2 (strsep_append hkey [] (by simp)) hshort
    rw [List.append_nil, List.tail?_nil] at hprocess
    obtain ⟨child, hdelete⟩ : ∃ child, process E s key = deleteExisting E (s.print out) key
        ⟨child, parentOf E.ulongMax s.root key, parent, lastOf key⟩ := by
      refine ⟨(locate E.ulongMax s.root (components key)).map Prod.snd, ?_⟩
      rw [hprocess]
      simp only [dispatch, State.print, hmode.1]
    rw [hdelete]
    cases hloc : locate E.ulongMax s.root (components key) with
    | some r =>
      by_cases hlen : 2 ≤ (components key).length
      · obtain ⟨q, n, i, hparent, hq, hi, hpos⟩ := parentOf_eq hloc hlen
        simp only [hparent, hpos]
        refine iff_of_true ?_ ⟨hkey, hlen⟩
        exact deleteExisting_eq E (s := s.print out) hdistinct (locate_node hq) hi
      · rw [parentOf, if_neg (by omega)]
        refine iff_of_false ?_ (by simp [hlen])
        rintro ⟨s', heq, hremoved, -⟩
        cases heq
        exact not_removed_self (locate_node hloc) hremoved
    | none =>
      simp only [Option.isSome_none, Bool.false_eq_true, if_false, hkey, false_or]
      by_cases hlen : 2 ≤ (components key).length
      · cases hinit : locate E.ulongMax s.root (components key).dropLast with
        | none =>
          rw [parentOf, if_pos (by omega), hinit]
          refine iff_of_true ⟨_, rfl, rfl, rfl⟩ ?_
          rintro ⟨-, q, es, h, -⟩
          rw [hinit] at h
          cases h
        | some r =>
          have hlast : (getChild E.ulongMax r.2 (lastOf key)).1 = none := by
            rw [locate_components, hinit, Option.bind_some] at hloc
            exact Option.map_eq_none_iff.1 hloc
          rw [parentOf, if_pos (by omega), hinit]
          refine (deleteExisting_none E (s := s.print out) (locate_node hinit) hlast).trans ?_
          refine not_congr ⟨?_, ?_⟩
          · rintro ⟨es, hr, hcheck, hidx⟩
            exact ⟨hlen, r.1, es, by rw [hinit, ← hr], hcheck, hidx⟩
          · rintro ⟨-, q, es, h, hcheck, hidx⟩
            rw [hinit] at h
            cases h
            exact ⟨es, rfl, hcheck, hidx⟩
      · rw [parentOf, if_neg (by omega)]
        exact iff_of_true ⟨_, rfl, rfl, rfl⟩ fun h => hlen h.1

/-- The same file, with `-D`. -/
def glossaryDelete : State := { glossary with flags := { deleteMode := true } }

theorem deletesExactly_glossary :
    DeletesExactly Libraries.inOrder glossaryDelete (str "glossary.title") := by
  refine (deletesExactly_iff Libraries.inOrder ⟨rfl, rfl⟩ (rfl)
    (by decide)).2 ?_
  have hfound : (resolve Libraries.inOrder.ulongMax glossaryDelete.root
      (str "glossary.title")).isSome = true := by decide +kernel
  rw [if_pos hfound]
  exact ⟨by decide +kernel, by decide +kernel⟩

/-- The title at the top of the file is not deleted. -/
theorem not_deletesExactly_title :
    ¬ DeletesExactly Libraries.inOrder glossaryDelete (str "title") := by
  rintro ⟨s', hs', h⟩
  have hres : (resolve Libraries.inOrder.ulongMax glossaryDelete.root (str "title")).isSome =
      true := by decide +kernel
  obtain ⟨r, hr⟩ := Option.isSome_iff_exists.1 hres
  rw [hr] at h
  have hclean : (process Libraries.inOrder glossaryDelete (str "title")).all
      (fun s => !s.flags.dirtyData) = true := by decide +kernel
  rw [hs', Option.all_some, h.2] at hclean
  cases hclean

end ZRouter.Json
