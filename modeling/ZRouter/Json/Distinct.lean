import ZRouter.Json.Lookup

/-!
# No object has a key twice

The tree that json-c reads has no object with a key twice, and `process` keeps it so.

* `distinct_node`, `distinct_replaceAt`;
* `process_distinct`, `processAll_distinct`.
-/

namespace ZRouter.Json

theorem distinctElems_iff {es : List Value} :
    distinctElems es = true ↔ ∀ e ∈ es, e.distinct = true := by
  induction es with
  | nil => simp [distinctElems]
  | cons e es ih => simp [distinctElems, ih]

theorem distinctFields_iff {fs : Fields} :
    distinctFields fs = true ↔ ∀ f ∈ fs, f.2.distinct = true := by
  induction fs with
  | nil => simp [distinctFields]
  | cons f fs ih => simp [distinctFields, ih]

theorem distinct_array {es : List Value} :
    (Value.array es).distinct = true ↔ ∀ e ∈ es, e.distinct = true := by
  rw [Value.distinct, distinctElems_iff]

theorem distinct_object {fs : Fields} :
    (Value.object fs).distinct = true ↔ (keys fs).Nodup ∧ ∀ f ∈ fs, f.2.distinct = true := by
  rw [Value.distinct, Bool.and_eq_true, decide_eq_true_eq, distinctFields_iff]

theorem distinct_child {t c : Value} {i : ℕ} (ht : t.distinct = true) (hc : t.child i = some c) :
    c.distinct = true := by
  cases t with
  | array es => exact distinct_array.1 ht c (List.mem_of_getElem? hc)
  | object fs =>
    obtain ⟨f, hf, rfl⟩ := Option.map_eq_some_iff.1 hc
    exact (distinct_object.1 ht).2 f (List.mem_of_getElem? hf)
  | _ => cases hc

theorem distinct_node {t n : Value} {q : Ptr} (ht : t.distinct = true) (hn : t.node q = some n) :
    n.distinct = true := by
  induction q generalizing t with
  | nil =>
    cases hn
    exact ht
  | cons i q ih =>
    obtain ⟨c, hc, hn⟩ := Option.bind_eq_some_iff.1 hn
    exact ih (distinct_child ht hc) hn

theorem distinct_replaceAt {t n : Value} (q : Ptr) (ht : t.distinct = true)
    (hn : n.distinct = true) : (t.replaceAt q n).distinct = true := by
  induction q generalizing t with
  | nil => rwa [replaceAt_nil]
  | cons i q ih =>
    cases t with
    | array es =>
      rw [Value.replaceAt, distinct_array]
      intro e he
      obtain ⟨j, hj⟩ := List.getElem?_of_mem he
      rw [List.getElem?_modify] at hj
      obtain ⟨d, hd, rfl⟩ := Option.map_eq_some_iff.1 hj
      have hdist := distinct_array.1 ht d (List.mem_of_getElem? hd)
      split_ifs
      · exact ih hdist
      · exact hdist
    | object fs =>
      have hfs := distinct_object.1 ht
      rw [Value.replaceAt, distinct_object, keys_modify fs i (Value.replaceAt · q n)]
      refine ⟨hfs.1, fun f hf => ?_⟩
      obtain ⟨j, hj⟩ := List.getElem?_of_mem hf
      rw [List.getElem?_modify] at hj
      obtain ⟨d, hd, rfl⟩ := Option.map_eq_some_iff.1 hj
      have hdist := hfs.2 d (List.mem_of_getElem? hd)
      split_ifs
      · exact ih hdist
      · exact hdist
    | _ => exact ht

/-! ### The containers -/

theorem distinct_arrayPutIdx {es : List Value} {v : Value} (i : ℕ)
    (hes : ∀ e ∈ es, e.distinct = true) (hv : v.distinct = true) :
    (Value.array (arrayPutIdx es i v)).distinct = true := by
  rw [distinct_array]
  intro e he
  rcases List.mem_or_eq_of_mem_set he with he | rfl
  · rcases List.mem_append.1 he with he | he
    · exact hes e he
    · rw [List.eq_of_mem_replicate he]
      rfl
  · exact hv

theorem keys_filter_nodup {fs : Fields} (h : (keys fs).Nodup) (p : Bytes × Value → Bool) :
    (keys (fs.filter p)).Nodup := h.sublist (List.filter_sublist.map _)

theorem distinct_objectDel (E : Libraries) {fs : Fields} (key : Bytes)
    (hfs : (Value.object fs).distinct = true) :
    (Value.object (E.objectDel fs key)).distinct = true := by
  have hfs := distinct_object.1 hfs
  have hperm := E.objectDel_perm fs key
  rw [distinct_object]
  refine ⟨((hperm.map Prod.fst).nodup_iff).2 (keys_filter_nodup hfs.1 _), fun f hf => ?_⟩
  exact hfs.2 f (List.mem_of_mem_filter (hperm.mem_iff.1 hf))

theorem distinct_objectAdd (E : Libraries) {fs : Fields} {v : Value} (key : Bytes)
    (hfs : (Value.object fs).distinct = true) (hv : v.distinct = true) :
    (Value.object (E.objectAdd fs key v)).distinct = true := by
  have hfs := distinct_object.1 hfs
  have hperm := E.objectAdd_perm fs key v
  rw [distinct_object]
  constructor
  · refine ((hperm.map Prod.fst).nodup_iff).2 ?_
    rw [List.map_cons, List.nodup_cons]
    refine ⟨fun hmem => ?_, keys_filter_nodup hfs.1 _⟩
    obtain ⟨f, hf, hkey⟩ := List.mem_map.1 hmem
    simpa [hkey] using (List.mem_filter.1 hf).2
  · intro f hf
    rcases List.mem_cons.1 (hperm.mem_iff.1 hf) with rfl | hf
    · exact hv
    · exact hfs.2 f (List.mem_of_mem_filter hf)

theorem shiftDown_getElem? {n i : ℕ} {es : List Value} (h : i + n < es.length) (j : ℕ) :
    (shiftDown n i es)[j]? = if i ≤ j ∧ j < i + n then es[j + 1]? else es[j]? := by
  induction n generalizing i es with
  | zero =>
    rw [shiftDown, if_neg (by omega)]
  | succ n ih =>
    rw [shiftDown, ih (by rw [List.length_set]; omega), List.getElem?_set, List.getElem?_set]
    by_cases hr : i + 1 ≤ j ∧ j < i + 1 + n
    · rw [if_pos hr, if_neg (show ¬ i = j + 1 by omega), if_pos (by omega)]
    · rw [if_neg hr]
      by_cases hj : i = j
      · subst hj
        have hlen : i + 1 < es.length := by omega
        rw [if_pos rfl, if_pos (by omega), if_pos (by omega), List.getD_eq_getElem?_getD,
          List.getElem?_eq_getElem hlen, Option.getD_some]
      · rw [if_neg hj, if_neg (by omega)]

theorem length_shiftDown (n i : ℕ) (es : List Value) : (shiftDown n i es).length = es.length := by
  induction n generalizing i es with
  | zero => rfl
  | succ n ih => rw [shiftDown, ih, List.length_set]

/-- The loop over the array takes out one element. -/
theorem shiftDown_eq (es : List Value) {i : ℕ} (hi : i < es.length) :
    (shiftDown (es.length - 1 - i) i es).dropLast = es.eraseIdx i := by
  apply List.ext_getElem?
  intro j
  rw [List.getElem?_dropLast, length_shiftDown, shiftDown_getElem? (by omega),
    List.getElem?_eraseIdx]
  by_cases hj : j < i
  · rw [if_pos (by omega), if_neg (by omega), if_pos hj]
  · rw [if_neg hj]
    by_cases hlen : j < es.length - 1
    · rw [if_pos hlen, if_pos (by omega)]
    · rw [if_neg hlen, List.getElem?_eq_none (by omega)]

/-! ### `process` -/

theorem attach_distinct {E : Libraries} {p : Path} {level : ℕ} {root child : Value}
    {pos : Option Ptr} {part : Bytes} {i : ℤ} {r : Created} (hroot : root.distinct = true)
    (hchild : child.distinct = true) (hr : attach E p level root pos part i child = some r) :
    r.root.distinct = true ∧ r.obj.distinct = true := by
  have hfail : ∀ {o : Option Bytes}, o.map (fun out => (⟨root, .null, out⟩ : Created)) = some r →
      r.root.distinct = true ∧ r.obj.distinct = true := by
    intro o ho
    obtain ⟨out, -, rfl⟩ := Option.map_eq_some_iff.1 ho
    exact ⟨hroot, rfl⟩
  cases pos with
  | none =>
    simp only [attach] at hr
    split_ifs at hr
    · cases hr
      exact ⟨hroot, distinct_arrayPutIdx _ (by simp) hchild⟩
    · cases hr
      exact ⟨hroot, distinct_objectAdd E part rfl hchild⟩
  | some pos =>
    simp only [attach] at hr
    split at hr
    · rename_i es hnode
      have hes := distinct_array.1 (distinct_node hroot hnode)
      split_ifs at hr
      · cases hr
        exact ⟨distinct_replaceAt pos hroot (distinct_arrayPutIdx _ hes hchild), rfl⟩
      · exact hfail hr
    · rename_i fs hnode
      cases hr
      have hfs := distinct_node hroot hnode
      exact ⟨distinct_replaceAt pos hroot (distinct_objectAdd E part hfs hchild), rfl⟩
    · exact hfail hr

theorem create_distinct {E : Libraries} {p : Path} {value : Bytes} {left level : ℕ} {root : Value}
    {r : Created} (hroot : root.distinct = true)
    (hr : create E p value left level root = some r) :
    r.root.distinct = true ∧ r.obj.distinct = true := by
  induction left generalizing level root r with
  | zero => cases hr
  | succ left ih =>
    simp only [create, Option.bind_eq_bind, Option.bind_eq_some_iff] at hr
    obtain ⟨part, -, hr⟩ := hr
    cases part with
    | none =>
      cases hr
      exact ⟨hroot, rfl⟩
    | some part =>
      simp only [Option.bind_eq_some_iff] at hr
      obtain ⟨r', hr', pos, -, hr⟩ := hr
      obtain ⟨hroot', hobj'⟩ := ih hroot hr'
      split_ifs at hr
      · obtain ⟨a, ha, hr⟩ := Option.bind_eq_some_iff.1 hr
        cases hr
        have hdistinct := attach_distinct hroot' hobj' ha
        exact hdistinct
      · cases hr
        refine ⟨hroot', ?_⟩
        cases hparse : E.tokenerParse value with
        | none => rfl
        | some v => exact E.tokenerParse_distinct value v hparse

theorem setExisting_distinct {E : Libraries} {s s' : State} {key value : Bytes} {child : Value}
    {l : Looked} (hs : s.root.distinct = true)
    (h : setExisting E s key value child l = some s') : s'.root.distinct = true := by
  rw [setExisting] at h
  split_ifs at h
  · cases h
    exact hs
  · cases hpos : l.parentobj with
    | none =>
      rw [hpos] at h
      cases h
      exact hs
    | some pos =>
      rw [hpos] at h
      simp only at h
      split at h
      · rename_i es hnode
        split_ifs at h <;> cases h
        · exact distinct_replaceAt pos hs
            (distinct_arrayPutIdx _ (distinct_array.1 (distinct_node hs hnode)) rfl)
        · exact hs
        · exact hs
      · rename_i fs hnode
        split_ifs at h <;> cases h
        · exact distinct_replaceAt pos hs
            (distinct_objectAdd E _ (distinct_objectDel E _ (distinct_node hs hnode)) rfl)
        · exact hs
      · cases h
        exact hs

theorem deleteExisting_distinct {E : Libraries} {s s' : State} {key : Bytes} {l : Looked}
    (hs : s.root.distinct = true) (h : deleteExisting E s key l = some s') :
    s'.root.distinct = true := by
  rw [deleteExisting] at h
  cases hpos : l.parentobj with
  | none =>
    rw [hpos] at h
    cases h
    exact hs
  | some pos =>
    rw [hpos] at h
    simp only at h
    split at h
    · rename_i es hnode
      split_ifs at h with hcheck hlen hneg <;> cases h
      · exact hs
      · exact hs
      · have hi : (toInt (strtoulEnd E.ulongMax l.last).1).toNat < es.length := by omega
        refine distinct_replaceAt pos hs ?_
        rw [shiftDown_eq es hi]
        have hes := distinct_array.1 (distinct_node hs hnode)
        exact distinct_array.2 fun e he => hes e (List.mem_of_mem_eraseIdx he)
    · rename_i fs hnode
      split_ifs at h <;> cases h
      · exact hs
      · exact distinct_replaceAt pos hs (distinct_objectDel E _ (distinct_node hs hnode))
    · cases h
      exact hs

theorem dispatch_distinct {E : Libraries} {s s' : State} {key : Bytes} {value : Option Bytes}
    {p : Path} {l : Looked} (hs : s.root.distinct = true)
    (h : dispatch E s key value p l = some s') : s'.root.distinct = true := by
  unfold dispatch at h
  split at h
  · exact setExisting_distinct hs h
  · simp only [createNew, Option.bind_eq_bind] at h
    split_ifs at h
    · cases h
    · simp only [Option.bind_eq_some_iff] at h
      obtain ⟨pos, -, r, hr, h⟩ := h
      cases h
      exact (create_distinct hs hr).1
  · cases h
    exact hs
  · exact deleteExisting_distinct hs h
  · cases h
    exact hs

/-- Handling one argument keeps the keys distinct. -/
theorem process_distinct {E : Libraries} {s s' : State} {key : Bytes}
    (hs : s.root.distinct = true) (h : process E s key = some s') : s'.root.distinct = true := by
  rw [process] at h
  split_ifs at h with hsearch
  · obtain ⟨r, -, h⟩ := Option.bind_eq_some_iff.1 h
    cases h
    exact hs
  · cases hkey : strsep (fun c => decide (c = 61)) key with
    | mk key value =>
      simp only [hkey, Option.bind_eq_bind, Option.bind_eq_some_iff] at h
      obtain ⟨p, -, r, -, h⟩ := h
      by_cases hcount : r.p.count = 0
      · rw [if_pos hcount] at h
        cases h
        exact hs
      · rw [if_neg hcount] at h
        simp only [Option.bind_eq_some_iff] at h
        obtain ⟨parentobj, -, parent, -, part, -, last, -, h⟩ := h
        exact dispatch_distinct (s := s.print r.out) hs h

/-- **In every run of the program** over its arguments no object has a key twice. -/
theorem processAll_distinct {E : Libraries} {s s' : State} {keys : List Bytes}
    (hs : s.root.distinct = true) (h : processAll E s keys = some s') :
    s'.root.distinct = true := by
  induction keys generalizing s with
  | nil =>
    cases h
    exact hs
  | cons key keys ih =>
    obtain ⟨s₁, h₁, h⟩ := Option.bind_eq_some_iff.1 h
    exact ih (process_distinct hs h₁) h

end ZRouter.Json
