import ZRouter.Json.Distinct

/-!
# Setting a value

An argument `P=v` writes through the container that was found for the components of `P` before the
last one.  A path of one component has no such container, and nothing is written.

* `getChild_leaf`, `Unchanged.leaf`: a node without children;
* `unchanged_object`: the entry of a key is taken out and added again;
* `SetsValue`, `setsValue_iff`: when a path is set, and no other one with it.
-/

namespace ZRouter.Json

/-! ### Leaves -/

theorem getChild_leaf (ulongMax : ℕ) {t : Value} (h : t.hasChilds = false) (part : Bytes) :
    (getChild ulongMax t part).1 = none := by
  cases t with
  | array es =>
    have hes : es = [] := by simpa [Value.hasChilds] using h
    subst hes
    rw [getChild_array, arrayGetIdx]
    split_ifs <;> rfl
  | object fs =>
    have hfs : fs = [] := by simpa [Value.hasChilds] using h
    subst hfs
    rfl
  | _ => rfl

/-- No path leads on from a leaf. -/
theorem locate_leaf (ulongMax : ℕ) {t : Value} (h : t.hasChilds = false) (c : Bytes)
    (cs : List Bytes) : locate ulongMax t (c :: cs) = none := by
  rw [locate, getChild_leaf ulongMax h]
  rfl

/-- Between two leaves nothing below them differs. -/
theorem Unchanged.leaf (ulongMax : ℕ) {t t' : Value} (h : t.hasChilds = false)
    (h' : t'.hasChilds = false) : Unchanged ulongMax [] t t' := by
  intro cs hcs
  cases cs with
  | nil => exact absurd rfl hcs
  | cons c cs => rw [locate_leaf ulongMax h, locate_leaf ulongMax h']

theorem Unchanged.refl (ulongMax : ℕ) (pos : Ptr) (t : Value) : Unchanged ulongMax pos t t :=
  fun _ _ => rfl

/-! ### Objects -/

/-- The value of a key, wherever its entry stands. -/
theorem objectGet_snd {fs : Fields} (hnodup : (keys fs).Nodup) {key : Bytes} {v : Value} :
    (objectGet fs key).map Prod.snd = some v ↔ (key, v) ∈ fs ∧ v.live = true := by
  constructor
  · intro h
    obtain ⟨r, hr, rfl⟩ := Option.map_eq_some_iff.1 h
    obtain ⟨hr, hlive⟩ := (objectGet_eq_some hnodup).1 hr
    exact ⟨List.mem_of_getElem? hr, hlive⟩
  · rintro ⟨hmem, hlive⟩
    obtain ⟨i, hi⟩ := List.getElem?_of_mem hmem
    rw [(objectGet_eq_some hnodup).2 ⟨hi, hlive⟩]
    rfl

/-- The head of the node behind a first component. -/
theorem locate_cons_head (ulongMax : ℕ) (t : Value) (c : Bytes) (cs : List Bytes) :
    (locate ulongMax t (c :: cs)).map (fun r => r.2.head) =
      ((getChild ulongMax t c).1.map Prod.snd).bind fun child =>
        (locate ulongMax child cs).map fun r => r.2.head := by
  rw [locate]
  cases (getChild ulongMax t c).1 with
  | none => rfl
  | some r =>
    simp only [Option.bind_eq_bind, Option.bind_some, Option.map_some]
    cases locate ulongMax r.2 cs <;> rfl

/-- Without the entry of a key, no other entry is missing. -/
theorem filter_eq_eraseIdx {fs : Fields} {key : Bytes} {c : Value} {i : ℕ}
    (hnodup : (keys fs).Nodup) (hi : fs[i]? = some (key, c)) :
    fs.filter (fun f => f.1 ≠ key) = fs.eraseIdx i := by
  obtain ⟨hlen, hget⟩ := List.getElem?_eq_some_iff.1 hi
  have hfs : fs = fs.take i ++ (key, c) :: fs.drop (i + 1) := by
    rw [← hget, List.getElem_cons_drop, List.take_append_drop]
  rw [hfs, keys, List.map_append, List.map_cons, List.nodup_append] at hnodup
  obtain ⟨-, hb, hab⟩ := hnodup
  have hleft : ∀ f ∈ fs.take i, decide (f.1 ≠ key) = true := by
    intro f hf
    exact decide_eq_true (hab f.1 (List.mem_map_of_mem hf) key List.mem_cons_self)
  have hright : ∀ f ∈ fs.drop (i + 1), decide (f.1 ≠ key) = true := by
    intro f hf
    refine decide_eq_true fun heq => (List.nodup_cons.1 hb).1 ?_
    exact List.mem_map.2 ⟨f, hf, heq⟩
  rw [List.eraseIdx_eq_take_drop_succ]
  conv_lhs => rw [hfs]
  rw [List.filter_append, List.filter_cons_of_neg (by simp), List.filter_eq_self.2 hleft,
    List.filter_eq_self.2 hright]

/-- The entry of a key gets another value: no other key shows a difference. -/
theorem unchanged_object (ulongMax : ℕ) {fs fs' : Fields} {key : Bytes} {c v : Value} {i : ℕ}
    (hnodup : (keys fs).Nodup) (hget : objectGet fs key = some (i, c))
    (hc : c.hasChilds = false) (hv : v.hasChilds = false) (hlive : v.live = true)
    (hperm : fs'.Perm ((key, v) :: fs.filter (·.1 ≠ key))) :
    Unchanged ulongMax [i] (.object fs) (.object fs') := by
  obtain ⟨hi, -⟩ := (objectGet_eq_some hnodup).1 hget
  obtain ⟨hlen, hgeti⟩ := List.getElem?_eq_some_iff.1 hi
  have hkeys : (keys fs').Perm (keys fs) := by
    refine (hperm.map Prod.fst).trans ?_
    rw [filter_eq_eraseIdx hnodup hi]
    have hfs : ((key, c) :: fs.eraseIdx i).Perm fs := by
      rw [← hgeti]
      exact List.getElem_cons_eraseIdx_perm hlen
    exact hfs.map Prod.fst
  have hnodup' := hkeys.nodup_iff.2 hnodup
  intro cs hcs
  cases cs with
  | nil =>
    simp only [locate, Option.map_some, Value.head, Option.some_inj, Head.object.injEq]
    exact Multiset.coe_eq_coe.2 hkeys
  | cons d ds =>
    rw [locate_cons_head, locate_cons_head]
    by_cases hd : d = key
    · subst hd
      have hnew : (objectGet fs' d).map Prod.snd = some v :=
        (objectGet_snd hnodup').2 ⟨hperm.mem_iff.2 List.mem_cons_self, hlive⟩
      cases ds with
      | nil => exact absurd (by simp [locate, getChild, hget]) hcs
      | cons e es =>
        simp only [getChild, hnew, hget, Option.map_some, Option.bind_some]
        rw [locate_leaf ulongMax hv, locate_leaf ulongMax hc]
    · have hsame : (objectGet fs' d).map Prod.snd = (objectGet fs d).map Prod.snd := by
        apply Option.ext
        intro w
        rw [objectGet_snd hnodup, objectGet_snd hnodup', hperm.mem_iff]
        simp [hd]
      simp only [getChild, hsame]

/-! ### The step -/

/-- The part of an argument before the first `=`. -/
theorem strsep_append {key : Bytes} (h : 61 ∉ key) (rest : Bytes)
    (hrest : ∀ c ∈ rest.head?, c = 61) :
    strsep (fun c => decide (c = 61)) (key ++ rest) = (key, rest.tail?) := by
  have hkey : ∀ c ∈ key, (!decide (c = 61)) = true := by
    intro c hc
    have hne : c ≠ 61 := fun heq => h (heq ▸ hc)
    simpa using hne
  have hstop : ∀ c ∈ rest.head?, (!decide (c = 61)) = false := by
    intro c hc
    simpa using hrest c hc
  rw [strsep, takeWhile_append_of_all hkey hstop, dropWhile_append_of_all hkey hstop]
  cases rest <;> rfl

/-- The last step of a lookup is made from where the components before the last one lead. -/
theorem locate_components (ulongMax : ℕ) (t : Value) (key : Bytes) :
    locate ulongMax t (components key) =
      (locate ulongMax t (components key).dropLast).bind fun r =>
        (getChild ulongMax r.2 (lastOf key)).1.map fun s => (r.1 ++ [s.1], s.2) := by
  have hcs := List.dropLast_append_getLast (components_ne_nil key)
  conv_lhs => rw [← hcs]
  rw [locate_append, lastOf]
  congr 1
  funext r
  rw [locate]
  cases (getChild ulongMax r.2 ((components key).getLast (components_ne_nil key))).1 <;> rfl

/-- Where a key of more than one component leads, the container for the components before the last
one has been found. -/
theorem parentOf_eq {ulongMax : ℕ} {t c : Value} {key : Bytes} {pos : Ptr}
    (h : locate ulongMax t (components key) = some (pos, c)) (hlen : 2 ≤ (components key).length) :
    ∃ q n i, parentOf ulongMax t key = some q ∧
      locate ulongMax t (components key).dropLast = some (q, n) ∧
      (getChild ulongMax n (lastOf key)).1 = some (i, c) ∧ pos = q ++ [i] := by
  rw [locate_components] at h
  obtain ⟨r, hr, h⟩ := Option.bind_eq_some_iff.1 h
  obtain ⟨s, hs, heq⟩ := Option.map_eq_some_iff.1 h
  cases heq
  refine ⟨r.1, r.2, s.1, ?_, hr, hs, rfl⟩
  rw [parentOf, if_pos (by omega), hr]
  rfl

/-- An argument `key=v` is carried out as it says.  Where the key leads to a container that holds
something, nothing is changed; elsewhere the key then leads to `v`, no other path shows a
difference, and the tree has to be saved. -/
def SetsValue (E : Libraries) (s : State) (key v : Bytes) : Prop :=
  ∀ pos c, resolve E.ulongMax s.root key = some (pos, c) →
    ∃ s', process E s (key ++ 61 :: v) = some s' ∧
      if c.hasChilds then s'.root = s.root ∧ s'.flags = s.flags
      else
        (resolve E.ulongMax s'.root key).map Prod.snd = some (.string v) ∧
          Unchanged E.ulongMax pos s.root s'.root ∧
          s'.flags = { s.flags with dirtyData := true }

/-- A leaf is written through its container. -/
theorem setExisting_eq (E : Libraries) {s : State} {key v last : Bytes} {child : Option Value}
    {parent : Option Bytes} {n c : Value} {q : Ptr} {i : ℕ} (hdistinct : s.root.distinct = true)
    (hn : s.root.node q = some n) (hc : (getChild E.ulongMax n last).1 = some (i, c))
    (hleaf : c.hasChilds = false) :
    ∃ n', setExisting E s key v c ⟨child, some q, parent, last⟩ = some (s.modify q n') ∧
      n'.live = n.live ∧ (getChild E.ulongMax n' last).1.map Prod.snd = some (.string v) ∧
      Unchanged E.ulongMax [i] n n' := by
  cases n with
  | array es =>
    rw [getChild_array] at hc
    split_ifs at hc with hcheck
    obtain ⟨hidx, hi, hlive⟩ := arrayGetIdx_eq_some.1 hc
    obtain ⟨hlen, -⟩ := List.getElem?_eq_some_iff.1 hi
    have hput : arrayPutIdx es i (.string v) = es.set i (.string v) := by
      have hfill : i + 1 - es.length = 0 := Nat.sub_eq_zero_of_le hlen
      rw [arrayPutIdx, hfill, List.replicate_zero, List.append_nil]
    refine ⟨.array (arrayPutIdx es i (.string v)), ?_, rfl, ?_, ?_⟩
    · have hpos : ¬ (i : ℤ) < 0 := Int.not_lt.2 (Int.natCast_nonneg i)
      have hbelow : (i : ℤ) < es.length := Int.ofNat_lt.2 hlen
      simp only [setExisting, hleaf, Bool.false_eq_true, if_false, hn, hcheck, if_true, hidx,
        if_pos hbelow, if_neg hpos, Int.toNat_natCast]
    · have hnew : arrayGetIdx (es.set i (.string v)) i = some (i, .string v) :=
        arrayGetIdx_eq_some.2 ⟨rfl, List.getElem?_set_self hlen, rfl⟩
      rw [getChild_array, if_pos hcheck, hidx, hput, hnew, Option.map_some]
    · -- the element is replaced where it stands
      have hrep : (Value.array es).replaceAt [i] (.string v) =
          .array (arrayPutIdx es i (.string v)) := by
        rw [Value.replaceAt, hput, List.set_eq_modify]
        simp only [replaceAt_nil]
      rw [← hrep]
      have hnode : (Value.array es).node [i] = some c := by simp [Value.child, hi]
      exact (Unchanged.leaf E.ulongMax hleaf rfl).replaceAt hnode hlive.symm
  | object fs =>
    have hnodup := (distinct_object.1 (distinct_node hdistinct hn)).1
    have hget : objectGet fs last = some (i, c) := hc
    have hdel := E.objectDel_perm fs last
    have hperm : (E.objectAdd (E.objectDel fs last) last (.string v)).Perm
        ((last, .string v) :: fs.filter (·.1 ≠ last)) := by
      refine (E.objectAdd_perm _ last _).trans (List.Perm.cons _ ?_)
      have hfilter := hdel.filter (·.1 ≠ last)
      rwa [List.filter_filter, show (fun f : Bytes × Value => decide (f.1 ≠ last) &&
        decide (f.1 ≠ last)) = fun f => decide (f.1 ≠ last) from funext fun _ => Bool.and_self _]
        at hfilter
    have hnodup' := (distinct_object.1 (distinct_objectAdd E last
      (distinct_objectDel E last (distinct_node hdistinct hn)) (v := .string v) rfl)).1
    refine ⟨.object (E.objectAdd (E.objectDel fs last) last (.string v)), ?_, rfl, ?_, ?_⟩
    · simp only [setExisting, hleaf, Bool.false_eq_true, if_false, hn, hget, Option.isSome_some,
        if_true]
    · exact (objectGet_snd hnodup').2 ⟨hperm.mem_iff.2 List.mem_cons_self, rfl⟩
    · exact unchanged_object E.ulongMax hnodup hget hleaf rfl rfl hperm
  | _ => cases hc

/-- **A value is set** if and only if the path has more than one component, or leads to a container
that holds something, or already shows the value with nothing left to save. -/
theorem setsValue_iff (E : Libraries) {s : State} {key v : Bytes}
    (hset : s.flags.deleteMode = false ∧ s.flags.searchMode = false)
    (hdistinct : s.root.distinct = true) (hkey : 61 ∉ key)
    (hshort : (components key).length ≤ maxTreePath) :
    SetsValue E s key v ↔ ∀ pos c, resolve E.ulongMax s.root key = some (pos, c) →
      2 ≤ (components key).length ∨ c.hasChilds = true ∨
        c = .string v ∧ s.flags.dirtyData = true := by
  obtain ⟨out, parent, hprocess⟩ :=
    process_eq E hset.2 (strsep_append hkey (61 :: v) (by simp)) hshort
  refine forall_congr' fun pos => forall_congr' fun c => ?_
  refine imp_congr_right fun hres => ?_
  have hloc := hres
  rw [resolve_eq E.ulongMax s.root hshort] at hloc
  have hdispatch : process E s (key ++ 61 :: v) = setExisting E (s.print out) key v c
      ⟨some c, parentOf E.ulongMax s.root key, parent, lastOf key⟩ := by
    rw [hprocess, hloc, Option.map_some, List.tail?_cons]
    simp only [dispatch, State.print, hset.1]
  rw [hdispatch]
  cases hchilds : c.hasChilds with
  | true =>
    refine iff_of_true ⟨_, by rw [setExisting, if_pos hchilds], ?_⟩ (by simp)
    rw [if_pos rfl]
    exact ⟨rfl, rfl⟩
  | false =>
    simp only [Bool.false_eq_true, if_false, false_or]
    by_cases hlen : 2 ≤ (components key).length
    · refine iff_of_true ?_ (Or.inl hlen)
      obtain ⟨q, n, i, hparent, hq, hi, rfl⟩ := parentOf_eq hloc hlen
      have hn := locate_node hq
      obtain ⟨n', hexec, hlive, hnew, hsame⟩ := @setExisting_eq E (s.print out) key v (lastOf key)
        (some c) parent n c q i hdistinct hn hi hchilds
      rw [hparent]
      refine ⟨_, hexec, ?_, hsame.replaceAt hn hlive, rfl⟩
      have hq' : locate E.ulongMax (s.root.replaceAt q n') (components key).dropLast =
          some (q, n') := locate_replaceAt_self hq hlive
      obtain ⟨r, hr, hv⟩ := Option.map_eq_some_iff.1 hnew
      change (resolve E.ulongMax (s.root.replaceAt q n') key).map Prod.snd = _
      rw [resolve_eq _ _ hshort, locate_components, hq', Option.bind_some, hr]
      exact congrArg some hv
    · have hparent : parentOf E.ulongMax s.root key = none := by
        rw [parentOf, if_neg (by omega)]
      rw [hparent, setExisting, if_neg (by simp [hchilds])]
      -- nothing is written: the path has to show the value already
      constructor
      · rintro ⟨s', heq, hvalue, -, hflags⟩
        cases heq
        refine Or.inr ⟨?_, congrArg Flags.dirtyData hflags⟩
        change (resolve E.ulongMax s.root key).map Prod.snd = _ at hvalue
        rw [hres] at hvalue
        exact Option.some_inj.1 hvalue
      · rintro (h | ⟨hc, hdirty⟩)
        · exact absurd h hlen
        · refine ⟨_, rfl, ?_, Unchanged.refl _ _ _, ?_⟩
          · change (resolve E.ulongMax s.root key).map Prod.snd = _
            rw [hres, Option.map_some, hc]
          · change s.flags = _
            rw [← hdirty]

/-- A file with a title, and a glossary that has a title. -/
def glossary : State :=
  ⟨.object [(str "title", .string (str "example")),
    (str "glossary", .object [(str "title", .string (str "S"))])], {}, [], []⟩

theorem setsValue_glossary :
    SetsValue Libraries.inOrder glossary (str "glossary.title") (str "T=1") :=
  (setsValue_iff Libraries.inOrder ⟨rfl, rfl⟩ (rfl) (by decide)
    (by decide)).2 fun _ _ _ => Or.inl (by decide)

/-- The title at the top of the file is not set. -/
theorem not_setsValue_title :
    ¬ SetsValue Libraries.inOrder glossary (str "title") (str "yyy") := by
  intro h
  have hres : (resolve Libraries.inOrder.ulongMax glossary.root (str "title")).any
      (fun r => !r.2.hasChilds) = true := by decide +kernel
  obtain ⟨r, hr, hleaf⟩ := Option.any_eq_true _ _ |>.1 hres
  obtain ⟨s', hs', hset⟩ := h r.1 r.2 hr
  rw [if_neg (by simpa using hleaf)] at hset
  have hclean : (process Libraries.inOrder glossary (str "title" ++ 61 :: str "yyy")).all
      (fun s => !s.flags.dirtyData) = true := by decide +kernel
  rw [hs', Option.all_some, hset.2.2] at hclean
  cases hclean

end ZRouter.Json
