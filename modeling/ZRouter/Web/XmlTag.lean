import ZRouter.Web.XmlDump

/-!
# Reading a tag (`xml.lua`)

The parser looks for attributes everywhere in a tag, also inside of values, and takes an `=` before a
quotation mark that is not closed for a value with an embedded `>`.  A tag that `xmldump` writes has no
such places if its name and its attributes are the ones that can be read back.

* `Closed`: every `=` before a quotation mark is the start of a value;
* `tagText`, `closed_tagText`: the tags of `xmldump`;
* `parseTag_tagText`: the name and the attributes of a tag.
-/

namespace ZRouter.Web

open Pattern

/-! ### Attributes in a string -/

/-- What the search for an attribute finds. -/
theorem attr_inv {q : UInt8} (hq : isspace q = false) {s : Bytes} {m : List Bytes × Bytes}
    (h : exec (attrItems q) s = some m) : ∃ k w r, s = k ++ (w ++ 61 :: r) ∧ k ≠ [] ∧
      (∀ c ∈ k, isAttrName c = true) ∧ (∀ c ∈ w, isspace c = true) ∧
      (r.dropWhile isspace).head? = some q := by
  cases s with
  | nil => cases h
  | cons c s =>
    change (if isAttrName c then maxExpand isAttrName (Pattern.run _ (c :: s) []) s else none) =
      some m at h
    split_ifs at h with hc
    obtain ⟨k, t, rfl, hk, ht⟩ := maxExpand_eq_some h
    rw [Pattern.run] at ht
    obtain ⟨w, t, rfl, hw, ht⟩ := maxExpand_eq_some ht
    cases t with
    | nil => cases ht
    | cons e t =>
      rw [Pattern.run] at ht
      split_ifs at ht with he
      obtain ⟨w', t, rfl, hw', ht⟩ := maxExpand_eq_some ht
      cases t with
      | nil => cases ht
      | cons d t =>
        rw [Pattern.run] at ht
        split_ifs at ht with hd
        have he : e = 61 := by simpa using he
        have hd : d = q := by simpa using hd
        refine ⟨c :: k, w, w' ++ d :: t, by rw [he]; rfl, List.cons_ne_nil c k,
          List.forall_mem_cons.2 ⟨hc, hk⟩, hw, ?_⟩
        rw [dropWhile_append_of_all hw' (by simpa [hd] using hq), hd]
        rfl

/-- What the search for a value with an embedded `>` finds. -/
theorem attrErr_inv {q : UInt8} (hq : isspace q = false) {s : Bytes} {m : List Bytes × Bytes}
    (h : exec (attrErrItems q) s = some m) :
    ∃ r t, s = 61 :: r ∧ r.dropWhile isspace = q :: t ∧ q ∉ t := by
  cases s with
  | nil => cases h
  | cons e s =>
    change (if decide (e = 61) then maxExpand isspace (Pattern.run _ (e :: s) []) s else none) =
      some m at h
    split_ifs at h with he
    obtain ⟨w, t, rfl, hw, ht⟩ := maxExpand_eq_some h
    cases t with
    | nil => cases ht
    | cons d t =>
      rw [Pattern.run] at ht
      split_ifs at ht with hd
      obtain ⟨u, v, rfl, hu, hv⟩ := maxExpand_eq_some ht
      have he : e = 61 := by simpa using he
      have hd : d = q := by simpa using hd
      cases v with
      | cons x v => cases hv
      | nil =>
        refine ⟨w ++ d :: (u ++ []), u, by rw [he], ?_, fun hmem => ?_⟩
        · rw [dropWhile_append_of_all hw (by simpa [hd] using hq), List.append_nil, hd]
        · simpa using hu q hmem

/-- An attribute at the start of a string. -/
theorem exec_attr {k v : Bytes} (hne : k ≠ []) (hk : ∀ c ∈ k, isAttrName c = true)
    (hv : ∀ c ∈ v, c ≠ 34) (s : Bytes) :
    exec (attrItems 34) (k ++ 61 :: 34 :: (v ++ 34 :: s)) = some ([k, v], s) := by
  refine run_plus_before hne hk (by simp; decide) ?_
  have hvalue : minExpand anyByte
      (Pattern.run [.closes, .one (· = 34)] (v ++ 34 :: s) [k]) (v ++ 34 :: s) =
        some ([k, v], s) := by
    refine minExpand_append (fun _ _ => rfl) ?_ ?_
    · rw [run_closes]
      rfl
    · intro u w huw hw
      obtain ⟨d, w, rfl⟩ := List.exists_cons_of_ne_nil hw
      have hd := hv d (by rw [huw]; simp)
      simp only [Pattern.run, List.cons_append, hd, decide_false, Bool.false_eq_true, if_false]
  exact hvalue

/-! ### Quotation marks -/

/-- Behind an `=` and blanks there is no single quote, and a double quote is not the last one. -/
def Closed (s : Bytes) : Prop :=
  ∀ r, 61 :: r <:+ s → (∀ c ∈ (r.dropWhile isspace).head?, c ≠ 39) ∧
    ∀ t, r.dropWhile isspace = 34 :: t → 34 ∈ t

theorem closed_nil : Closed [] := by
  intro r hr
  exact absurd (List.suffix_nil.1 hr) (List.cons_ne_nil _ _)

theorem closed_cons {c : UInt8} (hc : c ≠ 61) {s : Bytes} (h : Closed s) : Closed (c :: s) := by
  intro r hr
  rcases List.suffix_cons_iff.1 hr with heq | hr
  · exact absurd (List.cons.inj heq).1.symm hc
  · exact h r hr

theorem closed_append {x s : Bytes} (hx : ∀ c ∈ x, c ≠ 61) (h : Closed s) : Closed (x ++ s) := by
  induction x with
  | nil => exact h
  | cons c x ih =>
    have hc := List.forall_mem_cons.1 hx
    exact closed_cons hc.1 (ih hc.2)

/-- The value of an attribute: what stands behind its `=` is not one of its quotation marks. -/
theorem closed_value {v s : Bytes} (hv : ∀ c ∈ v, c ≠ 34)
    (heq : ∀ r, 61 :: r <:+ v → ∃ c ∈ (r.dropWhile isspace).head?, c ≠ 39) (h : Closed s) :
    Closed (v ++ s) := by
  induction v with
  | nil => exact h
  | cons c v ih =>
    have hchars := List.forall_mem_cons.1 hv
    have ih := ih hchars.2 fun r hr => heq r (hr.trans (List.suffix_cons c v))
    intro r hr
    rw [List.cons_append] at hr
    rcases List.suffix_cons_iff.1 hr with hrv | hr
    · obtain ⟨hc, rfl⟩ := List.cons.inj hrv
      obtain ⟨d, hd, hd39⟩ := heq v (by rw [← hc])
      -- the first character that is not a blank stands in the value
      obtain ⟨t, ht⟩ : ∃ t, v.dropWhile isspace = d :: t := by
        cases hdrop : v.dropWhile isspace with
        | nil =>
          rw [hdrop] at hd
          cases hd
        | cons e t =>
          rw [hdrop, List.head?_cons, Option.mem_some_iff] at hd
          exact ⟨t, by rw [hd]⟩
      have hmem : d ∈ v := (List.dropWhile_suffix isspace).subset (by rw [ht]; simp)
      have hdrop : (v ++ s).dropWhile isspace = d :: (t ++ s) := by
        rw [List.dropWhile_append, ht]
        rfl
      rw [hdrop]
      refine ⟨fun e he => ?_, fun t' ht' => ?_⟩
      · rw [List.head?_cons, Option.mem_some_iff] at he
        rwa [← he]
      · exact absurd (List.cons.inj ht').1 (hchars.2 d hmem)
    · exact ih r hr

/-- The start of a value. -/
theorem closed_equals {v s : Bytes} (h : Closed (v ++ 34 :: s)) :
    Closed (61 :: 34 :: (v ++ 34 :: s)) := by
  intro r hr
  rcases List.suffix_cons_iff.1 hr with hrs | hr
  · obtain ⟨-, rfl⟩ := List.cons.inj hrs
    have hdrop : (34 :: (v ++ 34 :: s)).dropWhile isspace = 34 :: (v ++ 34 :: s) := rfl
    rw [hdrop]
    refine ⟨fun c hc => ?_, fun t ht => ?_⟩
    · rw [List.head?_cons, Option.mem_some_iff] at hc
      rw [← hc]
      decide
    · rw [← (List.cons.inj ht).2]
      simp
  · exact closed_cons (by decide) h r hr

/-! ### The tags of `xmldump` -/

/-- An attribute as it is written. -/
def attrText (a : Bytes × Bytes) : Bytes := 32 :: (a.1 ++ 61 :: 34 :: (a.2 ++ [34]))

/-- A tag as it is written. -/
def tagText (name : Bytes) (l : Attrs) : Bytes := name ++ l.flatMap attrText

theorem isAttrName_ne {c : UInt8} (h : isAttrName c = true) :
    isspace c = false ∧ c ≠ 0 ∧ c ≠ 34 ∧ c ≠ 39 ∧ c ≠ 61 ∧ c ≠ 62 := by
  revert c
  decide +kernel

theorem attrText_append (a : Bytes × Bytes) (s : Bytes) :
    attrText a ++ s = 32 :: (a.1 ++ 61 :: 34 :: (a.2 ++ 34 :: s)) := by
  simp [attrText]

/-- The attributes of a tag begin with a blank and a name. -/
theorem flatMap_attrText_head {env : Interpreter} {l : Attrs} (hl : ∀ a ∈ l, AttrOk env a) :
    ∀ c ∈ ((l.flatMap attrText).dropWhile isspace).head?, isAttrName c = true := by
  cases l with
  | nil => simp
  | cons a l =>
    obtain ⟨c, k, hck⟩ := List.exists_cons_of_ne_nil (hl a (by simp)).name_ne
    have hc : isAttrName c = true := ((hl a (by simp)).name_chars c (by rw [hck]; simp)).1
    have hspace := (isAttrName_ne hc).1
    have hdrop : ((a :: l).flatMap attrText).dropWhile isspace =
        c :: (k ++ 61 :: 34 :: (a.2 ++ 34 :: l.flatMap attrText)) := by
      rw [List.flatMap_cons, attrText_append, hck]
      exact dropWhile_append_of_all (l := [32]) (by simp [isspace]) (by simpa using hspace)
    rw [hdrop]
    simpa using hc

/-- The attributes of a tag are closed. -/
theorem closed_flatMap_attrText {env : Interpreter} {l : Attrs} (hl : ∀ a ∈ l, AttrOk env a) :
    Closed (l.flatMap attrText) := by
  induction l with
  | nil => exact closed_nil
  | cons a l ih =>
    have hall := List.forall_mem_cons.1 hl
    rw [List.flatMap_cons, attrText_append]
    refine closed_cons (by decide) (closed_append (fun c hc => ?_) (closed_equals ?_))
    · exact (isAttrName_ne (hall.1.name_chars c hc).1).2.2.2.2.1
    · exact closed_value (fun c hc => (hall.1.chars c hc).1) hall.1.equals
        (closed_cons (by decide) (ih hall.2))

/-- Behind an `=` in a name there is no quotation mark. -/
theorem name_equals {env : Interpreter} {name : Bytes} (hname : NameOk name) {l : Attrs}
    (hl : ∀ a ∈ l, AttrOk env a) {r : Bytes} (hr : 61 :: r <:+ name) :
    ∀ c ∈ ((r ++ l.flatMap attrText).dropWhile isspace).head?, c ≠ 34 ∧ c ≠ 39 := by
  cases r with
  | nil =>
    intro c hc
    have hattr := isAttrName_ne (flatMap_attrText_head hl c hc)
    exact ⟨hattr.2.2.1, hattr.2.2.2.1⟩
  | cons d r =>
    have hspace := (hname.chars d (hr.subset (by simp))).1
    have hdrop : ((d :: r) ++ l.flatMap attrText).dropWhile isspace =
        (d :: r) ++ l.flatMap attrText := by
      rw [List.cons_append, List.dropWhile_cons, hspace]
      rfl
    rw [hdrop]
    intro c hc
    rw [List.cons_append, List.head?_cons, Option.mem_some_iff] at hc
    subst hc
    have hinfix : ∀ q, [61, d] ≠ [61, q] ∨ q ∉ [34, 39] := by
      intro q
      by_contra hq
      simp only [ne_eq, List.cons.injEq, true_and, and_true, not_or, not_not] at hq
      refine hname.quotes q hq.2 ?_
      rw [← hq.1]
      exact ((List.prefix_append [61, d] r).isInfix.trans hr.isInfix)
    constructor
    · rintro rfl
      simpa using hinfix 34
    · rintro rfl
      simpa using hinfix 39

/-- A tag is closed. -/
theorem closed_tagText {env : Interpreter} {name : Bytes} (hname : NameOk name) {l : Attrs}
    (hl : ∀ a ∈ l, AttrOk env a) : Closed (tagText name l) := by
  intro r hr
  have hcases : 61 :: r <:+ l.flatMap attrText ∨
      ∃ r', 61 :: r' <:+ name ∧ r = r' ++ l.flatMap attrText := by
    obtain ⟨u, hu⟩ := hr
    rcases List.append_eq_append_iff.1 hu.symm with ⟨x, hux, hx⟩ | ⟨x, hux, hx⟩
    · exact Or.inl ⟨x, hx.symm⟩
    · cases x with
      | nil => exact Or.inl ⟨[], by simpa using hx⟩
      | cons c x =>
        obtain ⟨rfl, rfl⟩ := List.cons.inj hx
        exact Or.inr ⟨x, ⟨u, hux.symm⟩, rfl⟩
  rcases hcases with hr | ⟨r', hr', rfl⟩
  · exact closed_flatMap_attrText hl r hr
  · have hc := name_equals hname hl hr'
    refine ⟨fun c h => (hc c h).2, fun t ht => ?_⟩
    exact absurd rfl (hc 34 (by rw [ht]; rfl)).1

/-! ### Reading them -/

/-- A tag of `xmldump` has no value with an embedded `>`. -/
theorem find_attrErr {env : Interpreter} {name : Bytes} (hname : NameOk name) {l : Attrs}
    (hl : ∀ a ∈ l, AttrOk env a) : find (attrErrItems 34) (tagText name l) = none ∧
      find (attrErrItems 39) (tagText name l) = none := by
  have hclosed := closed_tagText hname hl
  constructor
  · refine find_eq_none fun s hs => Option.eq_none_iff_forall_ne_some.2 fun m hm => ?_
    obtain ⟨r, t, rfl, hdrop, hnot⟩ := attrErr_inv rfl hm
    exact hnot ((hclosed r hs).2 t hdrop)
  · refine find_eq_none fun s hs => Option.eq_none_iff_forall_ne_some.2 fun m hm => ?_
    obtain ⟨r, t, rfl, hdrop, -⟩ := attrErr_inv rfl hm
    exact (hclosed r hs).1 39 (by rw [hdrop]; rfl) rfl

/-- Nothing in it looks like an attribute in single quotes. -/
theorem gmatch_single {env : Interpreter} {name : Bytes} (hname : NameOk name) {l : Attrs}
    (hl : ∀ a ∈ l, AttrOk env a) : gmatch (attrItems 39) (tagText name l) = [] := by
  refine gmatch_of_none fun s hs => Option.eq_none_iff_forall_ne_some.2 fun m hm => ?_
  obtain ⟨k, w, r, rfl, -, -, -, hhead⟩ := attr_inv rfl hm
  refine (closed_tagText hname hl r ?_).1 39 hhead rfl
  rw [← List.append_assoc] at hs
  exact (List.suffix_append _ _).trans hs

/-- The attributes behind a name are found. -/
theorem gmatch_attrText {env : Interpreter} {l : Attrs} (hl : ∀ a ∈ l, AttrOk env a) :
    gmatch (attrItems 34) (l.flatMap attrText) = l.map fun a => [a.1, a.2] := by
  induction l with
  | nil => rfl
  | cons a l ih =>
    have hall := List.forall_mem_cons.1 hl
    have hskip := @gmatch_skip _ (attrItems 34) [32]
      (a.1 ++ 61 :: 34 :: (a.2 ++ 34 :: l.flatMap attrText)) (by
        intro u v huv hv
        have hv : v = [32] := by
          cases u with
          | nil => exact huv.symm
          | cons c u =>
            rw [List.cons_append, List.cons.injEq] at huv
            exact absurd (List.append_eq_nil_iff.1 huv.2.symm).2 hv
        rw [hv]
        rfl)
    rw [List.flatMap_cons, attrText_append]
    rw [List.singleton_append] at hskip
    rw [hskip, gmatch_match (exec_attr hall.1.name_ne (fun c hc => (hall.1.name_chars c hc).1)
      (fun c hc => (hall.1.chars c hc).1) _) (by simp; omega), ih hall.2]
    rfl

/-- Nothing in the name looks like an attribute. -/
theorem gmatch_tagText {env : Interpreter} {name : Bytes} (hname : NameOk name) {l : Attrs}
    (hl : ∀ a ∈ l, AttrOk env a) :
    gmatch (attrItems 34) (tagText name l) = l.map fun a => [a.1, a.2] := by
  rw [tagText, gmatch_skip, gmatch_attrText hl]
  intro u v huv hv
  refine Option.eq_none_iff_forall_ne_some.2 fun m hm => ?_
  obtain ⟨k, w, r, heq, hk, hkchars, hw, hhead⟩ := attr_inv rfl hm
  have hvname : ∀ c ∈ v, isspace c = false := fun c hc => (hname.chars c (by rw [huv]; simp [hc])).1
  -- behind blanks the attributes go on with a name
  have hnot : l.flatMap attrText ≠ w ++ 61 :: r := by
    intro h
    have hdrop : (l.flatMap attrText).dropWhile isspace = 61 :: r := by
      rw [h]
      exact dropWhile_append_of_all hw (by simp [isspace])
    have h61 := flatMap_attrText_head hl 61 (by rw [hdrop]; rfl)
    exact (isAttrName_ne h61).2.2.2.2.1 rfl
  rcases List.append_eq_append_iff.1 heq with ⟨x, hx, hrest⟩ | ⟨x, hx, hrest⟩
  · -- the name of the attribute would reach behind the name of the element, over a blank
    cases x with
    | nil => exact hnot hrest
    | cons c x =>
      have hc : isspace c = false := (isAttrName_ne (hkchars c (by rw [hx]; simp))).1
      cases l with
      | nil => cases hrest
      | cons a l =>
        rw [List.flatMap_cons, attrText_append] at hrest
        rw [← (List.cons.inj hrest).1] at hc
        cases hc
  · cases x with
    | nil => exact hnot hrest.symm
    | cons c x =>
      have hc := hvname c (by rw [hx]; simp)
      have hw : w = [] := by
        cases w with
        | nil => rfl
        | cons d w =>
          have hd := hw d (by simp)
          rw [(List.cons.inj hrest).1, hc] at hd
          cases hd
      rw [hw] at hrest
      obtain ⟨rfl, rfl⟩ := List.cons.inj hrest
      have hsuffix : 61 :: x <:+ name := by
        rw [huv, hx]
        exact ⟨u ++ k, by simp⟩
      exact (name_equals hname hl hsuffix 34 hhead).1 rfl

/-- The table of the attributes that were read. -/
theorem foldl_addAttr {env : Interpreter} {l : Attrs} (hl : ∀ a ∈ l, AttrOk env a) :
    ∀ table : Attrs, ((table ++ l).map Prod.fst).Nodup →
      (l.map fun a => [a.1, a.2]).foldl (addAttr env) table = table ++ l := by
  induction l with
  | nil =>
    intro table _
    exact (List.append_nil table).symm
  | cons a l ih =>
    intro table hnodup
    have hall := List.forall_mem_cons.1 hl
    have hlower : a.1.map tolower = a.1 := by
      conv_rhs => rw [← List.map_id a.1]
      exact List.map_congr_left fun c hc => (hall.1.name_chars c hc).2
    have hnew : table.lookup a.1 = none := by
      rw [List.lookup_eq_none_iff]
      intro b hb
      have hne : a.1 ≠ b.1 := by
        rw [List.map_append, List.nodup_append] at hnodup
        exact fun h => hnodup.2.2 b.1 (List.mem_map_of_mem hb) a.1 (by simp) h.symm
      simpa using hne
    rw [List.map_cons, List.foldl_cons, addAttr, hlower, parseEntities_plain hall.1.plain,
      Attrs.set, if_pos hnew, ih hall.2 _ (by simpa using hnodup)]
    simp

/-- **A tag is read back.** -/
theorem parseTag_tagText {env : Interpreter} {name : Bytes} (hname : NameOk name) {l : Attrs}
    (hl : ∀ a ∈ l, AttrOk env a) (hnodup : (l.map Prod.fst).Nodup) :
    parseTag env (tagText name l) = (name, if l = [] then none else some l) := by
  have hfst : (tagText name l).takeWhile (!isspace ·) = name := by
    refine takeWhile_append_of_all (fun c hc => by simp [(hname.chars c hc).1]) fun c hc => ?_
    cases l with
    | nil => cases hc
    | cons a l =>
      rw [List.flatMap_cons, attrText_append, List.head?_cons, Option.mem_some_iff] at hc
      rw [← hc]
      rfl
  have hfilter : l.filter (·.1 ≠ str "_") = l := by
    rw [List.filter_eq_self]
    intro a ha
    simpa using (hl a ha).name_mark
  have hfold := foldl_addAttr hl [] (by simpa using hnodup)
  rw [List.nil_append] at hfold
  simp only [parseTag, hfst, gmatch_tagText hname hl, gmatch_single hname hl, List.append_nil, hfold,
    hfilter, List.map_eq_nil_iff]

end ZRouter.Web
