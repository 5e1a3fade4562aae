import ZRouter.Web.Event

/-!
# Collector and server read the same event

The collector decodes the fields of a query line once.  The server decodes the line as a whole,
looks for the last `?` in what comes out, and decodes the fields again.  Every step of this can only
make the line shorter, so the server finds the table that was written exactly when no step changes
anything.

* `rawQuery`: the query line as the server sees it after the first decoding;
* `Clean`: the tables for which the other steps change nothing;
* `same_table_iff_clean`.
-/

namespace ZRouter.Web

open Pattern

/-! ### The line after the first decoding -/

/-- A field without encoding. -/
def rawField (p : Bytes × Bytes) : Bytes := p.1 ++ 61 :: p.2

/-- The line of a table without encoding. -/
def rawQuery (l : List (Bytes × Bytes)) : Bytes := [38].intercalate (l.map rawField)

theorem rawQuery_cons_cons (p p' : Bytes × Bytes) (l : List (Bytes × Bytes)) :
    rawQuery (p :: p' :: l) = rawField p ++ 38 :: rawQuery (p' :: l) := by
  simp [rawQuery, List.intercalate_cons_cons]

theorem urlDecode_encodeField (p : Bytes × Bytes) (t : Bytes) (ht : t = [] ∨ t.head? = some 38) :
    urlDecode (encodeField p ++ t) = rawField p ++ urlDecode t := by
  have hhead : (unpercent (plusToSpace t)).head? ≠ some lf := by
    rcases ht with rfl | ht
    · exact fun h => absurd h (by decide)
    · obtain ⟨u, rfl⟩ : ∃ u, t = 38 :: u := by
        cases t with
        | nil => cases ht
        | cons c u => exact ⟨u, by rw [Option.some.inj ht]⟩
      rw [plusToSpace_eq, List.map_cons, if_neg (by decide), unpercent_cons (by decide)]
      exact fun h => absurd (Option.some.inj h) (by decide)
  have h61 : ∀ s : Bytes, unpercent (plusToSpace (61 :: s)) = 61 :: unpercent (plusToSpace s) := by
    intro s
    rw [plusToSpace_eq, List.map_cons, if_neg (by decide), unpercent_cons (by decide),
      ← plusToSpace_eq]
  have hhead' : (61 :: (lfToCrlf p.2 ++ unpercent (plusToSpace t))).head? ≠ some lf :=
    fun h => absurd (Option.some.inj h) (by decide)
  rw [urlDecode, encodeField, List.append_assoc, unpercent_urlEncode, List.cons_append, h61,
    unpercent_urlEncode, crlfToLf_lfToCrlf _ _ hhead', crlfToLf_cons fun h => absurd h (by decide),
    crlfToLf_lfToCrlf _ _ hhead, rawField, List.append_assoc]
  rfl

/-- The first decoding undoes the encoding of the whole line. -/
theorem urlDecode_encodeQuery (l : List (Bytes × Bytes)) :
    urlDecode (encodeQuery l) = rawQuery l := by
  induction l with
  | nil => rfl
  | cons p l ih =>
    cases l with
    | nil =>
      have h := urlDecode_encodeField p [] (Or.inl rfl)
      rw [List.append_nil, show urlDecode [] = [] from rfl, List.append_nil] at h
      simpa [encodeQuery, rawQuery] using h
    | cons p' l =>
      have henc : encodeQuery (p :: p' :: l) = encodeField p ++ 38 :: encodeQuery (p' :: l) := by
        simp [encodeQuery, List.intercalate_cons_cons]
      rw [henc, urlDecode_encodeField p _ (Or.inr rfl),
        urlDecode_cons (by decide) (by decide) (by decide), ih, rawQuery_cons_cons]

/-! ### Clean tables -/

/-- The tables, in the order of their line, that survive being decoded and split again: no `?` and
no `&`, no `=` in a key, nothing to decode, and no key but the first completes an entity. -/
structure Clean (l : List (Bytes × Bytes)) : Prop where
  literal : ∀ p ∈ l, Literal p.1 ∧ Literal p.2
  question : ∀ p ∈ l, 63 ∉ p.1 ∧ 63 ∉ p.2
  ampersand : ∀ p ∈ l, 38 ∉ p.1 ∧ 38 ∉ p.2
  equals : ∀ p ∈ l, 61 ∉ p.1
  entity : ∀ p ∈ l.tail, ∀ e ∈ [str "amp;", str "lt;", str "gt;"], ¬ e <+: p.1

/-- Tables of letters and digits are clean. -/
theorem clean_of_alnum {l : List (Bytes × Bytes)}
    (h : ∀ p ∈ l, (∀ c ∈ p.1, isalnum c = true) ∧ ∀ c ∈ p.2, isalnum c = true) : Clean l := by
  have hne : ∀ {s : Bytes} {d : UInt8}, (∀ c ∈ s, isalnum c = true) → isalnum d = false → d ∉ s :=
    fun hs hd hm => absurd (hs _ hm) (by simp [hd])
  have hlit : ∀ {s : Bytes}, (∀ c ∈ s, isalnum c = true) → Literal s := by
    intro s hs
    have hpercent : 37 ∉ s := hne hs (by decide)
    have hcr : cr ∉ s := hne hs (by decide)
    exact ⟨hne hs (by decide), fun _ _ _ ht => absurd (ht.subset (List.mem_cons_self ..)) hpercent,
      fun ht => hcr (ht.subset (List.mem_cons_self ..))⟩
  refine ⟨fun p hp => ⟨hlit (h p hp).1, hlit (h p hp).2⟩,
    fun p hp => ⟨hne (h p hp).1 (by decide), hne (h p hp).2 (by decide)⟩,
    fun p hp => ⟨hne (h p hp).1 (by decide), hne (h p hp).2 (by decide)⟩,
    fun p hp => hne (h p hp).1 (by decide), fun p hp e he hpre => ?_⟩
  have hsemi : ∀ e ∈ [str "amp;", str "lt;", str "gt;"], (59 : UInt8) ∈ e := by decide
  exact hne (h p (List.mem_of_mem_tail hp)).1 (by decide) (hpre.subset (hsemi e he))

theorem mem_rawField {p : Bytes × Bytes} {d : UInt8} (hd : d ≠ 61) :
    d ∈ rawField p ↔ d ∈ p.1 ∨ d ∈ p.2 := by
  simp [rawField, hd]

theorem mem_rawQuery {d : UInt8} {p : Bytes × Bytes} (hd : d ∈ rawField p) :
    ∀ {l : List (Bytes × Bytes)}, p ∈ l → d ∈ rawQuery l
  | [], hp => absurd hp (by simp)
  | [q], hp => by
    obtain rfl := List.mem_singleton.1 hp
    simpa [rawQuery] using hd
  | q :: p' :: l, hp => by
    rw [rawQuery_cons_cons, List.mem_append]
    rcases List.mem_cons.1 hp with rfl | hp
    · exact Or.inl hd
    · exact Or.inr (List.mem_cons_of_mem _ (mem_rawQuery hd hp))

/-- An entity that stands in a line starts at a separator, or inside a field. -/
theorem infix_after_separator {e a b : Bytes} (ha : 38 ∉ a) (h : 38 :: e <:+: a ++ 38 :: b) :
    e <+: b ∨ 38 :: e <:+: b := by
  obtain ⟨u, v, huv⟩ := h
  rw [List.append_assoc] at huv
  rcases List.append_eq_append_iff.1 huv with ⟨w, hw, hv⟩ | ⟨w, hw, hv⟩
  · cases w with
    | nil => exact Or.inl ⟨v, (List.cons.inj hv).2⟩
    | cons x w =>
      obtain rfl : 38 = x := (List.cons.inj hv).1
      exact absurd (by simp [hw]) ha
  · cases w with
    | nil => exact Or.inl ⟨v, (List.cons.inj hv).2.symm⟩
    | cons x w => exact Or.inr ⟨w, v, by rw [(List.cons.inj hv).2]; simp⟩

/-- A prefix of a field that has no `=` is a prefix of its key. -/
theorem prefix_key {e k t : Bytes} (he : 61 ∉ e) (h : e <+: k ++ 61 :: t) : e <+: k := by
  rcases List.prefix_or_prefix_of_prefix h (List.prefix_append k _) with h1 | ⟨r, rfl⟩
  · exact h1
  · rw [List.prefix_append_right_inj] at h
    cases r with
    | nil => simp
    | cons x r =>
      obtain rfl : x = 61 := (List.cons_prefix_cons.1 h).1
      exact absurd (by simp) he

/-- An entity in a line of fields without `&` is completed by a key. -/
theorem entity_of_infix {e : Bytes} (he : 61 ∉ e) :
    ∀ {l : List (Bytes × Bytes)}, (∀ p ∈ l, 38 ∉ rawField p) → 38 :: e <:+: rawQuery l →
      ∃ p ∈ l.tail, e <+: p.1
  | [], _, h => absurd (h.subset (List.mem_cons_self ..)) (by simp [rawQuery])
  | [p], hl, h => absurd (h.subset (List.mem_cons_self ..)) (by simpa [rawQuery] using hl p)
  | p :: p' :: l, hl, h => by
    rw [rawQuery_cons_cons] at h
    rcases infix_after_separator (hl p (by simp)) h with h | h
    · refine ⟨p', by simp, ?_⟩
      cases l with
      | nil =>
        rw [rawQuery, List.map_singleton, List.intercalate_singleton] at h
        exact prefix_key he h
      | cons p'' l =>
        rw [rawQuery_cons_cons, rawField, List.append_assoc, List.cons_append] at h
        exact prefix_key he h
    · obtain ⟨q, hq, hpre⟩ := entity_of_infix he (fun x hx => hl x (by simp [hx])) h
      exact ⟨q, List.mem_of_mem_tail hq, hpre⟩

/-- A key that completes an entity. -/
theorem infix_of_entity {e : Bytes} {p : Bytes × Bytes} (h : e <+: p.1) :
    ∀ {l : List (Bytes × Bytes)}, p ∈ l.tail → 38 :: e <:+: rawQuery l
  | [], hp => absurd hp (by simp)
  | [_], hp => absurd hp (by simp)
  | q :: p' :: l, hp => by
    rw [rawQuery_cons_cons]
    rcases List.mem_cons.1 hp with rfl | hp
    · have hle : e <+: rawQuery (p :: l) := by
        have h1 : e <+: rawField p := h.trans (List.prefix_append _ _)
        cases l with
        | nil => simpa [rawQuery] using h1
        | cons p'' l =>
          rw [rawQuery_cons_cons]
          exact h1.trans (List.prefix_append _ _)
      exact (List.prefix_cons_inj _).2 hle |>.isInfix.trans (List.suffix_append _ _).isInfix
    · have hin := infix_of_entity h (l := p' :: l) hp
      exact hin.trans ((List.suffix_cons _ _).trans (List.suffix_append _ _)).isInfix

/-! ### The server reads a clean table as it was written -/

theorem entities_eq_self {s : Bytes}
    (h : ∀ e ∈ [str "amp;", str "lt;", str "gt;"], ¬ 38 :: e <:+: s) : entities s = s := by
  have hone : ∀ e ∈ [str "amp;", str "lt;", str "gt;"], ∀ r,
      gsub (lit (38 :: e)) (fun _ _ => r) s = s :=
    fun e he r => gsub_of_none (exec_lit_eq_none_iff.2 (h e he))
  have h1 := hone (str "amp;") (by simp) (str "&")
  have h2 := hone (str "lt;") (by simp) (str "<")
  have h3 := hone (str "gt;") (by simp) (str ">")
  change gsub (lit (38 :: str "gt;")) _ (gsub (lit (38 :: str "lt;")) _
    (gsub (lit (38 :: str "amp;")) _ s)) = s
  rw [h1, h2, h3]

theorem Clean.queryPairs {l : List (Bytes × Bytes)} (h : Clean l) :
    queryPairs (rawQuery l) = l := by
  have hamp : ∀ p ∈ l, 38 ∉ rawField p := fun p hp hm => by
    rcases (mem_rawField (by decide)).1 hm with hm | hm
    · exact (h.ampersand p hp).1 hm
    · exact (h.ampersand p hp).2 hm
  have hent : entities (rawQuery l) = rawQuery l := by
    refine entities_eq_self fun e he hin => ?_
    have h61 : ∀ e ∈ [str "amp;", str "lt;", str "gt;"], (61 : UInt8) ∉ e := by decide
    obtain ⟨p, hp, hpre⟩ := entity_of_infix (h61 e he) hamp hin
    exact h.entity p hp e he hpre
  rw [Web.queryPairs, hent]
  by_cases hl : l = []
  · subst hl
    rfl
  rw [rawQuery, List.splitOn_intercalate 38 (List.forall_mem_map.2 hamp) (by simpa using hl),
    List.filterMap_map]
  refine (List.filterMap_congr fun p hp => ?_).trans List.filterMap_some
  obtain ⟨h1, h2⟩ := h.literal p hp
  rw [Function.comp_apply, rawField, ginsert_eq (h.equals p hp), urlDecode_eq_self_iff.2 h1,
    urlDecode_eq_self_iff.2 h2]

/-- The query that the server reads of a table without `?` is the whole line. -/
theorem afterQuestion_rawQuery {l : List (Bytes × Bytes)} (h : ∀ p ∈ l, 63 ∉ p.1 ∧ 63 ∉ p.2) :
    afterQuestion (str "/event.xml" ++ 63 :: rawQuery l) = rawQuery l := by
  refine afterQuestion_append (fun hm => ?_) _
  rcases mem_intercalate hm with hm | ⟨f, hf, hm⟩
  · exact absurd hm (by decide)
  · obtain ⟨p, hp, rfl⟩ := List.mem_map.1 hf
    rcases (mem_rawField (by decide)).1 hm with hm | hm
    · exact (h p hp).1 hm
    · exact (h p hp).2 hm

/-! ### No other table is read as it was written -/

section Weight

/-- The length of a field and its separator. -/
def weight (p : Bytes × Bytes) : ℕ := p.1.length + p.2.length + 2

theorem intercalate_length (c : UInt8) : ∀ {ls : List Bytes}, ls ≠ [] →
    ([c].intercalate ls).length + 1 = (ls.map fun l => l.length + 1).sum
  | [], h => absurd rfl h
  | [l], _ => by simp
  | l :: l' :: ls, _ => by
    have ih := intercalate_length c (List.cons_ne_nil l' ls)
    rw [List.intercalate_cons_cons, List.map_cons, List.sum_cons, ← ih]
    simp only [List.length_append, List.length_cons, List.length_nil]
    omega

/-- Two sums with terms in order that are equal have equal terms. -/
theorem eq_of_sum_eq {α : Type*} {f g : α → ℕ} : ∀ {l : List α}, (∀ x ∈ l, f x ≤ g x) →
    (l.map f).sum = (l.map g).sum → ∀ x ∈ l, f x = g x
  | [], _, _ => by simp
  | a :: l, h, heq => by
    have ha := h a (by simp)
    have hl := List.sum_le_sum fun x hx => h x (List.mem_cons_of_mem a hx)
    simp only [List.map_cons, List.sum_cons] at heq
    have ih := eq_of_sum_eq (fun x hx => h x (List.mem_cons_of_mem a hx)) (by omega)
    exact List.forall_mem_cons.2 ⟨by omega, ih⟩

end Weight

/-- A field without `=` is dropped, any other is split at its first `=`. -/
theorem ginsert_cases (f : Bytes) : ginsert f = none ∨
    ∃ x y, f = x ++ 61 :: y ∧ 61 ∉ x ∧ ginsert f = some (urlDecode x, urlDecode y) := by
  by_cases h : 61 ∈ f
  · obtain ⟨x, y, rfl, hx⟩ := List.eq_append_cons_of_mem h
    exact Or.inr ⟨x, y, rfl, hx, ginsert_eq hx⟩
  · refine Or.inl ?_
    have hdrop : f.dropWhile (· ≠ 61) = [] :=
      List.dropWhile_eq_nil_iff.2 fun c hc => by simpa using ne_of_mem_of_not_mem hc h
    rw [ginsert, hdrop]

/-- What `ginsert` takes from a field is not longer than the field. -/
theorem ginsert_weight (f : Bytes) : ((ginsert f).map weight).getD 0 ≤ f.length + 1 := by
  rcases ginsert_cases f with h | ⟨x, y, rfl, -, h⟩
  · simp [h]
  · have h1 := urlDecode_length_le x
    have h2 := urlDecode_length_le y
    simp only [h, Option.map_some, Option.getD_some, weight, List.length_append, List.length_cons]
    omega

theorem sum_filterMap {α β : Type*} (g : α → Option β) (w : β → ℕ) (l : List α) :
    ((l.filterMap g).map w).sum = (l.map fun a => ((g a).map w).getD 0).sum := by
  induction l with
  | nil => rfl
  | cons a l ih =>
    rw [List.map_cons, List.sum_cons, ← ih]
    cases ha : g a <;> simp [ha]

theorem splitOn_length (q : Bytes) :
    ((q.splitOn 38).map fun f => f.length + 1).sum = q.length + 1 := by
  rw [← intercalate_length 38 (List.splitOn_ne_nil 38 q), List.intercalate_splitOn]

theorem entities_length (q : Bytes) : (entities q).length ≤ q.length ∧
    ((entities q).length = q.length →
      entities q = q ∧ ∀ e ∈ [str "amp;", str "lt;", str "gt;"], ¬ 38 :: e <:+: q) := by
  set q₁ := gsub (lit (str "&amp;")) (fun _ _ => str "&") q with hq₁
  set q₂ := gsub (lit (str "&lt;")) (fun _ _ => str "<") q₁ with hq₂
  have h3 : entities q = gsub (lit (str "&gt;")) (fun _ _ => str ">") q₂ := rfl
  obtain ⟨a1, b1⟩ := (shrinks_lit (l := str "&amp;") (r := str "&") (by decide)).gsub q
  obtain ⟨a2, b2⟩ := (shrinks_lit (l := str "&lt;") (r := str "<") (by decide)).gsub q₁
  obtain ⟨a3, b3⟩ := (shrinks_lit (l := str "&gt;") (r := str ">") (by decide)).gsub q₂
  rw [← hq₁] at a1 b1
  rw [← hq₂] at a2 b2
  rw [← h3] at a3 b3
  refine ⟨by omega, fun heq => ?_⟩
  have e1 : q₁ = q := gsub_of_none (b1 (by omega))
  have e2 : q₂ = q₁ := gsub_of_none (b2 (by omega))
  have e3 : entities q = q₂ := gsub_of_none (b3 (by omega))
  refine ⟨by rw [e3, e2, e1], ?_⟩
  simp only [List.forall_mem_cons, List.not_mem_nil, false_imp_iff, implies_true, and_true]
  refine ⟨exec_lit_eq_none_iff.1 (b1 (by omega)), ?_, ?_⟩
  · have := exec_lit_eq_none_iff.1 (b2 (by omega))
    rwa [e1] at this
  · have := exec_lit_eq_none_iff.1 (b3 (by omega))
    rwa [e2, e1] at this

theorem afterQuestion_length (q : Bytes) :
    (afterQuestion (str "/event.xml" ++ 63 :: q)).length ≤ q.length ∧
      ((afterQuestion (str "/event.xml" ++ 63 :: q)).length = q.length →
        afterQuestion (str "/event.xml" ++ 63 :: q) = q ∧ 63 ∉ q) := by
  by_cases h : 63 ∈ q
  · obtain ⟨u, v, rfl, hv⟩ := exists_last_question h
    have hx : afterQuestion (str "/event.xml" ++ 63 :: (u ++ 63 :: v)) = v := by
      have := afterQuestion_append hv (str "/event.xml" ++ 63 :: u)
      rwa [List.append_assoc] at this
    rw [hx]
    simp only [List.length_append, List.length_cons]
    exact ⟨by omega, fun h => by omega⟩
  · rw [afterQuestion_append h]
    exact ⟨le_rfl, fun _ => ⟨rfl, h⟩⟩

theorem splitOn_intercalate_eq (c : UInt8) : ∀ {ls : List Bytes}, ls ≠ [] →
    ([c].intercalate ls).splitOn c = ls.flatMap (·.splitOn c)
  | [], h => absurd rfl h
  | [l], _ => by simp
  | l :: l' :: ls, _ => by
    rw [List.intercalate_cons_cons, List.append_assoc, List.singleton_append,
      List.splitOn_append_cons_self, splitOn_intercalate_eq c (List.cons_ne_nil l' ls)]
    rfl

/-- A line that splits into as many fields as were joined has no further separator. -/
theorem not_mem_of_splitOn_length {c : UInt8} {ls : List Bytes} (hne : ls ≠ [])
    (h : (([c].intercalate ls).splitOn c).length = ls.length) : ∀ l ∈ ls, c ∉ l := by
  have hone : ∀ l ∈ ls, 1 ≤ (l.splitOn c).length := fun l _ =>
    List.length_pos_iff.2 (List.splitOn_ne_nil c l)
  rw [splitOn_intercalate_eq c hne, List.length_flatMap] at h
  have heq := eq_of_sum_eq hone (by simpa using h.symm)
  intro l hl hc
  obtain ⟨x, y, rfl⟩ := List.append_of_mem hc
  have h1 := heq _ hl
  have h2 := List.length_pos_iff.2 (List.splitOn_ne_nil c x)
  have h3 := List.length_pos_iff.2 (List.splitOn_ne_nil c y)
  rw [List.splitOn_append_cons_self, List.length_append] at h1
  omega

/-- The key that is read is not longer than the key, and is as long only if it is the key. -/
theorem key_length {p : Bytes × Bytes} {x y : Bytes} (h : rawField p = x ++ 61 :: y)
    (hx : 61 ∉ x) : x.length ≤ p.1.length ∧ (x.length = p.1.length → x = p.1 ∧ y = p.2) := by
  have hpre : x <+: p.1 := prefix_key hx (t := p.2) ⟨61 :: y, h.symm⟩
  refine ⟨hpre.length_le, fun hlen => ?_⟩
  obtain rfl := hpre.eq_of_length hlen
  exact ⟨rfl, (List.cons.inj (List.append_cancel_left h)).2.symm⟩

/-- The server finds the table only if the line keeps its length in every step, since the line is no
longer than the table needs. -/
theorem fields_of_same {l : List (Bytes × Bytes)} (hl : (l.map Prod.fst).Nodup) (hnil : l ≠ [])
    (h : parseQuery (afterQuestion (str "/event.xml" ++ 63 :: rawQuery l)) = Table.ofPairs l) :
    63 ∉ rawQuery l ∧ (∀ e ∈ [str "amp;", str "lt;", str "gt;"], ¬ 38 :: e <:+: rawQuery l) ∧
      (∀ p ∈ l, 38 ∉ rawField p) ∧ (l.filterMap (ginsert ∘ rawField)).Perm l ∧
      ∀ p ∈ l, ((ginsert (rawField p)).map weight).getD 0 = (rawField p).length + 1 := by
  set Q := afterQuestion (str "/event.xml" ++ 63 :: rawQuery l) with hQdef
  -- every pair of the table is among the assignments
  have hsub : l ⊆ queryPairs Q := fun p hp => by
    have hsome : Table.ofPairs l p.1 = some p.2 := (Table.ofPairs_eq_some_iff hl).2 hp
    rw [← h] at hsome
    exact Table.mem_of_ofPairs hsome
  obtain ⟨extra, hextra⟩ := Multiset.le_iff_exists_add.1
    (Multiset.coe_le.2 (List.Nodup.subperm (List.Nodup.of_map _ hl) hsub))
  have hsum : ((queryPairs Q).map weight).sum = (l.map weight).sum + (extra.map weight).sum := by
    have := congrArg (fun m => (Multiset.map weight m).sum) hextra
    simpa using this
  have hraw : (rawQuery l).length + 1 = (l.map weight).sum := by
    rw [rawQuery, intercalate_length 38 (by simpa using hnil), List.map_map]
    congr 1
    refine List.map_congr_left fun p _ => ?_
    simp only [Function.comp_apply, rawField, weight, List.length_append, List.length_cons]
    omega
  obtain ⟨q1, q2⟩ := afterQuestion_length (rawQuery l)
  obtain ⟨e1, e2⟩ := entities_length Q
  have hfields := List.sum_le_sum fun f (_ : f ∈ (entities Q).splitOn 38) => ginsert_weight f
  rw [← sum_filterMap, ← queryPairs, splitOn_length] at hfields
  rw [← hQdef] at q1 q2
  obtain ⟨hQ, h63⟩ := q2 (by omega)
  obtain ⟨hE, hent⟩ := e2 (by omega)
  -- nothing but the pairs of the table is assigned
  have hperm : (queryPairs Q).Perm l := by
    have hzero : extra = 0 := by
      refine Multiset.eq_zero_of_forall_notMem fun p hp => ?_
      have h1 := Multiset.single_le_sum (s := extra.map weight) (fun _ _ => Nat.zero_le _) _
        (Multiset.mem_map_of_mem _ hp)
      have h2 : 2 ≤ weight p := Nat.le_add_left _ _
      omega
    rw [hzero, add_zero] at hextra
    exact Multiset.coe_eq_coe.1 hextra
  have hF : (entities Q).splitOn 38 = (rawQuery l).splitOn 38 := by rw [hE, hQ]
  -- every field is an assignment of its full length
  have hfull : ∀ f ∈ (rawQuery l).splitOn 38, ((ginsert f).map weight).getD 0 = f.length + 1 := by
    refine eq_of_sum_eq (fun f _ => ginsert_weight f) ?_
    rw [← sum_filterMap, ← hF, ← queryPairs, splitOn_length]
    omega
  have hpairs : queryPairs Q = ((rawQuery l).splitOn 38).filterMap ginsert := by
    rw [queryPairs, hF]
  have hcount : ((rawQuery l).splitOn 38).length = (l.map rawField).length := by
    have hall : (((rawQuery l).splitOn 38).filterMap ginsert).length =
        ((rawQuery l).splitOn 38).length := by
      rw [List.length_filterMap_eq_countP]
      refine List.countP_eq_length.2 fun f hf => ?_
      have := hfull f hf
      cases hg : ginsert f with
      | none => simp [hg] at this
      | some _ => rfl
    rw [← hall, ← hpairs, hperm.length_eq, List.length_map]
  have hamp : ∀ f ∈ l.map rawField, (38 : UInt8) ∉ f :=
    not_mem_of_splitOn_length (by simpa using hnil) hcount
  have hsplit : (rawQuery l).splitOn 38 = l.map rawField :=
    List.splitOn_intercalate 38 hamp (by simpa using hnil)
  rw [hpairs, hsplit, List.filterMap_map] at hperm
  rw [hQ] at hent
  exact ⟨h63, hent, fun p hp => hamp _ (List.mem_map_of_mem hp), hperm,
    fun p hp => hfull _ (by rw [hsplit]; exact List.mem_map_of_mem hp)⟩

/-- **The server finds the table that was written only if it is clean.** -/
theorem clean_of_same {l : List (Bytes × Bytes)} (hl : (l.map Prod.fst).Nodup)
    (h : parseQuery (afterQuestion (str "/event.xml" ++ 63 :: rawQuery l)) = Table.ofPairs l) :
    Clean l := by
  by_cases hnil : l = []
  · subst hnil
    exact ⟨by simp, by simp, by simp, by simp, by simp⟩
  obtain ⟨h63, hent, hamp, hperm, hfull⟩ := fields_of_same hl hnil h
  -- each field is split somewhere, and its two parts only have `+` replaced
  have hparts : ∀ p ∈ l, ∃ x y, rawField p = x ++ 61 :: y ∧ 61 ∉ x ∧
      ginsert (rawField p) = some (plusToSpace x, plusToSpace y) := by
    intro p hp
    have hw := hfull p hp
    rcases ginsert_cases (rawField p) with hg | ⟨x, y, hxy, hx, hg⟩
    · simp [hg] at hw
    · have h1 := urlDecode_length_le x
      have h2 := urlDecode_length_le y
      simp only [hg, Option.map_some, Option.getD_some, weight] at hw
      rw [hxy, List.length_append, List.length_cons] at hw
      rw [urlDecode_of_length (by omega), urlDecode_of_length (by omega)] at hg
      exact ⟨x, y, hxy, hx, hg⟩
  -- the keys together keep their length, so each field is split behind its key
  have hkeys : ∀ p ∈ l, 61 ∉ p.1 ∧
      ginsert (rawField p) = some (plusToSpace p.1, plusToSpace p.2) := by
    have hsum : (l.map fun p => ((ginsert (rawField p)).map (·.1.length)).getD 0).sum =
        (l.map (·.1.length)).sum := by
      have := sum_filterMap (ginsert ∘ rawField) (fun p : Bytes × Bytes => p.1.length) l
      simp only [Function.comp_apply] at this
      rw [← this]
      exact (hperm.map _).sum_eq
    have hle : ∀ p ∈ l, ((ginsert (rawField p)).map (·.1.length)).getD 0 ≤ p.1.length := by
      intro p hp
      obtain ⟨x, y, hxy, hx, hg⟩ := hparts p hp
      simpa [hg, plusToSpace_length] using (key_length hxy hx).1
    intro p hp
    have heq := eq_of_sum_eq hle hsum p hp
    obtain ⟨x, y, hxy, hx, hg⟩ := hparts p hp
    simp only [hg, Option.map_some, Option.getD_some, plusToSpace_length] at heq
    obtain ⟨rfl, rfl⟩ := (key_length hxy hx).2 heq
    exact ⟨hx, hg⟩
  -- no assignment has a `+`, so the table has none
  have hplus : ∀ p ∈ l, 43 ∉ p.1 ∧ 43 ∉ p.2 := by
    intro p hp
    obtain ⟨p', hp', hg⟩ := List.mem_filterMap.1 (hperm.symm.subset hp)
    rw [Function.comp_apply, (hkeys p' hp').2] at hg
    cases hg
    exact ⟨not_mem_plusToSpace _, not_mem_plusToSpace _⟩
  refine ⟨fun p hp => ?_, fun p hp => ?_, fun p hp => ?_, fun p hp => (hkeys p hp).1,
    fun p hp e he hpre => hent e he (infix_of_entity hpre hp)⟩
  · have hg := (ginsert_eq (v := p.2) (hkeys p hp).1).symm.trans (hkeys p hp).2
    obtain ⟨h1, h2⟩ := Prod.mk.inj (Option.some.inj hg)
    rw [plusToSpace_of_not_mem (hplus p hp).1] at h1
    rw [plusToSpace_of_not_mem (hplus p hp).2] at h2
    exact ⟨urlDecode_eq_self_iff.1 h1, urlDecode_eq_self_iff.1 h2⟩
  · have hnot : 63 ∉ rawField p := fun hm => h63 (mem_rawQuery hm hp)
    simpa [mem_rawField] using hnot
  · simpa [mem_rawField] using hamp p hp

/-! ### The two readings -/

/-- A request line as the collector receives it, with the query `q`. -/
def requestLine (method path q : Bytes) : Bytes :=
  method ++ 32 :: (path ++ 63 :: (q ++ (str " HTTP/" ++ [49, 46, 48])))

/-- **Collector and server both read the table that was written exactly when it is clean.** -/
theorem same_table_iff_clean (client : HttpClient) (method path : Bytes)
    (l : List (Bytes × Bytes)) (hm : method ≠ []) (hup : ∀ c ∈ method, isupper c = true)
    (hpath : 63 ∉ path) (hl : (l.map Prod.fst).Nodup) :
    ((requestQuery (requestLine method path (encodeQuery l))).map parseQuery =
        some (Table.ofPairs l) ∧
      (readRequest (client.lines (encodeQuery l))).map Request.get = some (Table.ofPairs l)) ↔
      Clean l := by
  have hcollector : (requestQuery (requestLine method path (encodeQuery l))).map parseQuery =
      some (Table.ofPairs l) := by
    have hsp : 32 ∉ encodeQuery l := fun h => absurd (mem_encodeQuery h) (by decide)
    rw [requestLine, requestQuery_line hm hup hpath hsp (by decide) (by decide), Option.map_some,
      parseQuery_encodeQuery]
  have hserver : (readRequest (client.lines (encodeQuery l))).map Request.get =
      some (parseQuery (afterQuestion (str "/event.xml" ++ 63 :: rawQuery l))) := by
    rw [readRequest_client, splitPath_event, urlDecode_encodeQuery, Option.map_some]
  rw [hserver]
  constructor
  · rintro ⟨-, h⟩
    exact clean_of_same hl (Option.some.inj h)
  · intro h
    refine ⟨hcollector, ?_⟩
    rw [afterQuestion_rawQuery h.question, parseQuery, h.queryPairs]

/-- The headers of a request of `socket.http`. -/
def luaSocket : HttpClient where
  headers := [str "host: 127.0.0.1", str "connection: close, TE", str "te: trailers",
    str "user-agent: LuaSocket 2.0.2"]
  nonempty := by decide
  noVersion := by decide

theorem same_table_iff_clean_linkup :
    (requestQuery (requestLine (str "GET") (str "/")
        (encodeQuery [(str "cmd", str "event"), (str "iface", str "wan0")]))).map parseQuery =
      some (Table.ofPairs [(str "cmd", str "event"), (str "iface", str "wan0")]) ∧
    (readRequest (luaSocket.lines
        (encodeQuery [(str "cmd", str "event"), (str "iface", str "wan0")]))).map Request.get =
      some (Table.ofPairs [(str "cmd", str "event"), (str "iface", str "wan0")]) := by
  refine (same_table_iff_clean luaSocket (str "GET") (str "/") _ (by decide) (by decide +kernel)
    (by decide) (by decide)).2 (clean_of_alnum ?_)
  simp only [List.forall_mem_cons]
  refine ⟨⟨?_, ?_⟩, ⟨?_, ?_⟩, by simp⟩ <;> decide +kernel

/-- A value with a `+` is read by the server with a space. -/
theorem plus_read_as_space :
    ¬ ((requestQuery (requestLine (str "GET") (str "/")
          (encodeQuery [(str "data", str "a+b")]))).map parseQuery =
        some (Table.ofPairs [(str "data", str "a+b")]) ∧
      (readRequest (luaSocket.lines (encodeQuery [(str "data", str "a+b")]))).map Request.get =
        some (Table.ofPairs [(str "data", str "a+b")])) := by
  rintro ⟨-, h⟩
  have hget := congrArg (Option.map fun t : Table => t (str "data")) h
  revert hget
  decide +kernel

end ZRouter.Web
