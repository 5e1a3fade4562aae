import ZRouter.Web.XmlTree

/-!
# Reading back what was written

What `xmldump` writes of a node makes the parser add a node with the same contents, wherever it stands.
Between two tags the parser has read a text, perhaps in blanks, that it adds with the next tag.

* `Held`: the bytes before the next tag, and the text in them;
* `parse_start_tag`, `parse_end_tag`, `parse_comment`: one tag;
* `Reads`: what the parser does with a piece of the file;
* `ReadsBack`, `readsBack_node`: what is written of nodes;
* `Savable`, `loadFile_xmldump`: a tree that is savable is read back.
-/

namespace ZRouter.Web

open Pattern

variable {env : Interpreter}

/-! ### Text before a tag -/

/-- The bytes before the next tag are a text in blanks; it may be empty. -/
def Held (env : Interpreter) (p o : Bytes) : Prop :=
  ∃ u v, p = u ++ (o ++ v) ∧ (∀ c ∈ u, isspace c = true) ∧ (∀ c ∈ v, isspace c = true) ∧
    (o ≠ [] → TextOk env o)

theorem held_nil : Held env [] [] :=
  ⟨[], [], rfl, by simp, by simp, fun h => absurd rfl h⟩

/-- Blanks behind the text. -/
theorem Held.blank {p o w : Bytes} (h : Held env p o) (hw : ∀ c ∈ w, isspace c = true) :
    Held env (p ++ w) o := by
  obtain ⟨u, v, rfl, hu, hv, ho⟩ := h
  refine ⟨u, v ++ w, by simp, hu, fun c hc => ?_, ho⟩
  exact (List.mem_append.1 hc).elim (hv c) (hw c)

/-- A text behind blanks. -/
theorem Held.text {p s : Bytes} (h : Held env p []) (hs : TextOk env s) : Held env (p ++ s) s := by
  obtain ⟨u, v, rfl, hu, hv, -⟩ := h
  refine ⟨u ++ v, [], by simp, fun c hc => ?_, by simp, fun _ => hs⟩
  exact (List.mem_append.1 hc).elim (hu c) (hv c)

theorem ne_of_isspace {c : UInt8} (h : isspace c = true) : c ≠ 60 := by
  rintro rfl
  revert h
  decide

theorem Held.chars {p o : Bytes} (h : Held env p o) : ∀ c ∈ p, c ≠ 60 := by
  obtain ⟨u, v, rfl, hu, hv, ho⟩ := h
  intro c hc
  rcases List.mem_append.1 hc with hc | hc
  · exact ne_of_isspace (hu c hc)
  rcases List.mem_append.1 hc with hc | hc
  · exact (ho (List.ne_nil_of_mem hc)).chars c hc
  · exact ne_of_isspace (hv c hc)

theorem Held.blanks {p : Bytes} (h : Held env p []) : p.all isspace = true := by
  obtain ⟨u, v, rfl, hu, hv, -⟩ := h
  rw [List.all_eq_true]
  intro c hc
  exact (List.mem_append.1 hc).elim (hu c) (hv c)

/-- The text is what the parser makes of the bytes. -/
theorem Held.read {p o : Bytes} (h : Held env p o) : parseEntities env (stripWS p) = o := by
  obtain ⟨u, v, rfl, hu, hv, ho⟩ := h
  by_cases hne : o = []
  · subst hne
    have hdrop : (u ++ ([] ++ v)).dropWhile isspace = [] := by
      have hall : ∀ c ∈ u ++ v, isspace c = true :=
        fun c hc => (List.mem_append.1 hc).elim (hu c) (hv c)
      rw [List.nil_append, List.dropWhile_eq_nil_iff]
      exact hall
    rw [stripWS, hdrop]
    exact parseEntities_plain (plain_of_no_amp env (by simp))
  · have htext := ho hne
    have hdrop : (u ++ (o ++ v)).dropWhile isspace = o ++ v := by
      refine dropWhile_append_of_all hu fun c hc => htext.head c ?_
      rwa [List.head?_append_of_ne_nil o hne] at hc
    have hrdrop : (o ++ v).rdropWhile isspace = o := by
      rw [List.rdropWhile, List.reverse_append, dropWhile_append_of_all, List.reverse_reverse]
      · simpa using hv
      · intro c hc
        rw [List.head?_reverse] at hc
        exact htext.last c hc
    rw [stripWS, hdrop, hrdrop]
    exact parseEntities_plain htext.plain

/-! ### What the handler adds -/

/-- New children of the current node. -/
def Dom.adds (d : Dom) (ns : List Node) : Dom := ns.foldl Dom.add d

/-- A text as a child, unless it is empty. -/
def textNodes (o : Bytes) : List Node := if o = [] then [] else [.text o]

theorem Dom.text_eq (d : Dom) (o : Bytes) : d.text o = d.adds (textNodes o) := by
  rw [Dom.text, textNodes]
  split_ifs <;> rfl

theorem Dom.adds_append (d : Dom) (ns ms : List Node) : d.adds (ns ++ ms) = (d.adds ns).adds ms :=
  List.foldl_append

theorem Dom.adds_root (root ns : List Node) : Dom.adds ⟨root, []⟩ ns = ⟨root ++ ns, []⟩ := by
  induction ns generalizing root with
  | nil => rw [List.append_nil]; rfl
  | cons n ns ih =>
    change Dom.adds ⟨root ++ [n], []⟩ ns = _
    rw [ih, List.append_assoc]
    rfl

theorem Dom.adds_opened (root : List Node) (f : Frame) (opened : List Frame) (ns : List Node) :
    Dom.adds ⟨root, f :: opened⟩ ns = ⟨root, { f with children := f.children ++ ns } :: opened⟩ := by
  induction ns generalizing f with
  | nil => rw [List.append_nil]; rfl
  | cons n ns ih =>
    change Dom.adds ⟨root, { f with children := f.children ++ [n] } :: opened⟩ ns = _
    rw [ih, List.append_assoc]
    rfl

/-- The end of an element. -/
theorem Dom.endtag_adds (d : Dom) (name : Bytes) (attr : Option Attrs) (ns : List Node) :
    ((d.starttag name attr).adds ns).endtag name = .ok (d.adds [.element name attr ns]) := by
  rw [Dom.starttag, Dom.adds_opened, Dom.endtag]
  exact if_pos rfl

/-! ### Strings that `string.format` writes as they are -/

theorem formatS_eq_self {s : Bytes} : formatS s = s ↔ 100 ≤ s.length ∨ (0 : UInt8) ∉ s := by
  rw [formatS]
  split_ifs with h
  · constructor
    · intro hs
      refine Or.inr fun h0 => ?_
      rw [← hs] at h0
      simpa using List.mem_takeWhile_imp h0
    · rintro (hlong | h0)
      · omega
      · exact cstr_eq_self h0
  · exact iff_of_true rfl (Or.inl (by omega))

/-- An attribute is written as it is. -/
theorem renderAttr_eq {a : Bytes × Bytes} (ha : AttrOk env a) : renderAttr a = attrText a := by
  have hname : formatS a.1 = a.1 :=
    formatS_eq_self.2 (Or.inr fun h => (isAttrName_ne (ha.name_chars 0 h).1).2.1 rfl)
  rw [renderAttr, hname, ha.format, attrText]
  simp [str]

/-- The attributes are written as they are. -/
theorem formatS_xatrdmp {attr : Attrs} (hattr : ∀ a ∈ attr, AttrOk env a) :
    formatS (xatrdmp env attr) = (env.pairs attr).flatMap attrText := by
  have hpairs : ∀ a ∈ env.pairs attr, AttrOk env a :=
    fun a ha => hattr a ((env.pairs_perm attr).mem_iff.1 ha)
  have hrender : xatrdmp env attr = (env.pairs attr).flatMap attrText :=
    List.flatMap_congr fun a ha => renderAttr_eq (hpairs a ha)
  rw [hrender, formatS_eq_self]
  by_contra hcon
  rw [not_or, not_not] at hcon
  obtain ⟨hshort, h0⟩ := hcon
  -- a NUL stands in a value, which is long then
  obtain ⟨a, ha, h0⟩ := List.mem_flatMap.1 h0
  have hlong : 100 ≤ a.2.length := by
    refine (formatS_eq_self.1 (hpairs a ha).format).resolve_right fun hno => hno ?_
    rw [attrText] at h0
    simp only [List.mem_cons, List.mem_append, List.not_mem_nil, or_false] at h0
    rcases h0 with h0 | h0 | h0 | h0 | h0 | h0
    · cases h0
    · exact absurd rfl (isAttrName_ne ((hpairs a ha).name_chars 0 h0).1).2.1
    · cases h0
    · cases h0
    · exact h0
    · cases h0
  have hle : (attrText a).length ≤ ((env.pairs attr).flatMap attrText).length := by
    obtain ⟨l, l', hl⟩ := List.append_of_mem ha
    rw [hl, List.flatMap_append, List.flatMap_cons]
    simp only [List.length_append]
    omega
  rw [attrText] at hle
  simp only [List.length_cons, List.length_append, List.length_nil] at hle
  omega

/-! ### One tag -/

section Tags

variable {p o name : Bytes} {l : Attrs}

/-- A mark does not start a tag, since it has no blank. -/
theorem mark_not_tagText {mark : Bytes} (hmark : (32 : UInt8) ∉ mark) (h : ¬ mark <+: name) :
    ¬ mark <+: tagText name l := by
  intro hp
  rw [tagText] at hp
  rcases le_total mark.length name.length with hle | hle
  · exact h (List.prefix_of_prefix_length_le hp (List.prefix_append _ _) hle)
  · obtain ⟨r, rfl⟩ := List.prefix_of_prefix_length_le (List.prefix_append _ _) hp hle
    rw [List.prefix_append_right_inj] at hp
    cases r with
    | nil => exact h (by rw [List.append_nil])
    | cons c r =>
      cases l with
      | nil => cases List.prefix_nil.1 hp
      | cons a l =>
        rw [List.flatMap_cons, attrText, List.cons_append, List.cons_prefix_cons] at hp
        exact hmark (by simp [hp.1])

theorem tagText_chars (hname : NameOk name) (hl : ∀ a ∈ l, AttrOk env a) :
    ∀ c ∈ tagText name l, c ≠ 62 := by
  intro c hc
  rcases List.mem_append.1 hc with hc | hc
  · exact (hname.chars c hc).2
  · obtain ⟨a, ha, hc⟩ := List.mem_flatMap.1 hc
    rw [attrText] at hc
    simp only [List.mem_cons, List.mem_append, List.not_mem_nil, or_false] at hc
    rcases hc with rfl | hc | rfl | rfl | hc | rfl
    · decide
    · exact (isAttrName_ne ((hl a ha).name_chars c hc).1).2.2.2.2.2
    · decide
    · decide
    · exact ((hl a ha).chars c hc).2
    · decide

theorem tagText_head (hname : NameOk name) : ∀ c ∈ (tagText name l).head?, c ≠ 47 ∧ c ≠ 63 := by
  intro c hc
  cases name with
  | nil =>
    cases l with
    | nil => cases hc
    | cons a l =>
      cases hc
      decide
  | cons b name => exact hname.head c hc

theorem tagText_last (hname : NameOk name) : splitSlash (tagText name l) = (tagText name l, []) := by
  rw [splitSlash, if_neg]
  intro hlast
  rcases List.eq_nil_or_concat l with rfl | ⟨l, a, rfl⟩
  · rw [tagText, List.flatMap_nil, List.append_nil] at hlast
    exact hname.last 47 hlast rfl
  · have hend : tagText name (l.concat a) =
        (name ++ l.flatMap attrText ++ 32 :: (a.1 ++ 61 :: 34 :: a.2)) ++ [34] := by
      simp [tagText, attrText]
    rw [hend, List.getLast?_concat] at hlast
    cases hlast

/-- The name and the attributes of an element. -/
theorem parseMarkup_tagText (hname : NameOk name) (pos : ℕ) (s endt1 endt2 rest : Bytes) (d : Dom) :
    parseMarkup env pos s endt1 (tagText name l) endt2 rest d =
      (parseElement env endt1 (tagText name l) endt2 d).map fun d => (rest, d) := by
  have hquestion : ¬ str "?" <+: tagText name l := by
    rintro ⟨r, hr⟩
    exact (tagText_head hname 63 (by rw [← hr]; rfl)).2 rfl
  have htake : ∀ (n : ℕ) (mark : Bytes), ¬ mark <+: tagText name l → (tagText name l).take n ≠ mark :=
    fun n mark hmark h => hmark (h ▸ List.take_prefix n _)
  have hmark : ∀ mark ∈ [str "!--", str "!DOCTYPE", str "![CDATA["], ¬ mark <+: tagText name l :=
    fun mark hm => mark_not_tagText (by revert mark; decide) (hname.marks mark hm)
  have hdecl : isDecl (tagText name l) = false := by
    rw [isDecl, Bool.and_eq_false_iff]
    refine Or.inl (Bool.eq_false_iff.2 fun h => hquestion ?_)
    have hxml : str "?" <+: str "?xml" := by decide +kernel
    exact hxml.trans (List.isPrefixOf_iff_prefix.1 h)
  rw [parseMarkup, if_neg (by rw [hdecl]; exact Bool.false_ne_true), if_neg (htake 1 _ hquestion),
    if_neg (htake 3 _ (hmark _ (by simp))), if_neg (htake 8 _ (hmark _ (by simp))),
    if_neg (htake 8 _ (hmark _ (by simp)))]

/-- An opening tag. -/
theorem parse_start_tag (hp : Held env p o) (hname : NameOk name) (hl : ∀ a ∈ l, AttrOk env a)
    (hnodup : (l.map Prod.fst).Nodup) (pos : ℕ) (rest : Bytes) (d : Dom) : ∃ pos',
      parse env pos (p ++ 60 :: (tagText name l ++ 62 :: rest)) d =
        parse env pos' rest ((d.adds (textNodes o)).starttag name (if l = [] then none else some l)) := by
  have hexec := exec_start_tag hp.chars (tagText_chars hname hl)
    (fun c hc => (tagText_head hname c hc).1) rest
  rw [tagText_last hname] at hexec
  refine ⟨_, parse_step hexec ?_⟩
  obtain ⟨herr1, herr2⟩ := find_attrErr hname hl
  rw [parseMarkup_tagText hname, hp.read, Dom.text_eq, parseElement, herr1, herr2,
    parseTag_tagText hname hl hnodup]
  rfl

/-- A closing tag. -/
theorem parse_end_tag (hp : Held env p o) (hname : NameOk name) (pos : ℕ) (rest : Bytes)
    (d : Dom) (attr : Option Attrs) (ns : List Node) : ∃ pos',
      parse env pos (p ++ 60 :: 47 :: (name ++ 62 :: rest)) ((d.starttag name attr).adds ns) =
        parse env pos' rest (d.adds [.element name attr (ns ++ textNodes o)]) := by
  have htext : tagText name [] = name := List.append_nil name
  have hnone : ∀ a ∈ ([] : Attrs), AttrOk env a := fun a ha => absurd ha List.not_mem_nil
  have hexec := exec_end_tag hp.chars (fun c hc => (hname.chars c hc).2) rest
  have hlast := tagText_last (l := []) hname
  rw [htext] at hlast
  rw [hlast] at hexec
  refine ⟨_, parse_step hexec ?_⟩
  obtain ⟨herr1, herr2⟩ := find_attrErr hname hnone
  have htag := parseTag_tagText hname hnone List.nodup_nil
  have hmarkup := @parseMarkup_tagText env name [] hname pos (p ++ 60 :: 47 :: (name ++ 62 :: rest)) [47] [] rest
  rw [htext] at herr1 herr2 htag hmarkup
  rw [hmarkup, hp.read, Dom.text_eq, ← Dom.adds_append, parseElement, herr1, herr2, htag]
  change Except.map _ (Dom.endtag _ name) = _
  rw [Dom.endtag_adds]
  rfl

/-- The first end of a comment is the one that is written. -/
theorem comment_end {s : Bytes} (hs : ¬ str "-->" <:+: s) (rest : Bytes) {u v : Bytes}
    (huv : 32 :: (s ++ [32]) = u ++ v) (hv : v ≠ []) : ¬ str "-->" <+: v ++ (str "-->" ++ rest) := by
  have hmark : str "-->" = [45, 45, 62] := by decide
  -- the last byte of `v` is the blank
  obtain ⟨v, rfl⟩ : ∃ w, v = w ++ [32] := by
    obtain ⟨w, c, rfl⟩ : ∃ w c, v = w ++ [c] := ⟨_, _, (List.dropLast_append_getLast hv).symm⟩
    rw [← List.cons_append, ← List.append_assoc] at huv
    exact ⟨w, by rw [(List.append_inj_right' huv rfl)]⟩
  intro hp
  rw [List.append_assoc] at hp
  rcases Nat.lt_or_ge v.length 3 with hlt | hge
  · rw [hmark] at hp
    match v, hlt, hp with
    | [], _, hp => simp [List.cons_prefix_cons] at hp
    | [a], _, hp => simp [List.cons_prefix_cons] at hp
    | [a, b], _, hp => simp [List.cons_prefix_cons] at hp
  · have hpv : str "-->" <+: v := List.prefix_of_prefix_length_le hp (List.prefix_append _ _) hge
    rw [← List.append_assoc, ← List.cons_append] at huv
    have hcons : 32 :: s = u ++ v := List.append_inj_left' huv rfl
    cases u with
    | nil =>
      rw [List.nil_append] at hcons
      rw [← hcons, hmark] at hpv
      simp [List.cons_prefix_cons] at hpv
    | cons c u =>
      obtain ⟨-, rfl⟩ := List.cons.inj hcons
      exact hs (hpv.isInfix.trans (List.suffix_append u v).isInfix)

/-- What the pattern of a comment finds. -/
theorem find_comment {s : Bytes} (hp : ∀ c ∈ p, c ≠ 60) (hs : ¬ str "-->" <:+: s) (rest : Bytes) :
    find commentItems (p ++ (str "<!--" ++ (32 :: (s ++ [32]) ++ (str "-->" ++ rest)))) =
      some (p, [32 :: (s ++ [32])], rest) := by
  have hitems : commentItems =
      lit (str "<!--") ++ (.opens :: .lazy anyByte :: .closes :: lit (str "-->")) := by
    rw [commentItems, between, List.append_assoc]
    rfl
  rw [hitems]
  refine find_skip (fun u v huv hv => ?_) ?_
  · -- a comment starts with `<`
    obtain ⟨c, v, rfl⟩ := List.exists_cons_of_ne_nil hv
    have hc : c ≠ 60 := hp c (by rw [huv]; simp)
    have hmark : str "<!--" = 60 :: str "!--" := rfl
    rw [exec, run_lit, if_neg]
    rw [hmark, List.cons_append, List.cons_prefix_cons]
    exact fun h => hc h.1.symm
  · rw [exec, run_lit, if_pos (List.prefix_append _ _), List.drop_left]
    change minExpand anyByte (Pattern.run (.closes :: lit (str "-->"))
      (32 :: (s ++ [32]) ++ (str "-->" ++ rest)) []) (32 :: (s ++ [32]) ++ (str "-->" ++ rest)) = _
    have hend : ∀ start caps t, Pattern.run (lit (str "-->")) start caps t =
        if str "-->" <+: t then some (caps, t.drop (str "-->").length) else none := by
      intro start caps t
      have h := run_lit (str "-->") [] start caps t
      rwa [List.append_nil] at h
    refine minExpand_append (fun _ _ => rfl) ?_ fun u v huv hv => ?_
    · rw [run_closes, hend, if_pos (List.prefix_append _ _), List.drop_left]
      rfl
    · rw [huv, List.append_assoc, run_closes, hend, if_neg (comment_end hs rest huv hv)]

/-- A comment. -/
theorem parse_comment {s : Bytes} (hp : Held env p o) (hs : ¬ str "-->" <:+: s) (pos : ℕ) (rest : Bytes)
    (d : Dom) : ∃ pos', parse env pos (p ++ (str "<!--" ++ (32 :: (s ++ [32]) ++ (str "-->" ++ rest)))) d =
      parse env pos' rest
        (d.adds (textNodes o ++ [.comment (parseEntities env (stripWS (32 :: (s ++ [32]))))])) := by
  have hfind := find_comment hp.chars hs rest
  -- the tag ends at the first `>`
  obtain ⟨w, after, hw, hsplit⟩ : ∃ w after, (∀ c ∈ w, c ≠ 62) ∧
      str "<!--" ++ (32 :: (s ++ [32]) ++ (str "-->" ++ rest)) = 60 :: (str "!-- " ++ w ++ 62 :: after) := by
    have hmark : str "<!--" = [60, 33, 45, 45] ∧ str "!-- " = [33, 45, 45, 32] ∧ str "-->" = [45, 45, 62] := by
      decide
    have hmem : (62 : UInt8) ∈ s ++ [32] ++ ([45, 45, 62] ++ rest) := by simp
    obtain ⟨w, after, hsplit, hw⟩ := List.eq_append_cons_of_mem hmem
    refine ⟨w, after, fun c hc => ne_of_mem_of_not_mem hc hw, ?_⟩
    rw [hmark.1, hmark.2.1, hmark.2.2]
    calc [60, 33, 45, 45] ++ (32 :: (s ++ [32]) ++ ([45, 45, 62] ++ rest))
        = [60, 33, 45, 45, 32] ++ (s ++ [32] ++ ([45, 45, 62] ++ rest)) := rfl
      _ = 60 :: ([33, 45, 45, 32] ++ w ++ 62 :: after) := by rw [hsplit]; simp
  have htag : ∀ c ∈ str "!-- " ++ w, c ≠ 62 := by
    intro c hc
    rcases List.mem_append.1 hc with hc | hc
    · have hall : ∀ c ∈ str "!-- ", c ≠ 62 := by decide +kernel
      exact hall c hc
    · exact hw c hc
  have hslash : str "!--" <+: (splitSlash (str "!-- " ++ w)).1 := by
    have happend := splitSlash_append (str "!-- " ++ w)
    have hle : (splitSlash (str "!-- " ++ w)).2.length ≤ 1 := by
      rw [splitSlash]
      split_ifs <;> simp
    have hlen := congrArg List.length happend
    have hfour : (str "!-- ").length = 4 := rfl
    have hthree : (str "!--").length = 3 := rfl
    simp only [List.length_append, hfour] at hlen
    have hpre : str "!--" <+: str "!-- " ++ w :=
      (by decide : str "!--" <+: str "!-- ").trans (List.prefix_append _ _)
    have hbody : (splitSlash (str "!-- " ++ w)).1 <+: str "!-- " ++ w := ⟨_, happend⟩
    exact List.prefix_of_prefix_length_le hpre hbody (by omega)
  rw [hsplit] at hfind ⊢
  have hhead : ∀ c ∈ (str "!-- " ++ w).head?, c ≠ 47 := by
    have hmark : (str "!-- " ++ w).head? = some 33 := rfl
    rw [hmark]
    rintro c ⟨⟩
    decide
  refine ⟨_, parse_step (exec_start_tag hp.chars htag hhead after) ?_⟩
  obtain ⟨r, hr⟩ := hslash
  have hstr : str "!--" = [33, 45, 45] := by decide
  rw [← hr, hstr, parseMarkup]
  have hdecl : isDecl ([33, 45, 45] ++ r) = false := rfl
  have hpi : ([33, 45, 45] ++ r).take 1 ≠ str "?" := fun h => absurd h (by decide : [33] ≠ str "?")
  have hcomment : ([33, 45, 45] ++ r).take 3 = str "!--" := hstr.symm
  rw [if_neg (by rw [hdecl]; exact Bool.false_ne_true), if_neg hpi, if_pos hcomment, parseComment, hfind,
    hp.read, Dom.text_eq, Dom.adds_append]
  rfl

end Tags

/-! ### Tables of attributes -/

theorem lookup_eq_some_iff_mem {l : Attrs} (h : (l.map Prod.fst).Nodup) {k v : Bytes} :
    l.lookup k = some v ↔ (k, v) ∈ l := by
  induction l with
  | nil => simp
  | cons a l ih =>
    rw [List.map_cons, List.nodup_cons] at h
    rw [List.lookup_cons, List.mem_cons]
    by_cases hk : k = a.1
    · have hno : (k, v) ∉ l := fun hmem => h.1 (hk ▸ List.mem_map_of_mem hmem)
      simp only [hk, BEq.rfl]
      rw [hk] at hno
      simp only [hno, or_false, Option.some.injEq]
      exact ⟨fun hv => Prod.ext rfl hv.symm, fun hv => (congrArg Prod.snd hv).symm⟩
    · have hne : (k == a.1) = false := beq_false_of_ne hk
      rw [hne, ih h.2]
      exact ⟨Or.inr, fun hmem => hmem.resolve_left fun heq => hk (congrArg Prod.fst heq)⟩

/-- The order of a table does not matter. -/
theorem lookup_perm {l l' : Attrs} (hp : l.Perm l') (h : (l.map Prod.fst).Nodup) (k : Bytes) :
    l.lookup k = l'.lookup k := by
  have h' : (l'.map Prod.fst).Nodup := (hp.map Prod.fst).nodup_iff.1 h
  refine Option.ext fun v => ?_
  rw [lookup_eq_some_iff_mem h, lookup_eq_some_iff_mem h', hp.mem_iff]

/-! ### Pieces of the file -/

/-- The parser reads a piece, behind any bytes that hold the text `o`: it adds nodes, and the bytes in front
of the next tag hold `o'`. -/
def Reads (env : Interpreter) (x o o' : Bytes) (ns : List Node) : Prop :=
  ∀ p, Held env p o → ∃ p', Held env p' o' ∧ ∀ pos rest d, ∃ pos',
    parse env pos (p ++ (x ++ rest)) d = parse env pos' (p' ++ rest) (d.adds ns)

section Reads

variable {x y o o' o'' : Bytes} {ns ms : List Node}

theorem Reads.append (hx : Reads env x o o' ns) (hy : Reads env y o' o'' ms) :
    Reads env (x ++ y) o o'' (ns ++ ms) := by
  intro p hp
  obtain ⟨p', hp', hx⟩ := hx p hp
  obtain ⟨p'', hp'', hy⟩ := hy p' hp'
  refine ⟨p'', hp'', fun pos rest d => ?_⟩
  obtain ⟨pos', hx⟩ := hx pos (y ++ rest) d
  obtain ⟨pos'', hy⟩ := hy pos' rest (d.adds ns)
  refine ⟨pos'', ?_⟩
  rw [List.append_assoc, hx, hy, ← Dom.adds_append]

theorem reads_blank {w : Bytes} (hw : ∀ c ∈ w, isspace c = true) : Reads env w o o [] := by
  intro p hp
  refine ⟨p ++ w, hp.blank hw, fun pos rest d => ⟨pos, ?_⟩⟩
  rw [List.append_assoc]
  rfl

theorem reads_text {s : Bytes} (hs : TextOk env s) : Reads env s [] s [] := by
  intro p hp
  refine ⟨p ++ s, hp.text hs, fun pos rest d => ⟨pos, ?_⟩⟩
  rw [List.append_assoc]
  rfl

theorem reads_comment {s : Bytes} (hs : ¬ str "-->" <:+: s) :
    Reads env (str "<!--" ++ (32 :: (s ++ [32]) ++ str "-->")) o []
      (textNodes o ++ [.comment (parseEntities env (stripWS (32 :: (s ++ [32]))))]) := by
  intro p hp
  refine ⟨[], held_nil, fun pos rest d => ?_⟩
  obtain ⟨pos', h⟩ := parse_comment hp hs pos rest d
  refine ⟨pos', ?_⟩
  rw [List.nil_append, ← h]
  simp

/-- An element, if its children are read. -/
theorem reads_element {name body : Bytes} {l : Attrs} (hname : NameOk name) (hl : ∀ a ∈ l, AttrOk env a)
    (hnodup : (l.map Prod.fst).Nodup) (hbody : Reads env body [] o' ns) :
    Reads env (60 :: (tagText name l ++ 62 :: (body ++ 60 :: 47 :: (name ++ [62])))) o []
      (textNodes o ++ [.element name (if l = [] then none else some l) (ns ++ textNodes o')]) := by
  intro p hp
  obtain ⟨p', hp', hbody⟩ := hbody [] held_nil
  refine ⟨[], held_nil, fun pos rest d => ?_⟩
  obtain ⟨pos1, h1⟩ := parse_start_tag hp hname hl hnodup pos
    (body ++ 60 :: 47 :: (name ++ 62 :: rest)) d
  obtain ⟨pos2, h2⟩ := hbody pos1 (60 :: 47 :: (name ++ 62 :: rest))
    ((d.adds (textNodes o)).starttag name (if l = [] then none else some l))
  obtain ⟨pos3, h3⟩ := parse_end_tag hp' hname pos2 rest (d.adds (textNodes o))
    (if l = [] then none else some l) ns
  refine ⟨pos3, ?_⟩
  rw [List.nil_append] at h2
  rw [List.nil_append, Dom.adds_append, ← h3, ← h2, ← h1]
  simp

theorem isspace_indent (l : ℕ) : ∀ c ∈ indent l, isspace c = true := by
  intro c hc
  rw [indent, List.mem_replicate] at hc
  rw [hc.2]
  decide

theorem isspace_newline : ∀ c ∈ str "\n", isspace c = true := by decide +kernel

/-- A line of its own. -/
theorem Reads.line (l : ℕ) (h : Reads env x o [] ns) :
    Reads env (indent l ++ (x ++ str "\n")) o [] ns := by
  have hline := (@reads_blank env o _ (isspace_indent l)).append (h.append (reads_blank isspace_newline))
  rwa [List.append_nil, List.nil_append] at hline

end Reads

/-! ### What is written of nodes -/

/-- What is written of some nodes is read back behind any text that may stand there: the contents are
the same, with the text that the next tag ends. -/
def ReadsBack (env : Interpreter) (x : Bytes) (cs : List Node) : Prop :=
  ∀ o, (pending (o ≠ []) cs).isSome → ∃ o' ns, Reads env x o o' ns ∧
    pending (o ≠ []) cs = some (decide (o' ≠ [])) ∧
    contents (ns ++ textNodes o') = contents (textNodes o) ++ contents cs

section ReadsBack

variable {x y : Bytes} {cs ds : List Node}

theorem readsBack_nil : ReadsBack env [] [] := by
  intro o _
  refine ⟨o, [], reads_blank (by simp), rfl, ?_⟩
  rw [List.nil_append, contents, List.append_nil]

theorem ReadsBack.append (hx : ReadsBack env x cs) (hy : ReadsBack env y ds) :
    ReadsBack env (x ++ y) (cs ++ ds) := by
  intro o ho
  rw [pending_append] at ho ⊢
  have hfirst : (pending (decide (o ≠ [])) cs).isSome := by
    cases hpending : pending (decide (o ≠ [])) cs with
    | none => rw [hpending] at ho; cases ho
    | some w => rfl
  obtain ⟨o', ns, hreads, hpending, hcontents⟩ := hx o hfirst
  rw [hpending, Option.bind_some] at ho ⊢
  obtain ⟨o'', ms, hreads', hpending', hcontents'⟩ := hy o' ho
  refine ⟨o'', ns ++ ms, hreads.append hreads', hpending', ?_⟩
  rw [List.append_assoc, contents_append, hcontents', ← List.append_assoc, ← contents_append, hcontents,
    contents_append, List.append_assoc]

/-- Something without a text behind it. -/
theorem readsBack_closed {n n' : Node} (hpending : ∀ waits, pending waits [n] = some false)
    (hcontents : n'.contents = n.contents) (h : ∀ o, Reads env x o [] (textNodes o ++ [n'])) :
    ReadsBack env x [n] := by
  intro o _
  refine ⟨[], _, h o, hpending _, ?_⟩
  have hnil : textNodes [] = [] := rfl
  rw [hnil, List.append_nil, contents_append, contents, contents, hcontents, contents, contents]

theorem readsBack_text {s : Bytes} (hs : TextOk env s) : ReadsBack env s [.text s] := by
  intro o ho
  have ho : o = [] := by
    by_contra hne
    rw [decide_eq_true hne] at ho
    cases ho
  subst ho
  refine ⟨s, [], reads_text hs, ?_, ?_⟩
  · rw [decide_eq_true hs.ne]
    rfl
  · have htext : textNodes s = [.text s] := if_neg hs.ne
    rw [htext]
    rfl

theorem readsBack_comment (l : ℕ) {s : Bytes} (hs : CommentOk s) :
    ReadsBack env (xdmp env l (.comment s)) [.comment s] := by
  have hmarks : str "<!-- " = str "<!--" ++ [32] ∧ str " -->\n" = 32 :: (str "-->" ++ str "\n") := by
    decide
  have htext : xdmp env l (.comment s) =
      indent l ++ (str "<!--" ++ (32 :: (formatS s ++ [32]) ++ str "-->") ++ str "\n") := by
    rw [xdmp, hmarks.1, hmarks.2]
    simp
  rw [htext]
  exact @readsBack_closed env _ _ (.comment (parseEntities env (stripWS (32 :: (formatS s ++ [32])))))
    (fun waits => rfl) rfl fun o => (reads_comment hs).line l

theorem readsBack_element (l : ℕ) {name : Bytes} {attr : Option Attrs} {children : List Node}
    (hreadable : (Node.element name attr children).Readable env)
    (htabled : (Node.element name attr children).Tabled)
    (hchildren : ReadsBack env (xdmpAll env (l + 1) children) children) :
    ReadsBack env (xdmp env l (.element name attr children)) [.element name attr children] := by
  obtain ⟨hname, hattr, hpending⟩ := hreadable
  obtain ⟨o', ns, hreads, -, hcontents⟩ := hchildren [] hpending
  have hlist : ∀ a ∈ attr.getD [], AttrOk env a := by
    cases attr with
    | none => exact fun a ha => absurd ha List.not_mem_nil
    | some t => exact hattr t rfl
  have hnodup : ((attr.getD []).map Prod.fst).Nodup := by
    cases attr with
    | none => exact List.nodup_nil
    | some t => exact htabled t rfl
  have hperm := env.pairs_perm (attr.getD [])
  -- the table that is read has the attributes in the order of `pairs`
  have hpairs : ∀ a ∈ env.pairs (attr.getD []), AttrOk env a := fun a ha => hlist a (hperm.mem_iff.1 ha)
  have hpairsNodup : ((env.pairs (attr.getD [])).map Prod.fst).Nodup := (hperm.map Prod.fst).nodup_iff.2 hnodup
  obtain ⟨body, hbody, htext⟩ : ∃ body, Reads env body [] o' ns ∧ xdmp env l (.element name attr children) =
      indent l ++ (60 :: (tagText name (env.pairs (attr.getD [])) ++
        62 :: (body ++ 60 :: 47 :: (name ++ [62]))) ++ str "\n") := by
    have hmarks : str "<" = [60] ∧ str ">\n" = 62 :: str "\n" ∧ str "</" = [60, 47] ∧ str ">" = [62] := by
      decide
    rw [xdmp, formatS_xatrdmp hlist, hname.format, hmarks.1, hmarks.2.1, hmarks.2.2.1, hmarks.2.2.2]
    by_cases hbreaks : breaks children = true
    · refine ⟨str "\n" ++ (xdmpAll env (l + 1) children ++ indent l), ?_, ?_⟩
      · have h := (@reads_blank env [] _ isspace_newline).append
          (hreads.append (reads_blank (isspace_indent l)))
        rwa [List.append_nil, List.nil_append] at h
      · rw [if_pos hbreaks, tagText]
        simp
    · refine ⟨xdmpAll env (l + 1) children, hreads, ?_⟩
      rw [if_neg hbreaks, tagText]
      simp
  rw [htext]
  refine readsBack_closed (fun waits => rfl) ?_ fun o =>
    (reads_element hname hpairs hpairsNodup hbody).line l
  have htable : ∀ k, ((if env.pairs (attr.getD []) = [] then none else some (env.pairs (attr.getD []))).getD
      []).lookup k = (attr.getD []).lookup k := by
    intro k
    rw [← lookup_perm hperm hpairsNodup]
    split_ifs with hnil
    · rw [hnil]
      rfl
    · rfl
  rw [Node.contents, Node.contents, hcontents, funext htable]
  rfl

/-- What is written of a list of nodes. -/
theorem readsBack_nodes {cs : List Node} (l : ℕ) (h : ∀ c ∈ cs, ReadsBack env (xdmp env l c) [c]) :
    ReadsBack env (xdmpAll env l cs) cs := by
  induction cs with
  | nil => exact readsBack_nil
  | cons c cs ih =>
    obtain ⟨hc, hcs⟩ := List.forall_mem_cons.1 h
    exact hc.append (ih hcs)

/-- **A node that is readable is read back.** -/
theorem readsBack_node {n : Node} (h : n.Every fun n => n.Readable env ∧ n.Tabled) :
    ∀ l, ReadsBack env (xdmp env l n) [n] := by
  induction h with
  | @element name attr children h _ ih =>
    exact fun l => readsBack_element l h.1 h.2 (readsBack_nodes (l + 1) fun c hc => ih c hc (l + 1))
  | text h => exact fun l => readsBack_text h.1
  | comment h => exact fun l => readsBack_comment l h.1
  | other h =>
    intro l o _
    refine ⟨o, [], reads_blank (by simp [xdmp]), rfl, ?_⟩
    rw [List.nil_append, contents, Node.contents, contents, List.append_nil, List.append_nil]

end ReadsBack

/-! ### The file -/

/-- What is written of a tree, and read back: nothing but the elements and comments of the root may stand
at its end. -/
structure Savable (env : Interpreter) (t : Elem) : Prop where
  attr : t.attr = none
  every : ∀ c ∈ t.children, c.Every fun n => n.Readable env ∧ n.Tabled
  closed : pending false t.children = some false

/-- **A tree that is savable is read back.** -/
theorem loadFile_xmldump {t : Elem} (h : Savable env t) :
    ∃ t', loadFile env (xmldump env t) = .ok t' ∧ t'.content = t.content := by
  obtain ⟨o, ns, hreads, hpending, hcontents⟩ :=
    readsBack_nodes 0 (fun c hc => readsBack_node (h.every c hc) 0) []
      (by rw [decide_eq_false (by simp), h.closed]; rfl)
  have ho : o = [] := by
    rw [decide_eq_false (by simp), h.closed] at hpending
    by_contra hne
    rw [decide_eq_true hne] at hpending
    cases hpending
  subst ho
  obtain ⟨p, hp, hparse⟩ := hreads [] held_nil
  obtain ⟨pos, hparse⟩ := hparse 1 [] ⟨[], []⟩
  have hnone : exec xmlItems p = none := by
    rw [exec, xmlItems]
    change maxExpand _ (Pattern.run (.closes :: .one (· = 60) :: _) p []) p = none
    refine maxExpand_eq_none fun u v huv _ => ?_
    cases v with
    | nil => rfl
    | cons c v =>
      have hc : c ≠ 60 := hp.chars c (by rw [huv]; simp)
      rw [Pattern.run, Pattern.run, if_neg (by simpa using hc)]
  have hload : loadFile env (xmldump env t) = .ok (.root ns) := by
    rw [List.append_nil, List.nil_append, List.append_nil] at hparse
    rw [loadFile, xmldump, hparse, parse_finish hnone, Dom.adds_root, finish, if_pos hp.blanks]
    rfl
  refine ⟨_, hload, Prod.ext ?_ ?_⟩
  · change _ = fun k => (t.attr.getD []).lookup k
    rw [h.attr]
    rfl
  · have hnil : textNodes [] = [] := rfl
    rw [hnil, List.append_nil] at hcontents
    exact hcontents

end ZRouter.Web
