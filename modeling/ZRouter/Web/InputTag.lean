import ZRouter.Web.ConfTable
import ZRouter.Web.UrlCode

/-!
# The inputs of a form in a browser

A browser reads the tags of `conf_table` as HTML: the attributes of a tag, with values between quotation marks
that may hold `&quot;`.  Only this much of HTML is modelled.

* `unescape`, `tagAttrs`, `inputAttrs`: the attributes of the first input of a text;
* `unescape_quoted`: what `conf_table` does to a value is undone;
* `inputAttrs_nodeMarkup`, `inputAttrs_valueAttribute`, `inputAttrs_checked`: the inputs of the rows.
-/

namespace ZRouter.Web

open Pattern

/-! ### Reading a tag -/

/-- The text of a value, where `&quot;` stands for a quotation mark. -/
def unescape (s : Bytes) : Bytes := gsub (lit (str "&quot;")) (fun _ _ => [34]) s

/-- What may stand between two attributes. -/
def isGap (c : UInt8) : Bool := isspace c || c = 47

/-- What may stand in the name of an attribute. -/
def isTagName (c : UInt8) : Bool := !isspace c && c ≠ 47 && c ≠ 61 && c ≠ 62

/-- The attribute at the start of a text, with its value if it has one, and what follows it. -/
def tagAttr (s : Bytes) : (Bytes × Bytes) × Bytes :=
  match s.dropWhile isTagName with
  | 61 :: 34 :: r => ((s.takeWhile isTagName, unescape (r.takeWhile (· ≠ 34))), (r.dropWhile (· ≠ 34)).tail)
  | r => ((s.takeWhile isTagName, []), r)

/-- The attributes of a tag up to its `>`, at most `n` of them. -/
def tagAttrs : ℕ → Bytes → List (Bytes × Bytes)
  | 0, _ => []
  | n + 1, s =>
      match s.dropWhile isGap with
      | [] => []
      | c :: t => if c = 62 then [] else (tagAttr (c :: t)).1 :: tagAttrs n (tagAttr (c :: t)).2

/-- The attributes of the first input in a text. -/
def inputAttrs (s : Bytes) : Option (List (Bytes × Bytes)) :=
  (strstr (str "<input") s).map fun t => tagAttrs t.length (t.drop 6)

/-! ### Values -/

theorem quoted_eq (v : Bytes) : quoted v = v.flatMap fun c => if c = 34 then str "&quot;" else [c] :=
  gsub_lit_singleton 34 v

/-- The value of an element is shown as it is, if it holds no `&`. -/
theorem unescape_quoted {v : Bytes} (h : 38 ∉ v) : unescape (quoted v) = v := by
  rw [quoted_eq]
  induction v with
  | nil => rfl
  | cons c v ih =>
    obtain ⟨hc, hv⟩ := not_or.1 (mt List.mem_cons.2 h)
    rw [List.flatMap_cons]
    by_cases hquote : c = 34
    · set rest : Bytes := v.flatMap fun c => if c = 34 then str "&quot;" else [c]
      have hmatch : exec (lit (str "&quot;")) (str "&quot;" ++ rest) = some ([], rest) := by
        rw [exec_lit, if_pos (List.prefix_append _ _), List.drop_left]
      have hlt : rest.length < (str "&quot;" ++ rest).length := by
        rw [List.length_append]
        exact Nat.lt_add_of_pos_left (by decide)
      rw [if_pos hquote, unescape, gsub_match hmatch hlt, hquote]
      exact congrArg (34 :: ·) (ih hv)
    · rw [if_neg hquote, List.singleton_append, unescape, gsub_skip]
      · exact congrArg (c :: ·) (ih hv)
      · rw [exec_lit, if_neg]
        rintro ⟨t, ht⟩
        exact hc (List.cons_eq_cons.1 ht).1

theorem quoted_free (v : Bytes) : 34 ∉ quoted v := by
  rw [quoted_eq]
  intro h
  obtain ⟨c, -, hc⟩ := List.mem_flatMap.1 h
  split_ifs at hc with hquote
  · exact absurd hc (by decide)
  · exact hquote (List.mem_singleton.1 hc).symm

theorem unescape_of_not_mem {v : Bytes} (h : 38 ∉ v) : unescape v = v :=
  gsub_lit_of_not_mem (c := 38) (by decide) h

/-! ### Attributes -/

/-- A word that may name an attribute. -/
def TagWord (w : Bytes) : Prop := w ≠ [] ∧ ∀ c ∈ w, isTagName c = true

instance (w : Bytes) : Decidable (TagWord w) := inferInstanceAs (Decidable (_ ∧ _))

theorem not_isGap {c : UInt8} (h : isTagName c = true) : isGap c = false ∧ c ≠ 62 := by
  have key : ∀ c : UInt8, isTagName c = true → isGap c = false ∧ c ≠ 62 := by decide +kernel
  exact key c h

/-- An attribute as it is written. -/
def inputAttr (w v : Bytes) : Bytes := w ++ 61 :: 34 :: (v ++ [34])

/-- An attribute with a value. -/
theorem tagAttr_value {w v : Bytes} (hw : TagWord w) (hv : 34 ∉ v) (rest : Bytes) :
    tagAttr (inputAttr w v ++ rest) = ((w, unescape v), rest) := by
  have htext : inputAttr w v ++ rest = w ++ 61 :: 34 :: (v ++ 34 :: rest) := by simp [inputAttr]
  have hdrop : (w ++ 61 :: 34 :: (v ++ 34 :: rest)).dropWhile isTagName = 61 :: 34 :: (v ++ 34 :: rest) :=
    dropWhile_append_of_all hw.2 (by simp [isTagName])
  have htake : (w ++ 61 :: 34 :: (v ++ 34 :: rest)).takeWhile isTagName = w :=
    takeWhile_append_of_all hw.2 (by simp [isTagName])
  have hquote : ∀ e ∈ v, decide (e ≠ 34) = true := fun e he => by
    simpa using fun h : e = 34 => hv (h ▸ he)
  rw [htext, tagAttr, hdrop, htake]
  change ((w, unescape ((v ++ 34 :: rest).takeWhile (· ≠ 34))), ((v ++ 34 :: rest).dropWhile (· ≠ 34)).tail) = _
  rw [takeWhile_append_of_all hquote (by simp), dropWhile_append_of_all hquote (by simp), List.tail_cons]

/-- An attribute without a value, in front of a blank. -/
theorem tagAttr_bare {w : Bytes} (hw : TagWord w) (rest : Bytes) :
    tagAttr (w ++ 32 :: rest) = ((w, []), 32 :: rest) := by
  rw [tagAttr, dropWhile_append_of_all hw.2 (by simp [isTagName, isspace]),
    takeWhile_append_of_all hw.2 (by simp [isTagName, isspace])]
  rfl

/-- The attributes of a tag, one by one. -/
theorem tagAttrs_cons {w gap s rest : Bytes} {a : Bytes × Bytes} (hw : TagWord w) (hs : w <+: s)
    (hgap : ∀ c ∈ gap, isGap c = true) (n : ℕ) (h : tagAttr s = (a, rest)) :
    tagAttrs (n + 1) (gap ++ s) = a :: tagAttrs n rest := by
  obtain ⟨c, w, rfl⟩ := List.exists_cons_of_ne_nil hw.1
  obtain ⟨t, rfl⟩ := hs
  obtain ⟨hc, h62⟩ := not_isGap (hw.2 c List.mem_cons_self)
  rw [tagAttrs, dropWhile_append_of_all hgap (by simpa using hc), List.cons_append]
  dsimp only
  rw [if_neg h62, ← List.cons_append, h]

theorem tagAttrs_value {w v gap : Bytes} (hw : TagWord w) (hv : 34 ∉ v) (hgap : ∀ c ∈ gap, isGap c = true)
    (n : ℕ) (rest : Bytes) :
    tagAttrs (n + 1) (gap ++ (inputAttr w v ++ rest)) = (w, unescape v) :: tagAttrs n rest :=
  tagAttrs_cons hw ((List.prefix_append w _).trans (List.prefix_append _ rest)) hgap n (tagAttr_value hw hv rest)

theorem tagAttrs_bare {w gap : Bytes} (hw : TagWord w) (hgap : ∀ c ∈ gap, isGap c = true) (n : ℕ)
    (rest : Bytes) : tagAttrs (n + 1) (gap ++ (w ++ 32 :: rest)) = (w, []) :: tagAttrs n (32 :: rest) :=
  tagAttrs_cons hw (List.prefix_append w _) hgap n (tagAttr_bare hw rest)

theorem tagAttrs_end (n : ℕ) (rest : Bytes) : tagAttrs n (str "/>" ++ rest) = [] := by
  cases n with
  | zero => rfl
  | succ n => rfl

/-! ### The rows of a form -/

/-- A text in which no `<input` can start. -/
structure NoInput (s : Bytes) : Prop where
  free : ¬ [60, 105] <:+: s
  last : s.getLast? ≠ some 60

theorem noInput_of_not_mem {s : Bytes} (h : 60 ∉ s) : NoInput s :=
  ⟨fun hs => h (hs.subset List.mem_cons_self), fun hs => h (List.mem_of_getLast? hs)⟩

/-- The first input is behind such a text. -/
theorem strstr_noInput {pre : Bytes} (h : NoInput pre) (s : Bytes) :
    strstr (str "<input") (pre ++ s) = strstr (str "<input") s := by
  induction pre with
  | nil => rfl
  | cons c pre ih =>
    have hrest : NoInput pre := by
      refine ⟨fun hs => h.free (hs.trans (List.suffix_cons c pre).isInfix), fun hs => h.last ?_⟩
      rw [List.getLast?_cons, hs]
      rfl
    have hne : (str "<input").isPrefixOf (c :: (pre ++ s)) = false := by
      rw [Bool.eq_false_iff]
      intro hp
      obtain ⟨t, ht⟩ := List.isPrefixOf_iff_prefix.1 hp
      have hc : c = 60 := (List.cons_eq_cons.1 ht).1.symm
      cases pre with
      | nil => exact h.last (by rw [hc]; rfl)
      | cons d pre =>
        have hd : d = 105 := (List.cons_eq_cons.1 (List.cons_eq_cons.1 ht).2).1.symm
        exact h.free ⟨[], pre, by rw [hc, hd]; rfl⟩
    rw [List.cons_append, strstr, hne, ih hrest]
    rfl

/-- What stands in front of an input with a label. -/
theorem inputAttrs_labelled {label s : Bytes} (h : 60 ∉ label) {before after : Bytes} (hbefore : NoInput before)
    (hafter : NoInput after) :
    inputAttrs (before ++ (label ++ (after ++ (str "<input" ++ s)))) =
      some (tagAttrs (s.length + 6) s) := by
  rw [inputAttrs, strstr_noInput hbefore, strstr_noInput (noInput_of_not_mem h), strstr_noInput hafter,
    strstr_append_self, Option.map_some, List.length_append, Nat.add_comm]
  rfl

/-- What an input does when it is changed. -/
def onchangeText (id : Bytes) : Bytes :=
  str "document.getElementById('" ++ (id ++ str "_update_button').disabled = false; return true;")

theorem onchangeText_free {id : Bytes} (h : 34 ∉ id) : 34 ∉ onchangeText id := by
  have hwords : (34 : UInt8) ∉ str "document.getElementById('" ∧
      (34 : UInt8) ∉ str "_update_button').disabled = false; return true;" := by decide +kernel
  simpa only [onchangeText, List.mem_append, not_or] using ⟨hwords.1, h, hwords.2⟩

theorem tagWords : TagWord (str "type") ∧ TagWord (str "name") ∧ TagWord (str "value") ∧
    TagWord (str "checked") ∧ TagWord (str "onchange") := by decide +kernel

theorem gap_blank : ∀ c ∈ [(32 : UInt8)], isGap c = true := by decide +kernel
theorem gap_blanks : ∀ c ∈ [(32 : UInt8), 32], isGap c = true := by decide +kernel

/-- The end of an input. -/
def inputEnd (id rest : Bytes) : Bytes := inputAttr (str "onchange") (onchangeText id) ++ (str "/>" ++ rest)

theorem tagAttrs_inputEnd {id gap : Bytes} (hid : 34 ∉ id) (hgap : ∀ c ∈ gap, isGap c = true) (n : ℕ)
    (rest : Bytes) : tagAttrs (n + 1) (gap ++ inputEnd id rest) =
      [(str "onchange", unescape (onchangeText id))] := by
  obtain ⟨-, -, -, -, honchange⟩ := tagWords
  rw [inputEnd, tagAttrs_value honchange (onchangeText_free hid) hgap, tagAttrs_end]

section Rows

variable {id label htmltype node v : Bytes}

theorem updateButton_eq (s : Bytes) :
    str "_update_button'" ++ (str ").disabled = false; return true;\"/></td>\n" ++ s) =
      str "_update_button').disabled = false; return true;" ++ 34 :: (str "/>" ++ (str "</td>\n" ++ s)) := rfl

/-- The input of a row for a value. -/
theorem inputAttrs_nodeMarkup (hlabel : 60 ∉ label) (hid : 34 ∉ id) (htype : 34 ∉ htmltype) (hnode : 34 ∉ node)
    (hv : 34 ∉ v) : inputAttrs (nodeMarkup id label htmltype node v) =
      some [(str "type", unescape htmltype), (str "name", unescape (str "sm:" ++ node)),
        (str "value", unescape v), (str "onchange", unescape (onchangeText id))] := by
  obtain ⟨hwtype, hwname, hwvalue, -, -⟩ := tagWords
  have hname : (34 : UInt8) ∉ str "sm:" ++ node := by
    simpa only [List.mem_append, not_or] using ⟨by decide, hnode⟩
  have hshape : nodeMarkup id label htmltype node v =
      (str "            <tr>\n" ++ str "        \t<td>") ++ (label ++ (str ":</td>\n    \t\t<td>" ++
        (str "<input" ++ ([32] ++ (inputAttr (str "type") htmltype ++ ([32] ++
        (inputAttr (str "name") (str "sm:" ++ node) ++ ([32] ++ (inputAttr (str "value") v ++ ([32] ++
        inputEnd id (str "</td>\n" ++ str "            </tr>\n"))))))))))) := by
    have hinput : ∀ s, str ":</td>\n" ++ (str "    \t\t<td><input type=\"" ++ s) =
        str ":</td>\n    \t\t<td>" ++ (str "<input" ++ ([32] ++ (str "type" ++ 61 :: 34 :: s))) := fun _ => rfl
    have hname : ∀ s, str "\" name=\"sm:" ++ s = 34 :: ([32] ++ (str "name" ++ 61 :: 34 :: (str "sm:" ++ s))) :=
      fun _ => rfl
    have hvalue : ∀ s, str "\" value=\"" ++ s = 34 :: ([32] ++ (str "value" ++ 61 :: 34 :: s)) := fun _ => rfl
    have honchange : ∀ s, str "\" onchange=\"document.getElementById(" ++ (str "'" ++ s) =
        34 :: ([32] ++ (str "onchange" ++ 61 :: 34 :: (str "document.getElementById('" ++ s))) := fun _ => rfl
    simp only [nodeMarkup, inputEnd, inputAttr, onchangeText, List.append_assoc, hinput, hname, hvalue, honchange,
      updateButton_eq, List.cons_append, List.nil_append]
  rw [hshape, inputAttrs_labelled hlabel ⟨by decide +kernel, by decide +kernel⟩
      ⟨by decide +kernel, by decide +kernel⟩,
    tagAttrs_value hwtype htype gap_blank, tagAttrs_value hwname hname gap_blank,
    tagAttrs_value hwvalue hv gap_blank, tagAttrs_inputEnd hid gap_blank]

/-- The input of a row for an attribute: its name and its type, and then what shows the attribute. -/
theorem inputAttrs_attrMarkup (id : Bytes) (hlabel : 60 ∉ label) (htype : 34 ∉ htmltype) (hnode : 34 ∉ node)
    (text : Bytes) : ∃ n rest, inputAttrs (attrMarkup id label htmltype node text) =
      some ((str "name", unescape (str "smattr:" ++ node)) :: (str "type", unescape htmltype) ::
        tagAttrs (n + 2) ([32] ++ (text ++ ([32] ++ inputEnd id rest)))) := by
  obtain ⟨hwtype, hwname, -, -, -⟩ := tagWords
  have hname : (34 : UInt8) ∉ str "smattr:" ++ node := by
    simpa only [List.mem_append, not_or] using ⟨by decide, hnode⟩
  have hshape : attrMarkup id label htmltype node text =
      (str "            <tr>\n" ++ str "        \t<td>") ++ (label ++ (str ":</td>\n        \t<td>" ++
        (str "<input" ++ ([32] ++ (inputAttr (str "name") (str "smattr:" ++ node) ++ ([32] ++
        (inputAttr (str "type") htmltype ++ ([32] ++ (text ++ ([32] ++
        inputEnd id (str "</td>\n" ++ str "    \t     </tr>\n"))))))))))) := by
    have hinput : ∀ s, str ":</td>\n" ++ (str "        \t<td><input name=\"smattr:" ++ s) =
        str ":</td>\n        \t<td>" ++
          (str "<input" ++ ([32] ++ (str "name" ++ 61 :: 34 :: (str "smattr:" ++ s)))) := fun _ => rfl
    have htype : ∀ s, str "type=\"" ++ s = str "type" ++ 61 :: 34 :: s := fun _ => rfl
    have hgap : ∀ s, str "\" " ++ s = 34 :: ([32] ++ s) := fun _ => rfl
    have honchange : ∀ s, str " onchange=\"" ++ (str "document.getElementById(" ++ (str "'" ++ s)) =
        [32] ++ (str "onchange" ++ 61 :: 34 :: (str "document.getElementById('" ++ s)) := fun _ => rfl
    simp only [attrMarkup, inputEnd, inputAttr, onchangeText, List.append_assoc, hinput, htype, hgap, honchange,
      updateButton_eq, List.cons_append, List.nil_append]
  rw [hshape, inputAttrs_labelled hlabel ⟨by decide +kernel, by decide +kernel⟩
      ⟨by decide +kernel, by decide +kernel⟩,
    tagAttrs_value hwname hname gap_blank, tagAttrs_value hwtype htype gap_blank]
  exact ⟨_, _, rfl⟩

/-- A text field shows the attribute. -/
theorem inputAttrs_valueAttribute (hlabel : 60 ∉ label) (hid : 34 ∉ id) (htype : 34 ∉ htmltype)
    (hnode : 34 ∉ node) (hv : 34 ∉ v) :
    inputAttrs (attrMarkup id label htmltype node (valueAttribute v)) =
      some [(str "name", unescape (str "smattr:" ++ node)), (str "type", unescape htmltype),
        (str "value", unescape v), (str "onchange", unescape (onchangeText id))] := by
  obtain ⟨-, -, hwvalue, -, -⟩ := tagWords
  obtain ⟨n, rest, h⟩ := inputAttrs_attrMarkup id hlabel htype hnode (valueAttribute v)
  have htext : [32] ++ (valueAttribute v ++ ([32] ++ inputEnd id rest)) =
      [32, 32] ++ (inputAttr (str "value") v ++ ([32] ++ inputEnd id rest)) := by
    have hvalue : ∀ s, str " value=\"" ++ s = 32 :: (str "value" ++ 61 :: 34 :: s) := fun _ => rfl
    have hquote : str "\"" = [34] := rfl
    simp only [valueAttribute, inputAttr, List.append_assoc, hvalue, hquote, List.cons_append, List.nil_append]
  rw [h, htext, tagAttrs_value hwvalue hv gap_blanks, tagAttrs_inputEnd hid gap_blank]

/-- A check box shows the attribute by its tick. -/
theorem inputAttrs_checked (hlabel : 60 ∉ label) (hid : 34 ∉ id) (htype : 34 ∉ htmltype) (hnode : 34 ∉ node)
    (v : Bytes) :
    inputAttrs (attrMarkup id label htmltype node (checked (some v))) =
      some ((str "name", unescape (str "smattr:" ++ node)) :: (str "type", unescape htmltype) ::
        ((if v ≠ [] ∧ v ≠ str "false" then [(str "checked", [])] else []) ++
          [(str "onchange", unescape (onchangeText id))])) := by
  obtain ⟨-, -, -, hwchecked, -⟩ := tagWords
  obtain ⟨n, rest, h⟩ := inputAttrs_attrMarkup id hlabel htype hnode (checked (some v))
  rw [h, checked]
  split_ifs
  · have hblank : ∀ s, ([32] ++ s : Bytes) = 32 :: s := fun _ => rfl
    rw [hblank (inputEnd id rest), tagAttrs_bare hwchecked gap_blank, ← hblank (inputEnd id rest),
      tagAttrs_inputEnd hid gap_blank]
    rfl
  · have htext : ([32] ++ ([] ++ ([32] ++ inputEnd id rest)) : Bytes) = [32, 32] ++ inputEnd id rest := rfl
    rw [htext, tagAttrs_inputEnd hid gap_blanks]
    rfl

end Rows

end ZRouter.Web
