import ZRouter.Web.Delivery
import ZRouter.Web.InputTag
import ZRouter.Web.Query
import ZRouter.Web.Saving
import ZRouter.Web.Setters

/-!
# Sending a form (`ajax.js` and `cmd.xml`)

`getValuesAsArray` writes the inputs of a form as a query line, `parse_query` reads it as the form `rq.POST`, and
`cmd.xml` enters it into the configuration, from which `conf_table` makes the form again.

* `encodeURIComponent`, `FormInput`, `getValuesAsArray`: the query line;
* `cmdXml`: the commands of the page;
* `parseQuery_componentQuery`: the line is read back;
* `Field.Accepts`, `setEntry_accepted`, `setEntries_accepted`: where a form can be entered, in any order;
* `shownInput`, `shownAs_markup`: the inputs that a browser makes of the form;
* `Filled`, `table_round_trip`: a form that is filled in, sent, entered and shown again.
-/

namespace ZRouter.Web

open Pattern

/-! ### The query line -/

/-- The characters that `encodeURIComponent` keeps. -/
def isUnescaped (c : UInt8) : Bool := isalnum c || (str "-_.!~*'()").contains c

/-- `encodeURIComponent`, for a string in UTF-8. -/
def encodeURIComponent (s : Bytes) : Bytes := s.flatMap fun c => if isUnescaped c then [c] else percent c

/-- An `input` of a form. -/
structure FormInput where
  type : Bytes
  name : Bytes
  value : Bytes
  checked : Bool
  disabled : Bool

/-- What one input adds to the line. -/
def FormInput.part (x : FormInput) : Bytes :=
  if x.disabled then []
  else
    let type := x.type.map tolower
    let type := if type = [] then str "text" else type
    if type = str "text" ∨ type = str "image" ∨ type = str "hidden" ∨ type = str "password" then
      38 :: (encodeURIComponent x.name ++ 61 :: encodeURIComponent x.value)
    else if type = str "checkbox" then
      if x.checked then 38 :: (encodeURIComponent x.name ++ str "=true")
      else 38 :: (encodeURIComponent x.name ++ str "=false")
    else if type = str "radio" then
      if x.checked then 38 :: (encodeURIComponent x.name ++ 61 :: encodeURIComponent x.value) else []
    else []

/-- The loop of `getValuesAsArray`. -/
def valuesFrom : Bytes → List FormInput → Bytes
  | ret, [] => ret
  | ret, x :: els => valuesFrom (ret ++ x.part) els

/-- `getValuesAsArray`; `random` is the text of `Math.random()`. -/
def getValuesAsArray (random : Bytes) (els : List FormInput) : Bytes :=
  valuesFrom (str "r=" ++ encodeURIComponent random) els

/-- The first input of a text, as a browser makes it of its attributes. -/
def shownInput (markup : Bytes) : Option FormInput :=
  (inputAttrs markup).map fun attrs =>
    ⟨(attrs.lookup (str "type")).getD [], (attrs.lookup (str "name")).getD [], (attrs.lookup (str "value")).getD [],
      (attrs.lookup (str "checked")).isSome, (attrs.lookup (str "disabled")).isSome⟩

/-! ### The page `cmd.xml` -/

/-- What the page gets from the system: whether `os.execute` gives 0, and what `save_file` gives for the tree. -/
structure Shell where
  execute : Bytes → Bool
  saveFile : Elem → Lua Bool

/-- The branch `save`. -/
def saveConfig (sh : Shell) (c : Elem) : Lua Bytes :=
  (sh.saveFile c).map fun saved =>
    if !saved then str "Error saving configuration"
    else if !sh.execute (str "/etc/rc.save_config") then
      str "Error saving configuration block to flash"
    else str "Configuration saved successful"

/-- `process` of the page, with the form in the order of `pairs`. -/
def cmdXml (sh : Shell) (c : Elem) (post : List (Bytes × Bytes)) : Elem × Lua Bytes :=
  if post.lookup (str "cmd") = some (str "get") then (c, getValue c (post.lookup (str "key")))
  else if post.lookup (str "cmd") = some (str "set") then setOne c post
  else if post.lookup (str "cmd") = some (str "upload_config") then (c, .ok (str "OK"))
  else if post.lookup (str "cmd") = some (str "upgrade") then
    (c, (getValue c (some (str "info.firmware.update_url"))).map fun _ => str "OK")
  else if post.lookup (str "cmd") = some (str "setmany") then setMany c post
  else if post.lookup (str "save") = some (str "config") then (c, saveConfig sh c)
  else if post.lookup (str "restore") = some (str "config") then
    (c, .ok (if !sh.execute (str "sh /tmp/restore_scrip.sh &") then str "Run restore script fail"
      else str "Configuration restore procedure started"))
  else if post.lookup (str "system") = some (str "reboot") then
    (c, .ok (if !sh.execute (str "sh /tmp/reboot_scrip.sh &") then str "Can't execute reboot script"
      else str "Reboot in progress"))
  else if post.lookup (str "telnet") = some (str "enable") then (c, .ok (str "telnet service started"))
  else (c, .ok (str "Unknow command"))

/-! ### Reading the line -/

/-- A text without the end of a line. -/
def OneLine (s : Bytes) : Prop := ¬ crlf <:+: s

instance (s : Bytes) : Decidable (OneLine s) := inferInstanceAs (Decidable (¬ _))

/-- The field of the line for a name and its value. -/
def componentField (p : Bytes × Bytes) : Bytes := encodeURIComponent p.1 ++ 61 :: encodeURIComponent p.2

/-- The line of some fields. -/
def componentQuery (l : List (Bytes × Bytes)) : Bytes := [38].intercalate (l.map componentField)

theorem isUnescaped_ne {c : UInt8} (h : isUnescaped c = true) :
    c ≠ 37 ∧ c ≠ 38 ∧ c ≠ 43 ∧ c ≠ 59 ∧ c ≠ 61 := by
  have key : ∀ c : UInt8, isUnescaped c = true → c ≠ 37 ∧ c ≠ 38 ∧ c ≠ 43 ∧ c ≠ 59 ∧ c ≠ 61 := by
    decide +kernel
  exact key c h

theorem mem_encodeURIComponent {s : Bytes} {d : UInt8} (h : d ∈ encodeURIComponent s) :
    d ≠ 38 ∧ d ≠ 59 ∧ d ≠ 61 := by
  have halnum : ∀ d : UInt8, d = 37 ∨ isalnum d = true → d ≠ 38 ∧ d ≠ 59 ∧ d ≠ 61 := by decide +kernel
  obtain ⟨c, -, hc⟩ := List.mem_flatMap.1 h
  by_cases hun : isUnescaped c = true
  · rw [if_pos hun, List.mem_singleton] at hc
    obtain ⟨-, h38, -, h59, h61⟩ := isUnescaped_ne hun
    rw [hc]
    exact ⟨h38, h59, h61⟩
  · rw [if_neg hun] at hc
    exact halnum d (percent_bytes c d hc)

/-- What is encoded is decoded, up to the ends of lines. -/
theorem urlDecode_encodeURIComponent (s : Bytes) : urlDecode (encodeURIComponent s) = crlfToLf s := by
  have hplus : plusToSpace (encodeURIComponent s) = encodeURIComponent s := by
    refine plusToSpace_of_not_mem fun h => ?_
    obtain ⟨c, -, hc⟩ := List.mem_flatMap.1 h
    by_cases hun : isUnescaped c = true
    · rw [if_pos hun, List.mem_singleton] at hc
      exact (isUnescaped_ne hun).2.2.1 hc.symm
    · rw [if_neg hun] at hc
      exact absurd (percent_bytes c 43 hc) (by decide)
  have hbytes : ∀ s : Bytes, unpercent (encodeURIComponent s) = s := by
    intro s
    induction s with
    | nil => exact unpercent_nil
    | cons c s ih =>
      have hcons : encodeURIComponent (c :: s) =
          (if isUnescaped c then [c] else percent c) ++ encodeURIComponent s := List.flatMap_cons
      rw [hcons]
      by_cases hun : isUnescaped c = true
      · rw [if_pos hun, List.singleton_append, unpercent_cons (isUnescaped_ne hun).1, ih]
      · rw [if_neg hun, unpercent_percent, ih]
  rw [urlDecode, hplus, hbytes]

theorem crlfToLf_of_oneLine {s : Bytes} (h : OneLine s) : crlfToLf s = s :=
  gsub_of_none (exec_lit_eq_none_iff.2 h)

/-- **The line is read back.** -/
theorem parseQuery_componentQuery {l : List (Bytes × Bytes)} (h : ∀ p ∈ l, OneLine p.1 ∧ OneLine p.2) :
    parseQuery (componentQuery l) = Table.ofPairs l := by
  have hmem : ∀ f ∈ l.map componentField, (38 : UInt8) ∉ f ∧ (59 : UInt8) ∉ f := by
    intro f hf
    obtain ⟨p, -, rfl⟩ := List.mem_map.1 hf
    constructor
    · intro hc
      rcases List.mem_append.1 hc with hc | hc
      · exact (mem_encodeURIComponent hc).1 rfl
      · rcases List.mem_cons.1 hc with hc | hc
        · exact absurd hc (by decide)
        · exact (mem_encodeURIComponent hc).1 rfl
    · intro hc
      rcases List.mem_append.1 hc with hc | hc
      · exact (mem_encodeURIComponent hc).2.1 rfl
      · rcases List.mem_cons.1 hc with hc | hc
        · exact absurd hc (by decide)
        · exact (mem_encodeURIComponent hc).2.1 rfl
  have hsemi : 59 ∉ componentQuery l := by
    intro hc
    rcases mem_intercalate hc with hc | ⟨f, hf, hc⟩
    · exact absurd hc (by decide)
    · exact (hmem f hf).2 hc
  rw [parseQuery, queryPairs, entities_of_not_mem hsemi]
  congr 1
  by_cases hl : l = []
  · subst hl
    rfl
  rw [componentQuery, List.splitOn_intercalate 38 (fun f hf => (hmem f hf).1) (by simpa using hl),
    List.filterMap_map]
  refine (List.filterMap_congr fun p hp => ?_).trans List.filterMap_some
  obtain ⟨hkey, hvalue⟩ := h p hp
  rw [Function.comp_apply, componentField, ginsert_eq fun hc => (mem_encodeURIComponent hc).2.2 rfl,
    urlDecode_encodeURIComponent, urlDecode_encodeURIComponent, crlfToLf_of_oneLine hkey,
    crlfToLf_of_oneLine hvalue]

/-! ### Elements that take an entry -/

/-- The element of the entry is there, with a place for its value or a table for its attribute. -/
def Field.Accepts (c : Elem) (base : List Part) (f : Field) : Prop :=
  ∃ e, getNode c (fullPath (renderPath base) (renderPath f.sub)) = some e ∧
    match f with
    | .value _ => e.hasPlace = true
    | .attr _ _ => e.attr.isSome = true

/-- What a function of an element sees does not change when another element is changed, if it does not look into
the children of its own. -/
theorem map_at_modify {β : Type*} {g : Elem → β} {f : Elem → Elem}
    (hg : ∀ {a : Option Attrs} {cs : List Node} {i : ℕ} {n : Bytes} {attr : Option Attrs} {children : List Node},
      cs[i]? = some (.element n attr children) → ∀ attr' children',
        g ⟨a, cs.set i (.element n attr' children')⟩ = g ⟨a, cs⟩)
    (hf : ∀ d i, (f d).child i = d.child i) : ∀ {pos r : List ℕ} {t : Elem},
    r ≠ pos → ((t.modify pos f).at r).map g = (t.at r).map g := by
  intro pos
  induction pos with
  | nil =>
    intro r t hr
    obtain ⟨i, r, rfl⟩ := List.exists_cons_of_ne_nil hr
    rw [Elem.modify, Elem.at, Elem.at, hf]
  | cons i pos ih =>
    intro r t hr
    rw [Elem.modify]
    split
    · rename_i n attr children hn
      cases r with
      | nil => exact congrArg some (hg hn _ _)
      | cons j r =>
        rw [Elem.at, Elem.at]
        by_cases hij : j = i
        · subst hij
          rw [child_set_self hn, child_of_getElem? hn]
          exact ih fun h => hr (by rw [h])
        · rw [child_set_of_ne hij]
    · rfl

/-- Whether an entry can be made in an element. -/
def Elem.takes (e : Elem) : Bool × Bool := (e.hasPlace, e.attr.isSome)

theorem takes_set {a : Option Attrs} {cs : List Node} {i : ℕ} {n : Bytes} {attr : Option Attrs}
    {children : List Node} (h : cs[i]? = some (.element n attr children)) (attr' : Option Attrs)
    (children' : List Node) :
    Elem.takes ⟨a, cs.set i (.element n attr' children')⟩ = Elem.takes ⟨a, cs⟩ := by
  cases cs with
  | nil => rfl
  | cons c cs =>
    cases i with
    | zero =>
      cases h
      rfl
    | succ i => cases c <;> rfl

theorem takes_setValue {e : Elem} (h : e.hasPlace = true) (v : Bytes) : (e.setValue v).takes = e.takes := by
  rw [Elem.hasPlace] at h
  rw [Elem.takes, Elem.takes, setValue_attr, Elem.hasPlace, Elem.hasPlace, Elem.setValue]
  cases hcs : e.children with
  | nil => rfl
  | cons c cs =>
    rw [hcs] at h
    cases c with
    | text s => rfl
    | comment s => rfl
    | element n attr children => cases h
    | other n attr => cases h

theorem takes_setAttr (e : Elem) (a v : Bytes) : (e.setAttr a v).takes = e.takes := by
  rw [Elem.takes, Elem.takes, Elem.setAttr]
  exact Prod.ext rfl (by cases e.attr <;> rfl)

/-- The element of a path that leads to one. -/
theorem locate_of_getNode {c e : Elem} {path : Bytes} (h : getNode c path = some e) :
    ∃ pos, locate (path.length + 1) c path = some pos ∧ c.at pos = some e :=
  Option.bind_eq_some_iff.1 h

/-- A change after which an element takes what it took keeps the others so. -/
theorem accepts_modify {base : List Part} (hb : base ≠ []) {c e : Elem} {pos : List ℕ} (he : c.at pos = some e)
    {f : Elem → Elem} (hchild : ∀ d i, (f d).child i = d.child i) (hgrows : Grows e (f e))
    (htakes : (f e).takes = e.takes) {x : Field} (hx : x.Accepts c base) : x.Accepts (c.modify pos f) base := by
  obtain ⟨d, hd, haccepts⟩ := hx
  rw [fullPath_render hb, getNode_render] at hd
  obtain ⟨r, hr, hdr⟩ := look_eq_some.1 hd
  obtain ⟨hr', d', hd', -, -⟩ := follow_modify he hgrows hr hdr
  have hsame : d'.takes = d.takes := by
    by_cases hpos : r = pos
    · subst hpos
      rw [at_modify he, Option.some.injEq] at hd'
      rw [he, Option.some.injEq] at hdr
      rw [← hd', ← hdr, htakes]
    · have hmap := @map_at_modify _ Elem.takes f takes_set hchild pos r c hpos
      rw [hd', hdr] at hmap
      exact Option.some.inj hmap
  refine ⟨d', ?_, ?_⟩
  · rw [fullPath_render hb, getNode_render]
    exact look_eq_some.2 ⟨r, hr', hd'⟩
  · obtain ⟨hplace, hattr⟩ := Prod.mk.inj hsame
    cases x with
    | value sub =>
      dsimp only at haccepts ⊢
      rw [hplace, haccepts]
    | attr sub attrname =>
      dsimp only at haccepts ⊢
      rw [hattr, haccepts]

/-- One entry: it is made, and the other ones can still be made. -/
theorem setEntry_accepted {base : List Part} (hb : base ≠ []) {c : Elem} {f : Field} (hf : f.Accepts c base)
    (v : Bytes) : ∃ c', setEntry (renderPath base) c f.key v = (c', .ok ()) ∧
      ∀ x : Field, x.Accepts c base → x.Accepts c' base := by
  obtain ⟨e, he, haccepts⟩ := hf
  obtain ⟨pos, hpos, hat⟩ := locate_of_getNode he
  cases f with
  | value sub =>
    have hset : ((c.modify pos (·.setValue v)).at pos).bind Elem.value = some v := by
      rw [at_modify hat, Option.bind_some]
      exact (value_setValue_iff e v).2 haccepts
    refine ⟨c.modify pos (·.setValue v), ?_, fun x hx => ?_⟩
    · rw [setEntry, exec_attr_value_key, exec_value_key]
      dsimp only [Field.sub] at hpos ⊢
      rw [getOrCreateNode, hpos]
      dsimp only
      rw [hset]
      rfl
    · exact accepts_modify hb hat (child_setValue · v) (grows_setValue e v) (takes_setValue haccepts v) hx
  | attr sub attrname =>
    have hchild : ∀ (d : Elem) i, (d.setAttr attrname v).child i = d.child i := fun _ _ => rfl
    have hgrows : Grows e (e.setAttr attrname v) := fun name k i h => ⟨h, rfl⟩
    have haccepted : ∀ x : Field, x.Accepts c base →
        x.Accepts (c.modify pos (·.setAttr attrname v)) base := fun x hx =>
      @accepts_modify base hb c e pos hat (·.setAttr attrname v) hchild hgrows (takes_setAttr e attrname v) x hx
    refine ⟨c.modify pos (·.setAttr attrname v), ?_, haccepted⟩
    obtain ⟨e', he', hattr⟩ := haccepted _ ⟨e, he, haccepts⟩
    rw [setEntry, exec_attr_key]
    dsimp only [Field.sub] at hpos he' ⊢
    rw [getOrCreateNode, hpos]
    dsimp only
    rw [he']
    dsimp only [Lua.get, bind, Except.bind]
    rw [Elem.getAttr]
    dsimp only at hattr
    obtain ⟨l, hl⟩ := Option.isSome_iff_exists.1 hattr
    rw [hl]
    rfl

/-- **A form whose elements are there is entered**, in whatever order its entries come. -/
theorem setEntries_accepted {base : List Part} (hb : base ≠ []) (post : List (Bytes × Bytes)) : ∀ {c : Elem},
    (∀ p ∈ post, (∃ f : Field, f.key = p.1 ∧ f.Accepts c base) ∨ Ignored p.1) →
      Steady base c post ∧ ∃ c', setEntries (renderPath base) c post = (c', .ok (str "OK")) := by
  induction post with
  | nil => exact fun {c} _ => ⟨trivial, c, rfl⟩
  | cons p post ih =>
    intro c h
    obtain ⟨k, v⟩ := p
    obtain ⟨hp, hrest⟩ := List.forall_mem_cons.1 h
    have hready : ∀ f : Field, f.key = k → Ready c (base ++ f.sub) := by
      intro f hf
      rcases hp with ⟨f', hf', e, he, -⟩ | hignored
      · obtain rfl := key_injective (hf.trans hf'.symm)
        rw [fullPath_render hb] at he
        exact Or.inl ⟨e, he⟩
      · exact absurd (hf ▸ hignored) (not_ignored f)
    obtain ⟨c', hc', hkept⟩ : ∃ c', setEntry (renderPath base) c k v = (c', .ok ()) ∧
        ∀ x : Field, x.Accepts c base → x.Accepts c' base := by
      rcases hp with ⟨f, rfl, hf⟩ | hignored
      · exact setEntry_accepted hb hf v
      · exact ⟨c, setEntry_ignored hignored _ _ _, fun _ hx => hx⟩
    obtain ⟨hsteady, c'', hc''⟩ := @ih c' fun p hp => (hrest p hp).imp
      (fun ⟨f, hf, hx⟩ => ⟨f, hf, hkept f hx⟩) id
    refine ⟨⟨hready, ?_⟩, c'', ?_⟩
    · rw [hc']
      exact hsteady
    · rw [setEntries, hc']
      exact hc''

/-! ### A form that is filled in -/

/-- A row of a form, and what the user made of its input. -/
structure Filled where
  row : Row
  text : Bytes
  ticked : Bool

/-- Its input. -/
def Filled.input (x : Filled) : FormInput :=
  ⟨x.row.htmltype, x.row.field.key, x.text, x.ticked, false⟩

/-- What the form says about the place of the row. -/
def Filled.sent (x : Filled) : Bytes :=
  if x.row.checkbox then if x.ticked then str "true" else str "false" else x.text

/-- The inputs of a form: the two hidden ones, those of the rows, and the button. -/
def tableInputs (rootpath : Bytes) (xs : List Filled) : List FormInput :=
  ⟨str "hidden", str "path", rootpath, false, false⟩ :: ⟨str "hidden", str "cmd", str "setmany", false, false⟩ ::
    (xs.map Filled.input ++ [⟨str "button", str "Update", str "Update", false, false⟩])

/-- What is sent. -/
def tablePairs (random rootpath : Bytes) (xs : List Filled) : List (Bytes × Bytes) :=
  (str "r", random) :: (str "path", rootpath) :: (str "cmd", str "setmany") ::
    xs.map fun x => (x.row.field.key, x.sent)

/-- No two rows say different things about one place. -/
def Agreeing (base : List Part) (xs : List Filled) : Prop :=
  ∀ x ∈ xs, ∀ y ∈ xs, x.row.field.SamePlace base y.row.field → x.sent = y.sent

theorem valuesFrom_eq (els : List FormInput) : ∀ ret, valuesFrom ret els = ret ++ els.flatMap FormInput.part := by
  induction els with
  | nil => exact fun ret => (List.append_nil ret).symm
  | cons x els ih =>
    intro ret
    rw [valuesFrom, ih, List.flatMap_cons, List.append_assoc]

/-- The input of a row. -/
theorem part_input (x : Filled) : x.input.part = 38 :: componentField (x.row.field.key, x.sent) := by
  have hlower : (str "checkbox").map tolower = str "checkbox" ∧ (str "text").map tolower = str "text" ∧
      str "checkbox" ≠ [] ∧ str "checkbox" ≠ str "text" ∧ str "checkbox" ≠ str "image" ∧
      str "checkbox" ≠ str "hidden" ∧ str "checkbox" ≠ str "password" ∧ str "text" ≠ [] := by decide
  obtain ⟨hbox, htext, hbox0, hbox1, hbox2, hbox3, hbox4, htext0⟩ := hlower
  have htrue : encodeURIComponent (str "true") = str "true" := by decide +kernel
  have hfalse : encodeURIComponent (str "false") = str "false" := by decide +kernel
  have heqtrue : str "=true" = 61 :: str "true" := rfl
  have heqfalse : str "=false" = 61 :: str "false" := rfl
  obtain ⟨⟨label, checkbox, f⟩, text, ticked⟩ := x
  rw [FormInput.part, Filled.input, Filled.sent, componentField]
  dsimp only [Row.htmltype]
  cases checkbox with
  | false =>
    rw [if_neg Bool.false_ne_true, if_neg Bool.false_ne_true, if_neg Bool.false_ne_true, htext, if_neg htext0,
      if_pos (Or.inl rfl)]
  | true =>
    rw [if_neg Bool.false_ne_true, if_pos rfl, if_pos rfl, hbox, if_neg hbox0,
      if_neg (by simp only [hbox1, hbox2, hbox3, hbox4, or_self, not_false_eq_true]), if_pos rfl]
    cases ticked with
    | true => rw [if_pos rfl, if_pos rfl, heqtrue, htrue]
    | false => rw [if_neg Bool.false_ne_true, if_neg Bool.false_ne_true, heqfalse, hfalse]

theorem intercalate_flatMap (f : Bytes) (fs : List Bytes) :
    [38].intercalate (f :: fs) = f ++ fs.flatMap (38 :: ·) := by
  induction fs generalizing f with
  | nil => simp
  | cons f' fs ih =>
    rw [List.intercalate_cons_cons, ih, List.flatMap_cons]
    simp

/-- **The line of a form** has the fields of its rows, and no others but its path and the command. -/
theorem getValuesAsArray_table (random rootpath : Bytes) (xs : List Filled) :
    getValuesAsArray random (tableInputs rootpath xs) = componentQuery (tablePairs random rootpath xs) := by
  have hr : str "r=" = encodeURIComponent (str "r") ++ [61] := by decide +kernel
  have hhidden : ∀ name value : Bytes, FormInput.part ⟨str "hidden", name, value, false, false⟩ =
      38 :: componentField (name, value) := by
    intro name value
    have hlower : (str "hidden").map tolower = str "hidden" := by decide +kernel
    have hne : str "hidden" ≠ [] := by decide
    rw [FormInput.part, componentField]
    dsimp only
    rw [if_neg Bool.false_ne_true, hlower, if_neg hne, if_pos (Or.inr (Or.inr (Or.inl rfl)))]
  have hbutton : FormInput.part ⟨str "button", str "Update", str "Update", false, false⟩ = [] := by
    decide +kernel
  have hrows : (xs.map Filled.input).flatMap FormInput.part =
      (xs.map fun x => componentField (x.row.field.key, x.sent)).flatMap (38 :: ·) := by
    rw [List.flatMap_map, List.flatMap_map]
    exact congrArg (xs.flatMap ·) (funext part_input)
  rw [getValuesAsArray, valuesFrom_eq, tableInputs, componentQuery, tablePairs, List.map_cons,
    intercalate_flatMap, List.map_cons, List.map_cons, List.flatMap_cons, List.flatMap_cons, List.flatMap_cons,
    List.flatMap_cons, List.flatMap_append, List.flatMap_singleton, hbutton, hhidden, hhidden, hrows,
    List.append_nil, List.map_map, hr]
  simp [componentField, Function.comp_def]

theorem oneLine_of_not_mem {s : Bytes} (h : cr ∉ s) : OneLine s :=
  fun hs => h (hs.subset (List.mem_cons_self ..))

theorem oneLine_renderPath (ps : List Part) : OneLine (renderPath ps) := by
  refine oneLine_of_not_mem fun h => ?_
  rcases renderPath_chars ps cr h with h | h
  · exact absurd h (by decide)
  · exact absurd h (by decide)

/-- Every key of the line is there once its form has been read. -/
theorem exists_ofPairs {l : List (Bytes × Bytes)} {k v : Bytes} (h : (k, v) ∈ l) :
    ∃ w, Table.ofPairs l k = some w := by
  induction l using List.reverseRecOn with
  | nil => cases h
  | append_singleton l p ih =>
    rw [Table.ofPairs_append]
    by_cases hk : k = p.1
    · subst hk
      exact ⟨p.2, Function.update_self ..⟩
    · rw [Function.update_of_ne hk]
      rcases List.mem_append.1 h with h | h
      · exact ih h
      · rw [List.mem_singleton] at h
        exact absurd (congrArg Prod.fst h) hk

theorem samePlace_refl (base : List Part) (f : Field) : f.SamePlace base f := by
  cases f with
  | value sub => exact ⟨rfl, trivial⟩
  | attr sub attrname => exact ⟨rfl, rfl⟩

section Posted

variable {base : List Part} {xs : List Filled} {random : Bytes} {post : List (Bytes × Bytes)}

theorem ignored_hidden : Ignored (str "r") ∧ Ignored (str "path") ∧ Ignored (str "cmd") :=
  ⟨⟨by decide +kernel, by decide +kernel⟩, ⟨by decide +kernel, by decide +kernel⟩,
    ⟨by decide +kernel, by decide +kernel⟩⟩

/-- The entries of the line. -/
theorem mem_tablePairs {k v : Bytes} (h : (k, v) ∈ tablePairs random (renderPath base) xs) :
    (k = str "r" ∧ v = random) ∨ (k = str "path" ∧ v = renderPath base) ∨
      (k = str "cmd" ∧ v = str "setmany") ∨ ∃ x ∈ xs, x.row.field.key = k ∧ x.sent = v := by
  simp only [tablePairs, List.mem_cons, Prod.mk.injEq, List.mem_map] at h
  rcases h with h | h | h | ⟨x, hx, hk, hv⟩
  · exact Or.inl h
  · exact Or.inr (Or.inl h)
  · exact Or.inr (Or.inr (Or.inl h))
  · exact Or.inr (Or.inr (Or.inr ⟨x, hx, hk, hv⟩))

/-- A field of the line is one of the rows. -/
theorem field_of_tablePairs {f : Field} {v : Bytes} (h : (f.key, v) ∈ tablePairs random (renderPath base) xs) :
    ∃ x ∈ xs, x.row.field = f ∧ x.sent = v := by
  obtain ⟨hr, hpath, hcmd⟩ := ignored_hidden
  rcases mem_tablePairs h with ⟨hk, -⟩ | ⟨hk, -⟩ | ⟨hk, -⟩ | ⟨x, hx, hk, hv⟩
  · exact absurd (hk ▸ hr) (not_ignored f)
  · exact absurd (hk ▸ hpath) (not_ignored f)
  · exact absurd (hk ▸ hcmd) (not_ignored f)
  · exact ⟨x, hx, key_injective hk, hv⟩

/-- The form that `parse_query` makes of the line. -/
structure Posted (base : List Part) (xs : List Filled) (random : Bytes) (post : List (Bytes × Bytes)) : Prop where
  mem : ∀ p ∈ post, p ∈ tablePairs random (renderPath base) xs
  path : post.lookup (str "path") = some (renderPath base)
  cmd : post.lookup (str "cmd") = some (str "setmany")
  rows : ∀ x ∈ xs, (x.row.field.key, x.sent) ∈ post

theorem posted_of_enumerates (hagree : Agreeing base xs)
    (hline : ∀ x ∈ xs, OneLine x.row.field.key ∧ OneLine x.sent) (hrandom : OneLine random)
    (hpost : Enumerates (parseQuery (getValuesAsArray random (tableInputs (renderPath base) xs))) post) :
    Posted base xs random post := by
  have honeline : ∀ p ∈ tablePairs random (renderPath base) xs, OneLine p.1 ∧ OneLine p.2 := by
    rintro ⟨k, v⟩ hp
    have hwords : OneLine (str "r") ∧ OneLine (str "path") ∧ OneLine (str "cmd") ∧ OneLine (str "setmany") := by
      decide +kernel
    obtain ⟨hr, hpath, hcmd, hsetmany⟩ := hwords
    rcases mem_tablePairs hp with ⟨rfl, rfl⟩ | ⟨rfl, rfl⟩ | ⟨rfl, rfl⟩ | ⟨x, hx, rfl, rfl⟩
    · exact ⟨hr, hrandom⟩
    · exact ⟨hpath, oneLine_renderPath base⟩
    · exact ⟨hcmd, hsetmany⟩
    · exact hline x hx
  rw [getValuesAsArray_table, parseQuery_componentQuery honeline] at hpost
  have hmem : ∀ p ∈ post, p ∈ tablePairs random (renderPath base) xs := by
    rintro ⟨k, v⟩ hp
    exact Table.mem_of_ofPairs ((hpost.mem_iff k v).1 hp)
  -- the value of a key is the one that stands in the line, if it stands there with no other
  have hlookup : ∀ {k v : Bytes}, (k, v) ∈ tablePairs random (renderPath base) xs →
      (∀ w, (k, w) ∈ tablePairs random (renderPath base) xs → w = v) → (k, v) ∈ post := by
    intro k v hp hone
    obtain ⟨w, hw⟩ := exists_ofPairs hp
    have hwv := hone w (Table.mem_of_ofPairs hw)
    rw [hwv] at hw
    exact (hpost.mem_iff k v).2 hw
  obtain ⟨-, hpath, hcmd⟩ := ignored_hidden
  have hwords : str "path" ≠ str "r" ∧ str "cmd" ≠ str "r" ∧ str "cmd" ≠ str "path" := by decide
  obtain ⟨hpr, hcr, hcp⟩ := hwords
  refine ⟨hmem, ?_, ?_, fun x hx => ?_⟩
  · refine (lookup_eq_some_iff_mem hpost.nodup).2 (hlookup (by simp [tablePairs]) fun w hw => ?_)
    rcases mem_tablePairs hw with ⟨hk, -⟩ | ⟨-, hv⟩ | ⟨hk, -⟩ | ⟨x, -, hk, -⟩
    · exact absurd hk hpr
    · exact hv
    · exact absurd hk.symm hcp
    · exact absurd (hk ▸ hpath) (not_ignored x.row.field)
  · refine (lookup_eq_some_iff_mem hpost.nodup).2 (hlookup (by simp [tablePairs]) fun w hw => ?_)
    rcases mem_tablePairs hw with ⟨hk, -⟩ | ⟨hk, -⟩ | ⟨-, hv⟩ | ⟨x, -, hk, -⟩
    · exact absurd hk hcr
    · exact absurd hk hcp
    · exact hv
    · exact absurd (hk ▸ hcmd) (not_ignored x.row.field)
  · refine hlookup ?_ fun w hw => ?_
    · exact List.mem_cons_of_mem _ (List.mem_cons_of_mem _ (List.mem_cons_of_mem _ (List.mem_map.2 ⟨x, hx, rfl⟩)))
    · obtain ⟨y, hy, hfield, rfl⟩ := field_of_tablePairs hw
      exact hagree y hy x hx (by rw [hfield]; exact samePlace_refl base _)

end Posted

/-! ### The form that is shown again -/

/-- What `conf_table` does not escape: a label must hold no `<`, the name of an attribute and the text in it no
quotation mark and no `&`, and the text of a value no `&`. -/
structure Filled.Plain (x : Filled) : Prop where
  label : 60 ∉ x.row.label
  name : ∀ sub attrname, x.row.field = .attr sub attrname → 34 ∉ attrname ∧ 38 ∉ attrname
  amp : x.row.checkbox = false → 38 ∉ x.text
  quote : ∀ sub attrname, x.row.field = .attr sub attrname → x.row.checkbox = false → 34 ∉ x.text

/-- The input of a row holds what was entered, but that a check box for a value is shown without its tick. -/
def Filled.ShownAs (x : Filled) (y : FormInput) : Prop :=
  y.type = x.row.htmltype ∧ y.name = x.row.field.key ∧ y.disabled = false ∧
    (x.row.checkbox = false → y.value = x.text) ∧
    (x.row.checkbox = true → ∀ sub attrname, x.row.field = .attr sub attrname → y.checked = x.ticked) ∧
    (x.row.checkbox = true → ∀ sub, x.row.field = .value sub → y.checked = false)

theorem renderPath_free (ps : List Part) : 34 ∉ renderPath ps ∧ 38 ∉ renderPath ps := by
  have key : ∀ c : UInt8, ((isName c || c = 91 || c = 93) = true ∨ c = 46) → c ≠ 34 ∧ c ≠ 38 := by
    decide +kernel
  exact ⟨fun h => (key 34 (renderPath_chars ps 34 h)).1 rfl, fun h => (key 38 (renderPath_chars ps 38 h)).2 rfl⟩

theorem htmltype_free (r : Row) : 34 ∉ r.htmltype ∧ unescape r.htmltype = r.htmltype := by
  have hwords : (34 ∉ str "checkbox" ∧ 38 ∉ str "checkbox") ∧ 34 ∉ str "text" ∧ 38 ∉ str "text" := by decide
  obtain ⟨⟨h1, h2⟩, h3, h4⟩ := hwords
  rw [Row.htmltype]
  cases r.checkbox with
  | true => exact ⟨h1, unescape_of_not_mem h2⟩
  | false => exact ⟨h3, unescape_of_not_mem h4⟩

/-- The names of the attributes of an input are different. -/
theorem attribute_names : (str "type" == str "name") = false ∧ (str "value" == str "name") = false ∧
    (str "value" == str "type") = false ∧ (str "name" == str "type") = false ∧
    (str "value" == str "checked") = false ∧ (str "value" == str "onchange") = false ∧
    (str "checked" == str "name") = false ∧ (str "checked" == str "type") = false ∧
    (str "checked" == str "value") = false ∧ (str "checked" == str "onchange") = false ∧
    (str "disabled" == str "name") = false ∧ (str "disabled" == str "type") = false ∧
    (str "disabled" == str "value") = false ∧ (str "disabled" == str "checked") = false ∧
    (str "disabled" == str "onchange") = false := by decide

/-- **The row of what was entered shows it**, where nothing needs to be escaped that is not. -/
theorem shownAs_markup {x : Filled} (hx : x.Plain) {id : Bytes} (hid : 34 ∉ id) :
    ∃ y, shownInput (x.row.markup id x.sent) = some y ∧ x.ShownAs y := by
  obtain ⟨htype, hunescape⟩ := htmltype_free x.row
  have hwords : (38 ∉ str "true" ∧ 38 ∉ str "false") ∧ (34 ∉ str "sm:" ∧ 38 ∉ str "sm:") ∧
      34 ∉ str "smattr:" ∧ 38 ∉ str "smattr:" := by decide
  obtain ⟨⟨htrue, hfalse⟩, ⟨-, hsm⟩, -, hsmattr⟩ := hwords
  have hsent : 38 ∉ x.sent := by
    rw [Filled.sent]
    split_ifs with hbox
    · exact htrue
    · exact hfalse
    · exact hx.amp (Bool.eq_false_iff.2 hbox)
  cases hf : x.row.field with
  | value sub =>
    obtain ⟨hquote, hamp⟩ := renderPath_free sub
    have hname : unescape (str "sm:" ++ renderPath sub) = str "sm:" ++ renderPath sub :=
      unescape_of_not_mem (by simpa only [List.mem_append, not_or] using ⟨hsm, hamp⟩)
    have hmarkup : x.row.markup id x.sent =
        nodeMarkup id x.row.label x.row.htmltype (renderPath sub) (quoted x.sent) := by
      rw [Row.markup, Row.node, hf]
    refine ⟨⟨x.row.htmltype, x.row.field.key, x.sent, false, false⟩, ?_, rfl, rfl, rfl, fun hbox => ?_,
      fun _ _ _ h => ?_, fun _ _ _ => rfl⟩
    · rw [hmarkup, shownInput, inputAttrs_nodeMarkup hx.label hid htype hquote (quoted_free x.sent), hunescape, hname,
        unescape_quoted hsent, hf]
      simp [List.lookup, Field.key, attribute_names]
    · exact if_neg (by rw [hbox]; exact Bool.false_ne_true)
    · rw [hf] at h
      cases h
  | attr sub attrname =>
    obtain ⟨hquote, hamp⟩ := renderPath_free sub
    obtain ⟨hquote', hamp'⟩ := hx.name sub attrname hf
    have hnode : 34 ∉ renderPath sub ++ 58 :: attrname := by
      simpa only [List.mem_append, List.mem_cons, not_or] using ⟨hquote, by decide, hquote'⟩
    have hname : unescape (str "smattr:" ++ (renderPath sub ++ 58 :: attrname)) =
        str "smattr:" ++ (renderPath sub ++ 58 :: attrname) := by
      refine unescape_of_not_mem ?_
      simpa only [List.mem_append, List.mem_cons, not_or] using ⟨hsmattr, hamp, by decide, hamp'⟩
    cases hbox : x.row.checkbox with
    | false =>
      have htext : x.sent = x.text := if_neg (by rw [hbox]; exact Bool.false_ne_true)
      have hmarkup : x.row.markup id x.sent = attrMarkup id x.row.label x.row.htmltype
          (renderPath sub ++ 58 :: attrname) (valueAttribute x.text) := by
        rw [Row.markup, Row.node, hf, hbox, htext]
        rfl
      refine ⟨⟨x.row.htmltype, x.row.field.key, x.text, false, false⟩, ?_, rfl, rfl, rfl, fun _ => rfl,
        fun h => ?_, fun h => ?_⟩
      · rw [hmarkup, shownInput, inputAttrs_valueAttribute hx.label hid htype hnode (hx.quote sub attrname hf hbox),
          hunescape, hname, unescape_of_not_mem (hx.amp hbox), hf]
        simp [List.lookup, Field.key, attribute_names]
      · cases hbox.symm.trans h
      · cases hbox.symm.trans h
    | true =>
      have hticked : (x.sent ≠ [] ∧ x.sent ≠ str "false") ↔ x.ticked = true := by
        rw [Filled.sent, if_pos hbox]
        cases x.ticked <;> decide
      have hmarkup : x.row.markup id x.sent = attrMarkup id x.row.label x.row.htmltype
          (renderPath sub ++ 58 :: attrname) (checked (some x.sent)) := by
        rw [Row.markup, Row.node, hf, hbox]
        rfl
      refine ⟨⟨x.row.htmltype, x.row.field.key, [], x.ticked, false⟩, ?_, rfl, rfl, rfl, fun h => ?_,
        fun _ _ _ _ => rfl, fun _ sub' h => ?_⟩
      · rw [hmarkup, shownInput, inputAttrs_checked hx.label hid htype hnode, hunescape, hname, hf]
        by_cases htick : x.ticked = true
        · rw [if_pos (hticked.2 htick), htick]
          simp [List.lookup, Field.key, attribute_names]
        · rw [if_neg (mt hticked.1 htick), Bool.eq_false_iff.2 htick]
          simp [List.lookup, Field.key, attribute_names]
      · cases hbox.symm.trans h
      · rw [hf] at h
        cases h

/-- **A form that is sent is entered and shown.**  If the elements of its rows are there and take a value, the
page `cmd.xml` enters exactly what was filled in, in whatever order `pairs` gives the entries, and `conf_table`
then makes a row for each place from which a browser reads what was entered, where it needs no escape that
`conf_table` leaves out; the tick of a check box for a value is lost. -/
theorem table_round_trip {sh : Shell} {c : Elem} {base : List Part} {xs : List Filled} {random : Bytes}
    {post : List (Bytes × Bytes)} (hb : base ≠ []) (haccepts : ∀ x ∈ xs, x.row.field.Accepts c base)
    (hagree : Agreeing base xs) (hline : ∀ x ∈ xs, OneLine x.row.field.key ∧ OneLine x.sent)
    (hrandom : OneLine random)
    (hpost : Enumerates (parseQuery (getValuesAsArray random (tableInputs (renderPath base) xs))) post) :
    ∃ c', cmdXml sh c post = (c', .ok (str "OK")) ∧ FormKept c c' base post ∧
      ∀ id header, confTable c' id header (renderPath base) (xs.map fun x => x.row.tableField) =
          .ok (tableText id header (renderPath base) (xs.map fun x => x.row.markup id x.sent)) ∧
        (34 ∉ id → ∀ x ∈ xs, x.Plain → ∃ y, shownInput (x.row.markup id x.sent) = some y ∧ x.ShownAs y) := by
  have hposted := posted_of_enumerates hagree hline hrandom hpost
  have hfields : ∀ {f : Field} {v : Bytes}, (f.key, v) ∈ post → ∃ x ∈ xs, x.row.field = f ∧ x.sent = v :=
    fun hp => field_of_tablePairs (hposted.mem _ hp)
  have hkeys : ∀ p ∈ post, (∃ f : Field, f.key = p.1 ∧ f.Accepts c base) ∨ Ignored p.1 := by
    rintro ⟨k, v⟩ hp
    obtain ⟨hr, hpath, hcmd⟩ := ignored_hidden
    rcases mem_tablePairs (hposted.mem _ hp) with ⟨rfl, -⟩ | ⟨rfl, -⟩ | ⟨rfl, -⟩ | ⟨x, hx, hk, -⟩
    · exact Or.inr hr
    · exact Or.inr hpath
    · exact Or.inr hcmd
    · exact Or.inl ⟨x.row.field, hk, haccepts x hx⟩
  have hcons : Consistent base post := by
    intro f v f' v' hf hf' hsame
    obtain ⟨x, hx, rfl, rfl⟩ := hfields hf
    obtain ⟨y, hy, rfl, rfl⟩ := hfields hf'
    exact hagree x hx y hy hsame
  obtain ⟨hsteady, c', hc'⟩ := setEntries_accepted hb post hkeys
  obtain ⟨hholds, hkeeps⟩ := setEntries_kept hb post hc'
    (fun p hp => (hkeys p hp).imp (fun ⟨f, hf, _⟩ => ⟨f, hf⟩) id) hcons hsteady
  refine ⟨c', ?_, ⟨hholds, fun q e he => ?_⟩, fun id header => ⟨?_, fun hid x _ hx => shownAs_markup hx hid⟩⟩
  · have hne : str "setmany" ≠ str "get" ∧ str "setmany" ≠ str "set" ∧ str "setmany" ≠ str "upload_config" ∧
        str "setmany" ≠ str "upgrade" := by decide
    obtain ⟨hget, hset, hupload, hupgrade⟩ := hne
    rw [cmdXml, hposted.cmd, if_neg fun h => hget (Option.some.inj h), if_neg fun h => hset (Option.some.inj h),
      if_neg fun h => hupload (Option.some.inj h), if_neg fun h => hupgrade (Option.some.inj h), if_pos rfl,
      setMany, hposted.path]
    exact hc'
  · rw [getNode_render] at he
    obtain ⟨e', he', hsame⟩ := hkeeps _ e he
    exact ⟨e', by rw [getNode_render]; exact he', hsame⟩
  · have hrows := @confTable_rows base hb c' id header (xs.map fun x => (x.row, x.sent)) (by
      intro r hr
      obtain ⟨x, hx, rfl⟩ := List.mem_map.1 hr
      exact hholds _ _ (hposted.rows x hx))
    rw [List.map_map, List.map_map] at hrows
    exact hrows

/-- A form with a name, and a check box for an attribute of its own element. -/
def smallForm : List Filled :=
  [⟨⟨str "Name", false, .value [namePart]⟩, str "a+b=\"c\"", false⟩,
    ⟨⟨str "Enabled", true, .attr [] (str "enable")⟩, [], true⟩]

def smallConfig : Elem :=
  .root [.element (str "http") (some []) [.element (str "name") none [.text (str "joe")]]]

theorem table_round_trip_small :
    ∃ c', cmdXml ⟨fun _ => true, fun _ => .ok true⟩ smallConfig
        (tablePairs (str "0.5") (renderPath [httpPart]) smallForm) = (c', .ok (str "OK")) ∧
      FormKept smallConfig c' [httpPart] (tablePairs (str "0.5") (renderPath [httpPart]) smallForm) ∧
      ∀ id header, confTable c' id header (renderPath [httpPart]) (smallForm.map fun x => x.row.tableField) =
          .ok (tableText id header (renderPath [httpPart]) (smallForm.map fun x => x.row.markup id x.sent)) ∧
        (34 ∉ id → ∀ x ∈ smallForm, x.Plain →
          ∃ y, shownInput (x.row.markup id x.sent) = some y ∧ x.ShownAs y) := by
  have hnodup : ((tablePairs (str "0.5") (renderPath [httpPart]) smallForm).map Prod.fst).Nodup := by
    decide +kernel
  have honeline : ∀ p ∈ tablePairs (str "0.5") (renderPath [httpPart]) smallForm,
      OneLine p.1 ∧ OneLine p.2 := by decide +kernel
  have hline : ∀ x ∈ smallForm, OneLine x.row.field.key ∧ OneLine x.sent := by decide +kernel
  have hrandom : OneLine (str "0.5") := by decide +kernel
  refine table_round_trip (by simp) ?_ ?_ hline hrandom ⟨hnodup, fun k v => ?_⟩
  · intro x hx
    rcases List.mem_pair.1 hx with rfl | rfl
    · have hname : (getNode smallConfig (fullPath (renderPath [httpPart]) (renderPath [namePart]))).map
          Elem.takes = some (true, false) := by decide +kernel
      obtain ⟨e, he, htakes⟩ := Option.map_eq_some_iff.1 hname
      exact ⟨e, he, (Prod.mk.inj htakes).1⟩
    · have hhttp : (getNode smallConfig (fullPath (renderPath [httpPart]) (renderPath []))).map
          Elem.takes = some (false, true) := by decide +kernel
      obtain ⟨e, he, htakes⟩ := Option.map_eq_some_iff.1 hhttp
      exact ⟨e, he, (Prod.mk.inj htakes).2⟩
  · intro x hx y hy hsame
    rcases List.mem_pair.1 hx with rfl | rfl <;> rcases List.mem_pair.1 hy with rfl | rfl
    · rfl
    · exact absurd hsame.2 id
    · exact absurd hsame.2 id
    · rfl
  · rw [getValuesAsArray_table, parseQuery_componentQuery honeline, Table.ofPairs_eq_some_iff hnodup]

end ZRouter.Web
