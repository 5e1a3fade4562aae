import ZRouter.Web.Form
import ZRouter.Web.XmlParse

/-!
# `Node:value` and `Node:attr`

`n:value(v)` overwrites the text of the first child, or appends a text; `n:value()` reads the first child
only.  `n:attr(a, v)` does nothing to an element without a table of attributes.

* `Built`: the trees of `load_file` and `getOrCreateNode`;
* `at_modify_other`: what a setter leaves as it is;
* `SettersAgree`, `settersAgree_iff`: where getters give back what was set.
-/

namespace ZRouter.Web

open Pattern

/-! ### Trees -/

/-- The trees that `load_file` and `getOrCreateNode` build. -/
inductive Built (env : Interpreter) : Elem → Prop
  | load {file : Bytes} {t : Elem} : loadFile env file = .ok t → Built env t
  | create {t : Elem} (path : Bytes) : Built env t → Built env (getOrCreateNode t path).1

/-- The name of an element. -/
def Node.elementName : Node → Option Bytes
  | .element name _ _ => some name
  | _ => none

/-- The names of the child elements. -/
def Elem.elements (e : Elem) : List Bytes := e.children.filterMap Node.elementName

/-- The value and the attributes. -/
def Elem.data (e : Elem) : Option Bytes × Option Attrs := (e.value, e.attr)

/-! ### What stays as it is -/

/-- Every other element has its value and its attributes, and all have their child elements. -/
structure OthersKept (t t' : Elem) (pos : List ℕ) : Prop where
  data : ∀ r, r ≠ pos → (t'.at r).map Elem.data = (t.at r).map Elem.data
  elements : ∀ r, (t'.at r).map Elem.elements = (t.at r).map Elem.elements

/-- An element among the children is replaced by one of its name. -/
theorem elements_set {cs : List Node} {i : ℕ} {n : Bytes} {attr : Option Attrs}
    {children : List Node} (h : cs[i]? = some (.element n attr children)) (attr' : Option Attrs)
    (children' : List Node) : (cs.set i (.element n attr' children')).filterMap Node.elementName =
      cs.filterMap Node.elementName := by
  induction cs generalizing i with
  | nil => rfl
  | cons c cs ih =>
    cases i with
    | zero =>
      cases h
      rfl
    | succ i => rw [List.set_cons_succ, List.filterMap_cons, List.filterMap_cons, ih h]

theorem value_set {a : Option Attrs} {cs : List Node} {i : ℕ} {n : Bytes} {attr : Option Attrs}
    {children : List Node} (h : cs[i]? = some (.element n attr children)) (attr' : Option Attrs)
    (children' : List Node) :
    Elem.value ⟨a, cs.set i (.element n attr' children')⟩ = Elem.value ⟨a, cs⟩ := by
  cases cs with
  | nil => rfl
  | cons c cs =>
    cases i with
    | zero =>
      cases h
      rfl
    | succ i => cases c <;> rfl

section Modify

variable {f : Elem → Elem}

/-- A change that keeps the child elements of its element, at the other elements. -/
theorem at_modify_other (hf : ∀ d i, (f d).child i = d.child i) : ∀ {pos r : List ℕ} {t : Elem},
    r ≠ pos → ((t.modify pos f).at r).map Elem.data = (t.at r).map Elem.data ∧
      ((t.modify pos f).at r).map Elem.elements = (t.at r).map Elem.elements := by
  intro pos
  induction pos with
  | nil =>
    intro r t hr
    obtain ⟨i, r, rfl⟩ := List.exists_cons_of_ne_nil hr
    have hat : (f t).at (i :: r) = t.at (i :: r) := by rw [Elem.at, Elem.at, hf]
    exact ⟨congrArg _ hat, congrArg _ hat⟩
  | cons i pos ih =>
    intro r t hr
    rw [Elem.modify]
    split
    · rename_i n attr children hn
      cases r with
      | nil =>
        refine ⟨congrArg some (Prod.ext ?_ rfl), congrArg some ?_⟩
        · exact value_set hn _ _
        · exact elements_set hn _ _
      | cons j r =>
        rw [Elem.at, Elem.at]
        by_cases hij : j = i
        · subst hij
          rw [child_set_self hn, child_of_getElem? hn]
          exact ih fun h => hr (by rw [h])
        · rw [child_set_of_ne hij]
          exact ⟨rfl, rfl⟩
    · exact ⟨rfl, rfl⟩

theorem othersKept_modify (hf : ∀ d i, (f d).child i = d.child i)
    (helements : ∀ d, (f d).elements = d.elements) {t e : Elem} {pos : List ℕ}
    (he : t.at pos = some e) : OthersKept t (t.modify pos f) pos := by
  refine ⟨fun r hr => (at_modify_other hf hr).1, fun r => ?_⟩
  by_cases hr : r = pos
  · rw [hr, at_modify he, he]
    exact congrArg some (helements e)
  · exact (at_modify_other hf hr).2

end Modify

theorem child_setValue (d : Elem) (v : Bytes) (i : ℕ) : (d.setValue v).child i = d.child i := by
  have hreplace : ∀ (c c' : Node) (cs : List Node), d.children = c :: cs → c.elementName = none →
      c'.elementName = none → Elem.child ⟨d.attr, c' :: cs⟩ i = d.child i := by
    intro c c' cs hcs hc hc'
    rw [Elem.child, Elem.child, hcs]
    cases i with
    | zero =>
      cases c <;> cases hc
      all_goals cases c' <;> cases hc'
      all_goals rfl
    | succ i => rfl
  rw [Elem.setValue]
  split
  · rename_i s rest hcs
    exact hreplace (.text s) (.text v) rest hcs rfl rfl
  · rename_i s rest hcs
    exact hreplace (.comment s) (.comment v) rest hcs rfl rfl
  · rw [Elem.child, Elem.child]
    dsimp only
    rcases Nat.lt_trichotomy i d.children.length with hi | hi | hi
    · rw [List.getElem?_append_left hi]
    · rw [hi, List.getElem?_concat_length, List.getElem?_eq_none le_rfl]
    · rw [List.getElem?_eq_none (by simpa using hi), List.getElem?_eq_none (by omega)]

theorem elements_setValue (d : Elem) (v : Bytes) : (d.setValue v).elements = d.elements := by
  rw [Elem.setValue, Elem.elements, Elem.elements]
  split
  · rename_i s rest hcs
    rw [hcs]
    rfl
  · rename_i s rest hcs
    rw [hcs]
    rfl
  · rw [List.filterMap_append]
    exact List.append_nil _

/-! ### Setters and getters -/

/-- After `n:value(v)`, `n:value()` returns `v`, and the rest of the tree is as it was. -/
def ValueSet (t : Elem) (pos : List ℕ) (v : Bytes) : Prop :=
  let t' := t.modify pos (·.setValue v)
  (t'.at pos).bind Elem.value = some v ∧ OthersKept t t' pos

/-- After `n:attr(a, v)`, `n:attr(a)` returns `v`, and the rest of the tree is as it was. -/
def AttrSet (t : Elem) (pos : List ℕ) (a v : Bytes) : Prop :=
  let t' := t.modify pos (·.setAttr a v)
  (t'.at pos).bind (·.getAttr a) = some v ∧ OthersKept t t' pos

/-- The setters and the getters of an element agree. -/
def SettersAgree (t : Elem) (pos : List ℕ) : Prop :=
  (∀ v, ValueSet t pos v) ∧ ∀ a v, AttrSet t pos a v

/-- There is no child, or the first one has a text. -/
def Elem.hasPlace (e : Elem) : Bool :=
  match e.children with
  | [] => true
  | .text _ :: _ => true
  | .comment _ :: _ => true
  | _ => false

theorem value_setValue_iff (e : Elem) (v : Bytes) :
    (e.setValue v).value = some v ↔ e.hasPlace = true := by
  rw [Elem.hasPlace, Elem.setValue]
  cases hcs : e.children with
  | nil => exact iff_of_true rfl rfl
  | cons c cs =>
    cases c with
    | text s => exact iff_of_true rfl rfl
    | comment s => exact iff_of_true rfl rfl
    | element n attr children => exact iff_of_false (fun h => by cases h) fun h => by cases h
    | other n attr => exact iff_of_false (fun h => by cases h) fun h => by cases h

theorem getAttr_setAttr_iff (e : Elem) (a v : Bytes) :
    (e.setAttr a v).getAttr a = some v ↔ e.attr.isSome = true := by
  rw [Elem.getAttr, Elem.setAttr]
  cases e.attr with
  | none => exact iff_of_false (fun h => by cases h) fun h => by cases h
  | some l =>
    refine iff_of_true ?_ rfl
    simp only [Option.map_some, lookup_set, if_pos, Option.getD_some]

theorem valueSet_iff {t e : Elem} {pos : List ℕ} (he : t.at pos = some e) (v : Bytes) :
    ValueSet t pos v ↔ e.hasPlace = true := by
  have hkept : OthersKept t (t.modify pos (·.setValue v)) pos :=
    othersKept_modify (child_setValue · v) (elements_setValue · v) he
  rw [ValueSet, ← value_setValue_iff e v, at_modify he]
  exact and_iff_left hkept

theorem attrSet_iff {t e : Elem} {pos : List ℕ} (he : t.at pos = some e) (a v : Bytes) :
    AttrSet t pos a v ↔ e.attr.isSome = true := by
  have hkept : OthersKept t (t.modify pos (·.setAttr a v)) pos :=
    @othersKept_modify (·.setAttr a v) (fun _ _ => rfl) (fun _ => rfl) t e pos he
  rw [AttrSet, ← getAttr_setAttr_iff e a v, at_modify he]
  exact and_iff_left hkept

/-- **The getters give back what was set** if and only if the first child has a text, or there is no
child, and the element has a table of attributes. -/
theorem settersAgree_iff {t e : Elem} {pos : List ℕ} (he : t.at pos = some e) :
    SettersAgree t pos ↔ e.hasPlace = true ∧ e.attr.isSome = true := by
  constructor
  · intro h
    exact ⟨(valueSet_iff he []).1 (h.1 []), (attrSet_iff he [] []).1 (h.2 [] [])⟩
  · rintro ⟨hplace, hattr⟩
    exact ⟨fun v => (valueSet_iff he v).2 hplace, fun a v => (attrSet_iff he a v).2 hattr⟩

/-- An element with an attribute and a text. -/
theorem settersAgree_host : SettersAgree
    (.root [.element (str "host") (some [(str "name", str "gw")]) [.text (str "10.0.0.1")]]) [0] :=
  (settersAgree_iff rfl).2 ⟨rfl, rfl⟩

/-- An element with an element as its first child has no place for a value. -/
theorem not_settersAgree_lan :
    ¬ ∀ (env : Interpreter) (t e : Elem) (pos : List ℕ), Built env t → t.at pos = some e →
      SettersAgree t pos := by
  intro h
  have hplace : (match loadFile .inOrder (str "<lan><ip/></lan>") with
      | .ok t => (t.at [0]).map Elem.hasPlace
      | .error _ => none) = some false := by decide +kernel
  split at hplace
  · rename_i t hload
    obtain ⟨e, he, hfalse⟩ := Option.map_eq_some_iff.1 hplace
    have hset := (h .inOrder t e [0] (.load hload) he).1 (str "10.0.0.1")
    rw [(valueSet_iff he _).1 hset] at hfalse
    cases hfalse
  · cases hplace

end ZRouter.Web
