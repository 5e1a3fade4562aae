import ZRouter.Conf.Node

/-!
# Loading a configuration file (`conf_xml.c`)

The handlers that `load_xml` registers get the start and the end of every element.  They move a cursor,
`last`, through the tree; in a run with a configuration number other than 1 the tree is a layer below
the file, and an attribute `value` of the file becomes the attribute `value<number>` of a node.

* `Event`, `XmlState`;
* `startElement`, `endElement`: the handlers; `none` is the use of a null pointer;
* `loadXml`: the handlers over a sequence of events;
* `WellNested`: the sequences that an XML parser delivers.
-/

namespace ZRouter.Conf

open Cells

/-- What the parser delivers: an element starts, with its attributes, or ends. -/
inductive Event
  | start (el : Bytes) (attr : List (Bytes × Bytes))
  | ends (el : Bytes)

/-- `struct xml_state`, and the memory that its pointers lead to. -/
structure XmlState where
  tree : Tree
  level : ℤ
  root : ℕ
  last : Option ℕ
  confId : ℤ

/-- An integer as `%d` prints it. -/
def formatInt (k : ℤ) : Bytes :=
  (if k < 0 then str "-" else []) ++ if k = 0 then str "0" else decimal k.natAbs

/-- What `sprintf(attrname, "value%d", conf_id)` writes. -/
def attrName (confId : ℤ) : Bytes := str "value" ++ formatInt confId

/-- The attribute of a configuration with a positive number. -/
def valueName (confId : ℕ) : Bytes := str "value" ++ decimal confId

theorem attrName_natCast {k : ℕ} (hk : 0 < k) : attrName k = valueName k := by
  have hneg : ¬ (k : ℤ) < 0 := by omega
  have hzero : (k : ℤ) ≠ 0 := by omega
  rw [attrName, formatInt, if_neg hneg, if_neg hzero]
  rfl

/-- It fits into `attrname`, with its NUL, for every positive `int`. -/
theorem valueName_length {k : ℕ} (hk : k < 2 ^ 31) : (valueName k).length < 16 := by
  have hdigits : (Nat.digits 10 k).length ≤ 10 :=
    (Nat.digits_length_le_iff (by norm_num) k).2 (hk.trans (by norm_num))
  rw [valueName, List.length_append, decimal, List.length_map, List.length_reverse]
  have hvalue : (str "value").length = 5 := rfl
  omega

/-- The loop of `startElement` over the attributes; it ends at an empty name. -/
def attrLoop (confId : ℤ) (node : Option ℕ) : List (Bytes × Bytes) → Tree → Tree
  | [], h => h
  | (name, value) :: attr, h =>
      if name = [] then h
      else
        attrLoop confId node attr
          (if confId = 1 then applyAttr h node name value
          else if name = str "value" then applyAttr h node (attrName confId) value
          else h)

/-- `startElement`. -/
def startElement (st : XmlState) (el : Bytes) (attr : List (Bytes × Bytes)) : Option XmlState :=
  let target : Option (Tree × Option ℕ) :=
    if st.confId = 1 then
      st.last.map fun p => (appendNewChild st.tree p el [], some st.tree.size)
    else some (applyNode st.tree st.last el)
  match target with
  | none => none
  | some (_, none) => some st
  | some (tree, some node) =>
      some { st with
        tree := attrLoop st.confId (some node) attr tree
        last := some node
        level := st.level + 1 }

/-- `endElement`; it does not look at the name. -/
def endElement (st : XmlState) (_el : Bytes) : Option XmlState :=
  let st := { st with level := st.level - 1 }
  if st.last = some st.root then some st
  else
    match st.last with
    | none => none
    | some last => some { st with last := (st.tree.cell last).parent }

/-- One event. -/
def handle (st : XmlState) : Event → Option XmlState
  | .start el attr => startElement st el attr
  | .ends el => endElement st el

/-- The state with which `load_xml` starts; without a tree it makes a node `root`. -/
def XmlState.start (h : Tree) (newroot : Option ℕ) (confId : ℤ) : XmlState :=
  match newroot with
  | some root => ⟨h, 0, root, some root, confId⟩
  | none => ⟨newNode h (str "root") [], 0, h.size, some h.size, confId⟩

/-- The handlers of `load_xml` over the events of a file. -/
def loadXml (h : Tree) (newroot : Option ℕ) (confId : ℤ) (events : List Event) : Option XmlState :=
  events.foldlM handle (XmlState.start h newroot confId)

/-- Every start has its end. -/
inductive WellNested : List Event → Prop
  | nil : WellNested []
  | element {inner rest : List Event} (el : Bytes) (attr : List (Bytes × Bytes)) :
      WellNested inner → WellNested rest → WellNested (.start el attr :: inner ++ .ends el :: rest)

/-! ### What a file says -/

/-- The path of an element: the names of the elements around it, and its own. -/
abbrev Path := List Bytes

/-- The values that `startElement` takes from the attributes of an element. -/
def valuesOf (attr : List (Bytes × Bytes)) : List Bytes :=
  ((attr.takeWhile (·.1 ≠ [])).filter (·.1 = str "value")).map Prod.snd

/-- The open elements, the paths of the elements so far, and the values given for them. -/
structure Trace where
  path : Path
  level : ℤ
  elements : List Path
  given : List (Path × Bytes)

/-- What an event adds. -/
def Trace.step (t : Trace) : Event → Trace
  | .start el attr =>
      { path := t.path ++ [el]
        level := t.level + 1
        elements := t.elements ++ [t.path ++ [el]]
        given := t.given ++ (valuesOf attr).map (t.path ++ [el], ·) }
  | .ends _ => { t with path := t.path.dropLast, level := t.level - 1 }

/-- The trace of a sequence of events. -/
def trace (events : List Event) : Trace := events.foldl Trace.step ⟨[], 0, [], []⟩

/-- The last value that is given for a path. -/
def lastValue (events : List Event) (p : Path) : Option Bytes :=
  ((trace events).given.filter (·.1 = p)).getLast?.map Prod.snd

@[simp] theorem trace_concat (events : List Event) (e : Event) :
    trace (events ++ [e]) = (trace events).step e := by
  rw [trace, List.foldl_concat]
  rfl

/-- A well-nested sequence comes back to where it started. -/
theorem WellNested.foldl {events : List Event} (h : WellNested events) (t : Trace) :
    (events.foldl Trace.step t).path = t.path ∧ (events.foldl Trace.step t).level = t.level := by
  induction h generalizing t with
  | nil => exact ⟨rfl, rfl⟩
  | element el attr _ _ inner_ih rest_ih =>
    obtain ⟨hpath, hlevel⟩ := inner_ih (t.step (.start el attr))
    rw [List.cons_append, List.foldl_cons, List.foldl_append, List.foldl_cons]
    obtain ⟨hpath', hlevel'⟩ := rest_ih
      (((List.foldl Trace.step (t.step (.start el attr)) _)).step (.ends el))
    rw [hpath', hlevel']
    constructor
    · change (List.foldl Trace.step (t.step (.start el attr)) _).path.dropLast = _
      rw [hpath]
      exact List.dropLast_concat
    · change (List.foldl Trace.step (t.step (.start el attr)) _).level - 1 = _
      rw [hlevel]
      exact add_sub_cancel_right _ _

/-- The elements that have a value were opened. -/
theorem mem_elements_of_given {events : List Event} {x : Path × Bytes}
    (hx : x ∈ (trace events).given) : x.1 ∈ (trace events).elements := by
  induction events using List.reverseRecOn with
  | nil => exact absurd hx List.not_mem_nil
  | append_singleton events e ih =>
    rw [trace_concat] at hx ⊢
    cases e with
    | start el attr =>
      rcases List.mem_append.1 hx with hx | hx
      · exact List.mem_append_left _ (ih hx)
      · obtain ⟨v, -, rfl⟩ := List.mem_map.1 hx
        exact List.mem_append_right _ (List.mem_singleton.2 rfl)
    | ends el => exact ih hx

/-- A path that is no element has no value. -/
theorem lastValue_eq_none {events : List Event} {p : Path} (hp : p ∉ (trace events).elements) :
    lastValue events p = none := by
  have hnil : (trace events).given.filter (·.1 = p) = [] := by
    rw [List.filter_eq_nil_iff]
    intro x hx hxp
    simp only [decide_eq_true_eq] at hxp
    exact hp (hxp ▸ mem_elements_of_given hx)
  rw [lastValue, hnil]
  rfl

/-- A start changes the value of its own path only. -/
theorem lastValue_start (events : List Event) (el : Bytes) (attr : List (Bytes × Bytes)) (p : Path) :
    lastValue (events ++ [.start el attr]) p =
      if p = (trace events).path ++ [el] then (valuesOf attr).getLast?.or (lastValue events p)
      else lastValue events p := by
  have hgiven : (trace (events ++ [.start el attr])).given = (trace events).given ++
      (valuesOf attr).map ((trace events).path ++ [el], ·) := by
    rw [trace_concat]
    rfl
  rw [lastValue, hgiven, List.filter_append, List.getLast?_append]
  split_ifs with hp
  · have hall : ((valuesOf attr).map ((trace events).path ++ [el], ·)).filter (·.1 = p) =
        (valuesOf attr).map ((trace events).path ++ [el], ·) := by
      rw [List.filter_eq_self]
      intro x hx
      obtain ⟨v, -, rfl⟩ := List.mem_map.1 hx
      simp [hp]
    rw [hall, List.getLast?_map, lastValue]
    cases (valuesOf attr).getLast? <;> rfl
  · have hnil : ((valuesOf attr).map ((trace events).path ++ [el], ·)).filter (·.1 = p) = [] := by
      rw [List.filter_eq_nil_iff]
      intro x hx
      obtain ⟨v, -, rfl⟩ := List.mem_map.1 hx
      simpa using Ne.symm hp
    rw [hnil, lastValue]
    rfl

end ZRouter.Conf
