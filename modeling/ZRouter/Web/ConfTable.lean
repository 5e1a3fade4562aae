import ZRouter.Web.Form

/-!
# The forms of the pages (`conf_table` in `utils.lua`)

A page calls `conf_table` with the path of an element and a list of fields; it gives the markup of a form whose
inputs have the keys that `setmany` reads.

* `TableField`, `fieldRow`, `confTable`: the markup, or the error that is raised on the way;
* `getNode_tablePath`: a dot at the end of a path does not matter;
* `Row`, `confTable_rows`: the form of rows whose places hold values shows them.
-/

namespace ZRouter.Web

open Pattern

/-! ### The markup -/

/-- An element of the argument `fields`. -/
structure TableField where
  type : Option Bytes
  htmltype : Option Bytes
  label : Option Bytes
  node : Option Bytes

/-- `checked`. -/
def checked (v : Option Bytes) : Bytes :=
  match v with
  | some v => if v ≠ [] ∧ v ≠ str "false" then str "checked" else []
  | none => []

/-- The pattern `(.-)%:(.*)`. -/
def nodeItems : List (Item UInt8) :=
  [.opens, .lazy anyByte, .closes, .one (· = 58), .opens, .star anyByte, .closes]

/-- The start of the form. -/
def tableHead (id header rootpath : Bytes) : Bytes :=
  str "<div id=\"" ++ id ++ str "\" class=\"yui3-module boxitem\">\n" ++
  str "    <div class=\"yui3-hd\">\n" ++
  str "        <h4>" ++ header ++ str "</h4>\n" ++
  str "    </div>\n" ++
  str "    <div class=\"yui3-bd\">\n" ++
  str "\t<form method=\"POST\" target=\"/cmd.xml\" onchange=\"document.getElementById('" ++ id ++
    str "_update_button').disabled = false; return true;\">\n" ++
  str "\t    <input type=\"hidden\" name=\"path\" value=\"" ++ rootpath ++ str "\" />\n" ++
  str "\t    <input type=\"hidden\" name=\"cmd\" value=\"setmany\" />\n" ++
  str "\t<table>\n"

/-- A row for an attribute. -/
def attrMarkup (id label htmltype node inserted : Bytes) : Bytes :=
  str "            <tr>\n" ++
  str "        \t<td>" ++ label ++ str ":</td>\n" ++
  str "        \t<td><input name=\"smattr:" ++ node ++ str "\" " ++
    str "type=\"" ++ htmltype ++ str "\" " ++
    inserted ++
    str " onchange=\"" ++ str "document.getElementById(" ++ str "'" ++ id ++ str "_update_button'" ++
    str ").disabled = false; return true;\"/></td>\n" ++
  str "    \t     </tr>\n"

/-- A row for the value of an element. -/
def nodeMarkup (id label htmltype node nodevalue : Bytes) : Bytes :=
  str "            <tr>\n" ++
  str "        \t<td>" ++ label ++ str ":</td>\n" ++
  str "    \t\t<td><input type=\"" ++ htmltype ++ str "\" name=\"sm:" ++ node ++ str "\" value=\"" ++
    nodevalue ++
    str "\" onchange=\"document.getElementById(" ++ str "'" ++ id ++ str "_update_button'" ++
    str ").disabled = false; return true;\"/></td>\n" ++
  str "            </tr>\n"

/-- The end of the form. -/
def tableFoot (id : Bytes) : Bytes :=
  str "            <tr>\n" ++
  str "        \t<td>&nbsp;</td>\n" ++
  str "        \t<td><input id=\"" ++ id ++
    str "_update_button\" type=\"button\" name=\"Update\" value=\"Update\" disabled onclick=\"" ++
    str "send_update(this.form, function(x) \x7b document.getElementById('" ++ id ++
    str "_update_button').disabled = true; \x7d)" ++
    str "\"/></td>\n" ++
  str "            </tr>\n" ++
  str "\t</table>\n" ++
  str "\t</form>\n" ++
  str "    </div>\n" ++
  str "</div>\n"

/-- ` value="` and the text of an attribute, which is not escaped. -/
def valueAttribute (v : Bytes) : Bytes := str " value=\"" ++ v ++ str "\""

/-- `nodevalue:gsub("\"","&quot;")`. -/
def quoted (nodevalue : Bytes) : Bytes := gsub (lit (str "\"")) (fun _ _ => str "&quot;") nodevalue

/-- `inserted`, which shows the attribute in the input. -/
def inserted (htmltype : Option Bytes) (attrvalue : Bytes) : Lua Bytes :=
  if htmltype = some (str "checkbox") then .ok (checked (some attrvalue))
  else if htmltype = some (str "text") then .ok (valueAttribute attrvalue)
  else (Lua.get .concat htmltype).map (str "Unknown htmltype " ++ ·)

/-- The branch `attr` of the loop. -/
def attrRow (c : Elem) (id rootpath : Bytes) (v : TableField) : Lua Bytes := do
  let node ← Lua.get .argument v.node
  match find nodeItems node with
  | some (_, [nodestr, attrstr], _) =>
      let nodestr := rootpath ++ 46 :: nodestr
      let n ← Lua.get .index (getNode c nodestr)
      let attrvalue := (n.getAttr attrstr).getD (str "Error getting attribute value of " ++ nodestr ++
        str ":attr(" ++ attrstr ++ str ")")
      let text ← inserted v.htmltype attrvalue
      let label ← Lua.get .concat v.label
      let htmltype ← Lua.get .concat v.htmltype
      return attrMarkup id label htmltype node text
  | _ => return str "Error parsing attr fileld at path " ++ node

/-- The branch `node`. -/
def nodeRow (c : Elem) (id rootpath : Bytes) (v : TableField) : Lua Bytes := do
  let nodestr := match v.node with
    | some nodestr => rootpath ++ 46 :: nodestr
    | none => rootpath
  let nodevalue := match getNode c nodestr with
    | some n => n.value.getD []
    | none => str "Error: node " ++ nodestr ++ str " not found"
  let label ← Lua.get .concat v.label
  let htmltype ← Lua.get .concat v.htmltype
  let node ← Lua.get .concat v.node
  return nodeMarkup id label htmltype node (quoted nodevalue)

/-- What one element of `fields` adds. -/
def fieldRow (c : Elem) (id rootpath : Bytes) (v : TableField) : Lua Bytes :=
  if v.type = some (str "attr") then attrRow c id rootpath v
  else if v.type = some (str "node") then nodeRow c id rootpath v
  else .ok []

/-- The loop over `fields`. -/
def confRows (c : Elem) (id rootpath : Bytes) : Bytes → List TableField → Lua Bytes
  | ret, [] => .ok ret
  | ret, v :: fields => (fieldRow c id rootpath v).bind fun row => confRows c id rootpath (ret ++ row) fields

/-- `conf_table`. -/
def confTable (c : Elem) (id header rootpath : Bytes) (fields : List TableField) : Lua Bytes :=
  (confRows c id rootpath (tableHead id header rootpath) fields).map (· ++ tableFoot id)

/-! ### Paths with a dot at the end -/

/-- The first name of such a path. -/
theorem splitName_dot (p : Part) (ps : List Part) :
    splitName (renderPath (p :: ps) ++ [46]) =
      some (p.name, p.index.map digitsVal, if ps = [] then [] else renderPath ps ++ [46]) := by
  by_cases h : ps = []
  · subst h
    have hdot := @splitName_text p [46] [] (by simp) (by simp) (by simp) (fun h => by cases h)
    rw [List.append_nil] at hdot
    rw [if_pos rfl]
    exact hdot
  · have hspace : ∀ c ∈ renderPath ps ++ [46], (!isspace c) = true := by
      intro c hc
      rcases List.mem_append.1 hc with hc | hc
      · exact renderPath_nospace ps c hc
      · rw [List.mem_singleton.1 hc]
        decide
    have hhead : ∀ c ∈ (renderPath ps ++ [46]).head?, c ≠ 46 := by
      rw [List.head?_append_of_ne_nil _ fun hnil => h (renderPath_eq_nil.1 hnil)]
      exact renderPath_head
    rw [renderPath_cons p h, if_neg h, List.append_assoc]
    exact @splitName_text p [46] _ (by simp) hspace hhead fun hd => by cases hd

/-- It leads where the path without the dot leads. -/
theorem locate_dot {ps : List Part} (hps : ps ≠ []) : ∀ {e : Elem} {n : ℕ}, ps.length < n →
    locate n e (renderPath ps ++ [46]) = follow e (stepsOf ps) := by
  induction ps with
  | nil => exact absurd rfl hps
  | cons p ps ih =>
    intro e n hn
    obtain ⟨n, rfl⟩ := Nat.exists_eq_succ_of_ne_zero (by omega : n ≠ 0)
    rw [locate, if_neg (by simp), splitName_dot]
    dsimp only
    change _ = follow e (p.step :: stepsOf ps)
    rw [Part.step, follow]
    cases hfind : findChild p.name ((p.index.map digitsVal).getD 1) e.children with
    | none => rfl
    | some i =>
      obtain ⟨attr, children, hchild⟩ := findChild_eq_some hfind
      dsimp only
      rw [Option.bind_some, child_of_getElem? hchild, Option.bind_some, Option.bind_some]
      by_cases h : ps = []
      · subst h
        rw [if_pos rfl, if_pos rfl]
        rfl
      · rw [if_neg h, if_neg (by simp), ih h (by simpa using hn)]

/-- **The paths of `conf_table` and of `setmany` lead to the same element.** -/
theorem getNode_tablePath {base : List Part} (hb : base ≠ []) (sub : List Part) (e : Elem) :
    getNode e (renderPath base ++ 46 :: renderPath sub) =
      getNode e (fullPath (renderPath base) (renderPath sub)) := by
  by_cases h : sub = []
  · subst h
    rw [fullPath, if_pos (by rfl), getNode_render]
    change getNode e (renderPath base ++ [46]) = _
    rw [getNode, locate_dot hb]
    · rfl
    · rw [List.length_append]
      exact Nat.lt_succ_of_le ((length_le_renderPath base).trans (Nat.le_add_right _ _))
  · rw [fullPath, if_neg fun hnil => h (renderPath_eq_nil.1 hnil)]

/-! ### Rows -/

/-- A row of the forms of the pages: a text field or a check box, for the value of an element or for one of its
attributes. -/
structure Row where
  label : Bytes
  checkbox : Bool
  field : Field

def Row.htmltype (r : Row) : Bytes := if r.checkbox then str "checkbox" else str "text"

/-- The path behind that of the form. -/
def Row.node (r : Row) : Bytes :=
  match r.field with
  | .value sub => renderPath sub
  | .attr sub attrname => renderPath sub ++ 58 :: attrname

/-- How a page writes it. -/
def Row.tableField (r : Row) : TableField where
  type := some (match r.field with
    | .value _ => str "node"
    | .attr _ _ => str "attr")
  htmltype := some r.htmltype
  label := some r.label
  node := some r.node

/-- The row with `v` in its input. -/
def Row.markup (id : Bytes) (r : Row) (v : Bytes) : Bytes :=
  match r.field with
  | .value _ => nodeMarkup id r.label r.htmltype r.node (quoted v)
  | .attr _ _ => attrMarkup id r.label r.htmltype r.node
      (if r.checkbox then checked (some v) else valueAttribute v)

/-- A form with some rows. -/
def tableText (id header rootpath : Bytes) (rows : List Bytes) : Bytes :=
  tableHead id header rootpath ++ (rows.flatten ++ tableFoot id)

/-- The element and the attribute of a row. -/
theorem find_nodeItems (sub : List Part) (attrname : Bytes) :
    find nodeItems (renderPath sub ++ 58 :: attrname) = some ([], [renderPath sub, attrname], []) := by
  have hkey := exec_attr_key sub attrname
  rw [attrKeyItems, Field.key, exec_rest] at hkey
  have hexec : exec nodeItems (renderPath sub ++ 58 :: attrname) = some ([renderPath sub, attrname], []) := hkey
  obtain ⟨x, s, hs⟩ := List.exists_cons_of_ne_nil (List.append_ne_nil_of_right_ne_nil (renderPath sub)
    (List.cons_ne_nil 58 attrname))
  rw [hs] at hexec ⊢
  rw [find, hexec]

theorem inserted_row (r : Row) (v : Bytes) :
    inserted (some r.htmltype) v = .ok (if r.checkbox then checked (some v) else valueAttribute v) := by
  have hne : str "text" ≠ str "checkbox" := by decide
  rw [Row.htmltype]
  cases r.checkbox with
  | true => exact if_pos rfl
  | false => exact (if_neg fun h => hne (Option.some.inj h)).trans (if_pos rfl)

/-- A row shows what its place holds. -/
theorem fieldRow_holds {base : List Part} (hb : base ≠ []) {c : Elem} {r : Row} {v : Bytes}
    (h : r.field.Holds c base v) (id : Bytes) :
    fieldRow c id (renderPath base) r.tableField = .ok (r.markup id v) := by
  obtain ⟨e, he, hv⟩ := h
  rw [← getNode_tablePath hb] at he
  obtain ⟨label, checkbox, f⟩ := r
  cases f with
  | value sub =>
    have hne : str "node" ≠ str "attr" := by decide
    have hrow : fieldRow c id (renderPath base) (Row.tableField ⟨label, checkbox, .value sub⟩) =
        nodeRow c id (renderPath base) (Row.tableField ⟨label, checkbox, .value sub⟩) :=
      (if_neg fun heq => hne (Option.some.inj heq)).trans (if_pos rfl)
    dsimp only [Field.sub] at he hv
    rw [hrow, nodeRow]
    dsimp only [Row.tableField, Row.node]
    rw [he]
    dsimp only
    rw [hv]
    rfl
  | attr sub attrname =>
    have hrow : fieldRow c id (renderPath base) (Row.tableField ⟨label, checkbox, .attr sub attrname⟩) =
        attrRow c id (renderPath base) (Row.tableField ⟨label, checkbox, .attr sub attrname⟩) := if_pos rfl
    dsimp only [Field.sub] at he hv
    have hinserted := inserted_row ⟨label, checkbox, .attr sub attrname⟩ v
    rw [hrow, attrRow]
    dsimp only [Row.tableField, Row.node, Lua.get, bind, Except.bind]
    rw [find_nodeItems]
    dsimp only
    rw [he]
    dsimp only
    rw [hv, Option.getD_some, hinserted]
    rfl

/-- **The form of rows whose places hold values shows them.** -/
theorem confTable_rows {base : List Part} (hb : base ≠ []) {c : Elem} (id header : Bytes)
    {rows : List (Row × Bytes)} (h : ∀ r ∈ rows, r.1.field.Holds c base r.2) :
    confTable c id header (renderPath base) (rows.map fun r => r.1.tableField) =
      .ok (tableText id header (renderPath base) (rows.map fun r => r.1.markup id r.2)) := by
  have hrows : ∀ ret, confRows c id (renderPath base) ret (rows.map fun r => r.1.tableField) =
      .ok (ret ++ (rows.map fun r => r.1.markup id r.2).flatten) := by
    induction rows with
    | nil =>
      intro ret
      exact congrArg Except.ok (List.append_nil ret).symm
    | cons r rows ih =>
      intro ret
      obtain ⟨hr, hrest⟩ := List.forall_mem_cons.1 h
      rw [List.map_cons, confRows, fieldRow_holds hb hr]
      change confRows c id (renderPath base) (ret ++ r.1.markup id r.2) _ = _
      rw [ih hrest, List.map_cons, List.flatten_cons, List.append_assoc]
  rw [confTable, hrows, tableText, ← List.append_assoc]
  rfl

end ZRouter.Web
