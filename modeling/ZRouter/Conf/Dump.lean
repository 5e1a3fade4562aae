import ZRouter.Conf.Shape
import ZRouter.Lib.Exec
import ZRouter.Lib.Lua

/-!
# The text of a configuration (`conf_strbuf.c`, `dump_xml`)

The text is appended to a buffer piece by piece.  A buffer that has to grow is moved by `realloc`, and
its `end` stays behind in the old block.

* `Strbuf`, `strAppend`;
* `nodeHasAttr`, `nodeGetLevel`, `dumpXmlNodesAttr`;
* `xmlText`: the text of a forest of names and values;
* `dumpXmlNodesAttr_eq`: the dump appends the text, if no null pointer is printed.
-/

namespace ZRouter.Conf

open Cells Forest

/-! ### The buffer -/

/-- `struct strbuf`: the string in the block, and the size of the block, which the string and its NUL
do not exceed. -/
structure Strbuf where
  text : Bytes
  size : ℕ
  room : text.length < size

/-- `strInit`. -/
def strInit : Strbuf := ⟨[], 4096, by norm_num⟩

/-- `strAppend`; `none` is a null pointer.  A string that does not fit goes where `end` points, into
the block that `realloc` has given back. -/
def strAppend (s : Strbuf) (x : Option Bytes) : Exec Strbuf :=
  match x with
  | none => .undefined
  | some x =>
      if h : s.text.length + x.length < s.size then
        .ret ⟨s.text ++ x, s.size, by rwa [List.length_append]⟩
      else .undefined

theorem strAppend_fits {s : Strbuf} {x : Bytes} (h : s.text.length + x.length < s.size) :
    strAppend s (some x) = .ret ⟨s.text ++ x, s.size, by rwa [List.length_append]⟩ := dif_pos h

theorem strAppend_full {s : Strbuf} {x : Bytes} (h : ¬ s.text.length + x.length < s.size) :
    strAppend s (some x) = .undefined := dif_neg h

@[simp] theorem strAppend_nil (s : Strbuf) : strAppend s (some []) = .ret s := by
  rw [strAppend_fits (by simpa using s.room)]
  simp

/-- Two strings one after the other, if there are both. -/
def cat (x y : Option Bytes) : Option Bytes := x.bind fun x => y.map (x ++ ·)

@[simp] theorem cat_some (x y : Bytes) : cat (some x) (some y) = some (x ++ y) := rfl
@[simp] theorem cat_none (x : Option Bytes) : cat x none = none := by cases x <;> rfl
@[simp] theorem none_cat (y : Option Bytes) : cat none y = none := rfl
@[simp] theorem nil_cat (y : Option Bytes) : cat (some []) y = y := by cases y <;> rfl

theorem cat_assoc (x y z : Option Bytes) : cat (cat x y) z = cat x (cat y z) := by
  cases x <;> cases y <;> cases z <;> simp [cat]

/-- What is appended by two steps. -/
theorem strAppend_bind {s : Strbuf} {x y : Option Bytes} {f : Strbuf → Exec Strbuf}
    (hf : ∀ s', f s' = strAppend s' y) : (strAppend s x >>= f) = strAppend s (cat x y) := by
  cases x with
  | none => rfl
  | some x =>
    by_cases h : s.text.length + x.length < s.size
    · rw [strAppend_fits h, Exec.ret_bind, hf]
      cases y with
      | none => rfl
      | some y =>
        rw [cat_some]
        by_cases h' : s.text.length + (x ++ y).length < s.size
        · have h'' : (s.text ++ x).length + y.length < s.size := by
            rw [List.length_append] at h' ⊢
            omega
          rw [strAppend_fits h', strAppend_fits h'']
          simp only [List.append_assoc]
        · have h'' : ¬ (s.text ++ x).length + y.length < s.size := by
            rw [List.length_append] at h' ⊢
            omega
          rw [strAppend_full h', strAppend_full h'']
    · rw [strAppend_full h, Exec.undefined_bind]
      cases y with
      | none => rfl
      | some y =>
        have h' : ¬ s.text.length + (x ++ y).length < s.size := by
          rw [List.length_append]
          omega
        rw [cat_some, strAppend_full h']

/-! ### The dump -/

/-- `nodeHasAttr`: the names are compared without regard to case. -/
def nodeHasAttr (attrs : List Attr) (attrName : Bytes) : Bool :=
  attrs.any fun a => a.name.map tolower = attrName.map tolower

/-- `nodeGetLevel`; the first argument bounds the recursion. -/
def nodeGetLevel (h : Tree) : ℕ → ℕ → Exec ℕ
  | 0, _ => .stuck
  | n + 1, node =>
      match (h.cell node).parent with
      | some parent => nodeGetLevel h n parent >>= fun level => .ret (level + 1)
      | none => .ret 0

/-- `INDENT`: the program is built with a tab (`Makefile`); the four blanks of `conf_param.h` are for builds
that do not set it. -/
def INDENT : Bytes := str "\t"

/-- The loop that appends `INDENT`. -/
def strIndent : ℕ → Strbuf → Exec Strbuf
  | 0, s => .ret s
  | n + 1, s => strAppend s (some INDENT) >>= strIndent n

/-- The start tag. -/
def dumpStart (s : Strbuf) (root : Node) (name : Bytes) : Exec Strbuf :=
  strAppend s (some (str "<")) >>= fun s =>
  strAppend s (some root.name) >>= fun s =>
  (if nodeHasAttr root.attrs name then
    strAppend s (some (str " value=\"")) >>= fun s =>
    strAppend s (getAttr root.attrs name) >>= fun s =>
    strAppend s (some (str "\""))
  else .ret s) >>= fun s =>
  strAppend s (some (str ">"))

/-- The end tag. -/
def dumpEnd (s : Strbuf) (root : Node) : Exec Strbuf :=
  strAppend s (some (str "</")) >>= fun s =>
  strAppend s (some root.name) >>= fun s =>
  strAppend s (some (str ">\n"))

mutual

/-- `dump_xml_nodes_attr`; the number bounds the recursion. -/
def dumpXmlNodesAttr (h : Tree) (name : Bytes) : ℕ → Strbuf → Option ℕ → Exec Strbuf
  | _, s, none => .ret s
  | 0, _, some _ => .stuck
  | n + 1, s, some root =>
      nodeGetLevel h n root >>= fun level =>
      strIndent level s >>= fun s =>
      dumpStart s (h.cell root).data name >>= fun s =>
      (match (h.cell root).firstChild with
        | none => .ret s
        | some child =>
            strAppend s (some (str "\n")) >>= fun s =>
            dumpXmlChildren h name n s (some child) >>= strIndent level) >>= fun s =>
      dumpEnd s (h.cell root).data

/-- The loop over the children, from a child on. -/
def dumpXmlChildren (h : Tree) (name : Bytes) : ℕ → Strbuf → Option ℕ → Exec Strbuf
  | _, s, none => .ret s
  | 0, _, some _ => .stuck
  | n + 1, s, some node =>
      dumpXmlNodesAttr h name n s (some node) >>= fun s =>
      dumpXmlChildren h name n s (h.cell node).next

end

/-- `dump_xml`, without the `printf`. -/
def dumpXml (h : Tree) (n : ℕ) (root : Option ℕ) (confId : ℕ) : Exec Strbuf :=
  dumpXmlNodesAttr h (if 1 < confId then valueName confId else str "value") n strInit root

theorem nodeGetLevel_mono (h : Tree) {n m : ℕ} (hnm : n ≤ m) (node : ℕ) :
    nodeGetLevel h n node ≤ nodeGetLevel h m node := by
  induction n generalizing m node with
  | zero => exact Exec.stuck_le _
  | succ n ih =>
    obtain ⟨m, rfl⟩ : ∃ k, m = k + 1 := ⟨m - 1, by omega⟩
    rw [nodeGetLevel, nodeGetLevel]
    cases (h.cell node).parent with
    | none => exact le_rfl
    | some parent => exact Exec.bind_le_bind (ih (by omega) parent) fun _ => le_rfl

/-- The dump with a larger bound. -/
theorem dumpXml_mono (h : Tree) (name : Bytes) {n m : ℕ} (hnm : n ≤ m) :
    (∀ s p, dumpXmlNodesAttr h name n s p ≤ dumpXmlNodesAttr h name m s p) ∧
      ∀ s p, dumpXmlChildren h name n s p ≤ dumpXmlChildren h name m s p := by
  induction n generalizing m with
  | zero =>
    constructor <;> rintro s (- | i)
    · rw [dumpXmlNodesAttr, dumpXmlNodesAttr]
    · rw [dumpXmlNodesAttr]
      exact Exec.stuck_le _
    · rw [dumpXmlChildren, dumpXmlChildren]
    · rw [dumpXmlChildren]
      exact Exec.stuck_le _
  | succ n ih =>
    obtain ⟨m, rfl⟩ : ∃ k, m = k + 1 := ⟨m - 1, by omega⟩
    have hle : n ≤ m := by omega
    obtain ⟨hnode, hchildren⟩ := ih hle
    constructor <;> rintro s (- | i)
    · rw [dumpXmlNodesAttr, dumpXmlNodesAttr]
    · rw [dumpXmlNodesAttr, dumpXmlNodesAttr]
      refine Exec.bind_le_bind (nodeGetLevel_mono h hle i) fun level => Exec.bind_le_bind le_rfl fun s =>
        Exec.bind_le_bind le_rfl fun s => Exec.bind_le_bind ?_ fun s => le_rfl
      cases (h.cell i).firstChild with
      | none => exact le_rfl
      | some child =>
        exact Exec.bind_le_bind le_rfl fun s => Exec.bind_le_bind (hchildren s (some child)) fun s => le_rfl
    · rw [dumpXmlChildren, dumpXmlChildren]
    · rw [dumpXmlChildren, dumpXmlChildren]
      exact Exec.bind_le_bind (hnode s (some i)) fun s => hchildren s (h.cell i).next

/-! ### The text -/

/-- What stands behind the name in a start tag. -/
def valueText : Option Bytes → Bytes
  | none => []
  | some v => str " value=\"" ++ v ++ str "\""

/-- The text of a forest of names and values, with the indentation of its trees. -/
def xmlText : ℕ → Forest (Bytes × Option Bytes) → Bytes
  | _, .nil => []
  | level, .cons d kids next =>
      (List.replicate level INDENT).flatten ++ str "<" ++ d.1 ++ valueText d.2 ++ str ">" ++
        (if kids = .nil then []
          else str "\n" ++ xmlText (level + 1) kids ++ (List.replicate level INDENT).flatten) ++
        (str "</" ++ d.1 ++ str ">\n") ++ xmlText level next

/-- The name of a node and its value in the configuration `k`. -/
def view (k : ℕ) (d : Node) : Bytes × Option Bytes := (d.name, getAttr d.attrs (valueName k))

/-- No null pointer is printed: an attribute that counts for `nodeHasAttr` is one for
`nodeGetAttr`. -/
def Printable (k : ℕ) (d : Node) : Prop :=
  nodeHasAttr d.attrs (valueName k) = true → getAttr d.attrs (valueName k) ≠ none

instance (k : ℕ) : DecidablePred (Printable k) := fun _ => inferInstanceAs (Decidable (_ → _))

theorem nodeHasAttr_of_getAttr {attrs : List Attr} {name v : Bytes}
    (h : getAttr attrs name = some v) : nodeHasAttr attrs name = true := by
  obtain ⟨a, ha, -⟩ := Option.bind_eq_some_iff.1 h
  have hname : a.name = name := by simpa using List.find?_some ha
  refine List.any_eq_true.2 ⟨a, List.mem_of_find?_eq_some ha, ?_⟩
  rw [hname]
  exact decide_eq_true rfl

theorem strIndent_eq (level : ℕ) (s : Strbuf) :
    strIndent level s = strAppend s (some (List.replicate level INDENT).flatten) := by
  induction level generalizing s with
  | zero => exact (strAppend_nil s).symm
  | succ level ih =>
    rw [strIndent, strAppend_bind ih]
    rfl

/-- The start tag, if it can be printed. -/
def startText (k : ℕ) (d : Node) : Option Bytes :=
  if Printable k d then some (str "<" ++ d.name ++ valueText (view k d).2 ++ str ">") else none

/-- The text of a forest, if it can be printed. -/
def dumpText (k level : ℕ) (F : Forest Node) : Option Bytes :=
  if F.All (Printable k) then some (xmlText level (F.map (view k))) else none

theorem dumpStart_eq (k : ℕ) (d : Node) (s : Strbuf) :
    dumpStart s d (valueName k) = strAppend s (startText k d) := by
  have hvalue : ∀ s, (if nodeHasAttr d.attrs (valueName k) then
      strAppend s (some (str " value=\"")) >>= fun s =>
      strAppend s (getAttr d.attrs (valueName k)) >>= fun s =>
      strAppend s (some (str "\"")) else .ret s) =
      strAppend s (if Printable k d then some (valueText (view k d).2) else none) := by
    intro s
    cases hget : getAttr d.attrs (valueName k) with
    | none =>
      have hview : (view k d).2 = none := hget
      by_cases hhas : nodeHasAttr d.attrs (valueName k) = true
      · have hp : ¬ Printable k d := fun hp => hp hhas hget
        rw [if_pos hhas, if_neg hp]
        exact strAppend_bind (y := none) fun s => rfl
      · have hp : Printable k d := fun h => absurd h hhas
        rw [if_neg hhas, if_pos hp, hview]
        exact (strAppend_nil s).symm
    | some v =>
      have hview : (view k d).2 = some v := hget
      have hp : Printable k d := fun _ h => by rw [hget] at h; cases h
      rw [if_pos (nodeHasAttr_of_getAttr hget), if_pos hp, hview,
        strAppend_bind (y := some (v ++ str "\"")) fun s => strAppend_bind fun s => rfl]
      rw [cat_some, valueText, List.append_assoc]
  rw [dumpStart, strAppend_bind (y := cat (some d.name) (cat (if Printable k d then
    some (valueText (view k d).2) else none) (some (str ">")))) fun s =>
      strAppend_bind fun s => by rw [hvalue]; exact strAppend_bind fun s => rfl]
  rw [startText]
  split_ifs <;> simp

theorem dumpEnd_eq (d : Node) (s : Strbuf) :
    dumpEnd s d = strAppend s (some (str "</" ++ d.name ++ str ">\n")) := by
  rw [dumpEnd, strAppend_bind (y := some (d.name ++ str ">\n")) fun s => strAppend_bind fun s => rfl]
  rw [cat_some, List.append_assoc]

/-- The text of the first tree and of the others. -/
theorem dumpText_cons (k level : ℕ) (d : Node) (ks nx : Forest Node) :
    dumpText k level (.cons d ks nx) = cat (some (List.replicate level INDENT).flatten)
      (cat (startText k d) (cat (if ks = .nil then some [] else cat (some (str "\n"))
        (cat (dumpText k (level + 1) ks) (some (List.replicate level INDENT).flatten)))
          (cat (some (str "</" ++ d.name ++ str ">\n")) (dumpText k level nx)))) := by
  have hnil : ks.map (view k) = .nil ↔ ks = .nil := by cases ks <;> simp [Forest.map]
  rw [dumpText]
  by_cases hd : Printable k d
  swap
  · rw [if_neg fun h => hd h.1, startText, if_neg hd]
    rfl
  by_cases hks : ks.All (Printable k)
  swap
  · have hne : ks ≠ .nil := by
      rintro rfl
      exact hks trivial
    rw [if_neg fun h => hks h.2.1, if_neg hne, dumpText, if_neg hks]
    simp
  by_cases hnx : nx.All (Printable k)
  swap
  · rw [if_neg fun h => hnx h.2.2, dumpText, dumpText, if_neg hnx]
    simp
  have hall : (Forest.cons d ks nx).All (Printable k) := ⟨hd, hks, hnx⟩
  rw [if_pos hall, startText, if_pos hd, dumpText, if_pos hks, dumpText, if_pos hnx,
    Forest.map, xmlText]
  by_cases hk : ks = .nil
  · rw [if_pos hk, if_pos (hnil.2 hk)]
    simp [view]
  · rw [if_neg hk, if_neg fun h => hk (hnil.1 h)]
    simp [view]

/-- The level of a node, as `nodeGetLevel` counts it. -/
def AtLevel (h : Tree) (i level : ℕ) : Prop := ∀ n > i, nodeGetLevel h n i = .ret level

theorem AtLevel.kid {h : Tree} {i c level : ℕ} (hi : AtLevel h i level)
    (hc : (h.cell c).parent = some i) (hlt : i < c) : AtLevel h c (level + 1) := by
  intro n hn
  obtain ⟨m, rfl⟩ : ∃ m, n = m + 1 := ⟨n - 1, by omega⟩
  rw [nodeGetLevel, hc]
  dsimp only
  rw [hi m (by omega)]
  rfl

theorem atLevel_root {h : Tree} {root : ℕ} (hr : (h.cell root).parent = none) :
    AtLevel h root 0 := by
  intro n hn
  obtain ⟨m, rfl⟩ : ∃ m, n = m + 1 := ⟨n - 1, by omega⟩
  rw [nodeGetLevel, hr]

section Dump

variable {h : Tree} {root k : ℕ} {kids : ℕ → List ℕ}

/-- One node, when the loop over its children does what it should. -/
theorem dumpXmlNodesAttr_node {i n level : ℕ} {ks : Forest Node} (hi : i < n)
    (hlevel : AtLevel h i level) (hnil : (h.cell i).firstChild = none ↔ ks = .nil)
    (hkids : ∀ s, dumpXmlChildren h (valueName k) n s (h.cell i).firstChild =
      strAppend s (dumpText k (level + 1) ks)) (s : Strbuf) :
    dumpXmlNodesAttr h (valueName k) (n + 1) s (some i) =
      strAppend s (dumpText k level (.cons (h.cell i).data ks .nil)) := by
  have hbody : ∀ s, (match (h.cell i).firstChild with
      | none => Exec.ret s
      | some child =>
          strAppend s (some (str "\n")) >>= fun s =>
          dumpXmlChildren h (valueName k) n s (some child) >>= strIndent level) =
      strAppend s (if ks = .nil then some [] else cat (some (str "\n"))
        (cat (dumpText k (level + 1) ks) (some (List.replicate level INDENT).flatten))) := by
    intro s
    cases hfirst : (h.cell i).firstChild with
    | none =>
      rw [if_pos (hnil.1 hfirst)]
      exact (strAppend_nil s).symm
    | some child =>
      rw [if_neg fun hk => by rw [hnil.2 hk] at hfirst; cases hfirst]
      refine strAppend_bind fun s => ?_
      rw [← hfirst, hkids]
      exact strAppend_bind (strIndent_eq level)
  have hend : dumpText k level .nil = some [] := rfl
  rw [dumpXmlNodesAttr, hlevel n hi, Exec.ret_bind, dumpText_cons, hend]
  have htail : ∀ e : Bytes, cat (some e) (some []) = some e := fun e => by simp
  rw [htail, strIndent_eq]
  refine strAppend_bind fun s => ?_
  rw [dumpStart_eq]
  refine strAppend_bind fun s => ?_
  rw [hbody]
  exact strAppend_bind fun s => dumpEnd_eq _ s

/-- The loop over the children appends their texts. -/
theorem dumpXmlChildren_eq (hs : Sound h root kids) {l : List ℕ} {F : Forest Node}
    (hF : Grows h kids l F) : ∀ {p : Option ℕ} {level n : ℕ}, Chain h p l →
      (∀ i ∈ l, i < h.size ∧ AtLevel h i level) → 2 * F.size + h.size ≤ n → ∀ s,
        dumpXmlChildren h (valueName k) n s p = strAppend s (dumpText k level F) := by
  induction hF with
  | nil =>
    intro p level n hp _ _ s
    rw [Chain] at hp
    subst hp
    have hnil : dumpText k level .nil = some [] := rfl
    cases n <;> rw [dumpXmlChildren, hnil, strAppend_nil]
  | @cons i l d ks nx hd hk _ ihk ihn =>
    intro p level n hp hl hn s
    obtain ⟨rfl, hp⟩ := hp
    obtain ⟨hi, hlevel⟩ := hl i List.mem_cons_self
    simp only [Forest.size] at hn
    obtain ⟨n, rfl⟩ : ∃ m, n = m + 2 := ⟨n - 2, by omega⟩
    have hchain := hs.chain i hi
    have hkids := fun s => @ihk (h.cell i).firstChild (level + 1) n hchain (fun c hc =>
      ⟨hs.kid_lt i hi c hc, hlevel.kid (hs.kid_parent i hi c hc)
        (hs.older c (hs.kid_lt i hi c hc) i (hs.kid_parent i hi c hc))⟩) (by omega) s
    have hnil : (h.cell i).firstChild = none ↔ ks = .nil := by
      generalize kids i = m at hchain hk
      cases hk with
      | nil => exact iff_of_true hchain rfl
      | cons => exact iff_of_false (by rw [hchain.1]; simp) (by simp)
    have hsplit : dumpText k level (.cons d ks nx) =
        cat (dumpText k level (.cons d ks .nil)) (dumpText k level nx) := by
      rw [dumpText_cons, dumpText_cons]
      have hend : dumpText k level .nil = some [] := rfl
      simp only [hend, cat_assoc, nil_cat]
    rw [dumpXmlChildren, dumpXmlNodesAttr_node (by omega) hlevel hnil hkids, hd, hsplit]
    exact strAppend_bind fun s => ihn hp (fun j hj => hl j (List.mem_cons_of_mem i hj)) (by omega) s

/-- **The dump of a node appends the text of its tree**, or comes to a null pointer. -/
theorem dumpXmlNodesAttr_eq (hs : Sound h root kids) {i level : ℕ} (hi : i < h.size)
    (hlevel : AtLevel h i level) {ks : Forest Node} (hk : Grows h kids (kids i) ks) (s : Strbuf) :
    Exec.Eventually (fun n => dumpXmlNodesAttr h (valueName k) n s (some i))
      (strAppend s (dumpText k level (.cons (h.cell i).data ks .nil))) := by
  refine ⟨2 * ks.size + h.size + 1, fun n hn => ?_⟩
  obtain ⟨n, rfl⟩ : ∃ m, n = m + 1 := ⟨n - 1, by omega⟩
  have hchain := hs.chain i hi
  refine dumpXmlNodesAttr_node (by omega) hlevel ?_ (dumpXmlChildren_eq hs hk hchain
    (fun c hc => ⟨hs.kid_lt i hi c hc, hlevel.kid (hs.kid_parent i hi c hc)
      (hs.older c (hs.kid_lt i hi c hc) i (hs.kid_parent i hi c hc))⟩) (by omega)) s
  generalize kids i = m at hchain hk
  cases hk with
  | nil => exact iff_of_true hchain rfl
  | cons => exact iff_of_false (by rw [hchain.1]; simp) (by simp)

end Dump

end ZRouter.Conf
