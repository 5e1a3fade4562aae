import ZRouter.Lib.CString
import ZRouter.Lib.Linked

/-!
# The nodes of the configuration (`conf_node.c`)

The nodes are cells of a heap; the attributes of a node are a list, in the order of their chain.  A
string is the list of its bytes, so that `strcmp` compares lists.

* `Attr`, `Node`, `Tree`;
* `newNode`, `appendChild`, `appendNewChild`, `applyNode`;
* `nodeGetAttr`, `applyAttr`;
* `applyNode_cases`: what `applyNode` does to a tree.
-/

namespace ZRouter.Conf

open Cells

/-- An attribute; its value may be null. -/
structure Attr where
  name : Bytes
  value : Option Bytes
deriving DecidableEq

/-- What a node holds besides its pointers. -/
structure Node where
  name : Bytes
  value : Option Bytes
  desc : Option Bytes
  attrs : List Attr
deriving DecidableEq

/-- The memory with the nodes. -/
abbrev Tree := Heap Node

/-- The name of the node at an address. -/
def nameOf (h : Tree) (i : ℕ) : Bytes := (h.cell i).data.name

/-- The attributes of the node at an address. -/
def attrsOf (h : Tree) (i : ℕ) : List Attr := (h.cell i).data.attrs

/-! ### Nodes -/

/-- `newNode`; the new node has the address `h.size`. -/
def newNode (h : Tree) (name : Bytes) (firstAttr : List Attr) : Tree :=
  h.alloc ⟨⟨name, none, none, firstAttr⟩, none, none, none, none⟩

/-- `appendChild`. -/
def appendChild (h : Tree) (parent new : ℕ) : Tree :=
  match (h.cell parent).firstChild with
  | none =>
      (h.modify parent fun c => { c with firstChild := some new }).modify new fun c =>
        { c with parent := some parent }
  | some first =>
      match h.find (fun c => c.next.isNone) h.size (some first) with
      | none => h
      | some node =>
          ((h.modify node fun c => { c with next := some new }).modify new fun c =>
            { c with parent := some parent }).modify new fun c => { c with prev := some node }

/-- `appendNewChild`. -/
def appendNewChild (h : Tree) (parent : ℕ) (name : Bytes) (firstAttr : List Attr) : Tree :=
  appendChild (newNode h name firstAttr) parent h.size

/-- `applyNode`: the tree afterwards, and the node that was found or made. -/
def applyNode (h : Tree) (parent : Option ℕ) (name : Bytes) : Tree × Option ℕ :=
  match parent with
  | none => (h, none)
  | some parent =>
      match h.find (fun c => c.data.name = name) h.size (h.cell parent).firstChild with
      | some node => (h, some node)
      | none => (appendChild (newNode h name []) parent h.size, some h.size)

/-! ### Attributes -/

/-- `nodeGetAttr`, on the list of attributes. -/
def getAttr (attrs : List Attr) (name : Bytes) : Option Bytes :=
  (attrs.find? (·.name = name)).bind Attr.value

/-- The loop of `applyAttr`: the first attribute of that name gets the value, if there is one. -/
def assignAttr (name value : Bytes) : List Attr → Option (List Attr)
  | [] => none
  | a :: attrs =>
      if a.name = name then some ({ a with value := some value } :: attrs)
      else (assignAttr name value attrs).map (a :: ·)

/-- `addAttr` with a new attribute: it comes first. -/
def addAttr (attrs : List Attr) (a : Attr) : List Attr := a :: attrs

/-- The attributes after `applyAttr`. -/
def setAttr (attrs : List Attr) (name value : Bytes) : List Attr :=
  (assignAttr name value attrs).getD (addAttr attrs ⟨name, some value⟩)

/-- `applyAttr`. -/
def applyAttr (h : Tree) (parent : Option ℕ) (name value : Bytes) : Tree :=
  match parent with
  | none => h
  | some parent => h.modify parent fun c =>
      { c with data := { c.data with attrs := setAttr c.data.attrs name value } }

theorem assignAttr_eq_none {name value : Bytes} {attrs : List Attr} :
    assignAttr name value attrs = none ↔ ∀ a ∈ attrs, a.name ≠ name := by
  induction attrs with
  | nil => simp [assignAttr]
  | cons a attrs ih =>
    rw [assignAttr, List.forall_mem_cons]
    by_cases ha : a.name = name
    · rw [if_pos ha]
      simp [ha]
    · rw [if_neg ha, Option.map_eq_none_iff, ih]
      simp [ha]

/-- The attribute is there, everything before it has another name. -/
theorem assignAttr_eq_some {name value : Bytes} {attrs attrs' : List Attr}
    (h : assignAttr name value attrs = some attrs') :
    ∃ pre a post, attrs = pre ++ a :: post ∧ a.name = name ∧ (∀ b ∈ pre, b.name ≠ name) ∧
      attrs' = pre ++ ⟨name, some value⟩ :: post := by
  induction attrs generalizing attrs' with
  | nil => cases h
  | cons a attrs ih =>
    rw [assignAttr] at h
    by_cases ha : a.name = name
    · rw [if_pos ha, Option.some.injEq] at h
      refine ⟨[], a, attrs, rfl, ha, by simp, ?_⟩
      rw [← h, ha]
      rfl
    · rw [if_neg ha, Option.map_eq_some_iff] at h
      obtain ⟨tail, htail, rfl⟩ := h
      obtain ⟨pre, b, post, rfl, hb, hpre, rfl⟩ := ih htail
      exact ⟨a :: pre, b, post, rfl, hb, List.forall_mem_cons.2 ⟨ha, hpre⟩, rfl⟩

theorem assignAttr_append {name value : Bytes} {pre : List Attr} (hpre : ∀ b ∈ pre, b.name ≠ name)
    (a : Attr) (ha : a.name = name) (post : List Attr) :
    assignAttr name value (pre ++ a :: post) = some (pre ++ ⟨name, some value⟩ :: post) := by
  induction pre with
  | nil =>
    rw [List.nil_append, assignAttr, if_pos ha, ← ha]
    rfl
  | cons b pre ih =>
    have hb := List.forall_mem_cons.1 hpre
    rw [List.cons_append, assignAttr, if_neg hb.1, ih hb.2]
    rfl

/-- The two ways in which `applyAttr` goes on. -/
theorem setAttr_cases (attrs : List Attr) (name value : Bytes) :
    ((∀ a ∈ attrs, a.name ≠ name) ∧ setAttr attrs name value = ⟨name, some value⟩ :: attrs) ∨
      ∃ pre a post, attrs = pre ++ a :: post ∧ a.name = name ∧ (∀ b ∈ pre, b.name ≠ name) ∧
        setAttr attrs name value = pre ++ ⟨name, some value⟩ :: post := by
  cases h : assignAttr name value attrs with
  | none =>
    refine Or.inl ⟨assignAttr_eq_none.1 h, ?_⟩
    rw [setAttr, h]
    rfl
  | some attrs' =>
    obtain ⟨pre, a, post, hsplit, ha, hpre, rfl⟩ := assignAttr_eq_some h
    refine Or.inr ⟨pre, a, post, hsplit, ha, hpre, ?_⟩
    rw [setAttr, h]
    rfl

/-- The value is the one that was set. -/
theorem getAttr_setAttr (attrs : List Attr) (name value : Bytes) :
    getAttr (setAttr attrs name value) name = some value := by
  rcases setAttr_cases attrs name value with ⟨-, h⟩ | ⟨pre, a, post, -, -, hpre, h⟩
  · rw [h, getAttr]
    simp
  · have hnone : pre.find? (·.name = name) = none := by simpa [List.find?_eq_none] using hpre
    rw [h, getAttr, List.find?_append, hnone]
    simp

/-- The other attributes stay, in their order. -/
theorem filter_setAttr (attrs : List Attr) (name value : Bytes) :
    (setAttr attrs name value).filter (·.name ≠ name) = attrs.filter (·.name ≠ name) := by
  rcases setAttr_cases attrs name value with ⟨-, h⟩ | ⟨pre, a, post, rfl, ha, -, h⟩
  · rw [h]
    simp
  · rw [h]
    simp [List.filter_append, ha]

/-- The second value wins. -/
theorem setAttr_setAttr (attrs : List Attr) (name v w : Bytes) :
    setAttr (setAttr attrs name v) name w = setAttr attrs name w := by
  rcases setAttr_cases attrs name v with ⟨hnone, h⟩ | ⟨pre, a, post, rfl, ha, hpre, h⟩
  · rw [h]
    have h1 := @assignAttr_append name w [] (by simp) ⟨name, some v⟩ rfl attrs
    rw [List.nil_append] at h1
    rw [setAttr, h1, setAttr, assignAttr_eq_none.2 hnone]
    rfl
  · rw [h, setAttr, assignAttr_append hpre ⟨name, some v⟩ rfl, setAttr, assignAttr_append hpre a ha]
    rfl

/-! ### Trees -/

section Tree

variable {h : Tree} {root p : ℕ} {kids : ℕ → List ℕ}

/-- The cells after `appendChild` of a node that hangs nowhere. -/
theorem appendChild_cell {new : ℕ} {l : List ℕ} (hc : Chain h (h.cell p).firstChild l)
    (hlen : l.length ≤ h.size) (hnew : new ∉ l) (hprev : (h.cell new).prev = none) :
    (appendChild h p new).size = h.size ∧
      ∀ j, (appendChild h p new).cell j = (h.cell j).hung p new l.getLast? j := by
  rw [appendChild]
  rcases List.eq_nil_or_concat l with rfl | ⟨l, last, rfl⟩
  · rw [show (h.cell p).firstChild = none from hc]
    refine ⟨rfl, fun j => ?_⟩
    simp only [Heap.modify_cell, Cell.hung, List.getLast?_nil]
    split_ifs <;> simp_all
  · rw [List.concat_eq_append] at hc hlen hnew ⊢
    have hfind := hc.find (fun c => c.next.isNone) hlen
    rw [hc.find_last] at hfind
    have hne : new ≠ last := by
      rintro rfl
      exact hnew (by simp)
    cases hfirst : (h.cell p).firstChild with
    | none =>
      rw [hfirst, Heap.find] at hfind
      cases hfind
    | some first =>
      rw [hfirst] at hfind
      dsimp only
      rw [hfind]
      refine ⟨rfl, fun j => ?_⟩
      simp only [Heap.modify_cell, Cell.hung, List.getLast?_concat]
      split_ifs <;> simp_all

/-- The cells after `appendNewChild`. -/
theorem appendNewChild_cell (hl : Linked h root kids) (hp : p < h.size) (name : Bytes)
    (firstAttr : List Attr) :
    (appendNewChild h p name firstAttr).size = h.size + 1 ∧
    (∀ i ≠ h.size, (appendNewChild h p name firstAttr).cell i =
      { h.cell i with
        firstChild := if i = p ∧ kids p = [] then some h.size else (h.cell i).firstChild
        next := if (kids p).getLast? = some i then some h.size else (h.cell i).next }) ∧
    (appendNewChild h p name firstAttr).cell h.size =
      ⟨⟨name, none, none, firstAttr⟩, some p, (kids p).getLast?, none, none⟩ := by
  have hnew : h.size ∉ kids p := fun hmem => (hl.kid_lt p hp _ hmem).false
  have hchain : Chain (newNode h name firstAttr) ((newNode h name firstAttr).cell p).firstChild (kids p) := by
    rw [newNode, h.alloc_of_ne _ hp.ne]
    exact (hl.chain p hp).congr fun i hi => by rw [h.alloc_of_ne _ (hl.kid_lt p hp i hi).ne]
  obtain ⟨hsize, hcell⟩ := appendChild_cell hchain ((hl.length_le hp).trans (Nat.le_succ _)) hnew
    (by rw [newNode, Heap.alloc_self])
  refine ⟨hsize, fun i hi => ?_, ?_⟩
  · rw [appendNewChild, hcell, newNode, h.alloc_of_ne _ hi, Cell.hung]
    simp only [if_neg hi, List.getLast?_eq_none_iff]
  · have hlast : (kids p).getLast? ≠ some h.size := fun hlast => hnew (List.mem_of_getLast? hlast)
    rw [appendNewChild, hcell, newNode, Heap.alloc_self, Cell.hung]
    simp only [if_neg hlast, if_neg (show ¬ (h.size = p ∧ _) from fun hif => hp.ne hif.1.symm), if_true]

/-- The new node hangs behind the last child. -/
theorem appendNewChild_linked (hl : Linked h root kids) (hp : p < h.size) (name : Bytes)
    (firstAttr : List Attr) :
    Linked (appendNewChild h p name firstAttr) root (Linked.grown kids p h.size) := by
  obtain ⟨hsize, hold, hnew⟩ := appendNewChild_cell hl hp name firstAttr
  refine hl.graft hp hsize (fun i hi => ?_) (fun i hi => ?_) (fun i hi => ?_) ?_
  · rw [hold i hi.ne]
  · rw [hold i hi.ne]
  · rw [hold i hi.ne]
  · rw [hnew]
    exact ⟨rfl, rfl, rfl⟩

/-- **What `applyNode` does**: it finds the first child of that name, or makes one at the end. -/
theorem applyNode_cases (hl : Linked h root kids) (hp : p < h.size) (name : Bytes) :
    (∃ n, (kids p).find? (nameOf h · = name) = some n ∧ applyNode h (some p) name = (h, some n)) ∨
      ((kids p).find? (nameOf h · = name) = none ∧
        applyNode h (some p) name = (appendNewChild h p name [], some h.size)) := by
  have hfind := hl.find hp fun c => c.data.name = name
  rw [applyNode, hfind]
  cases hc : (kids p).find? (nameOf h · = name) with
  | none =>
    refine Or.inr ⟨rfl, ?_⟩
    change (match (kids p).find? (nameOf h · = name) with
      | some node => (h, some node)
      | none => (appendChild (newNode h name []) p h.size, some h.size)) = _
    rw [hc]
    rfl
  | some n =>
    refine Or.inl ⟨n, rfl, ?_⟩
    change (match (kids p).find? (nameOf h · = name) with
      | some node => (h, some node)
      | none => (appendChild (newNode h name []) p h.size, some h.size)) = _
    rw [hc]

end Tree

end ZRouter.Conf
