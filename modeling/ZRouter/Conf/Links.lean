import ZRouter.Lib.CString
import ZRouter.Lib.Exec
import ZRouter.Lib.Threads

/-!
# The links between nodes (`conf_node.c`)

A node is a cell of the heap, and so is an attribute: the children of a node are one list of cells, its
attributes another, and the operations write the pointers one by one.  The loops along the lists have a
bound on their passes.

* `newNode`, `appendChild`, `appendNewChild`, `applyNode`, `nodeGetLevel`, `newAttr`, `addAttr`;
* `Op`, `Built`: what can be built with them, from fresh nodes and fresh attributes;
* `TreeLinks`: the pointers are those of lists of children and of attributes;
* `links_kept`: they are in everything that can be built.
-/

namespace ZRouter.Conf.Raw

open Cells

/-- `NodeTypes_e`, without the type that no node has. -/
inductive NodeType
  | node
  | attribute
deriving DecidableEq

/-- What a node holds besides the links of a tree; `V` are the pointers to values. -/
structure Fields (V : Type) where
  type : NodeType
  name : Bytes
  value : Option V
  desc : Option Bytes
  firstAttr : Option ℕ

/-- The memory with the nodes. -/
abbrev Store (V : Type) := Heap (Fields V)

variable {V : Type}

/-- No node yet. -/
def Store.empty : Store V := ⟨0, fun _ => ⟨⟨.node, [], none, none, none⟩, none, none, none, none⟩⟩

/-- The name of the node at an address. -/
def nameOf (h : Store V) (i : ℕ) : Bytes := (h.cell i).data.name

/-! ### The operations -/

/-- `newNode`; the new node has the address `h.size`. -/
def newNode (h : Store V) (name : Bytes) (firstAttr : Option ℕ) : Store V :=
  h.alloc ⟨⟨.node, name, none, none, firstAttr⟩, none, none, none, none⟩

/-- The loop of `appendChild`, up to the node without a next one. -/
def lastFrom (h : Store V) : ℕ → ℕ → Exec ℕ
  | 0, _ => .stuck
  | n + 1, node =>
      match (h.cell node).next with
      | none => .ret node
      | some next => lastFrom h n next

/-- `appendChild` to a node without children. -/
def hangFirst (h : Store V) (parent new : ℕ) : Store V :=
  (h.modify parent fun c => { c with firstChild := some new }).modify new fun c =>
    { c with parent := some parent }

/-- `appendChild` behind the last child. -/
def hangBehind (h : Store V) (parent new node : ℕ) : Store V :=
  ((h.modify node fun c => { c with next := some new }).modify new fun c =>
    { c with parent := some parent }).modify new fun c => { c with prev := some node }

/-- `appendChild`. -/
def appendChild (n : ℕ) (h : Store V) (parent new : ℕ) : Exec (Store V) :=
  match (h.cell parent).firstChild with
  | none => .ret (hangFirst h parent new)
  | some first => lastFrom h n first >>= fun node => .ret (hangBehind h parent new node)

/-- `appendNewChild`: the memory afterwards, and the new child. -/
def appendNewChild (n : ℕ) (h : Store V) (parent : ℕ) (name : Bytes) (firstAttr : Option ℕ) :
    Exec (Store V × ℕ) :=
  appendChild n (newNode h name firstAttr) parent h.size >>= fun h' => .ret (h', h.size)

/-- The loop of `applyNode` and of `applyAttr`, up to the node with a name. -/
def findName (h : Store V) (name : Bytes) : ℕ → Option ℕ → Exec (Option ℕ)
  | _, none => .ret none
  | 0, some _ => .stuck
  | n + 1, some node =>
      if nameOf h node = name then .ret (some node) else findName h name n (h.cell node).next

/-- `applyNode`: the memory afterwards, and the node that was found or made. -/
def applyNode (n : ℕ) (h : Store V) (parent : Option ℕ) (name : Bytes) : Exec (Store V × Option ℕ) :=
  match parent with
  | none => .ret (h, none)
  | some parent =>
      findName h name n (h.cell parent).firstChild >>= fun found =>
      match found with
      | some node => .ret (h, some node)
      | none =>
          appendChild n (newNode h name none) parent h.size >>= fun h' => .ret (h', some h.size)

/-- `nodeGetLevel`. -/
def nodeGetLevel (h : Store V) : ℕ → ℕ → Exec ℕ
  | 0, _ => .stuck
  | n + 1, node =>
      match (h.cell node).parent with
      | none => .ret 0
      | some parent => nodeGetLevel h n parent >>= fun level => .ret (level + 1)

/-- `newAttr`, with the copy of the value; the new attribute has the address `h.size`. -/
def newAttr (h : Store V) (name : Bytes) (value : Option V) : Store V :=
  (newNode h name none).modify h.size fun c =>
    { c with data := { c.data with type := .attribute, value := value } }

/-- `addAttr`. -/
def addAttr (h : Store V) (node attr : Option ℕ) : Store V × Option ℕ :=
  match node, attr with
  | some node, some attr =>
      let topAttr := (h.cell node).data.firstAttr
      let h := h.modify node fun c => { c with data := { c.data with firstAttr := some attr } }
      let h := h.modify attr fun c => { c with next := topAttr }
      match topAttr with
      | none => (h, some node)
      | some top => (h.modify top fun c => { c with prev := some attr }, some node)
  | _, _ => (h, none)

/-! ### What can be built -/

/-- A node. -/
def IsNode (h : Store V) (n : ℕ) : Prop := n < h.size ∧ (h.cell n).data.type = .node

/-- A node that has been made and hangs nowhere. -/
structure FreshNode (h : Store V) (n : ℕ) : Prop where
  isNode : IsNode h n
  parent : (h.cell n).parent = none
  firstChild : (h.cell n).firstChild = none

/-- An attribute that has been made and belongs to no node. -/
structure FreshAttr (h : Store V) (a : ℕ) : Prop where
  lt : a < h.size
  type : (h.cell a).data.type = .attribute
  prev : (h.cell a).prev = none
  head : ∀ n, (h.cell n).data.firstAttr ≠ some a

/-- A call of one of the operations; a null pointer is `none`. -/
inductive Op (V : Type)
  | newNode (name : Bytes) (firstAttr : Option ℕ)
  | newAttr (name : Bytes) (value : Option V)
  | appendChild (parent new : ℕ)
  | appendNewChild (parent : ℕ) (name : Bytes) (firstAttr : Option ℕ)
  | applyNode (parent : Option ℕ) (name : Bytes)
  | addAttr (node attr : Option ℕ)

/-- The call, with a bound on the passes of its loops. -/
def Op.run (h : Store V) (n : ℕ) : Op V → Exec (Store V)
  | .newNode name firstAttr => .ret (Raw.newNode h name firstAttr)
  | .newAttr name value => .ret (Raw.newAttr h name value)
  | .appendChild parent new => Raw.appendChild n h parent new
  | .appendNewChild parent name firstAttr =>
      Raw.appendNewChild n h parent name firstAttr >>= fun r => .ret r.1
  | .applyNode parent name => Raw.applyNode n h parent name >>= fun r => .ret r.1
  | .addAttr node attr => .ret (Raw.addAttr h node attr).1

/-- What is appended is fresh, and it is appended to a node. -/
def Op.Allowed (h : Store V) : Op V → Prop
  | .newNode _ firstAttr => ∀ a ∈ firstAttr, FreshAttr h a
  | .newAttr _ _ => True
  | .appendChild parent new => IsNode h parent ∧ FreshNode h new ∧ new ≠ parent
  | .appendNewChild parent _ firstAttr => IsNode h parent ∧ ∀ a ∈ firstAttr, FreshAttr h a
  | .applyNode parent _ => ∀ p ∈ parent, IsNode h p
  | .addAttr node attr => (∀ n ∈ node, IsNode h n) ∧ ∀ a ∈ attr, FreshAttr h a

/-- The memories after any sequence of calls. -/
inductive Built : Store V → Prop
  | empty : Built .empty
  | step {h h' : Store V} (op : Op V) : Built h → op.Allowed h →
      Exec.Eventually (fun n => op.run h n) (.ret h') → Built h'

/-! ### The links -/

/-- The two lists of a node: its children, and its attributes. -/
abbrev Which := ℕ ⊕ ℕ

/-- Where a list starts. -/
def headOf (h : Store V) : Which → Option ℕ
  | .inl n => (h.cell n).firstChild
  | .inr n => (h.cell n).data.firstAttr

/-- **The pointers are those of lists**: cells are linked in both directions, a child points to the node
whose child it is, and every node is some number of steps below one without a parent. -/
structure TreeLinks (h : Store V) (list : Which → List ℕ) : Prop where
  threads : Threads h (headOf h) list
  parent : ∀ c p, (h.cell c).parent = some p ↔ c ∈ list (.inl p)
  isNode : ∀ n, ∀ c ∈ list (.inl n), (h.cell c).data.type = .node
  isAttr : ∀ n, ∀ a ∈ list (.inr n), (h.cell a).data.type = .attribute
  lt : ∀ i, ∀ c ∈ list i, c < h.size
  beyond : ∀ n, h.size ≤ n → headOf h (.inl n) = none ∧ headOf h (.inr n) = none
  depth : ∀ n, ∃ d, Depth (fun p => list (.inl p)) n d

namespace TreeLinks

variable {h : Store V} {list : Which → List ℕ}

/-- A fresh node is in no list. -/
theorem notMem_node (hl : TreeLinks h list) {n : ℕ} (hn : FreshNode h n) (i : Which) : n ∉ list i := by
  intro hmem
  cases i with
  | inl p =>
    have hparent := (hl.parent n p).2 hmem
    rw [hn.parent] at hparent
    cases hparent
  | inr p =>
    have htype := hl.isAttr p n hmem
    rw [hn.isNode.2] at htype
    cases htype

/-- A fresh attribute is in no list. -/
theorem notMem_attr (hl : TreeLinks h list) {a : ℕ} (ha : FreshAttr h a) (i : Which) : a ∉ list i := by
  cases i with
  | inl p =>
    intro hmem
    have htype := hl.isNode p a hmem
    rw [ha.type] at htype
    cases htype
  | inr p => exact hl.threads.notMem (ha.head p) ha.prev

/-- A new cell is in no list. -/
theorem notMem_size (hl : TreeLinks h list) (i : Which) : h.size ∉ list i :=
  fun hmem => absurd (hl.lt i _ hmem) (lt_irrefl _)

/-- A list without a head is empty. -/
theorem list_eq_nil (hl : TreeLinks h list) {i : Which} (hi : headOf h i = none) : list i = [] := by
  have hhead := (hl.threads.chain i).head_eq
  rw [hi] at hhead
  exact List.head?_eq_none_iff.1 hhead.symm

end TreeLinks

/-! ### Single operations -/

section Operations

variable {h : Store V} {list : Which → List ℕ}

theorem newNode_cell (h : Store V) (name : Bytes) (firstAttr : Option ℕ) {j : ℕ} (hj : j ≠ h.size) :
    (newNode h name firstAttr).cell j = h.cell j := h.alloc_of_ne _ hj

theorem newNode_new (h : Store V) (name : Bytes) (firstAttr : Option ℕ) :
    (newNode h name firstAttr).cell h.size =
      ⟨⟨.node, name, none, none, firstAttr⟩, none, none, none, none⟩ := h.alloc_self _

/-- Links that do not change are still links; a new cell has none. -/
theorem TreeLinks.alloc (hl : TreeLinks h list) {c : Cell (Fields V)} (hc : c.parent = none ∧
      c.prev = none ∧ c.next = none ∧ c.firstChild = none ∧ c.data.firstAttr = none) :
    TreeLinks (h.alloc c) list := by
  obtain ⟨hparent, hprev, hnext, hfirst, hattr⟩ := hc
  obtain ⟨hnext', hprev'⟩ := hl.threads.loose h.size hl.notMem_size
  have hhead : ∀ i, headOf (h.alloc c) i = headOf h i := by
    rintro (n | n) <;> by_cases hn : n = h.size
    · subst hn
      rw [headOf, Heap.alloc_self, hfirst, (hl.beyond _ le_rfl).1]
    · rw [headOf, h.alloc_of_ne c hn, headOf]
    · subst hn
      rw [headOf, Heap.alloc_self, hattr, (hl.beyond _ le_rfl).2]
    · rw [headOf, h.alloc_of_ne c hn, headOf]
  refine ⟨hl.threads.congr (fun j => ?_) (fun j => ?_) hhead, ?_, ?_, ?_, ?_, ?_, hl.depth⟩
  · by_cases hj : j = h.size
    · subst hj
      rw [Heap.alloc_self, hnext, hnext']
    · rw [h.alloc_of_ne c hj]
  · by_cases hj : j = h.size
    · subst hj
      rw [Heap.alloc_self, hprev, hprev']
    · rw [h.alloc_of_ne c hj]
  · intro j p
    by_cases hj : j = h.size
    · subst hj
      rw [Heap.alloc_self, hparent]
      exact ⟨fun heq => (nomatch heq), fun hmem => absurd hmem (hl.notMem_size _)⟩
    · rw [h.alloc_of_ne c hj]
      exact hl.parent j p
  · intro n j hj
    rw [h.alloc_of_ne c (hl.lt _ j hj).ne]
    exact hl.isNode n j hj
  · intro n j hj
    rw [h.alloc_of_ne c (hl.lt _ j hj).ne]
    exact hl.isAttr n j hj
  · intro i j hj
    exact (hl.lt i j hj).trans (Nat.lt_succ_self _)
  · intro n hn
    rw [hhead, hhead]
    exact hl.beyond n ((Nat.le_succ _).trans hn)

/-- The cells after `addAttr`. -/
theorem addAttr_cell (h : Store V) (node attr j : ℕ) :
    (addAttr h (some node) (some attr)).1.cell j =
      { h.cell j with
        next := if j = attr then headOf h (.inr node) else (h.cell j).next
        prev := if headOf h (.inr node) = some j then some attr else (h.cell j).prev
        data := { (h.cell j).data with
          firstAttr := if j = node then some attr else (h.cell j).data.firstAttr } } := by
  simp only [addAttr, headOf]
  rcases Option.eq_none_or_eq_some (h.cell node).data.firstAttr with htop | ⟨top, htop⟩
  · simp only [htop, Heap.modify_cell]
    split_ifs <;> simp_all
  · simp only [htop, Heap.modify_cell]
    split_ifs <;> simp_all

/-- The fields after `addAttr`. -/
theorem addAttr_fields (h : Store V) (node attr j : ℕ) :
    let h' := (addAttr h (some node) (some attr)).1
    (h'.cell j).next = (if j = attr then headOf h (.inr node) else (h.cell j).next) ∧
    (h'.cell j).prev = (if headOf h (.inr node) = some j then some attr else (h.cell j).prev) ∧
    (h'.cell j).parent = (h.cell j).parent ∧ (h'.cell j).firstChild = (h.cell j).firstChild ∧
    (h'.cell j).data =
      { (h.cell j).data with
        firstAttr := if j = node then some attr else (h.cell j).data.firstAttr } ∧
    h'.size = h.size := by
  intro h'
  have hsize : h'.size = h.size := by
    simp only [h', addAttr]
    rcases Option.eq_none_or_eq_some (h.cell node).data.firstAttr with htop | ⟨top, htop⟩ <;>
      simp only [htop, Heap.modify_size]
  rw [addAttr_cell]
  exact ⟨rfl, rfl, rfl, rfl, rfl, hsize⟩

/-- The lists after `addAttr` of a fresh attribute. -/
theorem addAttr_links (hl : TreeLinks h list) {node attr : ℕ} (hn : node < h.size)
    (ha : FreshAttr h attr) : TreeLinks (addAttr h (some node) (some attr)).1
      (Function.update list (.inr node) (attr :: list (.inr node))) := by
  have hfields := addAttr_fields h node attr
  have hsize : (addAttr h (some node) (some attr)).1.size = h.size := (hfields 0).2.2.2.2.2
  have hkids : ∀ n, Function.update list (.inr node) (attr :: list (.inr node)) (.inl n) =
      list (.inl n) := fun n => Function.update_of_ne (by simp) _ _
  have hmem : ∀ b, b ∈ attr :: list (.inr node) ↔ b = attr ∨ b ∈ list (.inr node) :=
    fun b => List.mem_cons
  have hhead : ∀ i, headOf (addAttr h (some node) (some attr)).1 i =
      if i = Sum.inr node then some attr else headOf h i := by
    intro i
    rcases i with n | n
    · rw [headOf, (hfields n).2.2.2.1, if_neg (by simp), headOf]
    · rw [headOf, (hfields n).2.2.2.2.1, headOf]
      simp
  have hthreads := hl.threads.prepend (i := Sum.inr node) (hl.notMem_attr ha) hhead
    (fun j => (hfields j).1) (fun j => (hfields j).2.1)
  refine ⟨hthreads, ?_, ?_, ?_, ?_, ?_, ?_⟩
  · intro c p
    rw [(hfields c).2.2.1, hkids]
    exact hl.parent c p
  · intro n c hc
    rw [hkids] at hc
    rw [(hfields c).2.2.2.2.1]
    exact hl.isNode n c hc
  · intro n a hn
    rw [(hfields a).2.2.2.2.1]
    rcases (Threads.mem_update hmem).1 hn with ⟨rfl, -⟩ | hn
    · exact ha.type
    · exact hl.isAttr n a hn
  · intro i c hc
    rw [hsize]
    rcases (Threads.mem_update hmem).1 hc with ⟨rfl, -⟩ | hc
    · exact ha.lt
    · exact hl.lt i c hc
  · intro n hle
    rw [hsize] at hle
    have hne : n ≠ node := by omega
    rw [headOf, headOf, (hfields n).2.2.2.1, (hfields n).2.2.2.2.1]
    simp only [if_neg hne]
    exact hl.beyond n hle
  · intro n
    simp only [hkids]
    exact hl.depth n

/-- What `appendChild` leaves behind when `last` is the last child. -/
def hang (h : Store V) (parent new : ℕ) : Option ℕ → Store V
  | none => hangFirst h parent new
  | some node => hangBehind h parent new node

/-- The cells after `appendChild`. -/
theorem hang_cell (h : Store V) (parent : ℕ) {new : ℕ} {last : Option ℕ} (hlast : last ≠ some new)
    (hprev : (h.cell new).prev = none) (j : ℕ) :
    (hang h parent new last).cell j = (h.cell j).hung parent new last j := by
  cases last with
  | none =>
    simp only [hang, hangFirst, Heap.modify_cell, Cell.hung]
    split_ifs <;> simp_all
  | some node =>
    simp only [hang, hangBehind, Heap.modify_cell, Cell.hung]
    split_ifs <;> simp_all

/-- The fields after `appendChild`. -/
theorem hang_fields (h : Store V) (parent : ℕ) {new : ℕ} {last : Option ℕ} (hlast : last ≠ some new)
    (hprev : (h.cell new).prev = none) (j : ℕ) :
    let h' := hang h parent new last
    (h'.cell j).next = (if last = some j then some new else (h.cell j).next) ∧
    (h'.cell j).prev = (if j = new then last else (h.cell j).prev) ∧
    (h'.cell j).parent = (if j = new then some parent else (h.cell j).parent) ∧
    (h'.cell j).firstChild = (if j = parent ∧ last = none then some new else (h.cell j).firstChild) ∧
    (h'.cell j).data = (h.cell j).data ∧ h'.size = h.size := by
  intro h'
  have hsize : h'.size = h.size := by
    cases last <;> rfl
  rw [hang_cell h parent hlast hprev]
  exact ⟨rfl, rfl, rfl, rfl, rfl, hsize⟩

/-- The lists after `appendChild` of a fresh node. -/
theorem hang_links (hl : TreeLinks h list) {p new : ℕ} (hp : p < h.size) (hnew : FreshNode h new)
    (hne : new ≠ p) : TreeLinks (hang h p new (list (.inl p)).getLast?)
      (Function.update list (.inl p) (list (.inl p) ++ [new])) := by
  have hout := hl.notMem_node hnew
  have hlast : (list (.inl p)).getLast? ≠ some new :=
    fun hlast => hout (.inl p) (List.mem_of_getLast? hlast)
  have hfields := hang_fields h p hlast (hl.threads.loose new hout).2
  have hsize : (hang h p new (list (.inl p)).getLast?).size = h.size := (hfields 0).2.2.2.2.2
  have hattrs : ∀ n, Function.update list (.inl p) (list (.inl p) ++ [new]) (.inr n) = list (.inr n) :=
    fun n => Function.update_of_ne (by simp) _ _
  have hmem : ∀ b, b ∈ list (.inl p) ++ [new] ↔ b = new ∨ b ∈ list (.inl p) := by
    intro b
    rw [List.mem_append, List.mem_singleton, or_comm]
  have hhead : ∀ i, headOf (hang h p new (list (.inl p)).getLast?) i =
      if i = Sum.inl p ∧ list (.inl p) = [] then some new else headOf h i := by
    intro i
    rcases i with n | n
    · rw [headOf, (hfields n).2.2.2.1, headOf]
      simp [List.getLast?_eq_none_iff]
    · rw [headOf, (hfields n).2.2.2.2.1, if_neg (by simp), headOf]
  have hthreads := hl.threads.append (i := Sum.inl p) hout hhead
    (fun j => (hfields j).1) (fun j => (hfields j).2.1)
  refine ⟨hthreads, ?_, ?_, ?_, ?_, ?_, ?_⟩
  · intro c q
    rw [(hfields c).2.2.1, Threads.mem_update hmem, ← hl.parent]
    by_cases hc : c = new
    · rw [if_pos hc, hc, hnew.parent]
      simp [eq_comm]
    · rw [if_neg hc]
      simp [hc]
  · intro n c hc
    rw [(hfields c).2.2.2.2.1]
    rcases (Threads.mem_update hmem).1 hc with ⟨rfl, -⟩ | hc
    · exact hnew.isNode.2
    · exact hl.isNode n c hc
  · intro n a ha
    rw [hattrs] at ha
    rw [(hfields a).2.2.2.2.1]
    exact hl.isAttr n a ha
  · intro i c hc
    rw [hsize]
    rcases (Threads.mem_update hmem).1 hc with ⟨rfl, -⟩ | hc
    · exact hnew.isNode.1
    · exact hl.lt i c hc
  · intro n hle
    rw [hsize] at hle
    have hne' : n ≠ p := by omega
    rw [headOf, headOf, (hfields n).2.2.2.1, (hfields n).2.2.2.2.1, if_neg fun hif => hne' hif.1]
    exact hl.beyond n hle
  · -- the new child has no children, so that the others are as deep as before
    have hkids : (fun q => Function.update list (.inl p) (list (.inl p) ++ [new]) (.inl q)) =
        Function.update (fun q => list (.inl q)) p (list (.inl p) ++ [new]) := by
      funext q
      by_cases hq : q = p
      · rw [hq, Function.update_self, Function.update_self]
      · rw [Function.update_of_ne hq, Function.update_of_ne (by simpa using hq)]
    have hnil : list (.inl new) = [] := hl.list_eq_nil hnew.firstChild
    intro n
    rw [hkids]
    by_cases hn : n = new
    · obtain ⟨d, hd⟩ := hl.depth p
      refine ⟨d + 1, .child (Depth.append hd hne.symm hnil) ?_⟩
      rw [hn, Function.update_self]
      exact List.mem_append_right _ (List.mem_singleton.2 rfl)
    · obtain ⟨d, hd⟩ := hl.depth n
      exact ⟨d, Depth.append hd hn hnil⟩

theorem FreshNode.of_newNode (h : Store V) (name : Bytes) (firstAttr : Option ℕ) :
    FreshNode (newNode h name firstAttr) h.size := by
  refine ⟨⟨Nat.lt_succ_self _, ?_⟩, ?_, ?_⟩ <;> rw [newNode_new]

theorem FreshAttr.alloc {a : ℕ} (ha : FreshAttr h a) {c : Cell (Fields V)}
    (hc : c.data.firstAttr = none) : FreshAttr (h.alloc c) a := by
  refine ⟨ha.lt.trans (Nat.lt_succ_self _), ?_, ?_, fun n => ?_⟩
  · rw [h.alloc_of_ne c ha.lt.ne]
    exact ha.type
  · rw [h.alloc_of_ne c ha.lt.ne]
    exact ha.prev
  · by_cases hn : n = h.size
    · subst hn
      rw [Heap.alloc_self, hc]
      exact Option.some_ne_none a |>.symm
    · rw [h.alloc_of_ne c hn]
      exact ha.head n

/-- A node that is made with an attribute is one that gets it afterwards. -/
theorem newNode_some (hl : TreeLinks h list) (name : Bytes) {a : ℕ} (ha : FreshAttr h a) :
    newNode h name (some a) = (addAttr (newNode h name none) (some h.size) (some a)).1 := by
  have hne : a ≠ h.size := ha.lt.ne
  have hnone : ((newNode h name none).cell h.size).data.firstAttr = none := by rw [newNode_new]
  have hnext : (h.cell a).next = none := (hl.threads.loose a (hl.notMem_attr ha)).1
  have hcell : ∀ j, (newNode h name (some a)).cell j =
      ((addAttr (newNode h name none) (some h.size) (some a)).1).cell j := by
    intro j
    simp only [addAttr, hnone, Heap.modify_cell]
    by_cases hj : j = h.size
    · rw [hj, newNode_new, newNode_new, if_neg hne.symm, if_pos rfl]
    · rw [newNode_cell h name _ hj, newNode_cell h name _ hj, if_neg hj]
      split_ifs with hja
      · rw [hja, ← hnext]
      · rfl
  ext1
  · exact ((addAttr_fields (newNode h name none) h.size a 0).2.2.2.2.2).symm
  · exact funext hcell

/-- The lists after `newNode`. -/
theorem newNode_links (hl : TreeLinks h list) (name : Bytes) (firstAttr : Option ℕ)
    (ha : ∀ a ∈ firstAttr, FreshAttr h a) : TreeLinks (newNode h name firstAttr)
      (Function.update list (.inr h.size) firstAttr.toList) := by
  have hnil : list (.inr h.size) = [] := hl.list_eq_nil (hl.beyond _ le_rfl).2
  have hplain : TreeLinks (newNode h name none) list := hl.alloc ⟨rfl, rfl, rfl, rfl, rfl⟩
  cases firstAttr with
  | none =>
    rw [Option.toList_none, ← hnil, Function.update_eq_self]
    exact hplain
  | some a =>
    have hfresh := ha a rfl
    have hnew : h.size < (newNode h name none).size := Nat.lt_succ_self _
    have hadd := addAttr_links hplain hnew
      (hfresh.alloc (c := ⟨⟨.node, name, none, none, none⟩, none, none, none, none⟩) rfl)
    rw [newNode_some hl name hfresh]
    rw [hnil] at hadd
    exact hadd

theorem newAttr_eq (h : Store V) (name : Bytes) (value : Option V) : newAttr h name value =
    h.alloc ⟨⟨.attribute, name, value, none, none⟩, none, none, none, none⟩ := by
  have hcell : ∀ j, (newAttr h name value).cell j =
      (h.alloc ⟨⟨.attribute, name, value, none, none⟩, none, none, none, none⟩).cell j := by
    intro j
    rw [newAttr, Heap.modify_cell]
    split_ifs with hj
    · rw [hj, newNode_new, Heap.alloc_self]
    · rw [newNode_cell h name _ hj, h.alloc_of_ne _ hj]
  ext1
  · rfl
  · exact funext hcell

/-- The lists after `newAttr`. -/
theorem newAttr_links (hl : TreeLinks h list) (name : Bytes) (value : Option V) :
    TreeLinks (newAttr h name value) list := by
  rw [newAttr_eq]
  exact hl.alloc ⟨rfl, rfl, rfl, rfl, rfl⟩

theorem FreshAttr.of_newAttr (hl : TreeLinks h list) (name : Bytes) (value : Option V) :
    FreshAttr (newAttr h name value) h.size := by
  rw [newAttr_eq]
  refine ⟨Nat.lt_succ_self _, ?_, ?_, fun n hn => ?_⟩
  · rw [Heap.alloc_self]
  · rw [Heap.alloc_self]
  · by_cases hnew : n = h.size
    · subst hnew
      rw [Heap.alloc_self] at hn
      cases hn
    · rw [h.alloc_of_ne _ hnew] at hn
      exact hl.notMem_size (.inr n) (hl.threads.mem_of_head hn)

end Operations

/-! ### The loops -/

section Loops

variable {h : Store V} {list : Which → List ℕ}

/-- The loop to the last cell of a list ends there. -/
theorem lastFrom_eq {first last : ℕ} {l : List ℕ} (hc : Chain h (some first) l)
    (hlast : l.getLast? = some last) {n : ℕ} (hn : l.length ≤ n) : lastFrom h n first = .ret last := by
  induction l generalizing first n with
  | nil => cases hlast
  | cons i l ih =>
    obtain ⟨hi, hc⟩ := hc
    obtain rfl : first = i := Option.some.inj hi
    obtain ⟨n, rfl⟩ : ∃ m, n = m + 1 := ⟨n - 1, by simp at hn; omega⟩
    cases l with
    | nil =>
      have hnext : (h.cell first).next = none := hc
      rw [List.getLast?_singleton, Option.some.injEq] at hlast
      rw [lastFrom, hnext, hlast]
    | cons j l =>
      have hnext : (h.cell first).next = some j := hc.1
      rw [List.getLast?_cons_cons] at hlast
      rw [hnext] at hc
      rw [lastFrom, hnext]
      exact ih hc hlast (by simpa using hn)

/-- The loop along a list finds what a search finds. -/
theorem findName_eq {p : Option ℕ} {l : List ℕ} (hc : Chain h p l) (name : Bytes) {n : ℕ}
    (hn : l.length ≤ n) : findName h name n p = .ret (l.find? (nameOf h · = name)) := by
  induction l generalizing p n with
  | nil =>
    rw [show p = none from hc, findName]
    rfl
  | cons i l ih =>
    obtain ⟨rfl, hc⟩ := hc
    obtain ⟨n, rfl⟩ : ∃ m, n = m + 1 := ⟨n - 1, by simp at hn; omega⟩
    rw [findName, List.find?_cons]
    by_cases hi : nameOf h i = name
    · rw [if_pos hi, decide_eq_true hi]
    · rw [if_neg hi, decide_eq_false hi]
      exact ih hc (by simpa using hn)

/-- `appendChild` returns. -/
theorem appendChild_returns (hl : TreeLinks h list) (p new : ℕ) :
    Exec.Eventually (fun n => appendChild n h p new) (.ret (hang h p new (list (.inl p)).getLast?)) := by
  have hchain := hl.threads.chain (Sum.inl p)
  refine ⟨(list (.inl p)).length, fun n hn => ?_⟩
  cases hfirst : (h.cell p).firstChild with
  | none =>
    show appendChild n h p new = _
    rw [appendChild, hfirst, hl.list_eq_nil (i := .inl p) hfirst]
    rfl
  | some first =>
    rw [headOf, hfirst] at hchain
    have hne : list (.inl p) ≠ [] := by
      intro hnil
      rw [hnil] at hchain
      cases hchain
    have hlast := List.getLast?_eq_some_getLast hne
    show appendChild n h p new = _
    rw [appendChild, hfirst]
    show lastFrom h n first >>= _ = _
    rw [lastFrom_eq hchain hlast hn, hlast]
    rfl

/-- The search of `applyNode` returns. -/
theorem findName_returns (hl : TreeLinks h list) (i : Which) (name : Bytes) :
    Exec.Eventually (fun n => findName h name n (headOf h i))
      (.ret ((list i).find? (nameOf h · = name))) :=
  ⟨(list i).length, fun _ hn => findName_eq (hl.threads.chain i) name hn⟩

/-- The lists after `appendNewChild`. -/
def withChild (list : Which → List ℕ) (p new : ℕ) (firstAttr : Option ℕ) : Which → List ℕ :=
  Function.update (Function.update list (.inr new) firstAttr.toList) (.inl p) (list (.inl p) ++ [new])

/-- The memory after `appendNewChild`. -/
def grown (h : Store V) (list : Which → List ℕ) (p : ℕ) (name : Bytes) (firstAttr : Option ℕ) : Store V :=
  hang (newNode h name firstAttr) p h.size (list (.inl p)).getLast?

theorem update_inl (list : Which → List ℕ) (n p : ℕ) (l : List ℕ) :
    Function.update list (.inr n) l (.inl p) = list (.inl p) := Function.update_of_ne (by simp) _ _

theorem grown_links (hl : TreeLinks h list) {p : ℕ} (hp : p < h.size) (name : Bytes)
    {firstAttr : Option ℕ} (ha : ∀ a ∈ firstAttr, FreshAttr h a) :
    TreeLinks (grown h list p name firstAttr) (withChild list p h.size firstAttr) := by
  have hlinks := hang_links (newNode_links hl name _ ha) (p := p) (hp.trans (Nat.lt_succ_self _))
    (FreshNode.of_newNode h name firstAttr) hp.ne'
  rw [update_inl] at hlinks
  exact hlinks

/-- `appendNewChild` returns. -/
theorem appendNewChild_returns (hl : TreeLinks h list) (p : ℕ) (name : Bytes) {firstAttr : Option ℕ}
    (ha : ∀ a ∈ firstAttr, FreshAttr h a) :
    Exec.Eventually (fun n => appendNewChild n h p name firstAttr)
      (.ret (grown h list p name firstAttr, h.size)) := by
  have happend := appendChild_returns (newNode_links hl name _ ha) p h.size
  rw [update_inl] at happend
  exact happend.bind (Exec.Eventually.of_eq fun _ => rfl)

/-- `applyNode` returns: it finds the first child of that name, or makes one at the end. -/
theorem applyNode_returns (hl : TreeLinks h list) (p : ℕ) (name : Bytes) :
    Exec.Eventually (fun n => applyNode n h (some p) name)
      (.ret (match (list (.inl p)).find? (nameOf h · = name) with
        | some node => (h, some node)
        | none => (grown h list p name none, some h.size))) := by
  refine (findName_returns hl (.inl p) name).bind ?_
  cases (list (.inl p)).find? (nameOf h · = name) with
  | some node => exact Exec.Eventually.of_eq fun _ => rfl
  | none =>
    have happend := appendChild_returns (newNode_links hl name none (by simp)) p h.size
    rw [update_inl] at happend
    exact happend.bind (Exec.Eventually.of_eq fun _ => rfl)

end Loops

/-! ### Every sequence of operations -/

/-- `nodeGetLevel` returns the depth. -/
theorem nodeGetLevel_returns {h : Store V} {list : Which → List ℕ} (hl : TreeLinks h list) {n d : ℕ}
    (hd : Depth (fun p => list (.inl p)) n d) :
    Exec.Eventually (fun fuel => nodeGetLevel h fuel n) (.ret d) := by
  refine ⟨d + 1, fun fuel hfuel => ?_⟩
  show nodeGetLevel h fuel n = _
  induction hd generalizing fuel with
  | @top n htop =>
    obtain ⟨fuel, rfl⟩ : ∃ m, fuel = m + 1 := ⟨fuel - 1, by omega⟩
    have hparent : (h.cell n).parent = none := by
      cases hp : (h.cell n).parent with
      | none => rfl
      | some p => exact absurd ((hl.parent n p).1 hp) (htop p)
    rw [nodeGetLevel, hparent]
  | @child p n d _ hn ih =>
    obtain ⟨fuel, rfl⟩ : ∃ m, fuel = m + 1 := ⟨fuel - 1, by omega⟩
    have hparent : (h.cell n).parent = some p := (hl.parent n p).2 hn
    rw [nodeGetLevel, hparent]
    show nodeGetLevel h fuel p >>= _ = _
    rw [ih fuel (by omega)]
    rfl

/-- **An operation returns and keeps the links.** -/
theorem Op.run_links {h : Store V} {list : Which → List ℕ} (hl : TreeLinks h list) {op : Op V}
    (hop : op.Allowed h) : ∃ h' list', Exec.Eventually (fun n => op.run h n) (.ret h') ∧
      TreeLinks h' list' := by
  cases op with
  | newNode name firstAttr =>
    exact ⟨_, _, Exec.Eventually.of_eq fun _ => rfl, newNode_links hl name _ hop⟩
  | newAttr name value =>
    exact ⟨_, _, Exec.Eventually.of_eq fun _ => rfl, newAttr_links hl name value⟩
  | appendChild parent new =>
    obtain ⟨hp, hnew, hne⟩ := hop
    exact ⟨_, _, appendChild_returns hl parent new, hang_links hl hp.1 hnew hne⟩
  | appendNewChild parent name firstAttr =>
    obtain ⟨hp, ha⟩ := hop
    exact ⟨_, _, (appendNewChild_returns hl parent name ha).bind (Exec.Eventually.of_eq fun _ => rfl),
      grown_links hl hp.1 name ha⟩
  | applyNode parent name =>
    cases parent with
    | none => exact ⟨h, list, Exec.Eventually.of_eq fun _ => rfl, hl⟩
    | some p =>
      have happly := (applyNode_returns hl p name).bind (g := fun _ r => Exec.ret r.1)
        (Exec.Eventually.of_eq fun _ => rfl)
      have hp : p < h.size := (hop p rfl).1
      cases hfind : (list (.inl p)).find? (nameOf h · = name) with
      | some node =>
        rw [hfind] at happly
        exact ⟨_, _, happly, hl⟩
      | none =>
        rw [hfind] at happly
        exact ⟨_, _, happly, grown_links hl hp name (by simp)⟩
  | addAttr node attr =>
    obtain ⟨hn, ha⟩ := hop
    refine ⟨(Raw.addAttr h node attr).1, ?_⟩
    cases node with
    | none => exact ⟨list, Exec.Eventually.of_eq fun _ => rfl, hl⟩
    | some node =>
      cases attr with
      | none => exact ⟨list, Exec.Eventually.of_eq fun _ => rfl, hl⟩
      | some attr =>
        exact ⟨_, Exec.Eventually.of_eq fun _ => rfl, addAttr_links hl (hn node rfl).1 (ha attr rfl)⟩

theorem empty_links : TreeLinks (Store.empty : Store V) fun _ => [] := by
  have hhead : ∀ i, headOf (Store.empty : Store V) i = none := by
    rintro (n | n) <;> rfl
  refine ⟨⟨hhead, fun _ => List.nodup_nil, ?_, ?_, ?_, fun _ _ => ⟨rfl, rfl⟩⟩, ?_, ?_, ?_, ?_,
    fun n _ => ⟨hhead _, hhead _⟩, fun n => ⟨0, .top fun _ => List.not_mem_nil⟩⟩
  · intro i j c hc
    exact absurd hc List.not_mem_nil
  · intro a b
    exact ⟨fun heq => (nomatch heq), fun heq => (nomatch heq)⟩
  · intro i b hb
    rw [hhead] at hb
    cases hb
  · intro c p
    exact ⟨fun heq => (nomatch heq), fun hmem => absurd hmem List.not_mem_nil⟩
  · intro n c hc
    exact absurd hc List.not_mem_nil
  · intro n c hc
    exact absurd hc List.not_mem_nil
  · intro i c hc
    exact absurd hc List.not_mem_nil

theorem Built.links {h : Store V} (hb : Built h) : ∃ list, TreeLinks h list := by
  induction hb with
  | empty => exact ⟨_, empty_links⟩
  | @step h h' op _ hop hrun ih =>
    obtain ⟨list, hl⟩ := ih
    obtain ⟨h'', list', hrun', hl'⟩ := Op.run_links hl hop
    cases hrun.unique hrun'
    exact ⟨list', hl'⟩

/-- **The links of a tree, after any sequence of operations.**  The lists of children and of attributes
are finite, their cells are different and linked in both directions, a child points to its parent, and
`nodeGetLevel` returns the depth; the next operation returns, too. -/
theorem links_kept {h : Store V} (hb : Built h) :
    ∃ list : Which → List ℕ, TreeLinks h list ∧
      (∀ n, ∃ d, Depth (fun p => list (.inl p)) n d ∧
        Exec.Eventually (fun fuel => nodeGetLevel h fuel n) (.ret d)) ∧
      ∀ op : Op V, op.Allowed h → ∃ h', Exec.Eventually (fun fuel => op.run h fuel) (.ret h') := by
  obtain ⟨list, hl⟩ := hb.links
  refine ⟨list, hl, fun n => ?_, fun op hop => ?_⟩
  · obtain ⟨d, hd⟩ := hl.depth n
    exact ⟨d, hd, nodeGetLevel_returns hl hd⟩
  · obtain ⟨h', -, hrun, -⟩ := Op.run_links hl hop
    exact ⟨h', hrun⟩

/-- A root with an attribute and a child. -/
def smallTree : Store Bytes :=
  let h := newNode .empty (str "root") none
  let h := newAttr h (str "value") (some (str "1"))
  let h := (addAttr h (some 0) (some 1)).1
  let h := newNode h (str "net") none
  hangFirst h 0 2

theorem links_kept_smallTree :
    ∃ list : Which → List ℕ, TreeLinks smallTree list ∧
      (∀ n, ∃ d, Depth (fun p => list (.inl p)) n d ∧
        Exec.Eventually (fun fuel => nodeGetLevel smallTree fuel n) (.ret d)) ∧
      ∀ op : Op Bytes, op.Allowed smallTree →
        ∃ h', Exec.Eventually (fun fuel => op.run smallTree fuel) (.ret h') := by
  have h0 := Built.empty (V := Bytes)
  have h1 := h0.step (.newNode (str "root") none) (by intro a ha; cases ha)
    (Exec.Eventually.of_eq fun _ => rfl)
  have h2 := h1.step (.newAttr (str "value") (some (str "1"))) trivial
    (Exec.Eventually.of_eq fun _ => rfl)
  have hattr := FreshAttr.of_newAttr (newNode_links empty_links (str "root") none (by simp)) (str "value")
    (some (str "1"))
  have h3 := h2.step (.addAttr (some 0) (some 1))
    ⟨by rintro n ⟨⟩; exact ⟨by decide, rfl⟩, by rintro a ⟨⟩; exact hattr⟩
    (Exec.Eventually.of_eq fun _ => rfl)
  have h4 := h3.step (.newNode (str "net") none) (by intro a ha; cases ha)
    (Exec.Eventually.of_eq fun _ => rfl)
  have h5 := h4.step (.appendChild 0 2)
    ⟨⟨by decide, rfl⟩, FreshNode.of_newNode _ (str "net") none, by decide⟩
    (Exec.Eventually.of_eq fun _ => rfl)
  exact links_kept (h := smallTree) h5

end ZRouter.Conf.Raw
