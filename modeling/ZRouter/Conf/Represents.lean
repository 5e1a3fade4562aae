import ZRouter.Conf.Node
import ZRouter.Conf.Owned
import ZRouter.Lib.Relocation

/-!
# Two models of the configuration in memory

`Conf.Tree` has a list of attributes in each node, and values that are bytes; in a `Store` attributes are
cells between the nodes, and values are pointers.

* `nodeData`, `Represents`: the nodes of a store, and a tree that holds the same;
* `Represents.newNode`, `Represents.hang`, `Represents.grown`, `Represents.applyNode`: nodes;
* `Represents.attached`, `Represents.applyAttr`: an attribute that a node does not have;
* `Represents.Keeps`: what stays.
-/

namespace ZRouter.Conf.Raw

open Cells Exec

/-! ### What a store holds -/

/-- The bytes of the value of a node; those of a copy do not depend on the buffers. -/
def valueAt (h : Store Text) (i : ℕ) : Option Bytes := (h.cell i).data.value.map (Text.read fun _ => [])

/-- The attribute in a cell. -/
def attrAt (h : Store Text) (a : ℕ) : Attr := ⟨nameOf h a, valueAt h a⟩

/-- The node in a cell, with its list of attributes. -/
def nodeData (h : Store Text) (list : Which → List ℕ) (n : ℕ) : Node :=
  ⟨nameOf h n, valueAt h n, (h.cell n).data.desc, (list (.inr n)).map (attrAt h)⟩

/-- **The nodes of the store are those of the tree**, at other addresses. -/
structure Represents (σ : ℕ → ℕ) (h : Store Text) (list : Which → List ℕ) (t : Tree) : Prop where
  links : TreeLinks h list
  nodes : Relocated σ {n | IsNode h n} (nodeData h list) h t
  onto : ∀ i < t.size, ∃ n, IsNode h n ∧ σ n = i

/-- The other cells after a new attribute. -/
theorem attached_cell (h : Store Text) {node : ℕ} (hn : node ≠ h.size) (name : Bytes) (value : Text)
    {j : ℕ} (hj : j ≠ h.size) : (attached h node name value).cell j =
      { h.cell j with
        prev := if headOf h (.inr node) = some j then some h.size else (h.cell j).prev
        data := { (h.cell j).data with
          firstAttr := if j = node then some h.size else (h.cell j).data.firstAttr } } := by
  have hhead : headOf (newAttr h name (some value)) (.inr node) = headOf h (.inr node) := by
    rw [headOf, headOf, newAttr_eq, h.alloc_of_ne _ hn]
  rw [attached, addAttr_cell, hhead, if_neg hj, newAttr_eq, h.alloc_of_ne _ hj]

/-- The new attribute. -/
theorem attached_new (h : Store Text) {node : ℕ} (hn : node ≠ h.size) (name : Bytes) (value : Text) :
    ((attached h node name value).cell h.size).data = ⟨.attribute, name, some value, none, none⟩ := by
  rw [attached, addAttr_cell, if_neg hn.symm, newAttr_eq, Heap.alloc_self]

theorem TreeLinks.child_isNode {h : Store Text} {list : Which → List ℕ} (hl : TreeLinks h list) {n c : ℕ}
    (hc : c ∈ list (.inl n)) : IsNode h c := ⟨hl.lt _ c hc, hl.isNode n c hc⟩

namespace Represents

variable {σ : ℕ → ℕ} {h : Store Text} {list : Which → List ℕ} {t : Tree}

/-- The children. -/
theorem chain (hr : Represents σ h list t) {p : ℕ} (hp : IsNode h p) :
    Chain t (t.cell (σ p)).firstChild ((list (.inl p)).map σ) := by
  rw [hr.nodes.cell p hp]
  exact hr.nodes.chain (hr.links.threads.chain (.inl p)) fun _ hc => hr.links.child_isNode hc

theorem length_le (hr : Represents σ h list t) (p : ℕ) : ((list (.inl p)).map σ).length ≤ t.size := by
  rw [List.length_map]
  exact hr.nodes.length_le (fun _ hc => hr.links.child_isNode hc) (hr.links.threads.nodup (.inl p))

theorem nameOf (hr : Represents σ h list t) {n : ℕ} (hn : IsNode h n) :
    Conf.nameOf t (σ n) = Raw.nameOf h n := by
  rw [Conf.nameOf, hr.nodes.cell n hn]
  rfl

theorem attrsOf (hr : Represents σ h list t) {n : ℕ} (hn : IsNode h n) :
    Conf.attrsOf t (σ n) = (list (.inr n)).map (attrAt h) := by
  rw [Conf.attrsOf, hr.nodes.cell n hn]
  rfl

/-- The same child is found. -/
theorem find (hr : Represents σ h list t) (p : ℕ) (name : Bytes) :
    ((list (.inl p)).map σ).find? (Conf.nameOf t · = name) =
      ((list (.inl p)).find? (Raw.nameOf h · = name)).map σ := by
  rw [List.find?_map]
  congr 1
  refine List.find?_congr fun c hc => ?_
  rw [Function.comp_apply, hr.nameOf (hr.links.child_isNode hc)]

/-! ### Nodes -/

/-- A new node in both. -/
theorem newNode (hr : Represents σ h list t) (name : Bytes) :
    Represents (Function.update σ h.size t.size) (Raw.newNode h name none) list
      (Conf.newNode t name []) := by
  have hlive : {n | IsNode (Raw.newNode h name none) n} = insert h.size {n | IsNode h n} := by
    ext n
    by_cases hn : n = h.size
    · subst hn
      simpa using (FreshNode.of_newNode h name none).isNode
    · simp only [Set.mem_ofPred_eq, Set.mem_insert_iff, hn, false_or, IsNode, newNode_cell h name none hn]
      have hsize : (Raw.newNode h name none).size = h.size + 1 := rfl
      rw [hsize]
      refine and_congr_left fun _ => ?_
      omega
  have hnil : list (.inr h.size) = [] := hr.links.list_eq_nil (hr.links.beyond _ le_rfl).2
  refine ⟨hr.links.alloc ⟨rfl, rfl, rfl, rfl, rfl⟩, ?_, fun i hi => ?_⟩
  swap
  · rcases Nat.lt_succ_iff_lt_or_eq.1 hi with hlt | rfl
    · obtain ⟨n, hn, rfl⟩ := hr.onto i hlt
      exact ⟨n, (Set.ext_iff.1 hlive n).2 (Or.inr hn), Function.update_of_ne hn.1.ne _ _⟩
    · exact ⟨h.size, (FreshNode.of_newNode h name none).isNode, Function.update_self _ _ _⟩
  rw [hlive]
  refine (hr.nodes.alloc ⟨⟨.node, name, none, none, none⟩, none, none, none, none⟩ rfl
    ⟨name, none, none, []⟩).congr_data fun n _ => ?_
  by_cases hn : n = h.size
  · subst hn
    rw [Function.update_self, nodeData, hnil, Raw.nameOf, valueAt, newNode_new]
    rfl
  · rw [Function.update_of_ne hn]
    have hattrs : ∀ a ∈ list (.inr n), attrAt (Raw.newNode h name none) a = attrAt h a := by
      intro a ha
      rw [attrAt, Raw.nameOf, valueAt, newNode_cell h name none (hr.links.lt _ a ha).ne]
      rfl
    rw [nodeData, Raw.nameOf, valueAt, newNode_cell h name none hn, List.map_congr_left hattrs]
    rfl

/-- A fresh node becomes the last child in both. -/
theorem hang (hr : Represents σ h list t) {p new : ℕ} (hp : IsNode h p) (hnew : FreshNode h new)
    (hne : new ≠ p) : Represents σ (Raw.hang h p new (list (.inl p)).getLast?)
      (Function.update list (.inl p) (list (.inl p) ++ [new])) (Conf.appendChild t (σ p) (σ new)) := by
  have hout := hr.links.notMem_node hnew
  have hlast : (list (.inl p)).getLast? ≠ some new :=
    fun hlast => hout (.inl p) (List.mem_of_getLast? hlast)
  have hprev : (h.cell new).prev = none := (hr.links.threads.loose new hout).2
  have hfields := hang_fields h p hlast hprev
  have hcell := hang_cell h p hlast hprev
  have hsize : (Raw.hang h p new (list (.inl p)).getLast?).size = h.size := (hfields 0).2.2.2.2.2
  have hlive : {n | IsNode (Raw.hang h p new (list (.inl p)).getLast?) n} = {n | IsNode h n} := by
    ext n
    simp only [Set.mem_ofPred_eq, IsNode, hsize, (hfields n).2.2.2.2.1]
  have hnotMem : σ new ∉ (list (.inl p)).map σ := by
    intro hmem
    obtain ⟨c, hc, heq⟩ := List.mem_map.1 hmem
    rw [hr.nodes.inj (hr.links.child_isNode hc) hnew.isNode heq] at hc
    exact hout (.inl p) hc
  have htprev : (t.cell (σ new)).prev = none := by
    rw [hr.nodes.cell new hnew.isNode]
    exact congrArg (Option.map σ) hprev
  obtain ⟨htsize, htcell⟩ := appendChild_cell (hr.chain hp) (hr.length_le p) hnotMem htprev
  rw [List.getLast?_map] at htcell
  refine ⟨hang_links hr.links hp.1 hnew hne, ?_, fun i hi => ?_⟩
  swap
  · obtain ⟨n, hn, rfl⟩ := hr.onto i (htsize ▸ hi)
    exact ⟨n, (Set.ext_iff.1 hlive n).2 hn, rfl⟩
  rw [hlive]
  refine (hr.nodes.hung hp hnew.isNode (fun l hl => ?_) hsize htsize hcell htcell).congr_data
    fun n _ => ?_
  · exact hr.links.child_isNode (List.mem_of_getLast? hl)
  · have hattr : attrAt (Raw.hang h p new (list (.inl p)).getLast?) = attrAt h := by
      funext a
      rw [attrAt, Raw.nameOf, valueAt, (hfields a).2.2.2.2.1]
      rfl
    rw [nodeData, Raw.nameOf, valueAt, (hfields n).2.2.2.2.1, hattr, Function.update_of_ne (by simp)]
    rfl

/-- `appendNewChild` in both. -/
theorem grown (hr : Represents σ h list t) {p : ℕ} (hp : IsNode h p) (name : Bytes) :
    Represents (Function.update σ h.size t.size) (Raw.grown h list p name none)
      (withChild list p h.size none) (Conf.appendNewChild t (σ p) name []) := by
  have hne : p ≠ h.size := hp.1.ne
  have hnil : list (.inr h.size) = [] := hr.links.list_eq_nil (hr.links.beyond _ le_rfl).2
  have hp' : IsNode (Raw.newNode h name none) p := by
    refine ⟨hp.1.trans (Nat.lt_succ_self _), ?_⟩
    rw [newNode_cell h name none hne]
    exact hp.2
  have hhang := (hr.newNode name).hang hp' (FreshNode.of_newNode h name none) hne.symm
  have hlist : Function.update list (.inr h.size) (none : Option ℕ).toList = list := by
    rw [Option.toList_none, ← hnil, Function.update_eq_self]
  rw [Function.update_of_ne hne, Function.update_self] at hhang
  rw [withChild, hlist]
  exact hhang

/-- Nodes stay nodes, at the same addresses of the tree. -/
structure Keeps (σ σ' : ℕ → ℕ) (h h' : Store Text) : Prop where
  isNode : ∀ n, IsNode h n → IsNode h' n
  address : ∀ n, IsNode h n → σ' n = σ n

theorem Keeps.refl (σ : ℕ → ℕ) (h : Store Text) : Keeps σ σ h h := ⟨fun _ hn => hn, fun _ _ => rfl⟩

theorem Keeps.trans {σ' σ'' : ℕ → ℕ} {h' h'' : Store Text} (h1 : Keeps σ σ' h h')
    (h2 : Keeps σ' σ'' h' h'') : Keeps σ σ'' h h'' :=
  ⟨fun n hn => h2.isNode n (h1.isNode n hn),
    fun n hn => (h2.address n (h1.isNode n hn)).trans (h1.address n hn)⟩

theorem keeps_newNode (σ : ℕ → ℕ) (h : Store Text) (m : ℕ) (name : Bytes) :
    Keeps σ (Function.update σ h.size m) h (Raw.newNode h name none) := by
  refine ⟨fun n hn => ⟨hn.1.trans (Nat.lt_succ_self _), ?_⟩,
    fun n hn => Function.update_of_ne hn.1.ne _ _⟩
  rw [newNode_cell h name none hn.1.ne]
  exact hn.2

theorem keeps_grown (hl : TreeLinks h list) (σ : ℕ → ℕ) (m p : ℕ) (name : Bytes) :
    Keeps σ (Function.update σ h.size m) h (Raw.grown h list p name none) ∧
      IsNode (Raw.grown h list p name none) h.size := by
  have hnew := FreshNode.of_newNode h name none
  have hlast : (list (.inl p)).getLast? ≠ some h.size :=
    fun hlast => hl.notMem_size (.inl p) (List.mem_of_getLast? hlast)
  have hfields := hang_fields (Raw.newNode h name none) p hlast (by rw [newNode_new])
  have hiff : ∀ n, IsNode (Raw.grown h list p name none) n ↔ IsNode (Raw.newNode h name none) n := by
    intro n
    rw [IsNode, IsNode, Raw.grown, (hfields n).2.2.2.2.1, (hfields 0).2.2.2.2.2]
  have hkeeps := keeps_newNode σ h m name
  exact ⟨⟨fun n hn => (hiff n).2 (hkeeps.isNode n hn), hkeeps.address⟩, (hiff _).2 hnew.isNode⟩

/-- `applyNode` in both. -/
theorem applyNode (hr : Represents σ h list t) {p : ℕ} (hp : IsNode h p) (name : Bytes) :
    ∃ h' node σ' list', Eventually (fun n => Raw.applyNode n h (some p) name) (.ret (h', some node)) ∧
      Represents σ' h' list' (Conf.applyNode t (some (σ p)) name).1 ∧
      (Conf.applyNode t (some (σ p)) name).2 = some (σ' node) ∧ IsNode h' node ∧ Keeps σ σ' h h' := by
  have happly := applyNode_returns hr.links p name
  have hfind := (hr.chain hp).find (fun c => c.data.name = name) (hr.length_le p)
  have hsame := hr.find p name
  rw [Conf.applyNode]
  cases hc : (list (.inl p)).find? (Raw.nameOf h · = name) with
  | some node =>
    rw [hc] at happly hsame
    rw [show ((list (.inl p)).map σ).find? (fun i => decide ((t.cell i).data.name = name)) =
      some (σ node) from hsame] at hfind
    have hnode := hr.links.child_isNode (List.mem_of_find?_eq_some hc)
    rw [hfind]
    exact ⟨h, node, σ, list, happly, hr, rfl, hnode, Keeps.refl σ h⟩
  | none =>
    rw [hc] at happly hsame
    rw [show ((list (.inl p)).map σ).find? (fun i => decide ((t.cell i).data.name = name)) =
      none from hsame] at hfind
    obtain ⟨hkeeps, hnode⟩ := keeps_grown hr.links σ t.size p name
    rw [hfind]
    refine ⟨_, _, _, _, happly, hr.grown hp name, ?_, hnode, hkeeps⟩
    rw [Function.update_self]

/-! ### Attributes -/

/-- The attributes in their cells, the new one among them. -/
theorem attrAt_attached (h : Store Text) {node : ℕ} (hn : node ≠ h.size) (name s : Bytes) :
    (∀ a ≠ h.size, attrAt (Raw.attached h node name (.owned s)) a = attrAt h a) ∧
      attrAt (Raw.attached h node name (.owned s)) h.size = ⟨name, some s⟩ := by
  refine ⟨fun a ha => ?_, ?_⟩
  · rw [attrAt, Raw.nameOf, valueAt, attached_cell h hn name _ ha]
    rfl
  · rw [attrAt, Raw.nameOf, valueAt, attached_new h hn]
    rfl

/-- An attribute that a node does not have, in both. -/
theorem attached (hr : Represents σ h list t) {node : ℕ} (hn : IsNode h node) {name : Bytes}
    (hfirst : (list (.inr node)).find? (Raw.nameOf h · = name) = none) (s : Bytes) :
    Represents σ (Raw.attached h node name (.owned s))
      (Function.update list (.inr node) (h.size :: list (.inr node)))
      (Conf.applyAttr t (some (σ node)) name s) := by
  have hl := hr.links
  have hsize : (Raw.attached h node name (.owned s)).size = h.size + 1 := attached_size ..
  have hne : node ≠ h.size := hn.1.ne
  have hcell := fun n (hn : n ≠ h.size) => attached_cell h hne name (.owned s) hn
  obtain ⟨hold, hnew⟩ := attrAt_attached h hne name s
  have hattrs : ∀ n, (list (.inr n)).map (attrAt (Raw.attached h node name (.owned s))) =
      (list (.inr n)).map (attrAt h) :=
    fun n => List.map_congr_left fun a ha => hold a (hl.lt _ a ha).ne
  have hlive : {n | IsNode (Raw.attached h node name (.owned s)) n} = {n | IsNode h n} := by
    ext n
    simp only [Set.mem_ofPred_eq, IsNode, hsize]
    by_cases hn : n = h.size
    · subst hn
      rw [attached_new h hne]
      simp
    · rw [hcell n hn]
      refine and_congr_left fun _ => ?_
      omega
  refine ⟨addAttr_links (newAttr_links hl name _) ?_ (FreshAttr.of_newAttr hl name _), ?_, fun i hi => ?_⟩
  · rw [newAttr_eq]
    exact hn.1.trans (Nat.lt_succ_self _)
  swap
  · obtain ⟨n, hn, rfl⟩ := hr.onto i hi
    exact ⟨n, (Set.ext_iff.1 hlive n).2 hn, rfl⟩
  rw [hlive]
  refine (hr.nodes.modify (hsize ▸ Nat.le_succ _) (fun n hlt => ?_) hn
    fun d => { d with attrs := setAttr d.attrs name s }).congr_data fun n hlt => ?_
  · -- the first attribute of a node is no node, so that the pointers of nodes stay
    have hhead : headOf h (.inr node) ≠ some n := by
      intro heq
      have htype := hl.isAttr node n (hl.threads.mem_of_head heq)
      rw [hlt.2] at htype
      cases htype
    rw [hcell n hlt.1.ne, if_neg hhead]
    exact ⟨_, rfl⟩
  · by_cases hnode : n = node
    · subst hnode
      have hnone : assignAttr name s ((list (.inr n)).map (attrAt h)) = none := by
        rw [assignAttr_eq_none]
        intro a ha
        obtain ⟨i, hi, rfl⟩ := List.mem_map.1 ha
        simpa [attrAt] using List.find?_eq_none.1 hfirst i hi
      rw [Function.update_self, nodeData, Function.update_self, List.map_cons, hattrs,
        hnew, Raw.nameOf, valueAt, hcell n hlt.1.ne]
      simp only [nodeData, setAttr, hnone]
      rfl
    · rw [Function.update_of_ne hnode, nodeData, Function.update_of_ne (by simpa using hnode), hattrs,
        Raw.nameOf, valueAt, hcell n hlt.1.ne]
      rfl

theorem keeps_attached (σ : ℕ → ℕ) (h : Store Text) (node : ℕ) (name : Bytes) (value : Text) :
    Keeps σ σ h (Raw.attached h node name value) := by
  refine ⟨fun n hn => ⟨?_, ?_⟩, fun _ _ => rfl⟩
  · rw [attached_size]
    exact hn.1.trans (Nat.lt_succ_self _)
  · rw [Raw.attached, (addAttr_fields _ node h.size n).2.2.2.2.1, newAttr_eq, h.alloc_of_ne _ hn.1.ne]
    exact hn.2

/-- `applyAttr` in both, for an attribute that the node does not have. -/
theorem applyAttr (hr : Represents σ h list t) {node : ℕ} (hn : IsNode h node) (buffers : ℕ → Bytes)
    {name : Bytes} (p : ℕ)
    (hfirst : Eventually (fun n => findName h name n (h.cell node).data.firstAttr) (.ret none)) :
    ∃ h' list',
      Eventually (fun n => Raw.applyAttr n h buffers (some node) name (.borrowed p)) (.ret h') ∧
      Represents σ h' list' (Conf.applyAttr t (some (σ node)) name (buffers p)) ∧ Keeps σ σ h h' := by
  have hfind : (list (.inr node)).find? (Raw.nameOf h · = name) = none :=
    Exec.ret.inj ((findName_returns hr.links (.inr node) name).unique hfirst)
  have hrun := applyAttr_returns hr.links buffers node name (.borrowed p)
  rw [hfind] at hrun
  exact ⟨_, _, hrun, hr.attached hn hfind (buffers p), keeps_attached σ h node name _⟩

end Represents

end ZRouter.Conf.Raw
