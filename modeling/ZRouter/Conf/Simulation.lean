import ZRouter.Conf.Layers
import ZRouter.Conf.Represents

/-!
# Loading a file, in both models

As long as no attribute is given a value twice, the loader with pointers does what the one on trees does,
so that what holds of layers there holds of the memory.

* `Simulates`, `handle_simulates`: the handlers;
* `SameTree`, `loads_simulated`: the runs of `load_xml`;
* `nodeGetAttr`, `layer_in_memory`: what a file leaves in the memory.
-/

namespace ZRouter.Conf.Raw

open Cells Exec

/-! ### The handlers -/

theorem valueName_eq (k : ℤ) : valueName k = attrName k := rfl

section Handlers

variable {σ : ℕ → ℕ} {h : Store Text} {list : Which → List ℕ} {t : Tree} {k : ℤ} {r r' : ℕ}

/-- A pass of the loop over the attributes. -/
theorem attrPass_simulates (hr : Represents σ h list t) {node : ℕ} (hn : IsNode h node)
    (buffers : ℕ → Bytes) (attr : Bytes × ℕ) (hfirst : FirstValue k node h attr) :
    ∃ h' list', Eventually (fun n => attrPass k node buffers n h attr) (.ret h') ∧
      Represents σ h' list' (if k = 1 then Conf.applyAttr t (some (σ node)) attr.1 (buffers attr.2)
        else if attr.1 = str "value" then
          Conf.applyAttr t (some (σ node)) (attrName k) (buffers attr.2)
        else t) ∧ Represents.Keeps σ σ h h' := by
  by_cases hdef : k = 1
  · have hname : storedName k attr.1 = some attr.1 := by rw [storedName, if_pos hdef]
    obtain ⟨-, hnone⟩ := hfirst attr.1 (by rw [hname]; rfl)
    simp only [attrPass, if_pos hdef]
    exact hr.applyAttr hn buffers attr.2 hnone
  · simp only [attrPass, if_neg hdef]
    by_cases hvalue : attr.1 = str "value"
    · have hname : storedName k attr.1 = some (valueName k) := by
        rw [storedName, if_neg hdef, if_pos hvalue]
      obtain ⟨hfits, hnone⟩ := hfirst (valueName k) (by rw [hname]; rfl)
      simp only [if_pos hvalue, if_pos (hfits hdef), ← valueName_eq]
      exact hr.applyAttr hn buffers attr.2 hnone
    · simp only [if_neg hvalue]
      exact ⟨h, list, Eventually.of_eq fun _ => rfl, hr, Represents.Keeps.refl σ h⟩

/-- The loop over the attributes. -/
theorem attrLoop_simulates {node : ℕ} (buffers : ℕ → Bytes) (attrs : List (Bytes × ℕ)) :
    ∀ {h : Store Text} {list : Which → List ℕ} {t : Tree}, Represents σ h list t → IsNode h node →
      Along (attrPass k node buffers) (FirstValue k node) h (attrs.takeWhile (·.1 ≠ [])) →
      ∃ h' list', Eventually (fun n => attrLoop k node buffers n attrs h) (.ret h') ∧
        Represents σ h' list'
          (Conf.attrLoop k (some (σ node)) (attrs.map fun a => (a.1, buffers a.2)) t) ∧
        Represents.Keeps σ σ h h' := by
  induction attrs with
  | nil =>
    intro h list t hr _ _
    exact ⟨h, list, Eventually.of_eq fun _ => rfl, hr, Represents.Keeps.refl σ h⟩
  | cons attr attrs ih =>
    intro h list t hr hn halong
    by_cases hempty : attr.1 = []
    · simp only [attrLoop, if_pos hempty, List.map_cons, Conf.attrLoop]
      exact ⟨h, list, Eventually.of_eq fun _ => rfl, hr, Represents.Keeps.refl σ h⟩
    · rw [List.takeWhile_cons_of_pos (by simpa using hempty)] at halong
      obtain ⟨h₁, list₁, hrun₁, hr₁, hkeep₁⟩ := attrPass_simulates hr hn buffers attr halong.1
      obtain ⟨h', list', hrun, hr', hkeep⟩ := ih hr₁ (hkeep₁.isNode node hn) (halong.2 h₁ hrun₁)
      simp only [attrLoop, if_neg hempty, List.map_cons, Conf.attrLoop]
      exact ⟨h', list', hrun₁.bind hrun, hr', hkeep₁.trans hkeep⟩

/-- The event, with the values that the buffers hold. -/
def Event.read : Event → Conf.Event
  | .start buffers el attr => .start el (attr.map fun a => (a.1, buffers a.2))
  | .ends el => .ends el

/-- The states of the two loaders; `r` and `r'` are the roots of a run. -/
structure Simulates (r r' : ℕ) (σ : ℕ → ℕ) (st : XmlState) (u : Conf.XmlState) : Prop where
  cursor : Cursor 0 st
  owned : Owned st.store
  represents : ∃ list, Represents σ st.store list u.tree
  confId : st.confId = u.confId
  level : u.level = st.level
  roots : st.root = r ∧ u.root = r'
  root : IsNode st.store r ∧ r' = σ r
  last : ∃ l, st.last = some l ∧ IsNode st.store l ∧ u.last = some (σ l)

/-- The node of an element. -/
theorem enter_simulates {st : XmlState} {u : Conf.XmlState} (hs : Simulates r r' σ st u) (el : Bytes) :
    ∃ h node σ' list' t', Eventually (fun n => enter n st el) (.ret (h, some node)) ∧
      (if u.confId = 1 then
        u.last.map fun p => (Conf.appendNewChild u.tree p el [], some u.tree.size)
      else some (Conf.applyNode u.tree u.last el)) = some (t', some (σ' node)) ∧
      Represents σ' h list' t' ∧ IsNode h node ∧ Represents.Keeps σ σ' st.store h := by
  obtain ⟨list, hr⟩ := hs.represents
  obtain ⟨l, hlast, hl, hulast⟩ := hs.last
  have hone : st.confId = 1 ↔ u.confId = 1 := by rw [hs.confId]
  by_cases hdef : u.confId = 1
  · obtain ⟨hkeeps, hnode⟩ := Represents.keeps_grown hr.links σ u.tree.size l el
    simp only [enter, if_pos (hone.2 hdef), hlast, if_pos hdef, hulast]
    refine ⟨_, _, _, _, _, (appendNewChild_returns hr.links l el (by simp)).bind
      (Eventually.of_eq fun _ => rfl), ?_, hr.grown hl el, hnode, hkeeps⟩
    rw [Function.update_self]
    rfl
  · simp only [enter, if_neg (mt hone.1 hdef), hlast, if_neg hdef, hulast]
    obtain ⟨h, node, σ', list', hrun, hr', hsome, hnode, hkeeps⟩ := hr.applyNode hl el
    exact ⟨h, node, σ', list', _, hrun, congrArg some (Prod.ext rfl hsome), hr', hnode, hkeeps⟩

theorem startElement_simulates {st : XmlState} {u : Conf.XmlState} (hs : Simulates r r' σ st u)
    (buffers : ℕ → Bytes) (el : Bytes) (attr : List (Bytes × ℕ))
    (hclean : CleanEvent st (.start buffers el attr)) :
    ∃ st' u' σ', Eventually (fun n => startElement n st buffers el attr) (.ret st') ∧
      Conf.startElement u el (attr.map fun a => (a.1, buffers a.2)) = some u' ∧
      Simulates r r' σ' st' u' ∧ Represents.Keeps σ σ' st.store st'.store := by
  obtain ⟨h, node, σ', list, t, henter, htarget, hr, hnode, hkeeps⟩ := enter_simulates hs el
  have halong := hclean h node henter
  rw [hs.confId] at halong
  obtain ⟨h', list', hloop, hr', hkeeps'⟩ := attrLoop_simulates buffers attr hr hnode halong
  have hrun := hloop
  simp only [← hs.confId, attrLoop_eq] at hrun
  have hstart : Eventually (fun n => startElement n st buffers el attr) (.ret (st.opened h' node)) :=
    startElement_eq henter hrun rfl
  obtain ⟨st', hst', hcursor, howned⟩ :=
    (handle_sorts 0).kept st (.start buffers el attr) ⟨hs.cursor, hs.owned⟩ hclean
  obtain rfl : st' = st.opened h' node := Exec.ret.inj (hst'.unique hstart)
  obtain ⟨hroot, huroot⟩ := hs.root
  have hu : Conf.startElement u el (attr.map fun a => (a.1, buffers a.2)) =
      some { u with
        tree := Conf.attrLoop u.confId (some (σ' node)) (attr.map fun a => (a.1, buffers a.2)) t
        last := some (σ' node)
        level := u.level + 1 } := by
    rw [Conf.startElement]
    simp only [htarget]
  refine ⟨_, _, σ', hstart, hu, ⟨hcursor, howned, ⟨list', hr'⟩, hs.confId, ?_, hs.roots, ?_, ?_⟩,
    ⟨fun n hn => hkeeps'.isNode n (hkeeps.isNode n hn), hkeeps.address⟩⟩
  · exact congrArg (· + 1) hs.level
  · exact ⟨hkeeps'.isNode _ (hkeeps.isNode _ hroot), huroot.trans (hkeeps.address _ hroot).symm⟩
  · exact ⟨node, rfl, hkeeps'.isNode node hnode, rfl⟩

theorem endElement_simulates {st : XmlState} {u : Conf.XmlState} (hs : Simulates r r' σ st u) (el : Bytes) :
    ∃ st' u', endElement st el = .ret st' ∧ Conf.endElement u el = some u' ∧
      Simulates r r' σ st' u' ∧ st'.store = st.store := by
  obtain ⟨st', hrun, hstore, hcursor⟩ := endElement_returns hs.cursor el
  obtain ⟨list, hr⟩ := hs.represents
  obtain ⟨l, hlast, hl, hulast⟩ := hs.last
  obtain ⟨hroot, huroot⟩ := hs.root
  have hsame : u.last = some u.root ↔ st.last = some st.root := by
    rw [hlast, hulast, hs.roots.1, hs.roots.2, huroot, Option.some.injEq, Option.some.injEq]
    exact ⟨hr.nodes.inj hl hroot, congrArg σ⟩
  have howned : Owned st'.store := hstore ▸ hs.owned
  by_cases htop : st.last = some st.root
  · have hend : endElement st el = .ret { st with level := st.level - 1 } := by
      rw [endElement]
      exact if_pos htop
    have huend : Conf.endElement u el = some { u with level := u.level - 1 } := by
      rw [Conf.endElement]
      exact if_pos (hsame.2 htop)
    obtain rfl := Exec.ret.inj (hrun.symm.trans hend)
    exact ⟨_, _, hend, huend, ⟨hcursor, howned, ⟨list, hr⟩, hs.confId,
      congrArg (· - 1) hs.level, hs.roots, hs.root, l, hlast, hl, hulast⟩, rfl⟩
  · have hend : endElement st el =
        .ret { st with level := st.level - 1, last := (st.store.cell l).parent } := by
      rw [endElement]
      dsimp only
      rw [if_neg htop, hlast]
    have huend : Conf.endElement u el =
        some { u with level := u.level - 1, last := (u.tree.cell (σ l)).parent } := by
      rw [Conf.endElement]
      dsimp only
      rw [if_neg (mt hsame.1 htop), hulast]
    obtain rfl := Exec.ret.inj (hrun.symm.trans hend)
    obtain ⟨p, hp, -, -⟩ := hcursor.last
    have hpnode : IsNode st.store p := hr.nodes.closed l hl p (Cell.mem_pointers.2 (.inl hp))
    have hup : (u.tree.cell (σ l)).parent = some (σ p) := by
      rw [hr.nodes.cell l hl]
      exact congrArg (Option.map σ) hp
    exact ⟨_, _, hend, huend, ⟨hcursor, howned, ⟨list, hr⟩, hs.confId,
      congrArg (· - 1) hs.level, hs.roots, hs.root, p, hp, hpnode, hup⟩, rfl⟩

/-- **The handlers do the same.** -/
theorem handle_simulates {st : XmlState} {u : Conf.XmlState} {e : Event} (hs : Simulates r r' σ st u)
    (hclean : CleanEvent st e) : ∃ st' u' σ', Eventually (fun n => handle n st e) (.ret st') ∧
      Conf.handle u e.read = some u' ∧ Simulates r r' σ' st' u' ∧
      Represents.Keeps σ σ' st.store st'.store := by
  cases e with
  | start buffers el attr => exact startElement_simulates hs buffers el attr hclean
  | ends el =>
    obtain ⟨st', u', hrun, hu, hs', hstore⟩ := endElement_simulates hs el
    refine ⟨st', u', σ, Eventually.of_eq fun _ => hrun, hu, hs', ?_⟩
    rw [hstore]
    exact Represents.Keeps.refl σ st.store

end Handlers

/-! ### Runs of `load_xml` -/

/-- The same run on the other tree, with the caller's pointer to it. -/
def Load.onTree (c : Tree × Option ℕ) (load : Load) : Option (Tree × Option ℕ) :=
  (Conf.loadXml c.1 c.2 load.confId (load.events.map Event.read)).map fun u =>
    (u.tree, if load.ok then some u.root else c.2)

/-- The memories before and after a run. -/
structure SameTree (σ : ℕ → ℕ) (w : World) (c : Tree × Option ℕ) : Prop where
  owned : Owned w.store
  represents : ∃ list, Represents σ w.store list c.1
  newroot : ∀ r ∈ w.newroot, IsNode w.store r
  same : c.2 = w.newroot.map σ

theorem SameTree.treeWorld {σ : ℕ → ℕ} {w : World} {c : Tree × Option ℕ} (hs : SameTree σ w c) :
    TreeWorld w := by
  obtain ⟨list, hr⟩ := hs.represents
  exact ⟨⟨list, hr.links⟩, fun r hr => (hs.newroot r hr).1⟩

/-- The two states with which `load_xml` starts. -/
theorem start_simulates {σ : ℕ → ℕ} {w : World} {c : Tree × Option ℕ} (hs : SameTree σ w c)
    (confId : ℤ) : ∃ r r' σ',
      Simulates r r' σ' (XmlState.start w confId) (Conf.XmlState.start c.1 c.2 confId) ∧
      Represents.Keeps σ σ' w.store (XmlState.start w confId).store ∧
      (∀ q ∈ w.newroot, q = r) ∧ ∀ q ∈ c.2, q = r' := by
  obtain ⟨hcursor, howned, -⟩ := start_cursor hs.treeWorld confId
  have hcursor' : Cursor 0 (XmlState.start w confId) :=
    ⟨hcursor.links, Nat.zero_le _, hcursor.root, hcursor.last⟩
  obtain ⟨list, hr⟩ := hs.represents
  obtain ⟨store, newroot⟩ := w
  obtain ⟨tree, root⟩ := c
  obtain rfl := hs.same
  cases newroot with
  | some r =>
    have hroot : IsNode store r := hs.newroot r rfl
    exact ⟨r, σ r, σ, ⟨hcursor', howned hs.owned, ⟨list, hr⟩, rfl, rfl, ⟨rfl, rfl⟩,
      ⟨hroot, rfl⟩, r, rfl, hroot, rfl⟩, Represents.Keeps.refl σ store, by rintro q ⟨⟩; rfl,
      by rintro q ⟨⟩; rfl⟩
  | none =>
    have hnew := (FreshNode.of_newNode store (str "root") none).isNode
    have hself : Function.update σ store.size tree.size store.size = tree.size := Function.update_self ..
    exact ⟨store.size, tree.size, Function.update σ store.size tree.size, ⟨hcursor', howned hs.owned,
      ⟨list, hr.newNode (str "root")⟩, rfl, rfl, ⟨rfl, rfl⟩, ⟨hnew, hself.symm⟩, store.size,
      rfl, hnew, congrArg some hself.symm⟩,
      Represents.keeps_newNode σ store tree.size (str "root"), by rintro q ⟨⟩, by rintro q ⟨⟩⟩

/-- A file that gives no attribute a value twice. -/
theorem loadXml_simulates {σ : ℕ → ℕ} {w : World} {c : Tree × Option ℕ} {load : Load}
    (hs : SameTree σ w c) (hclean : CleanLoad w load) :
    ∃ w' c' σ', Eventually (fun n => loadXml n w load) (.ret w') ∧ load.onTree c = some c' ∧
      SameTree σ' w' c' ∧ Represents.Keeps σ σ' w.store w'.store ∧
      ∀ q ∈ w.newroot, w'.newroot = some q := by
  obtain ⟨r, r', σ', hstart, hkeeps, hroot, hroot'⟩ := start_simulates hs load.confId
  obtain ⟨st, u, hrun, hfold, σ'', hst, hkeeps'⟩ := Along.simulates
    (fun st u e _ (hR : ∃ σ₁, Simulates r r' σ₁ st u ∧ Represents.Keeps σ σ₁ w.store st.store) hclean => by
      obtain ⟨σ₁, hs, hkeeps⟩ := hR
      obtain ⟨st', u', σ', hrun, hu, hs', hkeeps'⟩ := handle_simulates hs hclean
      exact ⟨st', u', hrun, hu, σ', hs', hkeeps.trans hkeeps'⟩) ⟨σ', hstart, hkeeps⟩ hclean
  have hload : Conf.loadXml c.1 c.2 load.confId (load.events.map Event.read) = some u := by
    rw [Conf.loadXml, List.foldlM_map]
    exact hfold
  refine ⟨_, _, σ'', hrun.bind (Eventually.of_eq fun _ => rfl), by rw [Load.onTree, hload]; rfl,
    ⟨hst.owned, hst.represents, fun q hq => ?_, ?_⟩, hkeeps', fun q hq => ?_⟩
  · obtain rfl : q = r := by
      cases hok : load.ok with
      | true =>
        rw [hok] at hq
        exact (Option.some.inj hq).symm.trans hst.roots.1
      | false =>
        rw [hok] at hq
        exact hroot q hq
    exact hst.root.1
  · cases hok : load.ok with
    | true =>
      show some u.root = some (σ'' st.root)
      rw [hst.roots.1, hst.roots.2, hst.root.2]
    | false =>
      show c.2 = w.newroot.map σ''
      have hsame := hs.same
      cases hnew : w.newroot with
      | none =>
        rw [hnew] at hsame
        exact hsame
      | some q =>
        rw [hnew] at hsame
        have hq := hroot' (σ q) hsame
        rw [hsame, hroot q hnew] at *
        exact congrArg some (hq.trans hst.root.2)
  · cases hok : load.ok with
    | true =>
      show some st.root = some q
      rw [hst.roots.1, hroot q hq]
    | false => exact hq

/-- No node. -/
def emptyTree : Tree := ⟨0, fun _ => ⟨⟨[], none, none, []⟩, none, none, none, none⟩⟩

theorem empty_sameTree : SameTree id World.empty (emptyTree, none) := by
  have hnone : ∀ n, ¬ IsNode World.empty.store n := fun n hn => absurd hn.1 (Nat.not_lt_zero n)
  refine ⟨fun i hi => absurd hi (Nat.not_lt_zero i), ⟨_, empty_links, ?_, fun i hi => absurd hi (Nat.not_lt_zero i)⟩,
    by rintro r ⟨⟩, rfl⟩
  exact ⟨fun n hn => absurd hn (hnone n), fun n hn => absurd hn (hnone n), fun n hn => absurd hn (hnone n),
    fun n hn => absurd hn (hnone n), fun n hn => absurd hn (hnone n)⟩

/-- **Runs of `load_xml` that give no attribute a value twice**: the memory then holds the tree of the
other model, and owns the values in it. -/
theorem loads_simulated {loads : List Load} (hclean : Clean loads) :
    ∃ w c σ, Eventually (fun n => run loadXml n World.empty loads) (.ret w) ∧
      loads.foldlM Load.onTree (emptyTree, none) = some c ∧ SameTree σ w c := by
  obtain ⟨w, c, hrun, hfold, σ, hs⟩ := Along.simulates
    (fun w c load _ (hR : ∃ σ, SameTree σ w c) hclean => by
      obtain ⟨σ, hs⟩ := hR
      obtain ⟨w', c', σ', hrun, hc, hs', -⟩ := loadXml_simulates hs hclean
      exact ⟨w', c', hrun, hc, σ', hs'⟩) ⟨id, empty_sameTree⟩ hclean
  exact ⟨w, c, σ, hrun, hfold, hs⟩

/-- The node that the loader on trees comes to with an element has no attribute of that name. -/
def isFresh (u : Conf.XmlState) (el name : Bytes) : Bool :=
  match (if u.confId = 1 then u.last.map fun p => (Conf.appendNewChild u.tree p el [], some u.tree.size)
    else some (Conf.applyNode u.tree u.last el)) with
  | some (t, some i) => (Conf.attrsOf t i).all (·.name ≠ name)
  | some (_, none) => true
  | none => true

/-- What is new on the tree is new in the memory. -/
theorem cleanEvent_of_isFresh {σ : ℕ → ℕ} {r r' : ℕ} {st : XmlState} {u : Conf.XmlState}
    (hs : Simulates r r' σ st u) (buffers : ℕ → Bytes) {el : Bytes} {attr : Bytes × ℕ}
    (hfresh : ∀ name ∈ storedName u.confId attr.1, name.length < 16 ∧ isFresh u el name = true) :
    CleanEvent st (.start buffers el [attr]) := by
  intro h node henter
  obtain ⟨h', node', σ', list, t, henter', htarget, hr, hnode, -⟩ := enter_simulates hs el
  obtain ⟨rfl, hsame⟩ := Prod.mk.inj (Exec.ret.inj (henter.unique henter'))
  obtain rfl := Option.some.inj hsame
  have hfirst : FirstValue st.confId node h attr := by
    rw [hs.confId]
    intro name hname
    obtain ⟨hfits, hall⟩ := hfresh name hname
    refine ⟨fun _ => hfits, ?_⟩
    rw [isFresh, htarget] at hall
    dsimp only at hall
    rw [hr.attrsOf hnode, List.all_eq_true] at hall
    have hnone : (list (.inr node)).find? (nameOf h · = name) = none :=
      List.find?_eq_none.2 fun a ha heq =>
        of_decide_eq_true (hall _ (List.mem_map_of_mem ha)) (of_decide_eq_true heq)
    exact hnone ▸ findName_returns hr.links (.inr node) name
  by_cases hempty : attr.1 = []
  · rw [List.takeWhile_cons_of_neg (by simpa using hempty)]
    trivial
  · rw [List.takeWhile_cons_of_pos (by simpa using hempty)]
    exact ⟨hfirst, fun _ _ => trivial⟩

/-- `<net value="v"/>`, loaded under the number `k`. -/
def netLoad (k : ℤ) (v : Bytes) : Load where
  confId := k
  events := [.start (fun _ => v) (str "net") [(str "value", 0)], .ends (str "net")]
  ok := true

theorem cleanLoad_netLoad {σ : ℕ → ℕ} {w : World} {c : Tree × Option ℕ} (hs : SameTree σ w c) {k : ℤ} (v : Bytes)
    (hfresh : ∀ name ∈ storedName k (str "value"),
      name.length < 16 ∧ isFresh (Conf.XmlState.start c.1 c.2 k) (str "net") name = true) :
    CleanLoad w (netLoad k v) := by
  obtain ⟨r, r', σ', hstart, -⟩ := start_simulates hs k
  refine ⟨cleanEvent_of_isFresh hstart _ ?_, fun _ _ => ⟨trivial, fun _ _ => trivial⟩⟩
  have hid : (XmlState.start w k).confId = k := by
    rw [XmlState.start]
    cases w.newroot <;> rfl
  rw [← hstart.confId, hid]
  exact hfresh

theorem cleanLoad_defaults : CleanLoad World.empty (netLoad 1 (str "1")) := by
  refine cleanLoad_netLoad empty_sameTree _ fun name hname => ?_
  obtain rfl : str "value" = name := Option.some.inj hname
  exact ⟨by decide, by decide +kernel⟩

/-- A layer over the node that the defaults have made. -/
theorem cleanLoad_layer {σ : ℕ → ℕ} {w : World} {c : Tree × Option ℕ} (hs : SameTree σ w c)
    (hc : (netLoad 1 (str "1")).onTree (emptyTree, none) = some c) : CleanLoad w (netLoad 2 (str "7")) := by
  refine cleanLoad_netLoad hs _ fun name hname => ?_
  obtain rfl : valueName 2 = name := Option.some.inj hname
  have hall : ((netLoad 1 (str "1")).onTree (emptyTree, none)).all
      (fun c => isFresh (Conf.XmlState.start c.1 c.2 2) (str "net") (valueName 2)) = true := by
    decide +kernel
  rw [hc] at hall
  exact ⟨by decide +kernel, hall⟩

theorem loads_simulated_layer : ∃ w c σ,
    Eventually (fun n => run loadXml n World.empty [netLoad 1 (str "1"), netLoad 2 (str "7")]) (.ret w) ∧
      [netLoad 1 (str "1"), netLoad 2 (str "7")].foldlM Load.onTree (emptyTree, none) = some c ∧
      SameTree σ w c := by
  refine loads_simulated ⟨cleanLoad_defaults, fun w hw => ⟨?_, fun _ _ => trivial⟩⟩
  obtain ⟨w', c, σ, hrun, hc, hs, -⟩ := loadXml_simulates empty_sameTree cleanLoad_defaults
  obtain rfl : w = w' := Exec.ret.inj (hw.unique hrun)
  exact cleanLoad_layer hs hc

/-! ### What a file leaves in the memory -/

/-- `nodeGetAttr`. -/
def nodeGetAttr (n : ℕ) (h : Store Text) (node : ℕ) (name : Bytes) : Exec (Option Text) :=
  findName h name n (h.cell node).data.firstAttr >>= fun found =>
  .ret (found.bind fun attr => (h.cell attr).data.value)

section Reading

variable {σ : ℕ → ℕ} {h : Store Text} {list : Which → List ℕ} {t : Tree}

/-- `nodeGetAttr` returns the value that the tree has. -/
theorem Represents.nodeGetAttr (hr : Represents σ h list t) (ho : Owned h) {n : ℕ} (hn : IsNode h n)
    (name : Bytes) : Eventually (fun f => Raw.nodeGetAttr f h n name)
      (.ret ((getAttr (Conf.attrsOf t (σ n)) name).map .owned)) := by
  have hvalue : ∀ a ∈ list (.inr n), (h.cell a).data.value = (valueAt h a).map .owned := by
    intro a ha
    cases hv : (h.cell a).data.value with
    | none => rw [valueAt, hv]; rfl
    | some v =>
      obtain ⟨s, rfl⟩ := ho a (hr.links.lt _ a ha) v (by rw [hv]; rfl)
      rw [valueAt, hv]
      rfl
  refine (findName_returns hr.links (.inr n) name).bind (Eventually.of_eq fun _ => congrArg Exec.ret ?_)
  rw [hr.attrsOf hn, getAttr, List.find?_map]
  have hcomp : ((fun a : Attr => decide (a.name = name)) ∘ attrAt h) = fun a => decide (Raw.nameOf h a = name) := rfl
  rw [hcomp]
  cases hfind : (list (.inr n)).find? (Raw.nameOf h · = name) with
  | none => rfl
  | some a => exact hvalue a (List.mem_of_find?_eq_some hfind)

/-- The tree is one. -/
theorem Represents.linked (hr : Represents σ h list t) {root : ℕ} (hroot : IsNode h root)
    (htop : (h.cell root).parent = none) :
    ∃ kids, Linked t (σ root) kids := by
  choose back hback using hr.onto
  refine ⟨fun i => if hi : i < t.size then (list (.inl (back i hi))).map σ else [],
    hr.nodes.moved_lt root hroot, ?_, fun i hi => ?_, fun i hi => ?_, fun i hi c hc => ?_,
    fun i hi c hc => ?_⟩
  · rw [hr.nodes.cell root hroot]
    exact congrArg (Option.map σ) htop
  · obtain ⟨hn, heq⟩ := hback i hi
    have hchain := hr.chain hn
    rw [heq] at hchain
    rw [dif_pos hi]
    exact hchain
  · rw [dif_pos hi]
    exact hr.nodes.nodup (fun c hc => hr.links.child_isNode hc) (hr.links.threads.nodup _)
  · rw [dif_pos hi] at hc
    obtain ⟨d, hd, rfl⟩ := List.mem_map.1 hc
    exact hr.nodes.moved_lt d (hr.links.child_isNode hd)
  · rw [dif_pos hi] at hc
    obtain ⟨d, hd, rfl⟩ := List.mem_map.1 hc
    rw [hr.nodes.cell d (hr.links.child_isNode hd)]
    show (h.cell d).parent.map σ = some i
    rw [(hr.links.parent d _).2 hd]
    exact congrArg some (hback i hi).2

end Reading

theorem getAttr_filter {name other : Bytes} (hne : name ≠ other) (attrs : List Attr) :
    getAttr (attrs.filter (·.name ≠ other)) name = getAttr attrs name := by
  rw [getAttr, getAttr, List.find?_filter]
  congr 2
  funext a
  by_cases ha : a.name = name
  · simp [ha, hne]
  · simp [ha]

/-- **What a file leaves in the memory** that is loaded under a number from 2 on and gives no attribute a
value twice: a copy of the value that it gives for a path, at the node that the path leads to; under other
names the nodes that were there have what they had. -/
theorem layer_in_memory {σ : ℕ → ℕ} {w : World} {c : Tree × Option ℕ} (hs : SameTree σ w c) {root : ℕ}
    (hroot : w.newroot = some root) (htop : (w.store.cell root).parent = none) {load : Load}
    (hclean : CleanLoad w load) (hk : 2 ≤ load.confId) :
    ∃ w' list', Eventually (fun n => loadXml n w load) (.ret w') ∧ TreeLinks w'.store list' ∧
      w'.newroot = some root ∧
      (∀ p ∈ (trace (load.events.map Event.read)).elements,
        ∃ n, reach (nameOf w'.store) (fun n => list' (.inl n)) root p = some n) ∧
      (∀ p n v, reach (nameOf w'.store) (fun n => list' (.inl n)) root p = some n →
        lastValue (load.events.map Event.read) p = some v →
        Eventually (fun f => nodeGetAttr f w'.store n (valueName load.confId)) (.ret (some (.owned v)))) ∧
      ∀ n name x, IsNode w.store n → name ≠ valueName load.confId →
        Eventually (fun f => nodeGetAttr f w.store n name) (.ret x) →
        Eventually (fun f => nodeGetAttr f w'.store n name) (.ret x) := by
  obtain ⟨k, hcast⟩ : ∃ k : ℕ, load.confId = k := ⟨load.confId.toNat, by omega⟩
  have hk2 : 2 ≤ k := by omega
  have hname : valueName load.confId = Conf.valueName k := by
    rw [hcast, valueName_eq, attrName_natCast (by omega)]
  obtain ⟨list, hr⟩ := hs.represents
  have hnode := hs.newroot root (by rw [hroot]; rfl)
  obtain ⟨kids, hlinked⟩ := hr.linked hnode htop
  obtain ⟨w', c', σ', hrun, hc, hs', hkeeps, hnewroot⟩ := loadXml_simulates hs hclean
  obtain ⟨list', hr'⟩ := hs'.represents
  obtain ⟨u, kids', hload, hlayered, -⟩ := run_layered (k := k) (by omega) hlinked (load.events.map Event.read)
  have happlied := hlayered.applied hlinked
  have hsame : c.2 = some (σ root) := by rw [hs.same, hroot]; rfl
  have htree : c'.1 = u.tree := by
    rw [Load.onTree, hsame, hcast, hload] at hc
    rw [← Option.some.inj hc]
  rw [← htree] at happlied
  have hkids : ∀ n, IsNode w'.store n → kids' (σ' n) = (list' (.inl n)).map σ' := fun n hn =>
    (happlied.linked.chain (σ' n) (hr'.nodes.moved_lt n hn)).unique (hr'.chain hn)
  have hreach := @reach_moved _ _ _ {n | IsNode w'.store n} _ _ _ _ (fun n hn => hr'.nameOf hn) hkids
    (fun n _ c hc => hr'.links.child_isNode hc) root (hkeeps.isNode root hnode)
  have hroot' : σ' root = σ root := hkeeps.address root hnode
  rw [hroot'] at hreach
  rw [hname]
  refine ⟨w', list', hrun, hr'.links, hnewroot root (by rw [hroot]; rfl), fun p hp => ?_,
    fun p n v hn hv => ?_, fun n name x hn hne hx => ?_⟩
  · obtain ⟨m, hm⟩ := happlied.elements p hp
    rw [nodeAt, (hreach p).1, Option.map_eq_some_iff] at hm
    obtain ⟨n, hn, -⟩ := hm
    exact ⟨n, hn⟩
  · have hat : nodeAt c'.1 kids' (σ root) p = some (σ' n) := by
      rw [nodeAt, (hreach p).1, hn]
      rfl
    have hget := hr'.nodeGetAttr hs'.owned ((hreach p).2 n hn) (Conf.valueName k)
    rw [happlied.value p (σ' n) v hat hv] at hget
    exact hget
  · have hlt : σ n < c.1.size := hr.nodes.moved_lt n hn
    have hattrs := happlied.attrs (σ n) hlt
    have hget := hr'.nodeGetAttr hs'.owned (hkeeps.isNode n hn) name
    rw [hkeeps.address n hn, ← getAttr_filter hne, hattrs, getAttr_filter hne] at hget
    rw [(hx.unique (hr.nodeGetAttr hs.owned hn name))]
    exact hget

/-- The layer gives the node `net` of the defaults a second value. -/
theorem layer_in_memory_net : ∃ (w : World) (root : ℕ) (w' : World) (list' : Which → List ℕ),
    Eventually (fun n => loadXml n World.empty (netLoad 1 (str "1"))) (.ret w) ∧
      Eventually (fun n => loadXml n w (netLoad 2 (str "7"))) (.ret w') ∧
      ∃ n, reach (nameOf w'.store) (fun n => list' (.inl n)) root [str "net"] = some n ∧
        Eventually (fun f => nodeGetAttr f w'.store n (valueName 2)) (.ret (some (.owned (str "7")))) ∧
        ∀ n x, IsNode w.store n → Eventually (fun f => nodeGetAttr f w.store n (str "value")) (.ret x) →
          Eventually (fun f => nodeGetAttr f w'.store n (str "value")) (.ret x) := by
  obtain ⟨w, c, σ, hrun, hc, hs, -⟩ := loadXml_simulates empty_sameTree cleanLoad_defaults
  have htree : ((netLoad 1 (str "1")).onTree (emptyTree, none)).all
      (fun c => c.2 = some 0 && (c.1.cell 0).parent = none) = true := by
    decide +kernel
  rw [hc, Option.all_some, Bool.and_eq_true, decide_eq_true_eq, decide_eq_true_eq] at htree
  obtain ⟨root, hroot, hzero⟩ := Option.map_eq_some_iff.1 (hs.same.symm.trans htree.1)
  have htop : (w.store.cell root).parent = none := by
    obtain ⟨list, hr⟩ := hs.represents
    have hcell := hr.nodes.cell root (hs.newroot root hroot)
    rw [hzero] at hcell
    have hparent : (w.store.cell root).parent.map σ = none := (congrArg Cell.parent hcell).symm.trans htree.2
    exact Option.map_eq_none_iff.1 hparent
  obtain ⟨w', list', hrun', -, -, helements, hvalue, hrest⟩ :=
    layer_in_memory hs hroot htop (cleanLoad_layer hs hc) (by decide)
  obtain ⟨n, hn⟩ := helements [str "net"] (by decide)
  exact ⟨w, root, w', list', hrun, hrun', n, hn, hvalue [str "net"] n (str "7") hn (by decide),
    fun n x hn hx => hrest n (str "value") x hn (by decide +kernel) hx⟩

end ZRouter.Conf.Raw
