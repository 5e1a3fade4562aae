import ZRouter.Conf.Xml

/-!
# Configuration layers

A run of the handlers with a configuration number `k` from 2 on adds the elements of the file that the
tree does not have, and writes their values to the attributes `value<k>`; nothing else changes.

* `Layered`: what holds after any sequence of events;
* `Layered.apply`, `Layered.write`: the two halves of `startElement` keep it;
* `SameNodes`: only attributes differ;
* `layer_applied`: a run over a well-nested file.
-/

namespace ZRouter.Conf

open Cells

/-! ### Writing the value -/

/-- The attributes of a node after a layer has given it a value, or none. -/
def layered (k : ℕ) (attrs : List Attr) : Option Bytes → List Attr
  | none => attrs
  | some v => setAttr attrs (valueName k) v

theorem layered_layered (k : ℕ) (attrs : List Attr) (v w : Option Bytes) :
    layered k (layered k attrs v) w = layered k attrs (w.or v) := by
  cases w with
  | none => rfl
  | some w =>
    cases v with
    | none => rfl
    | some v => exact setAttr_setAttr ..

theorem filter_layered (k : ℕ) (attrs : List Attr) (v : Option Bytes) :
    (layered k attrs v).filter (·.name ≠ valueName k) = attrs.filter (·.name ≠ valueName k) := by
  cases v with
  | none => rfl
  | some v => exact filter_setAttr ..

theorem foldl_setAttr (k : ℕ) (vs : List Bytes) (attrs : List Attr) :
    vs.foldl (fun l v => setAttr l (valueName k) v) attrs = layered k attrs vs.getLast? := by
  induction vs using List.reverseRecOn with
  | nil => rfl
  | append_singleton vs v ih =>
    rw [List.foldl_concat, ih, List.getLast?_concat]
    exact layered_layered k attrs vs.getLast? (some v)

/-- A tree with other attributes at one node. -/
def writeAttrs (h : Tree) (n : ℕ) (attrs : List Attr) : Tree :=
  h.modify n fun c => { c with data := { c.data with attrs := attrs } }

theorem writeAttrs_self (h : Tree) (n : ℕ) : writeAttrs h n (attrsOf h n) = h := by
  rw [writeAttrs, Heap.modify]
  ext1
  · rfl
  · exact Function.update_eq_self n h.cell

theorem writeAttrs_writeAttrs (h : Tree) (n : ℕ) (l l' : List Attr) :
    writeAttrs (writeAttrs h n l) n l' = writeAttrs h n l' := by
  rw [writeAttrs, Heap.modify, writeAttrs, Heap.modify_self]
  ext1
  · rfl
  · exact Function.update_idem ..

@[simp] theorem attrsOf_writeAttrs (h : Tree) (n : ℕ) (l : List Attr) :
    attrsOf (writeAttrs h n l) n = l := by
  rw [attrsOf, writeAttrs, Heap.modify_self]

theorem writeAttrs_of_ne (h : Tree) {n i : ℕ} (l : List Attr) (hi : i ≠ n) :
    (writeAttrs h n l).cell i = h.cell i := h.modify_of_ne _ hi

theorem applyAttr_eq (h : Tree) (n : ℕ) (name value : Bytes) :
    applyAttr h (some n) name value = writeAttrs h n (setAttr (attrsOf h n) name value) := rfl

/-- The attributes of a node after the loop has written the values, which is not for the defaults. -/
def writtenAttrs (confId : ℤ) (attrs : List Attr) (attr : List (Bytes × Bytes)) : List Attr :=
  (valuesOf attr).foldl (fun l v => setAttr l (attrName confId) v) attrs

theorem writtenAttrs_natCast {k : ℕ} (hk : 0 < k) (attrs : List Attr) (attr : List (Bytes × Bytes)) :
    writtenAttrs k attrs attr = layered k attrs (valuesOf attr).getLast? := by
  rw [writtenAttrs, attrName_natCast hk, foldl_setAttr]

/-- The loop over the attributes writes the values. -/
theorem attrLoop_eq {confId : ℤ} (hid : confId ≠ 1) (n : ℕ) (attr : List (Bytes × Bytes)) (h : Tree) :
    attrLoop confId (some n) attr h = writeAttrs h n (writtenAttrs confId (attrsOf h n) attr) := by
  rw [writtenAttrs]
  induction attr generalizing h with
  | nil => exact (writeAttrs_self h n).symm
  | cons a attr ih =>
    obtain ⟨name, value⟩ := a
    rw [attrLoop, if_neg hid]
    by_cases hempty : name = []
    · subst hempty
      rw [if_pos rfl]
      exact (writeAttrs_self h n).symm
    · rw [if_neg hempty, ih]
      by_cases hvalue : name = str "value"
      · have hvalues : valuesOf ((name, value) :: attr) = value :: valuesOf attr := by
          rw [valuesOf, List.takeWhile_cons_of_pos (by simpa using hempty),
            List.filter_cons_of_pos (by simpa using hvalue)]
          rfl
        rw [if_pos hvalue, hvalues, applyAttr_eq, attrsOf_writeAttrs, writeAttrs_writeAttrs]
        rfl
      · have hvalues : valuesOf ((name, value) :: attr) = valuesOf attr := by
          rw [valuesOf, List.takeWhile_cons_of_pos (by simpa using hempty),
            List.filter_cons_of_neg (by simpa using hvalue)]
          rfl
        rw [if_neg hvalue, hvalues]

/-- For a layer that is the last value. -/
theorem attrLoop_layered {k : ℕ} (hk : 2 ≤ k) (n : ℕ) (attr : List (Bytes × Bytes)) (h : Tree) :
    attrLoop k (some n) attr h = writeAttrs h n (layered k (attrsOf h n) (valuesOf attr).getLast?) := by
  rw [attrLoop_eq (by omega), writtenAttrs_natCast (by omega)]

/-- Everything but the attributes is the same. -/
structure SameNodes (h h' : Tree) : Prop where
  size : h'.size = h.size
  cell : ∀ i, h'.cell i =
    { h.cell i with data := { (h.cell i).data with attrs := attrsOf h' i } }

theorem SameNodes.refl (h : Tree) : SameNodes h h := ⟨rfl, fun _ => rfl⟩

theorem SameNodes.write {h h' : Tree} (hs : SameNodes h h') (n : ℕ) (l : List Attr) :
    SameNodes h (writeAttrs h' n l) := by
  refine ⟨hs.size, fun i => ?_⟩
  by_cases hi : i = n
  · subst hi
    rw [attrsOf_writeAttrs, writeAttrs, Heap.modify_self, hs.cell i]
  · rw [attrsOf, writeAttrs_of_ne h' l hi]
    exact hs.cell i

theorem SameNodes.nameOf {h h' : Tree} (hs : SameNodes h h') : nameOf h' = nameOf h := by
  funext i
  rw [Conf.nameOf, hs.cell i]
  rfl

theorem SameNodes.linked {h h' : Tree} {root : ℕ} {kids : ℕ → List ℕ} (hs : SameNodes h h')
    (hl : Linked h root kids) : Linked h' root kids := by
  refine hl.congr hs.size (fun i => ?_) (fun i => ?_) fun i => ?_
  · rw [hs.cell i]
  · rw [hs.cell i]
  · rw [hs.cell i]

/-! ### The invariant -/

/-- No two children of a node have the same name. -/
def UniqueSiblings (h : Tree) (kids : ℕ → List ℕ) : Prop :=
  ∀ i < h.size, ((kids i).map (nameOf h)).Nodup

/-- The node at a path, in a tree with the given children. -/
abbrev nodeAt (h : Tree) (kids : ℕ → List ℕ) (root : ℕ) (p : Path) : Option ℕ :=
  reach (nameOf h) kids root p

theorem nodeAt_concat (h : Tree) (kids : ℕ → List ℕ) (root : ℕ) (p : Path) (a : Bytes) :
    nodeAt h kids root (p ++ [a]) =
      (nodeAt h kids root p).bind fun i => (kids i).find? (nameOf h · = a) :=
  reach_concat ..

/-- What has become of the tree `h₀` after a layer with the given events. -/
structure Layered (k : ℕ) (h₀ : Tree) (root : ℕ) (kids₀ : ℕ → List ℕ) (events : List Event)
    (h : Tree) (kids : ℕ → List ℕ) : Prop where
  linked : Linked h root kids
  size : h₀.size ≤ h.size
  node : ∀ i < h₀.size, nameOf h i = nameOf h₀ i ∧ (h.cell i).data.value = (h₀.cell i).data.value ∧
    (h.cell i).data.desc = (h₀.cell i).data.desc ∧ (h.cell i).parent = (h₀.cell i).parent
  appended : ∀ i < h₀.size, ∃ new, kids i = kids₀ i ++ new ∧ ∀ c ∈ new, h₀.size ≤ c
  reached : ∀ p n, nodeAt h kids root p = some n →
    attrsOf h n = layered k (if n < h₀.size then attrsOf h₀ n else []) (lastValue events p)
  unreached : ∀ i, (∀ p, nodeAt h kids root p ≠ some i) → attrsOf h i = attrsOf h₀ i
  elements : ∀ p ∈ (trace events).elements, ∃ n, nodeAt h kids root p = some n
  unique : UniqueSiblings h₀ kids₀ → UniqueSiblings h kids

namespace Layered

variable {k root : ℕ} {h₀ h : Tree} {kids₀ kids : ℕ → List ℕ} {events : List Event}

/-- Before the first event. -/
theorem nil (hl : Linked h₀ root kids₀) : Layered k h₀ root kids₀ [] h₀ kids₀ where
  linked := hl
  size := le_rfl
  node i _ := ⟨rfl, rfl, rfl, rfl⟩
  appended i _ := ⟨[], (List.append_nil _).symm, by simp⟩
  reached p n hn := by
    rw [if_pos (reach_lt hl hn)]
    rfl
  unreached i _ := rfl
  elements p hp := absurd hp List.not_mem_nil
  unique hu := hu

/-- An end changes no node. -/
theorem ends (hL : Layered k h₀ root kids₀ events h kids) (el : Bytes) :
    Layered k h₀ root kids₀ (events ++ [.ends el]) h kids where
  linked := hL.linked
  size := hL.size
  node := hL.node
  appended := hL.appended
  reached p n hn := by
    rw [lastValue, trace_concat]
    exact hL.reached p n hn
  unreached := hL.unreached
  elements p hp := by
    rw [trace_concat] at hp
    exact hL.elements p hp
  unique := hL.unique

/-- `applyNode` at the node of a path leads to the node of the longer path, which is there or is made
without attributes. -/
theorem apply (hL : Layered k h₀ root kids₀ events h kids) {P : Path} {p : ℕ}
    (hp : nodeAt h kids root P = some p) (el : Bytes) :
    ∃ h' n kids', applyNode h (some p) el = (h', some n) ∧
      Layered k h₀ root kids₀ events h' kids' ∧ nodeAt h' kids' root (P ++ [el]) = some n := by
  have hplt := reach_lt hL.linked hp
  rcases applyNode_cases hL.linked hplt el with ⟨n, hn, happly⟩ | ⟨hnone, happly⟩
  · refine ⟨h, n, kids, happly, hL, ?_⟩
    rw [nodeAt_concat, hp]
    exact hn
  · obtain ⟨hsize, hold, hnew⟩ := appendNewChild_cell hL.linked hplt el []
    have hlinked := appendNewChild_linked hL.linked hplt el []
    have hdata : ∀ i ≠ h.size, ((appendNewChild h p el []).cell i).data = (h.cell i).data := by
      intro i hi
      rw [hold i hi]
    have hname : ∀ i < h.size, nameOf (appendNewChild h p el []) i = nameOf h i := by
      intro i hi
      rw [nameOf, hdata i hi.ne]
      rfl
    have hnewName : nameOf (appendNewChild h p el []) h.size = el := by
      rw [nameOf, hnew]
    have hne : h.size ≠ p := hplt.ne'
    -- the names of the children, with the new one
    have hnames : ∀ i < h.size, ∀ a, (kids i).find? (nameOf (appendNewChild h p el []) · = a) =
        (kids i).find? (nameOf h · = a) := by
      intro i hi a
      refine List.find?_congr fun c hc => ?_
      rw [hname c (hL.linked.kid_lt i hi c hc)]
    have hmono : ∀ q m, nodeAt h kids root q = some m →
        nodeAt (appendNewChild h p el []) (Linked.grown kids p h.size) root q = some m := by
      intro q m hm
      refine reach_mono hL.linked hname (fun i hi => ?_) hm
      by_cases hip : i = p
      · rw [hip, Linked.grown_self]
        exact List.prefix_append _ _
      · rw [Linked.grown_of_ne hip hi.ne]
    have hreach : nodeAt (appendNewChild h p el []) (Linked.grown kids p h.size) root (P ++ [el]) =
        some h.size := by
      rw [nodeAt_concat, hmono P p hp, Option.bind_some, Linked.grown_self,
        List.find?_append, hnames p hplt, hnone]
      simp [hnewName]
    have hfresh : nodeAt h kids root (P ++ [el]) = none := by
      rw [nodeAt_concat, hp]
      exact hnone
    refine ⟨_, _, Linked.grown kids p h.size, happly, ⟨hlinked, ?_, ?_, ?_, ?_, ?_, ?_, ?_⟩, hreach⟩
    · rw [hsize]
      exact hL.size.trans (Nat.le_succ _)
    · intro i hi
      have hi' := hi.trans_le hL.size
      rw [hname i hi', hold i hi'.ne]
      exact hL.node i hi
    · intro i hi
      obtain ⟨new, hkids, hge⟩ := hL.appended i hi
      by_cases hip : i = p
      · subst hip
        refine ⟨new ++ [h.size], ?_, fun c hc => ?_⟩
        · rw [Linked.grown_self, hkids, List.append_assoc]
        · rcases List.mem_append.1 hc with hc | hc
          · exact hge c hc
          · rw [List.mem_singleton.1 hc]
            exact hL.size
      · rw [Linked.grown_of_ne hip (hi.trans_le hL.size).ne]
        exact ⟨new, hkids, hge⟩
    · intro q m hm
      rcases reach_graft hL.linked hname hp hm with hm' | ⟨rfl, rfl⟩
      · rw [attrsOf, hdata m (reach_lt hL.linked hm').ne]
        exact hL.reached q m hm'
      · -- no value was given for the new node yet
        have hel : P ++ [el] ∉ (trace events).elements := by
          intro hmem
          obtain ⟨m, hm⟩ := hL.elements _ hmem
          rw [hfresh] at hm
          cases hm
        rw [hnewName, lastValue_eq_none hel, attrsOf, hnew, if_neg hL.size.not_gt]
        rfl
    · intro i hi
      have hinew : i ≠ h.size := by
        rintro rfl
        exact hi _ hreach
      rw [attrsOf, hdata i hinew]
      exact hL.unreached i fun q hq => hi q (hmono q i hq)
    · intro q hq
      obtain ⟨m, hm⟩ := hL.elements q hq
      exact ⟨m, hmono q m hm⟩
    · intro hu i hi
      have hu' := hL.unique hu
      by_cases hinew : i = h.size
      · rw [hinew, Linked.grown_new hne]
        exact List.nodup_nil
      have hilt : i < h.size := by
        rw [hsize] at hi
        omega
      have hmap : (kids i).map (nameOf (appendNewChild h p el [])) = (kids i).map (nameOf h) :=
        List.map_congr_left fun c hc => hname c (hL.linked.kid_lt i hilt c hc)
      by_cases hip : i = p
      · subst hip
        rw [Linked.grown_self, List.map_append, hmap, List.map_singleton, hnewName,
          List.nodup_append]
        refine ⟨hu' i hilt, by simp, fun a ha b hb => ?_⟩
        rw [List.mem_singleton.1 hb]
        obtain ⟨c, hc, rfl⟩ := List.mem_map.1 ha
        have := List.find?_eq_none.1 hnone c hc
        simpa using this
      · rw [Linked.grown_of_ne hip hilt.ne, hmap]
        exact hu' i hilt

/-- Writing the values of an element to its node. -/
theorem write (hL : Layered k h₀ root kids₀ events h kids) {el : Bytes} {n : ℕ}
    (hn : nodeAt h kids root ((trace events).path ++ [el]) = some n) (attr : List (Bytes × Bytes)) :
    Layered k h₀ root kids₀ (events ++ [.start el attr])
      (writeAttrs h n (layered k (attrsOf h n) (valuesOf attr).getLast?)) kids := by
  have hs := (SameNodes.refl h).write n (layered k (attrsOf h n) (valuesOf attr).getLast?)
  have hnodeAt : nodeAt (writeAttrs h n (layered k (attrsOf h n) (valuesOf attr).getLast?)) kids
      root = nodeAt h kids root := by
    funext q
    rw [nodeAt, hs.nameOf]
  refine ⟨hs.linked hL.linked, hL.size, fun i hi => ?_, hL.appended, fun q m hm => ?_, fun i hi => ?_,
    fun q hq => ?_, fun hu i hi => ?_⟩
  · rw [hs.nameOf, hs.cell i]
    exact hL.node i hi
  · rw [hnodeAt] at hm
    rw [lastValue_start]
    by_cases hmn : m = n
    · subst hmn
      rw [if_pos (reach_inj hL.linked hm hn), attrsOf_writeAttrs, hL.reached q m hm,
        layered_layered]
    · have hq : q ≠ (trace events).path ++ [el] := by
        rintro rfl
        rw [hn, Option.some.injEq] at hm
        exact hmn hm.symm
      rw [if_neg hq, attrsOf, writeAttrs_of_ne h _ hmn]
      exact hL.reached q m hm
  · rw [hnodeAt] at hi
    have hin : i ≠ n := by
      rintro rfl
      exact hi _ hn
    rw [attrsOf, writeAttrs_of_ne h _ hin]
    exact hL.unreached i hi
  · rw [hnodeAt]
    rw [trace_concat] at hq
    rcases List.mem_append.1 hq with hq | hq
    · exact hL.elements q hq
    · rw [List.mem_singleton.1 hq]
      exact ⟨n, hn⟩
  · rw [hs.nameOf]
    exact hL.unique hu i hi

end Layered

/-! ### The run -/

/-- The cursor is at the node of the open elements. -/
structure AtPath (k root : ℕ) (events : List Event) (kids : ℕ → List ℕ) (st : XmlState) : Prop where
  root_eq : st.root = root
  confId : st.confId = k
  level : st.level = (trace events).level
  last : ∃ l, st.last = some l ∧ nodeAt st.tree kids root (trace events).path = some l

section Run

variable {k root : ℕ} {h₀ : Tree} {kids₀ kids : ℕ → List ℕ} {events : List Event} {st : XmlState}

/-- `endElement` goes back to the element around. -/
theorem endElement_spec (hl : Linked st.tree root kids) (hc : AtPath k root events kids st)
    (el : Bytes) :
    ∃ st', endElement st el = some st' ∧ st'.tree = st.tree ∧
      AtPath k root (events ++ [.ends el]) kids st' := by
  obtain ⟨l, hlast, hpath⟩ := hc.last
  have hroot := hc.root_eq
  have hlevel : (trace (events ++ [.ends el])).level = (trace events).level - 1 := by
    rw [trace_concat]
    rfl
  have hdrop : (trace (events ++ [.ends el])).path = (trace events).path.dropLast := by
    rw [trace_concat]
    rfl
  rw [endElement]
  rcases List.eq_nil_or_concat (trace events).path with hnil | ⟨q, a, hq⟩
  · rw [hnil, nodeAt, reach_nil, Option.some.injEq] at hpath
    refine ⟨_, if_pos (by rw [hlast, hroot, hpath]), rfl, hroot, hc.confId, ?_, l, hlast, ?_⟩
    · rw [hlevel, ← hc.level]
    · rw [hdrop, hnil]
      exact congrArg some hpath
  · rw [List.concat_eq_append] at hq
    rw [hq, nodeAt_concat, Option.bind_eq_some_iff] at hpath
    obtain ⟨i, hi, hn⟩ := hpath
    have hilt := reach_lt hl hi
    have hparent := hl.kid_parent i hilt l (List.mem_of_find?_eq_some hn)
    have hne : st.last ≠ some st.root := by
      rw [hlast, hroot]
      rintro ⟨⟩
      rw [hl.root_parent] at hparent
      cases hparent
    refine ⟨{ st with level := st.level - 1, last := some i }, ?_, rfl, hroot, hc.confId, ?_, i, rfl, ?_⟩
    · rw [if_neg hne]
      dsimp only
      rw [hlast]
      dsimp only
      rw [hparent]
    · rw [hlevel, ← hc.level]
    · rw [hdrop, hq, List.dropLast_concat]
      exact hi

/-- `startElement`, when `applyNode` has found or made the node. -/
theorem startElement_spec (hk : 2 ≤ k) (hc : AtPath k root events kids st) {l n : ℕ} {h' : Tree}
    {kids' : ℕ → List ℕ} {el : Bytes} (hlast : st.last = some l)
    (happly : applyNode st.tree (some l) el = (h', some n))
    (hn : nodeAt h' kids' root ((trace events).path ++ [el]) = some n)
    (attr : List (Bytes × Bytes)) :
    ∃ st', startElement st el attr = some st' ∧
      st'.tree = writeAttrs h' n (layered k (attrsOf h' n) (valuesOf attr).getLast?) ∧
      AtPath k root (events ++ [.start el attr]) kids' st' := by
  have hs := (SameNodes.refl h').write n (layered k (attrsOf h' n) (valuesOf attr).getLast?)
  refine ⟨{ st with
    tree := writeAttrs h' n (layered k (attrsOf h' n) (valuesOf attr).getLast?)
    last := some n
    level := st.level + 1 }, ?_, rfl, hc.root_eq, hc.confId, ?_, n, rfl, ?_⟩
  · have hone : (k : ℤ) ≠ 1 := by omega
    rw [startElement, hc.confId, if_neg hone, hlast, happly]
    dsimp only
    rw [attrLoop_layered hk]
  · rw [trace_concat, hc.level]
    rfl
  · rw [nodeAt, hs.nameOf, trace_concat]
    exact hn

theorem loadXml_concat (h : Tree) (newroot : Option ℕ) (k : ℕ) (events : List Event) (e : Event) :
    loadXml h newroot k (events ++ [e]) = (loadXml h newroot k events).bind (handle · e) := by
  rw [loadXml, List.foldlM_append]
  simp only [List.foldlM_cons, List.foldlM_nil, bind_pure]
  rfl

/-- Any sequence of events. -/
theorem run_layered (hk : 2 ≤ k) (hl : Linked h₀ root kids₀) (events : List Event) :
    ∃ st kids, loadXml h₀ (some root) k events = some st ∧
      Layered k h₀ root kids₀ events st.tree kids ∧ AtPath k root events kids st := by
  induction events using List.reverseRecOn with
  | nil => exact ⟨_, kids₀, rfl, Layered.nil hl, rfl, rfl, rfl, root, rfl, rfl⟩
  | append_singleton events e ih =>
    obtain ⟨st, kids, hrun, hL, hc⟩ := ih
    rw [loadXml_concat, hrun, Option.bind_some]
    cases e with
    | start el attr =>
      obtain ⟨l, hlast, hpath⟩ := hc.last
      obtain ⟨h', n, kids', happly, hL', hn⟩ := hL.apply hpath el
      obtain ⟨st', hst', htree, hc'⟩ := startElement_spec hk hc hlast happly hn attr
      exact ⟨st', kids', hst', by rw [htree]; exact hL'.write hn attr, hc'⟩
    | ends el =>
      obtain ⟨st', hst', htree, hc'⟩ := endElement_spec hL.linked hc el
      exact ⟨st', kids, hst', by rw [htree]; exact hL.ends el, hc'⟩

/-- In a tree that has all the elements, only attributes are written. -/
theorem run_sameNodes (hk : 2 ≤ k) (hl : Linked h₀ root kids₀) (events : List Event)
    (hel : ∀ p ∈ (trace events).elements, ∃ n, nodeAt h₀ kids₀ root p = some n) :
    ∃ st, loadXml h₀ (some root) k events = some st ∧ SameNodes h₀ st.tree ∧
      Layered k h₀ root kids₀ events st.tree kids₀ ∧ AtPath k root events kids₀ st := by
  induction events using List.reverseRecOn with
  | nil =>
    exact ⟨_, rfl, SameNodes.refl h₀, Layered.nil hl, rfl, rfl, rfl, root, rfl, rfl⟩
  | append_singleton events e ih =>
    have hel' : ∀ p ∈ (trace events).elements, ∃ n, nodeAt h₀ kids₀ root p = some n := by
      intro p hp
      refine hel p ?_
      rw [trace_concat]
      cases e with
      | start el attr => exact List.mem_append_left _ hp
      | ends el => exact hp
    obtain ⟨st, hrun, hs, hL, hc⟩ := ih hel'
    rw [loadXml_concat, hrun, Option.bind_some]
    cases e with
    | start el attr =>
      obtain ⟨l, hlast, hpath⟩ := hc.last
      -- the element is there already
      obtain ⟨n, hn⟩ := hel ((trace events).path ++ [el]) (by
        rw [trace_concat]
        exact List.mem_append_right _ (List.mem_singleton.2 rfl))
      rw [nodeAt, ← hs.nameOf] at hn
      have hfind : nodeAt st.tree kids₀ root ((trace events).path ++ [el]) = some n := hn
      rw [nodeAt_concat, hpath, Option.bind_some] at hfind
      have happly : applyNode st.tree (some l) el = (st.tree, some n) := by
        rcases applyNode_cases hL.linked (reach_lt hL.linked hpath) el with
          ⟨m, hm, happly⟩ | ⟨hnone, -⟩
        · rw [hfind, Option.some.injEq] at hm
          rw [happly, hm]
        · rw [hfind] at hnone
          cases hnone
      obtain ⟨st', hst', htree, hc'⟩ := startElement_spec hk hc hlast happly hn attr
      refine ⟨st', hst', ?_, ?_, hc'⟩
      · rw [htree]
        exact hs.write n _
      · rw [htree]
        exact hL.write hn attr
    | ends el =>
      obtain ⟨st', hst', htree, hc'⟩ := endElement_spec hL.linked hc el
      refine ⟨st', hst', ?_, ?_, hc'⟩
      · rw [htree]
        exact hs
      · rw [htree]
        exact hL.ends el

end Run

/-! ### The layer -/

/-- What a layer does to a tree.  The nodes stay, with all but the attribute `value<k>`, and new ones
come behind them; `value<k>` is the last value that the file gives for the path of a node, and without
one the attributes stay as they are. -/
structure Applied (k : ℕ) (h : Tree) (root : ℕ) (kids : ℕ → List ℕ) (events : List Event) (h' : Tree)
    (kids' : ℕ → List ℕ) : Prop where
  linked : Linked h' root kids'
  node : ∀ i < h.size, nameOf h' i = nameOf h i ∧ (h'.cell i).data.value = (h.cell i).data.value ∧
    (h'.cell i).data.desc = (h.cell i).data.desc ∧ (h'.cell i).parent = (h.cell i).parent
  attrs : ∀ i < h.size, (attrsOf h' i).filter (·.name ≠ valueName k) =
    (attrsOf h i).filter (·.name ≠ valueName k)
  appended : ∀ i < h.size, ∃ new, kids' i = kids i ++ new ∧ ∀ c ∈ new, h.size ≤ c
  path : ∀ p n, nodeAt h kids root p = some n → nodeAt h' kids' root p = some n
  elements : ∀ p ∈ (trace events).elements, ∃ n, nodeAt h' kids' root p = some n
  value : ∀ p n v, nodeAt h' kids' root p = some n → lastValue events p = some v →
    getAttr (attrsOf h' n) (valueName k) = some v
  none_given : ∀ p n, nodeAt h' kids' root p = some n → lastValue events p = none →
    attrsOf h' n = if n < h.size then attrsOf h n else []
  unreached : ∀ i < h.size, (∀ p, nodeAt h' kids' root p ≠ some i) → attrsOf h' i = attrsOf h i
  unique : UniqueSiblings h kids → UniqueSiblings h' kids'

theorem Layered.applied {k root : ℕ} {h h' : Tree} {kids kids' : ℕ → List ℕ} {events : List Event}
    (hl : Linked h root kids) (hL : Layered k h root kids events h' kids') :
    Applied k h root kids events h' kids' where
  linked := hL.linked
  node := hL.node
  attrs i hi := by
    by_cases hr : ∃ p, nodeAt h' kids' root p = some i
    · obtain ⟨p, hp⟩ := hr
      rw [hL.reached p i hp, filter_layered, if_pos hi]
    · rw [hL.unreached i fun p hp => hr ⟨p, hp⟩]
  appended := hL.appended
  path p n hn := by
    refine reach_mono hl (fun i hi => (hL.node i hi).1) (fun i hi => ?_) hn
    obtain ⟨new, hnew, -⟩ := hL.appended i hi
    exact ⟨new, hnew.symm⟩
  elements := hL.elements
  value p n v hn hv := by
    rw [hL.reached p n hn, hv]
    exact getAttr_setAttr ..
  none_given p n hn hv := by
    rw [hL.reached p n hn, hv]
    rfl
  unreached i _ hi := hL.unreached i hi
  unique := hL.unique

/-- A second run finds the same values. -/
theorem Layered.again {k root : ℕ} {h h₁ h₂ : Tree} {kids kids₁ : ℕ → List ℕ} {events : List Event}
    (hL : Layered k h root kids events h₁ kids₁) (hL' : Layered k h₁ root kids₁ events h₂ kids₁)
    (hs : SameNodes h₁ h₂) : h₂ = h₁ := by
  have hattrs : ∀ i, attrsOf h₂ i = attrsOf h₁ i := by
    intro i
    by_cases hr : ∃ p, nodeAt h₂ kids₁ root p = some i
    · obtain ⟨p, hp⟩ := hr
      rw [hL'.reached p i hp]
      rw [nodeAt, hs.nameOf] at hp
      rw [if_pos (reach_lt hL.linked hp), hL.reached p i hp, layered_layered, Option.or_self]
    · exact hL'.unreached i fun p hp => hr ⟨p, hp⟩
  ext1
  · exact hs.size
  · funext i
    rw [hs.cell i, hattrs i]
    rfl

/-- **A well-nested file, loaded with a configuration number from 2 on, is a layer over the tree.**
The cursor is back at the root, and loading the file again changes nothing. -/
theorem layer_applied {h : Tree} {root : ℕ} {kids : ℕ → List ℕ} (hl : Linked h root kids)
    {events : List Event} (hnested : WellNested events) {k : ℕ} (hk : 2 ≤ k) :
    ∃ h' kids', loadXml h (some root) k events = some ⟨h', 0, root, some root, k⟩ ∧
      Applied k h root kids events h' kids' ∧
      loadXml h' (some root) k events = some ⟨h', 0, root, some root, k⟩ := by
  obtain ⟨hpath, hlevel⟩ := hnested.foldl ⟨[], 0, [], []⟩
  have hback : ∀ {st : XmlState} {kids : ℕ → List ℕ}, AtPath k root events kids st →
      st = ⟨st.tree, 0, root, some root, k⟩ := by
    intro st kids hc
    obtain ⟨tree, level, root', last, confId⟩ := st
    obtain ⟨hroot, hconf, hlev, l, hlast, hl⟩ := hc
    rw [trace, hpath, nodeAt, reach_nil, Option.some.injEq] at hl
    rw [trace, hlevel] at hlev
    dsimp only at hroot hconf hlev hlast
    rw [hroot, hconf, hlev, hlast, hl]
  obtain ⟨st, kids', hrun, hL, hc⟩ := run_layered hk hl events
  obtain ⟨st', hrun', hs, hL', hc'⟩ := run_sameNodes hk hL.linked events hL.elements
  refine ⟨st.tree, kids', ?_, hL.applied hl, ?_⟩
  · rw [hrun, ← hback hc]
  · rw [hrun', hback hc', hL.again hL' hs]

/-- The tree of one node. -/
theorem linked_newNode (cell : ℕ → Cell Node) (name : Bytes) (firstAttr : List Attr) :
    Linked (newNode ⟨0, cell⟩ name firstAttr) 0 fun _ => [] := by
  have hzero : ∀ i < (newNode ⟨0, cell⟩ name firstAttr).size, i = 0 := by
    intro i hi
    exact Nat.lt_one_iff.1 hi
  refine ⟨Nat.one_pos, rfl, fun i hi => ?_, fun _ _ => List.nodup_nil, ?_, ?_⟩
  · rw [hzero i hi]
    exact rfl
  · intro i _ c hc
    exact absurd hc List.not_mem_nil
  · intro i _ c hc
    exact absurd hc List.not_mem_nil

/-- The defaults `<root><lan/><lan/></root>`. -/
def lanTree : Tree :=
  appendNewChild (appendNewChild (newNode ⟨0, fun _ => ⟨⟨[], none, none, []⟩, none, none, none, none⟩⟩
    (str "root") []) 0 (str "lan") []) 0 (str "lan") []

/-- A file that names `lan` twice, and a new `wan`. -/
def lanFile : List Event :=
  [.start (str "lan") [(str "value", str "1")], .ends (str "lan"),
    .start (str "lan") [(str "value", str "2")], .ends (str "lan"),
    .start (str "wan") [], .ends (str "wan")]

theorem layer_applied_lan :
    ∃ h' kids', loadXml lanTree (some 0) 2 lanFile = some ⟨h', 0, 0, some 0, 2⟩ ∧
      Applied 2 lanTree 0 (Linked.grown (Linked.grown (fun _ => []) 0 1) 0 2) lanFile h' kids' ∧
      loadXml h' (some 0) 2 lanFile = some ⟨h', 0, 0, some 0, 2⟩ := by
  have hroot := linked_newNode (fun _ => ⟨⟨[], none, none, []⟩, none, none, none, none⟩)
    (str "root") []
  have hone := appendNewChild_linked hroot Nat.one_pos (str "lan") []
  have hsize := (appendNewChild_cell hroot Nat.one_pos (str "lan") []).1
  have htwo := appendNewChild_linked hone (by rw [hsize]; exact Nat.succ_pos _) (str "lan") []
  have hnested : WellNested lanFile := .element _ _ .nil (.element _ _ .nil (.element _ _ .nil .nil))
  exact layer_applied htwo hnested le_rfl

end ZRouter.Conf
