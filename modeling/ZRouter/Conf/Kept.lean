import ZRouter.Conf.Dump

/-!
# What loading a file leaves alone

A file that is loaded, under whatever number, adds nodes and writes attributes.  The nodes that were there
keep their names, their children and their attribute `value`; below a node that is not the root, no new
node has that attribute.  So it is for any events, also if the parser stops at an error.

* `SameValue`: lists of attributes with the same `value`;
* `Keeps` and `Kept`, with `Keeps.push`, `Keeps.write`: what is left of a tree;
* `Loading`, `handle_loading`: the handlers;
* `loadXml_keeps`: a run of `load_xml`.
-/

namespace ZRouter.Conf

open Cells

/-! ### The attribute `value` -/

/-- The attribute `value` is the same, for the lookup with and for the one without regard to case. -/
structure SameValue (attrs attrs' : List Attr) : Prop where
  has : nodeHasAttr attrs' (str "value") = nodeHasAttr attrs (str "value")
  get : getAttr attrs' (str "value") = getAttr attrs (str "value")

theorem SameValue.refl (attrs : List Attr) : SameValue attrs attrs := ⟨rfl, rfl⟩

theorem SameValue.trans {l l₁ l₂ : List Attr} (h : SameValue l l₁) (h' : SameValue l₁ l₂) :
    SameValue l l₂ := ⟨h'.has.trans h.has, h'.get.trans h.get⟩

/-- No number makes `value<number>` the same as `value`, in upper case or in lower case. -/
theorem attrName_ne (confId : ℤ) : (attrName confId).map tolower ≠ (str "value").map tolower := by
  intro heq
  have hlen := congrArg List.length heq
  rw [List.length_map, List.length_map, attrName, List.length_append] at hlen
  have hnil : formatInt confId = [] := List.eq_nil_of_length_eq_zero (by omega)
  rw [formatInt] at hnil
  obtain ⟨hneg, hnum⟩ := List.append_eq_nil_iff.1 hnil
  split_ifs at hneg hnum with h0 h1 h1
  · cases hneg
  · cases hneg
  · cases hnum
  · rw [decimal, List.map_eq_nil_iff, List.reverse_eq_nil_iff, Nat.digits_eq_nil_iff_eq_zero] at hnum
    exact h1 (Int.natAbs_eq_zero.1 hnum)

/-- An attribute of another name. -/
theorem sameValue_setAttr {name : Bytes} (hname : name.map tolower ≠ (str "value").map tolower)
    (attrs : List Attr) (v : Bytes) : SameValue attrs (setAttr attrs name v) := by
  have hne : name ≠ str "value" := fun h => hname (by rw [h])
  rcases setAttr_cases attrs name v with ⟨-, h⟩ | ⟨pre, a, post, rfl, ha, -, h⟩
  · rw [h]
    exact ⟨by simp [nodeHasAttr, hname], by simp [getAttr, hne]⟩
  · rw [h]
    exact ⟨by simp [nodeHasAttr, ha], by simp [getAttr, List.find?_append, ha, hne]⟩

theorem sameValue_writtenAttrs (confId : ℤ) (attrs : List Attr) (attr : List (Bytes × Bytes)) :
    SameValue attrs (writtenAttrs confId attrs attr) := by
  rw [writtenAttrs]
  induction valuesOf attr generalizing attrs with
  | nil => exact .refl attrs
  | cons v vs ih => exact (sameValue_setAttr (attrName_ne confId) attrs v).trans (ih _)

/-! ### What is left of a tree -/

/-- What is left of the tree `h`; below `e`, no new node has a value. -/
structure Keeps (root e : ℕ) (h : Tree) (kids : ℕ → List ℕ) (h' : Tree) (kids' : ℕ → List ℕ) : Prop where
  sound : Sound h' root kids'
  size : h.size ≤ h'.size
  parent : ∀ i < h.size, (h'.cell i).parent = (h.cell i).parent
  name : ∀ i < h.size, nameOf h' i = nameOf h i
  value : ∀ i < h.size, SameValue (attrsOf h i) (attrsOf h' i)
  appended : ∀ i < h.size, ∃ new, kids' i = kids i ++ new ∧ ∀ c ∈ new, h.size ≤ c
  fresh : ∀ i, h.size ≤ i → i < h'.size → Under h' e i → nodeHasAttr (attrsOf h' i) (str "value") = false

/-- What is left, whatever the lists of children are. -/
def Kept (root e : ℕ) (h : Tree) (kids : ℕ → List ℕ) (h' : Tree) : Prop := ∃ kids', Keeps root e h kids h' kids'

namespace Keeps

variable {root e l n : ℕ} {h h₁ h₂ : Tree} {kids kids₁ kids₂ : ℕ → List ℕ} {d : Node}

theorem refl (e : ℕ) (hs : Sound h root kids) : Keeps root e h kids h kids where
  sound := hs
  size := le_rfl
  parent _ _ := rfl
  name _ _ := rfl
  value _ _ := .refl _
  appended i _ := ⟨[], (List.append_nil _).symm, by simp⟩
  fresh i hi hlt := absurd hlt hi.not_gt

/-- A new node, which has no value if it is below `e`. -/
theorem push (hk : Keeps root e h kids h₁ kids₁) (he : e < h.size) (hl : l < h₁.size)
    (hp : Pushed root h₁ kids₁ h₂ kids₂ l d)
    (hd : Under h₁ e l → nodeHasAttr d.attrs (str "value") = false) : Keeps root e h kids h₂ kids₂ := by
  have hlt : ∀ i < h.size, i < h₁.size := fun i hi => hi.trans_le hk.size
  refine ⟨hp.sound, by rw [hp.size]; exact hk.size.trans (Nat.le_succ _), fun i hi => ?_, fun i hi => ?_,
    fun i hi => ?_, fun i hi => ?_, fun i hge hi hu => ?_⟩
  · rw [hp.parent i (hlt i hi), hk.parent i hi]
  · rw [nameOf, hp.data i (hlt i hi)]
    exact hk.name i hi
  · rw [attrsOf, attrsOf, hp.data i (hlt i hi)]
    exact hk.value i hi
  · obtain ⟨new, hnew, hge⟩ := hk.appended i hi
    rw [hp.children]
    by_cases hil : i = l
    · subst hil
      refine ⟨new ++ [h₁.size], ?_, fun c hc => ?_⟩
      · rw [Linked.grown_self, hnew, List.append_assoc]
      · rcases List.mem_append.1 hc with hc | hc
        · exact hge c hc
        · rw [List.mem_singleton.1 hc]
          exact hk.size
    · rw [Linked.grown_of_ne hil (hlt i hi).ne]
      exact ⟨new, hnew, hge⟩
  · have hi' : i < h₁.size + 1 := hp.size ▸ hi
    rcases Nat.lt_succ_iff_lt_or_eq.1 hi' with hi' | rfl
    · rw [attrsOf, hp.data i hi']
      exact hk.fresh i hge hi' ((under_congr hk.sound hp.parent hi').1 hu)
    · rw [attrsOf, hp.new_data]
      cases hu with
      | refl => exact absurd hk.size he.not_ge
      | step hpar hu =>
        rw [hp.new_parent, Option.some.injEq] at hpar
        subst hpar
        exact hd ((under_congr hk.sound hp.parent hl).1 hu)

/-- Other attributes at a node. -/
theorem write (hk : Keeps root e h kids h₁ kids₁) (hn : n < h₁.size) {attrs : List Attr}
    (hv : SameValue (attrsOf h₁ n) attrs) : Keeps root e h kids (writeAttrs h₁ n attrs) kids₁ := by
  have hc := changed_write hk.sound hn attrs
  have hsame := (SameNodes.refl h₁).write n attrs
  have hvalue : ∀ i, SameValue (attrsOf h₁ i) (attrsOf (writeAttrs h₁ n attrs) i) := fun i => by
    by_cases hin : i = n
    · rw [hin, attrsOf_writeAttrs]
      exact hv
    · rw [attrsOf, attrsOf, writeAttrs_of_ne h₁ attrs hin]
      exact .refl _
  refine ⟨hc.sound, hk.size, fun i hi => ?_, fun i hi => ?_, fun i hi => (hk.value i hi).trans (hvalue i),
    hk.appended, fun i hge hi hu => ?_⟩
  · rw [hc.parent i (hi.trans_le hk.size), hk.parent i hi]
  · rw [hsame.nameOf]
    exact hk.name i hi
  · rw [(hvalue i).has]
    exact hk.fresh i hge hi ((under_congr hk.sound hc.parent hi).1 hu)

/-- The children of a new node are new. -/
theorem kid_new (hk : Keeps root e h kids h₁ kids₁) (hs : Sound h root kids) (hl : h.size ≤ l)
    (hlt : l < h₁.size) (hn : n ∈ kids₁ l) : h.size ≤ n := by
  by_contra hold
  have hpar := hk.sound.kid_parent l hlt n hn
  rw [hk.parent n (by omega)] at hpar
  have hlt' := hs.older n (by omega) l hpar
  omega

/-- The children that a node below `e` has got have no value. -/
theorem kid_fresh (hk : Keeps root e h kids h₁ kids₁) (hl : l < h₁.size) (hu : Under h₁ e l)
    (hn : n ∈ kids₁ l) (hnew : h.size ≤ n) : nodeHasAttr (attrsOf h₁ n) (str "value") = false :=
  hk.fresh n hnew (hk.sound.kid_lt l hl n hn) (hu.trans (hk.sound.under_kid hl hn))

/-- The nodes behind one of the children that were there. -/
theorem behind (hk : Keeps root e h kids h₁ kids₁) {pre post : List ℕ} (hl : l < h.size)
    (hpre : kids l = pre ++ n :: post) :
    ∃ new, kids₁ l = kids l ++ new ∧ Chain h₁ (h₁.cell n).next (post ++ new) := by
  obtain ⟨new, hnew, -⟩ := hk.appended l hl
  have hchain := hk.sound.chain l (hl.trans_le hk.size)
  rw [hnew, hpre, List.append_assoc, List.cons_append] at hchain
  exact ⟨new, hnew, hchain.behind⟩

end Keeps

/-! ### Loading -/

/-- The cursor is at a node of the tree; in a run for the defaults it is not below `e`. -/
structure Loading (root e : ℕ) (h : Tree) (kids : ℕ → List ℕ) (st : XmlState) (kids' : ℕ → List ℕ) :
    Prop where
  keeps : Keeps root e h kids st.tree kids'
  root_eq : st.root = root
  last : ∃ l, st.last = some l ∧ l < st.tree.size ∧ Under st.tree root l ∧
    (st.confId = 1 → ¬ Under st.tree e l)

section Loading

variable {root e : ℕ} {h : Tree} {kids kids' : ℕ → List ℕ} {st : XmlState}

/-- The start of an element whose node is new. -/
theorem Loading.pushed (hL : Loading root e h kids st kids') (he : e < h.size) {l : ℕ}
    (hlast : st.last = some l) {el : Bytes} {attr : List (Bytes × Bytes)}
    (hnew : st.confId = 1 ∨ applyNode st.tree (some l) el =
      (appendNewChild st.tree l el [], some st.tree.size)) :
    ∃ st' kids'', startElement st el attr = some st' ∧ Loading root e h kids st' kids'' := by
  obtain ⟨l', hlast', hlt, hroot, hout⟩ := hL.last
  obtain rfl : l = l' := Option.some.inj (hlast.symm.trans hlast')
  have hs := hL.keeps.sound
  have hp := pushed_append hs hlt el (startAttrs st.confId [] attr)
  have hunder : ∀ {a}, Under (writeAttrs (appendNewChild st.tree l el []) st.tree.size
      (startAttrs st.confId [] attr)) a l ↔ Under st.tree a l := under_congr hs hp.parent hlt
  refine ⟨_, _, startElement_new hs hlt hlast hnew, hL.keeps.push he hlt hp fun hu => ?_, hL.root_eq,
    st.tree.size, rfl, ?_, .step hp.new_parent (hunder.2 hroot), fun hid hu => ?_⟩
  · by_cases hid : st.confId = 1
    · exact absurd hu (hout hid)
    · rw [startAttrs, if_neg hid, (sameValue_writtenAttrs _ _ _).has]
      rfl
  · show st.tree.size < (writeAttrs (appendNewChild st.tree l el []) st.tree.size _).size
    rw [hp.size]
    exact Nat.lt_succ_self _
  · cases hu with
    | refl => exact absurd hL.keeps.size he.not_ge
    | step hpar hu =>
      rw [hp.new_parent, Option.some.injEq] at hpar
      subst hpar
      exact hout hid (hunder.1 hu)

/-- **The handlers keep what is to be kept.** -/
theorem handle_loading (hL : Loading root e h kids st kids') (he : e < h.size) (ev : Event) :
    ∃ st' kids'', handle st ev = some st' ∧ Loading root e h kids st' kids'' := by
  obtain ⟨l, hlast, hlt, hroot, hout⟩ := hL.last
  have hs := hL.keeps.sound
  cases ev with
  | start el attr =>
    by_cases hid : st.confId = 1
    · exact hL.pushed he hlast (Or.inl hid)
    rcases applyNode_cases hs.toLinked hlt el with ⟨n, hfind, happly⟩ | ⟨-, happly⟩
    · have hmem := List.mem_of_find?_eq_some hfind
      have hn := hs.kid_lt l hlt n hmem
      have hattrs : SameValue (attrsOf st.tree n) (startAttrs st.confId (attrsOf st.tree n) attr) := by
        rw [startAttrs, if_neg hid]
        exact sameValue_writtenAttrs _ _ _
      have hc := changed_write hs hn (startAttrs st.confId (attrsOf st.tree n) attr)
      refine ⟨_, kids', startElement_found hid hlast happly attr, hL.keeps.write hn hattrs, hL.root_eq, n,
        rfl, hn, (under_congr hs hc.parent hn).2 ?_, fun h => absurd h hid⟩
      exact .step (hs.kid_parent l hlt n hmem) hroot
    · exact hL.pushed he hlast (Or.inr happly)
  | ends el =>
    by_cases htop : st.last = some st.root
    · exact ⟨_, kids', if_pos htop, hL.keeps, hL.root_eq, l, hlast, hlt, hroot, hout⟩
    · cases hroot with
      | refl => exact absurd (hlast.trans (congrArg some hL.root_eq.symm)) htop
      | @step _ p hpar hroot =>
        refine ⟨{ st with level := st.level - 1, last := some p }, kids', ?_, hL.keeps, hL.root_eq, p, rfl,
          (hs.older l hlt p hpar).trans hlt, hroot, fun hid hu => hout hid (.step hpar hu)⟩
        show endElement st el = _
        rw [endElement]
        dsimp only
        rw [if_neg htop, hlast]
        dsimp only
        rw [hpar]

/-- **A run of `load_xml`** over any events returns, and keeps what is to be kept. -/
theorem loadXml_keeps {h₁ : Tree} {kids₁ : ℕ → List ℕ} (hk : Keeps root e h kids h₁ kids₁) (he : e < h.size)
    (hne : e ≠ root) (confId : ℤ) (events : List Event) :
    ∃ st kids₂, loadXml h₁ (some root) confId events = some st ∧ Keeps root e h kids st.tree kids₂ := by
  have hout : ¬ Under h₁ e root := by
    intro hu
    cases hu with
    | refl => exact hne rfl
    | step hpar _ =>
      rw [hk.sound.root_parent] at hpar
      cases hpar
  have hrun : ∀ {st kids'}, Loading root e h kids st kids' →
      ∃ st' kids'', events.foldlM handle st = some st' ∧ Loading root e h kids st' kids'' := by
    induction events with
    | nil => exact fun hL => ⟨_, _, rfl, hL⟩
    | cons ev events ih =>
      intro st kids' hL
      obtain ⟨st₁, kids₁, hst₁, hL₁⟩ := handle_loading hL he ev
      rw [List.foldlM_cons, hst₁]
      exact ih hL₁
  have hstart : Loading root e h kids (XmlState.start h₁ (some root) confId) kids₁ :=
    ⟨hk, rfl, root, rfl, hk.sound.root_lt, .refl, fun _ => hout⟩
  obtain ⟨st, kids₂, hst, hL⟩ := hrun hstart
  exact ⟨st, kids₂, hst, hL.keeps⟩

end Loading

end ZRouter.Conf
