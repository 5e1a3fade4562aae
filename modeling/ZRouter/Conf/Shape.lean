import ZRouter.Conf.Layers
import ZRouter.Lib.Forest

/-!
# The configuration as a forest

What is below a node is a forest of nodes, and a well-nested file is a forest of elements.  A run of
the handlers of `load_xml` over a file changes nothing but what is below the cursor: in a run for the
defaults the elements come behind the children, in a run for a layer they are merged into them.

* `Doc`, `events`: a file as a forest;
* `Grows`: the forest below a list of nodes;
* `Changed`: what a run may change, with its rules `Changed.lift`, `Changed.push`;
* `run_defaults`, `run_layer`.
-/

namespace ZRouter.Conf

open Cells Forest

/-! ### Files -/

/-- The elements of a file, with their attributes. -/
abbrev Doc := Forest (Bytes × List (Bytes × Bytes))

/-- What the parser delivers for the elements. -/
def events : Doc → List Event
  | .nil => []
  | .cons e kids next => .start e.1 e.2 :: events kids ++ .ends e.1 :: events next

theorem WellNested.doc {es : List Event} (h : WellNested es) : ∃ d, es = events d := by
  induction h with
  | nil => exact ⟨.nil, rfl⟩
  | element el attr _ _ inner_ih rest_ih =>
    obtain ⟨kids, rfl⟩ := inner_ih
    obtain ⟨next, rfl⟩ := rest_ih
    exact ⟨.cons (el, attr) kids next, rfl⟩

/-- What holds of the elements that start holds of the file. -/
theorem all_of_mem_events {P : Bytes × List (Bytes × Bytes) → Prop} {d : Doc}
    (h : ∀ el attr, Event.start el attr ∈ events d → P (el, attr)) : d.All P := by
  induction d with
  | nil => trivial
  | cons e kids next ihk ihn =>
    refine ⟨h e.1 e.2 List.mem_cons_self, ihk fun el attr hmem => h el attr ?_,
      ihn fun el attr hmem => h el attr ?_⟩
    · exact List.mem_cons_of_mem _ (List.mem_append_left _ hmem)
    · exact List.mem_cons_of_mem _ (List.mem_append_right _ (List.mem_cons_of_mem _ hmem))

/-- The attributes that `startElement` gives to a node of the defaults. -/
def defaultAttrs (attr : List (Bytes × Bytes)) : List Attr :=
  (attr.takeWhile (·.1 ≠ [])).foldl (fun l a => setAttr l a.1 a.2) []

/-- The node of an element of the defaults. -/
def defaultNode (e : Bytes × List (Bytes × Bytes)) : Node := ⟨e.1, none, none, defaultAttrs e.2⟩

/-- An element of a layer acts on a node by its value. -/
def layering (k : ℕ) : Merging Node Bytes (Bytes × List (Bytes × Bytes)) where
  key := Node.name
  tag := Prod.fst
  new e := ⟨e.1, none, none, []⟩
  act e d := { d with attrs := layered k d.attrs (valuesOf e.2).getLast? }
  key_new _ := rfl
  key_act _ _ := rfl

/-! ### Forests in the heap -/

/-- Below the nodes of a list there is a forest. -/
inductive Grows (h : Tree) (kids : ℕ → List ℕ) : List ℕ → Forest Node → Prop
  | nil : Grows h kids [] .nil
  | cons {i l d ks nx} (hd : (h.cell i).data = d) (hk : Grows h kids (kids i) ks)
      (hn : Grows h kids l nx) : Grows h kids (i :: l) (.cons d ks nx)

/-- A tree in which parents are older than their children. -/
structure Sound (h : Tree) (root : ℕ) (kids : ℕ → List ℕ) : Prop extends Linked h root kids where
  older : ∀ i < h.size, ∀ p, (h.cell i).parent = some p → p < i

/-- The parents of the second node lead to the first. -/
inductive Under (h : Tree) (l : ℕ) : ℕ → Prop
  | refl : Under h l l
  | step {m p} (hp : (h.cell m).parent = some p) (hu : Under h l p) : Under h l m

section Under

variable {h h' : Tree} {root i j l m r : ℕ} {kids : ℕ → List ℕ}

theorem Under.le (hs : Sound h root kids) (hu : Under h l m) (hm : m < h.size) : l ≤ m := by
  induction hu with
  | refl => exact le_rfl
  | step hp _ ih =>
    have hlt := hs.older _ hm _ hp
    exact (ih (hlt.trans hm)).trans hlt.le

theorem Under.trans (hi : Under h l i) (hu : Under h i m) : Under h l m := by
  induction hu with
  | refl => exact hi
  | step hp _ ih => exact .step hp ih

/-- A node is not under its child. -/
theorem Sound.not_under (hs : Sound h root kids) (hi : i < h.size) {c : ℕ} (hc : c ∈ kids i) :
    ¬ Under h c i := fun hu => by
  have hlt := hs.older c (hs.kid_lt i hi c hc) i (hs.kid_parent i hi c hc)
  exact absurd (hu.le hs hi) hlt.not_ge

theorem Sound.under_kid (hs : Sound h root kids) (hi : i < h.size) {c : ℕ} (hc : c ∈ kids i) :
    Under h i c := .step (hs.kid_parent i hi c hc) .refl

/-- Nothing is under two children of a node. -/
theorem Sound.disjoint (hs : Sound h root kids) (hr : r < h.size) (hi : i ∈ kids r)
    (hj : j ∈ kids r) (hij : i ≠ j) (hm : m < h.size) (hui : Under h i m) : ¬ Under h j m := by
  induction hui with
  | refl =>
    intro huj
    cases huj with
    | refl => exact hij rfl
    | step hp huj =>
      rw [hs.kid_parent r hr i hi, Option.some.injEq] at hp
      exact hs.not_under hr hj (hp ▸ huj)
  | step hp hui ih =>
    intro huj
    cases huj with
    | refl =>
      rw [hs.kid_parent r hr j hj, Option.some.injEq] at hp
      exact hs.not_under hr hi (hp ▸ hui)
    | step hp' huj =>
      rw [hp, Option.some.injEq] at hp'
      exact ih ((hs.older _ hm _ hp).trans hm) (hp' ▸ huj)

/-- What is under a node stays there while the parents stay. -/
theorem under_congr (hs : Sound h root kids)
    (hparent : ∀ i < h.size, (h'.cell i).parent = (h.cell i).parent) (hm : m < h.size) :
    Under h' l m ↔ Under h l m := by
  constructor
  · intro hu
    induction hu with
    | refl => exact .refl
    | step hp _ ih =>
      rw [hparent _ hm] at hp
      exact .step hp (ih ((hs.older _ hm _ hp).trans hm))
  · intro hu
    induction hu with
    | refl => exact .refl
    | step hp _ ih =>
      exact .step ((hparent _ hm).trans hp) (ih ((hs.older _ hm _ hp).trans hm))

end Under

section Grows

variable {h h' : Tree} {root : ℕ} {kids kids' : ℕ → List ℕ} {l l' : List ℕ}
  {F G : Forest Node}

theorem Grows.append (hF : Grows h kids l F) (hG : Grows h kids l' G) :
    Grows h kids (l ++ l') (F.append G) := by
  induction hF with
  | nil => exact hG
  | cons hd hk _ _ ih => exact .cons hd hk ih

theorem Grows.of_append (hF : Grows h kids (l ++ l') F) :
    ∃ A B, F = A.append B ∧ Grows h kids l A ∧ Grows h kids l' B := by
  induction l generalizing F with
  | nil => exact ⟨.nil, F, rfl, .nil, hF⟩
  | cons i l ih =>
    cases hF with
    | cons hd hk hn =>
      obtain ⟨A, B, rfl, hA, hB⟩ := ih hn
      exact ⟨_, B, rfl, .cons hd hk hA, hB⟩

/-- A forest depends on what is under its nodes only. -/
theorem Grows.congr (hs : Sound h root kids) (hF : Grows h kids l F)
    (hl : ∀ i ∈ l, i < h.size)
    (hsame : ∀ i ∈ l, ∀ m < h.size, Under h i m → (h'.cell m).data = (h.cell m).data ∧
      kids' m = kids m) : Grows h' kids' l F := by
  induction hF with
  | nil => exact .nil
  | @cons i l d ks nx hd hk _ ihk ihn =>
    have hi := hl i List.mem_cons_self
    obtain ⟨hdata, hkids⟩ := hsame i List.mem_cons_self i hi .refl
    refine .cons (hdata.trans hd) ?_ (ihn (fun j hj => hl j (List.mem_cons_of_mem i hj))
      fun j hj => hsame j (List.mem_cons_of_mem i hj))
    rw [hkids]
    exact ihk (fun c hc => hs.kid_lt i hi c hc) fun c hc m hm hu =>
      hsame i List.mem_cons_self m hm ((hs.under_kid hi hc).trans hu)

/-- Nodes with other names. -/
theorem Grows.keep_ne (hF : Grows h kids l F) {el : Bytes} (hne : ∀ i ∈ l, nameOf h i ≠ el) :
    F.keep Node.name (· ≠ el) = F := by
  induction hF with
  | nil => rfl
  | @cons i l d ks nx hd _ _ _ ih =>
    obtain ⟨hi, hl⟩ := List.forall_mem_cons.1 hne
    rw [nameOf, hd] at hi
    rw [keep, if_pos (by simpa using hi), ih hl]

end Grows

/-! ### What a run may change -/

/-- Only what is under `l` is different: the data of `l` by `f`, and the forest below `l` by `g`. -/
structure Changed (root : ℕ) (h : Tree) (kids : ℕ → List ℕ) (h' : Tree) (kids' : ℕ → List ℕ) (l : ℕ)
    (f : Node → Node) (g : Forest Node → Forest Node) : Prop where
  sound : Sound h' root kids'
  size : h.size ≤ h'.size
  parent : ∀ i < h.size, (h'.cell i).parent = (h.cell i).parent
  data : ∀ i < h.size, ¬ Under h l i → (h'.cell i).data = (h.cell i).data
  children : ∀ i < h.size, ¬ Under h l i → kids' i = kids i
  self : (h'.cell l).data = f (h.cell l).data
  keeps : kids l <+: kids' l
  grows : ∀ K, Grows h kids (kids l) K → Grows h' kids' (kids' l) (g K)

section Changed

variable {h h₁ h₂ : Tree} {root l n : ℕ} {kids kids₁ kids₂ : ℕ → List ℕ} {f f' : Node → Node}
  {g g' : Forest Node → Forest Node}

theorem Changed.refl (hs : Sound h root kids) (l : ℕ) :
    Changed root h kids h kids l id id :=
  ⟨hs, le_rfl, fun _ _ => rfl, fun _ _ _ => rfl, fun _ _ _ => rfl, rfl, List.prefix_rfl, fun _ hK => hK⟩

theorem Changed.trans (hs : Sound h root kids) (hc : Changed root h kids h₁ kids₁ l f g)
    (hc' : Changed root h₁ kids₁ h₂ kids₂ l f' g') :
    Changed root h kids h₂ kids₂ l (f' ∘ f) (g' ∘ g) := by
  have hunder : ∀ i < h.size, ¬ Under h l i → ¬ Under h₁ l i := fun i hi hu hu' =>
    hu ((under_congr hs hc.parent hi).1 hu')
  refine ⟨hc'.sound, hc.size.trans hc'.size, fun i hi => ?_, fun i hi hu => ?_, fun i hi hu => ?_, ?_,
    hc.keeps.trans hc'.keeps, fun K hK => hc'.grows _ (hc.grows K hK)⟩
  · rw [hc'.parent i (hi.trans_le hc.size), hc.parent i hi]
  · rw [hc'.data i (hi.trans_le hc.size) (hunder i hi hu), hc.data i hi hu]
  · rw [hc'.children i (hi.trans_le hc.size) (hunder i hi hu), hc.children i hi hu]
  · rw [hc'.self, hc.self, Function.comp_apply]

/-- A change at the first child with a name. -/
theorem Changed.lift (hs : Sound h root kids) (hl : l < h.size)
    (hc : Changed root h kids h₁ kids₁ n f g) {el : Bytes}
    (hn : (kids l).find? (nameOf h · = el) = some n) (new : Node) :
    Changed root h kids h₁ kids₁ l id fun K => K.upsert Node.name el new f g := by
  have hmem := List.mem_of_find?_eq_some hn
  have hnlt := hs.kid_lt l hl n hmem
  have hunder : ∀ i < h.size, ¬ Under h l i → ¬ Under h n i := fun i _ hu hu' =>
    hu ((hs.under_kid hl hmem).trans hu')
  have hnl : ¬ Under h n l := hs.not_under hl hmem
  refine ⟨hc.sound, hc.size, hc.parent, fun i hi hu => hc.data i hi (hunder i hi hu),
    fun i hi hu => hc.children i hi (hunder i hi hu), hc.data l hl hnl, ?_, fun K hK => ?_⟩
  · rw [hc.children l hl hnl]
  rw [hc.children l hl hnl]
  obtain ⟨hname, pre, post, hsplit, hpre⟩ := List.find?_eq_some_iff_append.1 hn
  have hnodup := hs.nodup l hl
  rw [hsplit] at hK hnodup ⊢
  have hkid : ∀ i ∈ pre ++ n :: post, i ∈ kids l := fun i hi => by rwa [hsplit]
  -- the other children, and what is under them, are as before
  have hother : ∀ L : List ℕ, (∀ i ∈ L, i ∈ kids l ∧ i ≠ n) → ∀ F, Grows h kids L F →
      Grows h₁ kids₁ L F := by
    intro L hL F hF
    refine hF.congr hs (fun i hi => hs.kid_lt l hl i (hL i hi).1) fun i hi m hm hu => ?_
    have hnu : ¬ Under h n m := hs.disjoint hl (hL i hi).1 hmem (hL i hi).2 hm hu
    exact ⟨hc.data m hm hnu, hc.children m hm hnu⟩
  obtain ⟨A, B, rfl, hA, hB⟩ := hK.of_append
  cases hB with
  | @cons _ _ d ks nx hd hk hB =>
  have hne := List.nodup_append.1 hnodup
  have hkeep : A.keep Node.name (· ≠ el) = A := hA.keep_ne fun i hi => by simpa using hpre i hi
  have hdel : d.name = el := by rw [← hd]; exact of_decide_eq_true hname
  rw [upsert_append hkeep, upsert, if_pos hdel]
  refine (hother pre (fun i hi => ⟨hkid i (by simp [hi]), fun hin => ?_⟩) A hA).append
    (.cons (hc.self.trans (congrArg f hd)) (hc.grows ks hk) (hother post (fun i hi =>
      ⟨hkid i (by simp [hi]), fun hin => ?_⟩) nx hB))
  · exact hne.2.2 i hi n (by simp) hin
  · exact (List.nodup_cons.1 hne.2.1).1 (hin ▸ hi)

/-- A new node. -/
structure Pushed (root : ℕ) (h : Tree) (kids : ℕ → List ℕ) (h' : Tree) (kids' : ℕ → List ℕ) (l : ℕ)
    (d : Node) : Prop where
  sound : Sound h' root kids'
  size : h'.size = h.size + 1
  parent : ∀ i < h.size, (h'.cell i).parent = (h.cell i).parent
  new_parent : (h'.cell h.size).parent = some l
  data : ∀ i < h.size, (h'.cell i).data = (h.cell i).data
  new_data : (h'.cell h.size).data = d
  children : kids' = Linked.grown kids l h.size

/-- A new node, and a change at it. -/
theorem Changed.push (hs : Sound h root kids) (hl : l < h.size) {d : Node}
    (hp : Pushed root h kids h₁ kids₁ l d) (hc : Changed root h₁ kids₁ h₂ kids₂ h.size id g) :
    Changed root h kids h₂ kids₂ l id fun K => K.append (.cons d (g .nil) .nil) := by
  have hlt : h.size < h₁.size := by rw [hp.size]; exact Nat.lt_succ_self _
  -- nothing old is under the new node
  have hunder : ∀ i < h.size, ¬ Under h₁ h.size i := fun i hi hu =>
    absurd (hu.le hp.sound (hi.trans hlt)) hi.not_ge
  have hdata : ∀ i < h.size, (h₂.cell i).data = (h.cell i).data := fun i hi => by
    rw [hc.data i (hi.trans hlt) (hunder i hi), hp.data i hi]
  have hkids : ∀ i < h.size, i ≠ l → kids₂ i = kids i := fun i hi hil => by
    rw [hc.children i (hi.trans hlt) (hunder i hi), hp.children, Linked.grown_of_ne hil hi.ne]
  have hkidsl : kids₂ l = kids l ++ [h.size] := by
    rw [hc.children l (hl.trans hlt) (hunder l hl), hp.children, Linked.grown_self]
  refine ⟨hc.sound, hlt.le.trans hc.size, fun i hi => ?_, fun i hi _ => hdata i hi,
    fun i hi hu => hkids i hi fun hil => hu (hil ▸ .refl), hdata l hl, ?_, fun K hK => ?_⟩
  · rw [hc.parent i (hi.trans hlt), hp.parent i hi]
  · rw [hkidsl]
    exact List.prefix_append _ _
  · have hnil : kids₁ h.size = [] := by rw [hp.children, Linked.grown_new hl.ne']
    have hnew := hc.grows .nil (by rw [hnil]; exact .nil)
    have hd : (h₂.cell h.size).data = d := hc.self.trans hp.new_data
    rw [hkidsl]
    refine (hK.congr hs (fun i hi => hs.kid_lt l hl i hi) fun i hi m hm hu => ?_).append
      (.cons hd hnew .nil)
    refine ⟨hdata m hm, hkids m hm ?_⟩
    rintro rfl
    exact hs.not_under hl hi hu

end Changed

/-! ### One element -/

section Element

variable {h : Tree} {root l n : ℕ} {kids : ℕ → List ℕ}

theorem Changed.congr {h' : Tree} {kids' : ℕ → List ℕ} {f : Node → Node}
    {g g' : Forest Node → Forest Node} (hc : Changed root h kids h' kids' l f g)
    (hg : ∀ K, Grows h kids (kids l) K → g K = g' K) : Changed root h kids h' kids' l f g' :=
  { hc with grows := fun K hK => hg K hK ▸ hc.grows K hK }

/-- Writing the attributes of a node. -/
theorem changed_write (hs : Sound h root kids) (hn : n < h.size) (attrs : List Attr) :
    Changed root h kids (writeAttrs h n attrs) kids n (fun d => { d with attrs := attrs }) id := by
  have hsame := (SameNodes.refl h).write n attrs
  have hcell : ∀ i ≠ n, (writeAttrs h n attrs).cell i = h.cell i := fun i hi =>
    writeAttrs_of_ne h attrs hi
  have hparent : ∀ i, ((writeAttrs h n attrs).cell i).parent = (h.cell i).parent := fun i => by
    rw [hsame.cell i]
  refine ⟨⟨hsame.linked hs.toLinked, fun i hi p hp => hs.older i hi p (hparent i ▸ hp)⟩, le_rfl,
    fun i _ => hparent i, fun i _ hu => ?_, fun _ _ _ => rfl, ?_, List.prefix_rfl, fun K hK => ?_⟩
  · rw [hcell i fun hin => hu (hin ▸ .refl)]
  · rw [writeAttrs, Heap.modify_self]
  · refine hK.congr hs (fun c hc => hs.kid_lt n hn c hc) fun c hc m _ hu => ⟨?_, rfl⟩
    rw [hcell m]
    rintro rfl
    exact hs.not_under hn hc hu

/-- A new child with attributes. -/
theorem pushed_append (hs : Sound h root kids) (hl : l < h.size) (el : Bytes) (attrs : List Attr) :
    Pushed root h kids (writeAttrs (appendNewChild h l el []) h.size attrs)
      (Linked.grown kids l h.size) l ⟨el, none, none, attrs⟩ := by
  obtain ⟨hsize, hold, hnew⟩ := appendNewChild_cell hs.toLinked hl el []
  have hlinked := appendNewChild_linked hs.toLinked hl el []
  have hsame := (SameNodes.refl (appendNewChild h l el [])).write h.size attrs
  have hparent : ∀ i, ((writeAttrs (appendNewChild h l el []) h.size attrs).cell i).parent =
      ((appendNewChild h l el []).cell i).parent := fun i => by rw [hsame.cell i]
  have hparent' : ∀ i < h.size, ((writeAttrs (appendNewChild h l el []) h.size attrs).cell i).parent =
      (h.cell i).parent := fun i hi => by rw [hparent, hold i hi.ne]
  have hnewParent : ((writeAttrs (appendNewChild h l el []) h.size attrs).cell h.size).parent =
      some l := by rw [hparent, hnew]
  refine ⟨⟨hsame.linked hlinked, fun i hi p hp => ?_⟩, hsize, hparent', hnewParent, fun i hi => ?_,
    ?_, rfl⟩
  · have hi' : i < h.size + 1 := hsize ▸ hi
    rcases (Nat.lt_succ_iff_lt_or_eq.1 hi') with hi' | rfl
    · exact hs.older i hi' p (hparent' i hi' ▸ hp)
    · rw [hnewParent, Option.some.injEq] at hp
      exact hp ▸ hl
  · rw [writeAttrs_of_ne _ _ hi.ne, hold i hi.ne]
  · rw [writeAttrs, Heap.modify_self, hnew]

/-- The loop over the attributes of an element of the defaults. -/
theorem attrLoop_one (n : ℕ) (attr : List (Bytes × Bytes)) (h : Tree) :
    attrLoop 1 (some n) attr h = writeAttrs h n
      ((attr.takeWhile (·.1 ≠ [])).foldl (fun l a => setAttr l a.1 a.2) (attrsOf h n)) := by
  induction attr generalizing h with
  | nil => exact (writeAttrs_self h n).symm
  | cons a attr ih =>
    obtain ⟨name, value⟩ := a
    rw [attrLoop]
    by_cases hempty : name = []
    · subst hempty
      rw [if_pos rfl]
      exact (writeAttrs_self h n).symm
    · rw [if_neg hempty, if_pos rfl, ih, applyAttr_eq, attrsOf_writeAttrs, writeAttrs_writeAttrs,
        List.takeWhile_cons_of_pos (by simpa using hempty), List.foldl_cons]

/-- The end of an element leads back to its parent. -/
theorem endElement_back {st : XmlState} {h : Tree} (hlast : st.last = some l)
    (hparent : (h.cell n).parent = some l) (hn : n ≠ st.root) (el : Bytes) :
    endElement { st with tree := h, last := some n, level := st.level + 1 } el =
      some { st with tree := h } := by
  have hne : (some n : Option ℕ) ≠ some st.root := fun h => hn (Option.some.inj h)
  rw [endElement, if_neg hne]
  dsimp only
  rw [hparent, add_sub_cancel_right, ← hlast]

/-- An element whose start makes `n` the cursor. -/
theorem foldlM_element {st : XmlState} {h₁ h₂ : Tree} {el : Bytes} {attr : List (Bytes × Bytes)}
    {ks : Doc} (nx : Doc) (hlast : st.last = some l)
    (hstart : startElement st el attr =
      some { st with tree := h₁, last := some n, level := st.level + 1 })
    (hinner : (events ks).foldlM handle
      { st with tree := h₁, last := some n, level := st.level + 1 } =
        some { st with tree := h₂, last := some n, level := st.level + 1 })
    (hparent : (h₂.cell n).parent = some l) (hn : n ≠ st.root) :
    (events (.cons (el, attr) ks nx)).foldlM handle st =
      (events nx).foldlM handle { st with tree := h₂ } := by
  rw [events, List.cons_append, List.foldlM_cons]
  change (startElement st el attr).bind
    (fun s => (events ks ++ .ends el :: events nx).foldlM handle s) = _
  rw [hstart, Option.bind_some, List.foldlM_append]
  change ((events ks).foldlM handle _).bind
    (fun s => (Event.ends el :: events nx).foldlM handle s) = _
  rw [hinner, Option.bind_some, List.foldlM_cons]
  change (endElement _ el).bind (fun s => (events nx).foldlM handle s) = _
  rw [endElement_back hlast hparent hn, Option.bind_some]

end Element

/-! ### Runs -/

section Runs

variable {k root l : ℕ} {kids : ℕ → List ℕ} {st : XmlState}

/-- The attributes that the start of an element leaves at a node, which is new for the defaults. -/
def startAttrs (confId : ℤ) (attrs : List Attr) (attr : List (Bytes × Bytes)) : List Attr :=
  if confId = 1 then defaultAttrs attr else writtenAttrs confId attrs attr

theorem startAttrs_natCast (hk : 2 ≤ k) (attrs : List Attr) (attr : List (Bytes × Bytes)) :
    startAttrs k attrs attr = layered k attrs (valuesOf attr).getLast? := by
  rw [startAttrs, if_neg (by omega), writtenAttrs_natCast (by omega)]

/-- The start of an element that is there, in a run for a layer. -/
theorem startElement_found {n : ℕ} {el : Bytes} (hid : st.confId ≠ 1) (hlast : st.last = some l)
    (happly : applyNode st.tree (some l) el = (st.tree, some n)) (attr : List (Bytes × Bytes)) :
    startElement st el attr = some { st with
      tree := writeAttrs st.tree n (startAttrs st.confId (attrsOf st.tree n) attr)
      last := some n, level := st.level + 1 } := by
  rw [startElement, if_neg hid, hlast, happly, startAttrs, if_neg hid]
  dsimp only
  rw [attrLoop_eq hid]

/-- The start of an element that is new. -/
theorem startElement_new {el : Bytes} {attr : List (Bytes × Bytes)} (hs : Sound st.tree root kids)
    (hl : l < st.tree.size) (hlast : st.last = some l)
    (hnew : st.confId = 1 ∨ applyNode st.tree (some l) el =
      (appendNewChild st.tree l el [], some st.tree.size)) :
    startElement st el attr = some { st with
      tree := writeAttrs (appendNewChild st.tree l el []) st.tree.size (startAttrs st.confId [] attr)
      last := some st.tree.size, level := st.level + 1 } := by
  have hattrs : attrsOf (appendNewChild st.tree l el []) st.tree.size = [] := by
    rw [attrsOf, (appendNewChild_cell hs.toLinked hl el []).2.2]
  by_cases hid : st.confId = 1
  · rw [startElement, if_pos hid, hlast, startAttrs, if_pos hid, hid]
    dsimp only [Option.map_some]
    rw [attrLoop_one, hattrs]
    rfl
  · rw [startElement, if_neg hid, hlast, hnew.resolve_left hid, startAttrs, if_neg hid]
    dsimp only
    rw [attrLoop_eq hid, hattrs]

/-- A run over a file, from any cursor, for a layer. -/
theorem run_layer (hk : 2 ≤ k) (E : Doc) : ∀ {st : XmlState} {kids : ℕ → List ℕ} {l : ℕ},
    Sound st.tree root kids → st.root = root → st.confId = k → st.last = some l → l < st.tree.size →
      ∃ h' kids', (events E).foldlM handle st = some { st with tree := h' } ∧
        Changed root st.tree kids h' kids' l id ((layering k).merge E) := by
  induction E with
  | nil => exact fun hs _ _ _ _ => ⟨_, _, rfl, Changed.refl hs _⟩
  | cons e ks nx ihk ihn =>
    intro st kids l hs hroot hconf hlast hl
    obtain ⟨el, attr⟩ := e
    have hid : st.confId ≠ 1 := by omega
    have hattrs : ∀ attrs, startAttrs st.confId attrs attr =
        layered k attrs (valuesOf attr).getLast? := fun attrs => by rw [hconf, startAttrs_natCast hk]
    -- the element itself
    obtain ⟨h₂, kids₂, hrun, hc⟩ : ∃ h₂ kids₂, (events (.cons (el, attr) ks nx)).foldlM handle st =
          (events nx).foldlM handle { st with tree := h₂ } ∧
        Changed root st.tree kids h₂ kids₂ l id fun K => K.upsert Node.name el ⟨el, none, none, []⟩
          ((layering k).act (el, attr)) ((layering k).merge ks) := by
      rcases applyNode_cases hs.toLinked hl el with ⟨n, hfind, happly⟩ | ⟨hnone, happly⟩
      · have hmem := List.mem_of_find?_eq_some hfind
        have hn := hs.kid_lt l hl n hmem
        have hw := changed_write hs hn (layered k (attrsOf st.tree n) (valuesOf attr).getLast?)
        obtain ⟨h₂, kids₂, hrun, hc⟩ := @ihk
          { st with
            tree := writeAttrs st.tree n (layered k (attrsOf st.tree n) (valuesOf attr).getLast?)
            last := some n, level := st.level + 1 } kids n hw.sound hroot hconf rfl hn
        have hparent : (h₂.cell n).parent = some l := by
          rw [hc.parent n hn, hw.parent n hn, hs.kid_parent l hl n hmem]
        have hne : n ≠ st.root := by
          rintro rfl
          have := hs.kid_parent l hl _ hmem
          rw [hroot, hs.root_parent] at this
          cases this
        have hboth : Changed root st.tree kids h₂ kids₂ n ((layering k).act (el, attr))
            ((layering k).merge ks) :=
          { hw.trans hs hc with self := (hw.trans hs hc).self }
        have hstart := startElement_found hid hlast happly attr
        rw [hattrs] at hstart
        exact ⟨h₂, kids₂, foldlM_element nx hlast hstart hrun hparent hne, hboth.lift hs hl hfind _⟩
      · have hp := pushed_append hs hl el (startAttrs st.confId [] attr)
        have hn : st.tree.size < (writeAttrs (appendNewChild st.tree l el []) st.tree.size
            (startAttrs st.confId [] attr)).size := by
          rw [hp.size]
          exact Nat.lt_succ_self _
        obtain ⟨h₂, kids₂, hrun, hc⟩ := @ihk
          { st with
            tree := writeAttrs (appendNewChild st.tree l el []) st.tree.size
              (startAttrs st.confId [] attr)
            last := some st.tree.size, level := st.level + 1 } _ _ hp.sound hroot hconf rfl hn
        have hparent : (h₂.cell st.tree.size).parent = some l := by
          rw [hc.parent _ hn, hp.new_parent]
        have hne : st.tree.size ≠ st.root := by
          rw [hroot]
          exact hs.root_lt.ne'
        refine ⟨h₂, kids₂, foldlM_element nx hlast (startElement_new hs hl hlast (Or.inr happly)) hrun
          hparent hne, (Changed.push hs hl hp hc).congr fun K hK => ?_⟩
        have hkeep : K.keep Node.name (· ≠ el) = K := hK.keep_ne fun i hi => by
          simpa using List.find?_eq_none.1 hnone i hi
        have hup : (K.append .nil).upsert Node.name el ⟨el, none, none, []⟩
            ((layering k).act (el, attr)) ((layering k).merge ks) = _ := upsert_append hkeep .nil
        rw [append_nil] at hup
        rw [hup, hattrs]
        rfl
    obtain ⟨h₃, kids₃, hrun', hc'⟩ := @ihn { st with tree := h₂ } kids₂ l hc.sound hroot hconf hlast
      (hl.trans_le hc.size)
    exact ⟨h₃, kids₃, hrun.trans hrun', hc.trans hs hc'⟩

/-- A run over a file, from any cursor, for the defaults. -/
theorem run_defaults (E : Doc) : ∀ {st : XmlState} {kids : ℕ → List ℕ} {l : ℕ},
    Sound st.tree root kids → st.root = root → st.confId = 1 → st.last = some l → l < st.tree.size →
      ∃ h' kids', (events E).foldlM handle st = some { st with tree := h' } ∧
        Changed root st.tree kids h' kids' l id fun K => K.append (E.map defaultNode) := by
  induction E with
  | nil =>
    intro st kids l hs _ _ _ _
    exact ⟨_, _, rfl, (Changed.refl hs _).congr fun K _ => (append_nil K).symm⟩
  | cons e ks nx ihk ihn =>
    intro st kids l hs hroot hconf hlast hl
    obtain ⟨el, attr⟩ := e
    have hp := pushed_append hs hl el (defaultAttrs attr)
    have hn : st.tree.size < (writeAttrs (appendNewChild st.tree l el []) st.tree.size
        (defaultAttrs attr)).size := by
      rw [hp.size]
      exact Nat.lt_succ_self _
    obtain ⟨h₂, kids₂, hrun, hc⟩ := @ihk
      { st with
        tree := writeAttrs (appendNewChild st.tree l el []) st.tree.size (defaultAttrs attr)
        last := some st.tree.size, level := st.level + 1 } _ _ hp.sound hroot hconf rfl hn
    have hparent : (h₂.cell st.tree.size).parent = some l := by
      rw [hc.parent _ hn, hp.new_parent]
    have hne : st.tree.size ≠ st.root := by
      rw [hroot]
      exact hs.root_lt.ne'
    have hstart : startElement st el attr = _ := startElement_new hs hl hlast (Or.inl hconf)
    rw [startAttrs, if_pos hconf] at hstart
    have hpush := Changed.push hs hl hp hc
    obtain ⟨h₃, kids₃, hrun', hc'⟩ := @ihn { st with tree := h₂ } kids₂ l hpush.sound hroot hconf
      hlast (hl.trans_le hpush.size)
    refine ⟨h₃, kids₃, (foldlM_element nx hlast hstart hrun hparent hne).trans hrun',
      (hpush.trans hs hc').congr fun K _ => ?_⟩
    rw [Function.comp_apply, append_assoc]
    rfl

end Runs

end ZRouter.Conf
