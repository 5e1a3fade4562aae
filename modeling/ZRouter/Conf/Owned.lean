import ZRouter.Conf.Links
import ZRouter.Lib.Runs

/-!
# Who owns the values of attributes (`conf_node.c`, `conf_xml.c`)

A value is a copy that was made for the tree, or a pointer into a buffer of the XML parser.  The handlers
get pointers of the second kind; `newAttr` copies what they lead to, and `applyAttr` stores the pointer
itself if the node has an attribute of that name.

* `Text`, `applyAttr`, `startElement`, `endElement`, `loadXml`: the handlers, and a run of `load_xml`;
* `Owned`, `OwnsValues`: every value is a copy, and no other string is freed;
* `Clean`: no attribute is given a value twice;
* `ownsValues_iff`: it is the condition; `not_ownsValues_twoElements`: two elements of one name.
-/

namespace ZRouter.Conf.Raw

open Cells Exec

/-! ### Values -/

/-- A pointer to a value: to a copy made for the tree, or into a buffer of the parser. -/
inductive Text
  | owned (s : Bytes)
  | borrowed (p : ℕ)
deriving DecidableEq

/-- The bytes at a pointer. -/
def Text.read (buffers : ℕ → Bytes) : Text → Bytes
  | .owned s => s
  | .borrowed p => buffers p

/-- `free`, of a value that may be null; a string of the parser cannot be freed. -/
def freeValue : Option Text → Exec Unit
  | none => .ret ()
  | some (.owned _) => .ret ()
  | some (.borrowed _) => .undefined

/-- `applyAttr`. -/
def applyAttr (n : ℕ) (h : Store Text) (buffers : ℕ → Bytes) (parent : Option ℕ) (name : Bytes)
    (value : Text) : Exec (Store Text) :=
  match parent with
  | none => .ret h
  | some parent =>
      findName h name n (h.cell parent).data.firstAttr >>= fun found =>
      match found with
      | some node =>
          freeValue (h.cell node).data.value >>= fun _ =>
          .ret (h.modify node fun c => { c with data := { c.data with value := some value } })
      | none =>
          .ret (addAttr (newAttr h name (some (.owned (value.read buffers)))) (some parent)
            (some h.size)).1

/-! ### The handlers -/

/-- What the parser delivers: an element starts, with its attributes, or ends.  The values are pointers
into the buffers of the parser, which hold something else at the next event. -/
inductive Event
  | start (buffers : ℕ → Bytes) (el : Bytes) (attr : List (Bytes × ℕ))
  | ends (el : Bytes)

/-- `struct xml_state`, and the memory that its pointers lead to. -/
structure XmlState where
  store : Store Text
  level : ℤ
  root : ℕ
  last : Option ℕ
  confId : ℤ

/-- An integer as `%d` prints it. -/
def formatD (k : ℤ) : Bytes :=
  (if k < 0 then str "-" else []) ++ if k = 0 then str "0" else decimal k.natAbs

/-- What `sprintf(attrname, "value%d", conf_id)` writes. -/
def valueName (confId : ℤ) : Bytes := str "value" ++ formatD confId

/-- A pass of the loop of `startElement` over the attributes; `attrname` has 16 bytes. -/
def attrPass (confId : ℤ) (node : ℕ) (buffers : ℕ → Bytes) (n : ℕ) (h : Store Text)
    (attr : Bytes × ℕ) : Exec (Store Text) :=
  if confId = 1 then applyAttr n h buffers (some node) attr.1 (.borrowed attr.2)
  else if attr.1 = str "value" then
    if (valueName confId).length < 16 then
      applyAttr n h buffers (some node) (valueName confId) (.borrowed attr.2)
    else .undefined
  else .ret h

/-- The loop; it ends at an empty name. -/
def attrLoop (confId : ℤ) (node : ℕ) (buffers : ℕ → Bytes) (n : ℕ) :
    List (Bytes × ℕ) → Store Text → Exec (Store Text)
  | [], h => .ret h
  | attr :: attrs, h =>
      if attr.1 = [] then .ret h
      else attrPass confId node buffers n h attr >>= attrLoop confId node buffers n attrs

/-- The node of an element: a new one for the defaults, else the one that is found or made. -/
def enter (n : ℕ) (st : XmlState) (el : Bytes) : Exec (Store Text × Option ℕ) :=
  if st.confId = 1 then
    match st.last with
    | none => .undefined
    | some last => appendNewChild n st.store last el none >>= fun r => .ret (r.1, some r.2)
  else applyNode n st.store st.last el

/-- `startElement`. -/
def startElement (n : ℕ) (st : XmlState) (buffers : ℕ → Bytes) (el : Bytes) (attr : List (Bytes × ℕ)) :
    Exec XmlState :=
  enter n st el >>= fun r =>
  match r.2 with
  | none => .ret { st with store := r.1 }
  | some node =>
      attrLoop st.confId node buffers n attr r.1 >>= fun h =>
      .ret { st with store := h, last := some node, level := st.level + 1 }

/-- `endElement`; it does not look at the name. -/
def endElement (st : XmlState) (_el : Bytes) : Exec XmlState :=
  let st := { st with level := st.level - 1 }
  if st.last = some st.root then .ret st
  else
    match st.last with
    | none => .undefined
    | some last => .ret { st with last := (st.store.cell last).parent }

/-- One event. -/
def handle (n : ℕ) (st : XmlState) : Event → Exec XmlState
  | .start buffers el attr => startElement n st buffers el attr
  | .ends el => endElement st el

/-! ### Runs of `load_xml` -/

/-- The memory, and the caller's pointer to the tree. -/
structure World where
  store : Store Text
  newroot : Option ℕ

/-- A run: its configuration number, the events that the parser delivers, and whether the file has been
read to its end then. -/
structure Load where
  confId : ℤ
  events : List Event
  ok : Bool

/-- The state with which `load_xml` starts; without a tree it makes a node `root`. -/
def XmlState.start (w : World) (confId : ℤ) : XmlState :=
  match w.newroot with
  | some root => ⟨w.store, 0, root, some root, confId⟩
  | none => ⟨newNode w.store (str "root") none, 0, w.store.size, some w.store.size, confId⟩

/-- `load_xml`. -/
def loadXml (n : ℕ) (w : World) (load : Load) : Exec World :=
  run handle n (XmlState.start w load.confId) load.events >>= fun st =>
  .ret ⟨st.store, if load.ok then some st.root else w.newroot⟩

/-- Before the first run. -/
def World.empty : World := ⟨.empty, none⟩

/-! ### What is to hold, and when it does -/

/-- Every value is a copy. -/
def Owned (h : Store Text) : Prop := ∀ i < h.size, ∀ t ∈ (h.cell i).data.value, ∃ s, t = .owned s

/-- The values are the same whatever the parser writes to its buffers. -/
def Steady (h : Store Text) : Prop := ∀ i < h.size, ∀ buffers buffers' : ℕ → Bytes,
  (h.cell i).data.value.map (Text.read buffers) = (h.cell i).data.value.map (Text.read buffers')

/-- **The tree owns its values**: the runs of `load_xml` free no other strings, and then every value is a
copy and does not change.  A run may end anywhere in its file, so that this is about every state. -/
def OwnsValues (loads : List Load) : Prop :=
  ∃ w, Eventually (fun n => run loadXml n World.empty loads) (.ret w) ∧ Owned w.store ∧ Steady w.store

/-- The name under which an attribute of an element is stored, if it is. -/
def storedName (confId : ℤ) (name : Bytes) : Option Bytes :=
  if confId = 1 then some name else if name = str "value" then some (valueName confId) else none

/-- The node has no attribute of that name yet, and the name fits into `attrname`. -/
def FirstValue (confId : ℤ) (node : ℕ) (h : Store Text) (attr : Bytes × ℕ) : Prop :=
  ∀ name ∈ storedName confId attr.1, (confId ≠ 1 → name.length < 16) ∧
    Eventually (fun n => findName h name n (h.cell node).data.firstAttr) (.ret none)

/-- So it is for every attribute of an element. -/
def CleanEvent (st : XmlState) : Event → Prop
  | .start buffers el attr => ∀ h node, Eventually (fun n => enter n st el) (.ret (h, some node)) →
      Along (attrPass st.confId node buffers) (FirstValue st.confId node) h
        (attr.takeWhile (·.1 ≠ []))
  | .ends _ => True

/-- So it is for every element of a file. -/
def CleanLoad (w : World) (load : Load) : Prop :=
  Along handle CleanEvent (XmlState.start w load.confId) load.events

/-- **No attribute is given a value twice**, in the states that the runs come to. -/
def Clean (loads : List Load) : Prop := Along loadXml CleanLoad World.empty loads

/-! ### Attributes -/

/-- Some value is a string of the parser. -/
def Borrows (h : Store Text) : Prop := ∃ i < h.size, ∃ p, (h.cell i).data.value = some (.borrowed p)

theorem Owned.not_borrows {h : Store Text} (ho : Owned h) : ¬ Borrows h := by
  rintro ⟨i, hi, p, hp⟩
  obtain ⟨s, hs⟩ := ho i hi (.borrowed p) (by rw [hp]; rfl)
  cases hs

theorem Owned.steady {h : Store Text} (ho : Owned h) : Steady h := by
  intro i hi buffers buffers'
  cases hv : (h.cell i).data.value with
  | none => rfl
  | some t =>
    obtain ⟨s, rfl⟩ := ho i hi t (by rw [hv]; rfl)
    rfl

/-- A memory that goes on from another one: nodes stay, and so do their parents. -/
structure Extends (h h' : Store Text) : Prop where
  size_le : h.size ≤ h'.size
  parent : ∀ n p, (h.cell n).parent = some p → (h'.cell n).parent = some p

theorem Extends.refl (h : Store Text) : Extends h h := ⟨le_rfl, fun _ _ hp => hp⟩

theorem Extends.trans {h h' h'' : Store Text} (h1 : Extends h h') (h2 : Extends h' h'') :
    Extends h h'' := ⟨h1.size_le.trans h2.size_le, fun n p hp => h2.parent n p (h1.parent n p hp)⟩

/-- The memory of a tree that goes on from another one. -/
structure Sound (h₀ h : Store Text) : Prop where
  links : ∃ list, TreeLinks h list
  extend : Extends h₀ h

/-- The memory after a new attribute. -/
def attached (h : Store Text) (node : ℕ) (name : Bytes) (t : Text) : Store Text :=
  (addAttr (newAttr h name (some t)) (some node) (some h.size)).1

theorem attached_value (h : Store Text) (node : ℕ) (name : Bytes) (t : Text) (i : ℕ) :
    ((attached h node name t).cell i).data.value =
      if i = h.size then some t else (h.cell i).data.value := by
  have hkeep : ((attached h node name t).cell i).data.value =
      ((newAttr h name (some t)).cell i).data.value := by
    rw [attached, (addAttr_fields _ node h.size i).2.2.2.2.1]
  rw [hkeep, newAttr_eq]
  by_cases hi : i = h.size
  · rw [if_pos hi, hi, Heap.alloc_self]
  · rw [if_neg hi, h.alloc_of_ne _ hi]

theorem attached_size (h : Store Text) (node : ℕ) (name : Bytes) (t : Text) :
    (attached h node name t).size = h.size + 1 := by
  rw [attached, (addAttr_fields _ node h.size 0).2.2.2.2.2, newAttr_eq]
  rfl

theorem Sound.attached {h₀ h : Store Text} (hs : Sound h₀ h) {node : ℕ} (hn : node < h₀.size)
    (name : Bytes) (t : Text) : Sound h₀ (attached h node name t) := by
  obtain ⟨⟨list, hl⟩, hext⟩ := hs
  have hnode : node < h.size := hn.trans_le hext.size_le
  refine ⟨⟨_, addAttr_links (newAttr_links hl name (some t)) ?_
    (FreshAttr.of_newAttr hl name (some t))⟩, hext.trans ⟨?_, fun n p hp => ?_⟩⟩
  · rw [newAttr_eq]
    exact hnode.trans (Nat.lt_succ_self _)
  · rw [attached_size]
    exact Nat.le_succ _
  · have hne : n ≠ h.size := by
      rintro rfl
      exact hl.notMem_size (.inl p) ((hl.parent _ p).1 hp)
    rw [Raw.attached, (addAttr_fields _ node h.size n).2.2.1, newAttr_eq, h.alloc_of_ne _ hne]
    exact hp

/-- The memory with another value at a node. -/
def assigned (h : Store Text) (node : ℕ) (t : Text) : Store Text :=
  h.modify node fun c => { c with data := { c.data with value := some t } }

theorem assigned_cell (h : Store Text) (node : ℕ) (t : Text) (i : ℕ) : (assigned h node t).cell i =
    { h.cell i with
      data := { (h.cell i).data with value := if i = node then some t else (h.cell i).data.value } } := by
  rw [assigned, Heap.modify_cell]
  split_ifs <;> rfl

theorem Sound.assigned {h₀ h : Store Text} (hs : Sound h₀ h) (node : ℕ) (t : Text) :
    Sound h₀ (assigned h node t) := by
  obtain ⟨⟨list, hl⟩, hext⟩ := hs
  have hhead : ∀ i, headOf (Raw.assigned h node t) i = headOf h i := by
    rintro (n | n) <;> rw [headOf, assigned_cell, headOf]
  refine ⟨⟨list, hl.threads.congr (fun j => ?_) (fun j => ?_) hhead, ?_, ?_, ?_, hl.lt, ?_, hl.depth⟩,
    hext.trans ⟨le_rfl, fun n p hp => ?_⟩⟩
  · rw [assigned_cell]
  · rw [assigned_cell]
  · intro c p
    rw [assigned_cell]
    exact hl.parent c p
  · intro n c hc
    rw [assigned_cell]
    exact hl.isNode n c hc
  · intro n a ha
    rw [assigned_cell]
    exact hl.isAttr n a ha
  · intro n hn
    rw [hhead, hhead]
    exact hl.beyond n hn
  · rw [assigned_cell]
    exact hp

/-- `applyAttr` in a tree: the attribute of that name gets the pointer, or a new one gets a copy. -/
theorem applyAttr_returns {h : Store Text} {list : Which → List ℕ} (hl : TreeLinks h list)
    (buffers : ℕ → Bytes) (node : ℕ) (name : Bytes) (value : Text) :
    Eventually (fun n => applyAttr n h buffers (some node) name value)
      (match (list (.inr node)).find? (nameOf h · = name) with
        | some a => freeValue (h.cell a).data.value >>= fun _ => .ret (assigned h a value)
        | none => .ret (attached h node name (.owned (value.read buffers)))) := by
  obtain ⟨N, hN⟩ := findName_returns hl (.inr node) name
  refine ⟨N, fun n hn => ?_⟩
  have hfound : findName h name n (headOf h (.inr node)) = _ := hN n hn
  show (findName h name n (headOf h (.inr node)) >>= _) = _
  rw [hfound, ret_bind]
  cases (list (.inr node)).find? (nameOf h · = name) <;> rfl

/-- What an attribute without a value under its name leaves behind. -/
theorem applyAttr_first {h₀ h : Store Text} (hs : Sound h₀ h) {node : ℕ} (hn : node < h₀.size)
    (buffers : ℕ → Bytes) (name : Bytes) (value : Text)
    (hfirst : Eventually (fun n => findName h name n (h.cell node).data.firstAttr) (.ret none)) :
    ∃ h', Eventually (fun n => applyAttr n h buffers (some node) name value) (.ret h') ∧ Sound h₀ h' ∧
      (Owned h → Owned h') ∧ (Borrows h → Borrows h') := by
  obtain ⟨list, hl⟩ := hs.links
  have hfind : (list (.inr node)).find? (nameOf h · = name) = none :=
    Exec.ret.inj ((findName_returns hl (.inr node) name).unique hfirst)
  have hrun := applyAttr_returns hl buffers node name value
  rw [hfind] at hrun
  refine ⟨_, hrun, hs.attached hn _ _, fun ho i hi t ht => ?_, ?_⟩
  · rw [attached_value] at ht
    split_ifs at ht with hnew
    · exact ⟨_, (Option.some.inj ht).symm⟩
    · rw [attached_size] at hi
      exact ho i (by omega) t ht
  · rintro ⟨i, hi, p, hp⟩
    refine ⟨i, ?_, p, ?_⟩
    · rw [attached_size]
      omega
    · rw [attached_value, if_neg hi.ne]
      exact hp

/-- Writing a pointer of the parser to an attribute leaves it there. -/
theorem applyAttr_again {h₀ h : Store Text} (hs : Sound h₀ h) (buffers : ℕ → Bytes) {node : ℕ}
    {name : Bytes} (p : ℕ)
    (hagain : ¬ Eventually (fun n => findName h name n (h.cell node).data.firstAttr) (.ret none)) :
    Fails (fun n => applyAttr n h buffers (some node) name (.borrowed p))
      (fun h' => Sound h₀ h' ∧ Borrows h') := by
  obtain ⟨list, hl⟩ := hs.links
  have hrun := applyAttr_returns hl buffers node name (.borrowed p)
  cases hfind : (list (.inr node)).find? (nameOf h · = name) with
  | none =>
    have hnone := findName_returns hl (.inr node) name
    rw [hfind] at hnone
    exact absurd hnone hagain
  | some a =>
    rw [hfind] at hrun
    have ha : a < h.size := hl.lt _ a (List.mem_of_find?_eq_some hfind)
    have hborrows : Borrows (assigned h a (.borrowed p)) := by
      refine ⟨a, ha, p, ?_⟩
      rw [assigned_cell]
      exact if_pos rfl
    rcases hv : (h.cell a).data.value with _ | (s | q)
    · exact Or.inr ⟨_, by simpa [hv, freeValue] using hrun, hs.assigned a _, hborrows⟩
    · exact Or.inr ⟨_, by simpa [hv, freeValue] using hrun, hs.assigned a _, hborrows⟩
    · left
      simpa [hv, freeValue] using hrun

/-- A pass does nothing, or applies the attribute under the name that is stored. -/
theorem attrPass_eq (confId : ℤ) (node : ℕ) (buffers : ℕ → Bytes) (n : ℕ) (h : Store Text)
    (attr : Bytes × ℕ) : attrPass confId node buffers n h attr =
      match storedName confId attr.1 with
      | none => .ret h
      | some name =>
          if confId ≠ 1 → name.length < 16 then
            applyAttr n h buffers (some node) name (.borrowed attr.2)
          else .undefined := by
  rw [attrPass, storedName]
  by_cases hdef : confId = 1
  · simp [hdef]
  · rw [if_neg hdef, if_neg hdef]
    by_cases hvalue : attr.1 = str "value"
    · simp [hvalue, hdef]
    · rw [if_neg hvalue, if_neg hvalue]

/-- **The loop over the attributes of an element.**  Borrowed values come with the second value for an
attribute, and stay until they are freed. -/
theorem attr_sorts (confId : ℤ) {h₀ : Store Text} {node : ℕ} (hn : node < h₀.size)
    (buffers : ℕ → Bytes) : Sorts (attrPass confId node buffers) (FirstValue confId node)
      (fun h => Sound h₀ h ∧ Owned h) (fun h => Sound h₀ h ∧ Borrows h) := by
  refine ⟨?_, ?_, ?_⟩
  · rintro h attr ⟨hs, ho⟩ hgood
    simp only [attrPass_eq]
    cases hname : storedName confId attr.1 with
    | none => exact ⟨h, Eventually.of_eq fun _ => rfl, hs, ho⟩
    | some name =>
      obtain ⟨hfits, hfirst⟩ := hgood name (by rw [hname]; rfl)
      obtain ⟨h', hrun, hs', ho', -⟩ := applyAttr_first hs hn buffers name (.borrowed attr.2) hfirst
      simp only [if_pos hfits]
      exact ⟨h', hrun, hs', ho' ho⟩
  · rintro h attr ⟨hs, ho⟩ hgood
    simp only [attrPass_eq]
    cases hname : storedName confId attr.1 with
    | none =>
      refine absurd (fun name hmem => ?_) hgood
      rw [hname] at hmem
      cases hmem
    | some name =>
      by_cases hfits : confId ≠ 1 → name.length < 16
      · simp only [if_pos hfits]
        refine applyAttr_again hs buffers attr.2 fun hfirst => hgood fun name' hmem => ?_
        rw [hname] at hmem
        cases hmem
        exact ⟨hfits, hfirst⟩
      · simp only [if_neg hfits]
        exact Or.inl (Eventually.of_eq fun _ => rfl)
  · rintro h attr ⟨hs, hb⟩
    simp only [attrPass_eq]
    cases hname : storedName confId attr.1 with
    | none => exact Or.inr ⟨h, Eventually.of_eq fun _ => rfl, hs, hb⟩
    | some name =>
      by_cases hfits : confId ≠ 1 → name.length < 16
      · simp only [if_pos hfits]
        by_cases hfirst : Eventually (fun n => findName h name n (h.cell node).data.firstAttr) (.ret none)
        · obtain ⟨h', hrun, hs', -, hb'⟩ := applyAttr_first hs hn buffers name (.borrowed attr.2) hfirst
          exact Or.inr ⟨h', hrun, hs', hb' hb⟩
        · exact applyAttr_again hs buffers attr.2 hfirst
      · simp only [if_neg hfits]
        exact Or.inl (Eventually.of_eq fun _ => rfl)

/-- The loop is a run over the attributes before the first empty name. -/
theorem attrLoop_eq (confId : ℤ) (node : ℕ) (buffers : ℕ → Bytes) (n : ℕ) (attrs : List (Bytes × ℕ))
    (h : Store Text) : attrLoop confId node buffers n attrs h =
      run (attrPass confId node buffers) n h (attrs.takeWhile (·.1 ≠ [])) := by
  induction attrs generalizing h with
  | nil => rfl
  | cons attr attrs ih =>
    rw [attrLoop, List.takeWhile_cons]
    by_cases hempty : attr.1 = []
    · rw [if_pos hempty, if_neg (by simpa using hempty)]
      rfl
    · rw [if_neg hempty, if_pos (by simpa using hempty), Sorts.run_cons]
      congr 1
      funext h'
      exact ih h'

/-! ### Elements -/

/-- The cursor is a node of the tree; at least `k` nodes have been made. -/
structure Cursor (k : ℕ) (st : XmlState) : Prop where
  links : ∃ list, TreeLinks st.store list
  size_le : k ≤ st.store.size
  root : st.root < st.store.size
  last : ∃ l, st.last = some l ∧ l < st.store.size ∧
    Relation.ReflTransGen (fun n p => (st.store.cell n).parent = some p) l st.root

/-- A memory that goes on has the same values, and no others. -/
structure SameValues (h h' : Store Text) : Prop where
  old : ∀ i < h.size, (h'.cell i).data.value = (h.cell i).data.value
  new : ∀ i, h.size ≤ i → i < h'.size → (h'.cell i).data.value = none

theorem SameValues.owned {h h' : Store Text} (hv : SameValues h h') (ho : Owned h) : Owned h' := by
  intro i hi t ht
  rcases Nat.lt_or_ge i h.size with hlt | hge
  · rw [hv.old i hlt] at ht
    exact ho i hlt t ht
  · rw [hv.new i hge hi] at ht
    cases ht

theorem SameValues.borrows {h h' : Store Text} (hv : SameValues h h') (hle : h.size ≤ h'.size)
    (hb : Borrows h) : Borrows h' := by
  obtain ⟨i, hi, p, hp⟩ := hb
  exact ⟨i, hi.trans_le hle, p, by rw [hv.old i hi, hp]⟩

theorem newNode_sameValues (h : Store Text) (name : Bytes) (firstAttr : Option ℕ) :
    SameValues h (newNode h name firstAttr) := by
  refine ⟨fun i hi => ?_, fun i hge hi => ?_⟩
  · rw [newNode_cell h name firstAttr hi.ne]
  · have hsize : (newNode h name firstAttr).size = h.size + 1 := rfl
    obtain rfl : i = h.size := by omega
    rw [newNode_new]

/-- The new child. -/
theorem grown_spec {h : Store Text} {list : Which → List ℕ} (hl : TreeLinks h list) (p : ℕ)
    (name : Bytes) :
    Extends h (grown h list p name none) ∧ SameValues h (grown h list p name none) ∧
      (grown h list p name none).size = h.size + 1 ∧
      ((grown h list p name none).cell h.size).parent = some p := by
  have hnew := FreshNode.of_newNode h name none
  have hlinks := newNode_links hl name none (by simp)
  have hout : (list (.inl p)).getLast? ≠ some h.size :=
    fun hlast => hl.notMem_size _ (List.mem_of_getLast? hlast)
  have hfields := hang_fields (newNode h name none) p hout (by rw [newNode_new])
  have hvalues := newNode_sameValues h name none
  have hsize : (grown h list p name none).size = h.size + 1 := (hfields 0).2.2.2.2.2
  refine ⟨⟨by omega, fun n q hq => ?_⟩, ⟨fun i hi => ?_, fun i hge hi => ?_⟩, hsize, ?_⟩
  · have hne : n ≠ h.size := by
      rintro rfl
      exact hl.notMem_size (.inl q) ((hl.parent _ q).1 hq)
    rw [grown, (hfields n).2.2.1, if_neg hne, newNode_cell h name none hne]
    exact hq
  · rw [grown, (hfields i).2.2.2.2.1]
    exact hvalues.old i hi
  · rw [grown, (hfields i).2.2.2.2.1]
    exact hvalues.new i hge (by rw [hsize] at hi; exact hi)
  · rw [grown, (hfields h.size).2.2.1, if_pos rfl]

/-- The node of an element, and the memory with it. -/
structure Entered (st : XmlState) (h : Store Text) (node : ℕ) : Prop where
  links : ∃ list, TreeLinks h list
  extend : Extends st.store h
  values : SameValues st.store h
  lt : node < h.size
  parent : (h.cell node).parent = st.last

theorem enter_returns {k : ℕ} {st : XmlState} (hc : Cursor k st) (el : Bytes) :
    ∃ h node, Eventually (fun n => enter n st el) (.ret (h, some node)) ∧ Entered st h node := by
  obtain ⟨list, hl⟩ := hc.links
  obtain ⟨l, hlast, hlt, -⟩ := hc.last
  obtain ⟨hext, hvalues, hsize, hparent⟩ := grown_spec hl l el
  have hgrown : Entered st (grown st.store list l el none) st.store.size :=
    ⟨⟨_, grown_links hl hlt el (by simp)⟩, hext, hvalues, by omega, by rw [hparent, hlast]⟩
  by_cases hdef : st.confId = 1
  · have henter : ∀ n, enter n st el =
        appendNewChild n st.store l el none >>= fun r => .ret (r.1, some r.2) := by
      intro n
      rw [enter, if_pos hdef, hlast]
    refine ⟨_, _, ?_, hgrown⟩
    simp only [henter]
    exact (appendNewChild_returns hl l el (by simp)).bind (Eventually.of_eq fun _ => rfl)
  · have henter : ∀ n, enter n st el = applyNode n st.store (some l) el := by
      intro n
      rw [enter, if_neg hdef, hlast]
    have happly := applyNode_returns hl l el
    simp only [henter]
    cases hfind : (list (.inl l)).find? (nameOf st.store · = el) with
    | none =>
      rw [hfind] at happly
      exact ⟨_, _, happly, hgrown⟩
    | some node =>
      rw [hfind] at happly
      have hmem := List.mem_of_find?_eq_some hfind
      refine ⟨_, _, happly, ⟨list, hl⟩, Extends.refl _, ⟨fun _ _ => rfl, fun i hge hi => ?_⟩,
        hl.lt _ node hmem, ?_⟩
      · omega
      · rw [hlast]
        exact (hl.parent node l).2 hmem

/-- The state after an element has started. -/
def XmlState.opened (st : XmlState) (h : Store Text) (node : ℕ) : XmlState :=
  { st with store := h, last := some node, level := st.level + 1 }

theorem Cursor.opened {k : ℕ} {st : XmlState} (hc : Cursor k st) {h h' : Store Text} {node : ℕ}
    (he : Entered st h node) (hs : Sound h h') : Cursor k (st.opened h' node) := by
  obtain ⟨l, hlast, -, hpath⟩ := hc.last
  have hext := he.extend.trans hs.extend
  refine ⟨hs.links, hc.size_le.trans hext.size_le, hc.root.trans_le hext.size_le, node, rfl,
    he.lt.trans_le hs.extend.size_le, ?_⟩
  refine Relation.ReflTransGen.head (b := l) (hs.extend.parent node l ?_) ?_
  · rw [he.parent, hlast]
  · exact Relation.ReflTransGen.mono (fun n p hp => hext.parent n p hp) _ _ hpath

theorem startElement_eq {st : XmlState} {h : Store Text} {node : ℕ} {buffers : ℕ → Bytes} {el : Bytes}
    {attr : List (Bytes × ℕ)} {x : Exec (Store Text)} {y : Exec XmlState}
    (henter : Eventually (fun n => enter n st el) (.ret (h, some node)))
    (hloop : Eventually (fun n => run (attrPass st.confId node buffers) n h
      (attr.takeWhile (·.1 ≠ []))) x)
    (hy : (x >>= fun h' => .ret (st.opened h' node)) = y) :
    Eventually (fun n => startElement n st buffers el attr) y := by
  refine henter.bind (g := fun n r => match r.2 with
    | none => .ret { st with store := r.1 }
    | some node => attrLoop st.confId node buffers n attr r.1 >>= fun h' =>
        .ret (st.opened h' node)) ?_
  obtain ⟨N, hN⟩ := hloop
  refine ⟨N, fun n hn => ?_⟩
  have hrun : run (attrPass st.confId node buffers) n h (attr.takeWhile (·.1 ≠ [])) = x := hN n hn
  show (attrLoop st.confId node buffers n attr h >>= fun h' => .ret (st.opened h' node)) = y
  rw [attrLoop_eq, hrun, hy]

theorem startElement_fails {k : ℕ} {st : XmlState} {h : Store Text} {node : ℕ} {buffers : ℕ → Bytes}
    {el : Bytes} {attr : List (Bytes × ℕ)} (hc : Cursor k st)
    (henter : Eventually (fun n => enter n st el) (.ret (h, some node))) (he : Entered st h node)
    (hloop : Fails (fun n => run (attrPass st.confId node buffers) n h
      (attr.takeWhile (·.1 ≠ []))) fun h' => Sound h h' ∧ Borrows h') :
    Fails (fun n => startElement n st buffers el attr)
      fun st' => Cursor k st' ∧ Borrows st'.store := by
  rcases hloop with hloop | ⟨h', hloop, hs, hb⟩
  · exact Or.inl (startElement_eq henter hloop rfl)
  · exact Or.inr ⟨_, startElement_eq henter hloop rfl, hc.opened he hs, hb⟩

theorem endElement_returns {k : ℕ} {st : XmlState} (hc : Cursor k st) (el : Bytes) :
    ∃ st', endElement st el = .ret st' ∧ st'.store = st.store ∧ Cursor k st' := by
  obtain ⟨list, hl⟩ := hc.links
  obtain ⟨l, hlast, hlt, hpath⟩ := hc.last
  rw [endElement]
  dsimp only
  by_cases hroot : st.last = some st.root
  · rw [if_pos hroot]
    exact ⟨_, rfl, rfl, hc.links, hc.size_le, hc.root, hc.last⟩
  · rw [if_neg hroot, hlast]
    rcases hpath.cases_head with heq | ⟨p, hp, hrest⟩
    · rw [hlast, heq] at hroot
      exact absurd rfl hroot
    · refine ⟨_, rfl, rfl, hc.links, hc.size_le, hc.root, p, hp, ?_, hrest⟩
      -- a cell with a child is one that has been made
      by_contra hge
      have hnil := hl.list_eq_nil (hl.beyond p (Nat.le_of_not_lt hge)).1
      have hmem := (hl.parent l p).1 hp
      rw [hnil] at hmem
      exact absurd hmem List.not_mem_nil

/-- **The handlers.** -/
theorem handle_sorts (k : ℕ) : Sorts handle CleanEvent (fun st => Cursor k st ∧ Owned st.store)
    (fun st => Cursor k st ∧ Borrows st.store) := by
  refine ⟨?_, ?_, ?_⟩
  · rintro st e ⟨hc, ho⟩ hgood
    cases e with
    | ends el =>
      obtain ⟨st', hrun, hstore, hc'⟩ := endElement_returns hc el
      exact ⟨st', Eventually.of_eq fun _ => hrun, hc', by rw [hstore]; exact ho⟩
    | start buffers el attr =>
      obtain ⟨h, node, henter, he⟩ := enter_returns hc el
      obtain ⟨h', hloop, hs, ho'⟩ := (attr_sorts st.confId he.lt buffers).run_kept
        ⟨⟨he.links, Extends.refl h⟩, he.values.owned ho⟩ (hgood h node henter)
      exact ⟨_, startElement_eq henter hloop rfl, hc.opened he hs, ho'⟩
  · rintro st e ⟨hc, ho⟩ hgood
    cases e with
    | ends el => exact absurd trivial hgood
    | start buffers el attr =>
      obtain ⟨h, node, henter, he⟩ := enter_returns hc el
      refine startElement_fails hc henter he ((attr_sorts st.confId he.lt buffers).run_lost
        ⟨⟨he.links, Extends.refl h⟩, he.values.owned ho⟩ fun halong => hgood fun h' node' henter' => ?_)
      cases henter.unique henter'
      exact halong
  · rintro st e ⟨hc, hb⟩
    cases e with
    | ends el =>
      obtain ⟨st', hrun, hstore, hc'⟩ := endElement_returns hc el
      exact Or.inr ⟨st', Eventually.of_eq fun _ => hrun, hc', by rw [hstore]; exact hb⟩
    | start buffers el attr =>
      obtain ⟨h, node, henter, he⟩ := enter_returns hc el
      exact startElement_fails hc henter he ((attr_sorts st.confId he.lt buffers).run_stays
        ⟨⟨he.links, Extends.refl h⟩, he.values.borrows he.extend.size_le hb⟩)

/-! ### Files -/

/-- The caller's tree is one. -/
structure TreeWorld (w : World) : Prop where
  links : ∃ list, TreeLinks w.store list
  newroot : ∀ r ∈ w.newroot, r < w.store.size

theorem start_cursor {w : World} (hw : TreeWorld w) (confId : ℤ) :
    Cursor w.store.size (XmlState.start w confId) ∧
      (Owned w.store → Owned (XmlState.start w confId).store) ∧
      (Borrows w.store → Borrows (XmlState.start w confId).store) := by
  obtain ⟨list, hl⟩ := hw.links
  cases hroot : w.newroot with
  | some root =>
    have hlt : root < w.store.size := hw.newroot root hroot
    rw [XmlState.start, hroot]
    exact ⟨⟨⟨list, hl⟩, le_rfl, hlt, root, rfl, hlt, .refl⟩, id, id⟩
  | none =>
    have hvalues := newNode_sameValues w.store (str "root") none
    have hlt : w.store.size < (newNode w.store (str "root") none).size := Nat.lt_succ_self _
    rw [XmlState.start, hroot]
    exact ⟨⟨⟨_, newNode_links hl (str "root") none (by simp)⟩, hlt.le, hlt, w.store.size, rfl,
      hlt, .refl⟩, hvalues.owned, hvalues.borrows hlt.le⟩

/-- What a file leaves behind. -/
theorem TreeWorld.loaded {w : World} {st : XmlState} (hw : TreeWorld w) (hc : Cursor w.store.size st)
    (ok : Bool) : TreeWorld ⟨st.store, if ok then some st.root else w.newroot⟩ := by
  refine ⟨hc.links, fun r hr => ?_⟩
  cases ok with
  | true => cases hr; exact hc.root
  | false => exact (hw.newroot r hr).trans_le hc.size_le

/-- A file that fails leaves borrowed values behind, if anything. -/
theorem loadXml_fails {w : World} (hw : TreeWorld w) {load : Load}
    (hevents : Fails (fun n => run handle n (XmlState.start w load.confId) load.events)
      fun st => Cursor w.store.size st ∧ Borrows st.store) :
    Fails (fun n => loadXml n w load) fun w' => TreeWorld w' ∧ Borrows w'.store := by
  refine hevents.bind fun st hst => Or.inr ⟨_, Eventually.of_eq fun _ => rfl, ?_⟩
  exact ⟨hw.loaded hst.1 load.ok, hst.2⟩

/-- **The runs of `load_xml`.** -/
theorem loadXml_sorts : Sorts loadXml CleanLoad (fun w => TreeWorld w ∧ Owned w.store)
    (fun w => TreeWorld w ∧ Borrows w.store) := by
  refine ⟨?_, ?_, ?_⟩
  · rintro w load ⟨hw, ho⟩ hgood
    obtain ⟨hc, howned, -⟩ := start_cursor hw load.confId
    obtain ⟨st, hrun, hc', ho'⟩ := (handle_sorts w.store.size).run_kept ⟨hc, howned ho⟩ hgood
    exact ⟨_, hrun.bind (Eventually.of_eq fun _ => rfl), hw.loaded hc' load.ok, ho'⟩
  · rintro w load ⟨hw, ho⟩ hgood
    obtain ⟨hc, howned, -⟩ := start_cursor hw load.confId
    exact loadXml_fails hw ((handle_sorts w.store.size).run_lost ⟨hc, howned ho⟩ hgood)
  · rintro w load ⟨hw, hb⟩
    obtain ⟨hc, -, hborrows⟩ := start_cursor hw load.confId
    exact loadXml_fails hw ((handle_sorts w.store.size).run_stays ⟨hc, hborrows hb⟩)

/-- **The tree owns its values exactly if no attribute is given a value twice.** -/
theorem ownsValues_iff (loads : List Load) : OwnsValues loads ↔ Clean loads := by
  have hempty : TreeWorld World.empty := ⟨⟨_, empty_links⟩, by rintro r ⟨⟩⟩
  have howned : Owned World.empty.store := fun i hi => absurd hi (Nat.not_lt_zero i)
  constructor
  · rintro ⟨w, hrun, ho, -⟩
    by_contra hclean
    obtain ⟨-, hb⟩ := (loadXml_sorts.run_lost ⟨hempty, howned⟩ hclean).not_returns hrun
    exact ho.not_borrows hb
  · intro hclean
    obtain ⟨w, hrun, -, ho⟩ := loadXml_sorts.run_kept ⟨hempty, howned⟩ hclean
    exact ⟨w, hrun, ho, ho.steady⟩

/-- `<root><net value="1"/><net value="2"/></root>`, loaded under the number 2. -/
def twoElements : Load where
  confId := 2
  events :=
    let buffers := fun p => if p = 0 then str "1" else str "2"
    [.start buffers (str "root") [], .start buffers (str "net") [(str "value", 0)], .ends (str "net"),
      .start buffers (str "net") [(str "value", 1)], .ends (str "net"), .ends (str "root")]
  ok := true

/-- The second value is the parser's own string. -/
theorem not_ownsValues_twoElements : ¬ OwnsValues [twoElements] := by
  rintro ⟨w, ⟨N, hN⟩, ho, -⟩
  have hrun : run loadXml (N + 10) World.empty [twoElements] = .ret w := hN _ (by omega)
  have hvalue : (match run loadXml (N + 10) World.empty [twoElements] with
      | .ret w => (w.store.size, (w.store.cell 3).data.value)
      | _ => (0, none)) = (4, some (.borrowed 1)) := rfl
  rw [hrun] at hvalue
  obtain ⟨hsize, hcell⟩ := Prod.mk.inj hvalue
  exact ho.not_borrows ⟨3, by rw [hsize]; decide, 1, hcell⟩

end ZRouter.Conf.Raw
