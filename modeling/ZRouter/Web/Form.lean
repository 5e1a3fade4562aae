import ZRouter.Web.SetMany

/-!
# What a form does to the configuration (`setmany`)

A form does what it says as long as it makes elements with an index only where they are the next of
their name: `getOrCreateNode` does not enter an element with an index.

* `Field`, `FormKept`: the entries of a form, and what should hold after it;
* `Preserves`, `creatable`, `getOrCreateNode_spec`: making the elements of a path;
* `Entered`, `setEntry_spec`: one entry;
* `form_kept`: every form in which each entry is `Ready` when its turn comes.
-/

namespace ZRouter.Web

open Pattern

/-! ### Forms -/

/-- An entry of a form: the value of an element, or one of its attributes. -/
inductive Field
  | value (sub : List Part)
  | attr (sub : List Part) (attrname : Bytes)

/-- Its path after the field `path`. -/
def Field.sub : Field → List Part
  | .value sub => sub
  | .attr sub _ => sub

/-- Its key. -/
def Field.key : Field → Bytes
  | .value sub => str "sm:" ++ renderPath sub
  | .attr sub attrname => str "smattr:" ++ (renderPath sub ++ 58 :: attrname)

/-- A key that the loop skips. -/
def Ignored (k : Bytes) : Prop := exec attrKeyItems k = none ∧ exec valueKeyItems k = none

/-- The names and numbers of the element that an entry is about. -/
def Field.target (base : List Part) (f : Field) : Steps := stepsOf (base ++ f.sub)

/-- Two entries are about the same value or the same attribute. -/
def Field.SamePlace (base : List Part) (f f' : Field) : Prop :=
  f.target base = f'.target base ∧
    match f, f' with
    | .value _, .value _ => True
    | .attr _ a, .attr _ a' => a = a'
    | _, _ => False

/-- What `getNode` gives for the path of an entry has the value. -/
def Field.Holds (tree : Elem) (base : List Part) (f : Field) (v : Bytes) : Prop :=
  ∃ e, getNode tree (fullPath (renderPath base) (renderPath f.sub)) = some e ∧
    match f with
    | .value _ => e.value = some v
    | .attr _ attrname => e.getAttr attrname = some v

/-- No entry is about the value at the path `q`. -/
def ValueFree (base : List Part) (post : List (Bytes × Bytes)) (q : Steps) : Prop :=
  ∀ sub v, ((Field.value sub).key, v) ∈ post → (Field.value sub).target base ≠ q

/-- No entry is about the attribute `a` at the path `q`. -/
def AttrFree (base : List Part) (post : List (Bytes × Bytes)) (q : Steps) (a : Bytes) : Prop :=
  ∀ sub v, ((Field.attr sub a).key, v) ∈ post → (Field.attr sub a).target base ≠ q

/-- What the form says holds, and every other value and attribute at a path that led to an element is
the same. -/
def FormKept (tree tree' : Elem) (base : List Part) (post : List (Bytes × Bytes)) : Prop :=
  (∀ f v, (Field.key f, v) ∈ post → f.Holds tree' base v) ∧
    ∀ q e, getNode tree (renderPath q) = some e →
      ∃ e', getNode tree' (renderPath q) = some e' ∧
        (ValueFree base post (stepsOf q) → e'.value = e.value) ∧
        ∀ a, AttrFree base post (stepsOf q) a → e'.getAttr a = e.getAttr a

/-- The form does not ask for two different values at one place. -/
def Consistent (base : List Part) (post : List (Bytes × Bytes)) : Prop :=
  ∀ f v f' v', (Field.key f, v) ∈ post → (Field.key f', v') ∈ post → f.SamePlace base f' → v = v'

/-- The elements of a path can be made: a name with an index is the next one of its name. -/
def creatable : Elem → List Part → Bool
  | _, [] => true
  | e, p :: ps =>
      match p.index with
      | none =>
          match (findChild p.name 1 e.children).bind e.child with
          | some c => creatable c ps
          | none => creatable ⟨some [], []⟩ ps
      | some id => matched p.name e + 1 = digitsVal id && creatable ⟨some [], []⟩ ps

/-- The path leads to an element, or its elements can be made. -/
def Ready (tree : Elem) (ps : List Part) : Prop :=
  (∃ e, getNode tree (renderPath ps) = some e) ∨ creatable tree ps = true

/-- Every entry is ready when its turn comes. -/
def Steady (base : List Part) : Elem → List (Bytes × Bytes) → Prop
  | _, [] => True
  | tree, (k, v) :: post =>
      (∀ f, Field.key f = k → Ready tree (base ++ f.sub)) ∧
        Steady base (setEntry (renderPath base) tree k v).1 post

/-! ### Keys -/

theorem exec_rest {w : Bytes} (s : Bytes) (items : List (Item UInt8)) :
    exec (lit w ++ items) (w ++ s) = Pattern.run items (w ++ s) [] s := by
  rw [exec, run_lit, if_pos (List.prefix_append w s), List.drop_left]

/-- A capture of everything that is left. -/
theorem run_rest (start : Bytes) (caps : List Bytes) (s : Bytes) :
    Pattern.run [.opens, .star anyByte, .closes] start caps s = some (caps ++ [s], []) := by
  have h := @run_star_before _ anyByte s [] (fun _ _ => rfl) (by simp) [] start caps
    (caps ++ [s], []) rfl
  rwa [List.append_nil] at h

theorem exec_value_key (sub : List Part) :
    exec valueKeyItems (Field.value sub).key = some ([renderPath sub], []) := by
  rw [valueKeyItems, Field.key, exec_rest, run_rest]
  rfl

theorem exec_attr_key (sub : List Part) (a : Bytes) :
    exec attrKeyItems (Field.attr sub a).key = some ([renderPath sub, a], []) := by
  rw [attrKeyItems, Field.key, exec_rest]
  change minExpand anyByte (Pattern.run (.closes :: .one (· = 58) :: _)
    (renderPath sub ++ 58 :: a) []) (renderPath sub ++ 58 :: a) = _
  refine minExpand_append (fun _ _ => rfl) ?_ ?_
  · rw [run_closes]
    change Pattern.run [.opens, .star anyByte, .closes] (renderPath sub ++ 58 :: a)
      ([] ++ [renderPath sub]) a = _
    rw [run_rest]
    rfl
  · intro u v huv hv
    obtain ⟨x, v, rfl⟩ := List.exists_cons_of_ne_nil hv
    have hx : x ≠ 58 := by
      rintro rfl
      have h := renderPath_chars sub 58 (by rw [huv]; simp)
      revert h
      decide
    simp [Pattern.run, hx]

theorem exec_attr_value_key (sub : List Part) : exec attrKeyItems (Field.value sub).key = none := by
  have hsm : str "sm:" = [115, 109, 58] := by decide +kernel
  have hsmattr : str "smattr:" = [115, 109, 97, 116, 116, 114, 58] := by decide +kernel
  rw [exec, attrKeyItems, run_lit, if_neg]
  rw [Field.key, hsm, hsmattr]
  simp [List.cons_prefix_cons]

/-- A name with its index can be read back. -/
theorem text_injective : Function.Injective Part.text := by
  have hplain : ∀ p : Part, ∀ c ∈ p.name, decide (c ≠ 91) = true := by
    intro p c hc
    have hname := p.name_chars c hc
    have hne : c ≠ 91 := by
      rintro rfl
      exact absurd hname (by decide)
    simpa using hne
  have hsplit : ∀ p : Part, p.text.takeWhile (· ≠ 91) = p.name ∧ p.text.dropWhile (· ≠ 91) =
      match p.index with
      | none => []
      | some id => 91 :: (id ++ [93]) := by
    intro p
    rw [Part.text]
    cases p.index with
    | none => exact ⟨List.takeWhile_eq_self_iff.2 (hplain p), List.dropWhile_eq_nil_iff.2 (hplain p)⟩
    | some id =>
      rw [List.takeWhile_append_of_pos (hplain p), List.dropWhile_append_of_pos (hplain p)]
      simp
  intro p q h
  obtain ⟨hname, hrest⟩ := hsplit p
  rw [h, (hsplit q).1] at hname
  rw [h, (hsplit q).2] at hrest
  have hindex : p.index = q.index := by
    cases hp : p.index with
    | none =>
      cases hq : q.index with
      | none => rfl
      | some id =>
        rw [hp, hq] at hrest
        cases hrest
    | some id =>
      cases hq : q.index with
      | none =>
        rw [hp, hq] at hrest
        cases hrest
      | some id' =>
        rw [hp, hq] at hrest
        rw [List.append_cancel_right (List.cons.inj hrest).2]
  obtain ⟨name, index, _, _, _⟩ := p
  obtain ⟨name', index', _, _, _⟩ := q
  dsimp only at hname hindex
  subst hname hindex
  rfl

theorem renderPath_injective : Function.Injective renderPath := by
  intro ps qs h
  have hparts := pathParts_render ps
  rw [h, pathParts_render] at hparts
  exact (List.map_injective_iff.2 text_injective hparts).symm

/-- A key belongs to one entry only. -/
theorem key_injective : Function.Injective Field.key := by
  intro f f' h
  cases f with
  | value sub =>
    cases f' with
    | value sub' =>
      have h' := exec_value_key sub
      rw [h, exec_value_key] at h'
      simp only [Option.some.injEq, Prod.mk.injEq, List.cons.injEq, and_true] at h'
      rw [renderPath_injective h']
    | attr sub' a' =>
      have h' := exec_attr_value_key sub
      rw [h, exec_attr_key] at h'
      cases h'
  | attr sub a =>
    cases f' with
    | value sub' =>
      have h' := exec_attr_value_key sub'
      rw [← h, exec_attr_key] at h'
      cases h'
    | attr sub' a' =>
      have h' := exec_attr_key sub a
      rw [h, exec_attr_key] at h'
      simp only [Option.some.injEq, Prod.mk.injEq, List.cons.injEq, and_true] at h'
      rw [renderPath_injective h'.1, h'.2]

/-- An ignored key belongs to none. -/
theorem not_ignored (f : Field) : ¬ Ignored f.key := by
  rintro ⟨hattr, hvalue⟩
  cases f with
  | value sub =>
    rw [exec_value_key] at hvalue
    cases hvalue
  | attr sub a =>
    rw [exec_attr_key] at hattr
    cases hattr

/-- The path of an entry. -/
theorem fullPath_render {base : List Part} (hb : base ≠ []) (sub : List Part) :
    fullPath (renderPath base) (renderPath sub) = renderPath (base ++ sub) := by
  rw [fullPath]
  by_cases h : sub = []
  · subst h
    rw [if_pos (by rfl), List.append_nil]
  · rw [if_neg fun hn => h (renderPath_eq_nil.1 hn), renderPath_append hb h]

/-! ### Making elements -/

/-- Every path leads where it led, to an element with the same data. -/
def Preserves (t t' : Elem) : Prop :=
  ∀ q r c, follow t q = some r → t.at r = some c →
    follow t' q = some r ∧ ∃ c', t'.at r = some c' ∧ SameData c c'

theorem Preserves.refl (t : Elem) : Preserves t t := fun _ _ c hr hc => ⟨hr, c, hc, rfl, rfl⟩

theorem Preserves.trans {t t' t'' : Elem} (h : Preserves t t') (h' : Preserves t' t'') :
    Preserves t t'' := by
  intro q r c hr hc
  obtain ⟨hr', c', hc', hv, ha⟩ := h q r c hr hc
  obtain ⟨hr'', c'', hc'', hv', ha'⟩ := h' q r c' hr' hc'
  exact ⟨hr'', c'', hc'', hv'.trans hv, ha'.trans ha⟩

theorem findChild_append {name : Bytes} {k i : ℕ} {cs : List Node}
    (h : findChild name k cs = some i) (new : List Node) : findChild name k (cs ++ new) = some i := by
  induction cs generalizing k i with
  | nil => cases h
  | cons c cs ih =>
    have hskip : ∀ {k : ℕ}, (findChild name k cs).map (· + 1) = some i →
        (findChild name k (cs ++ new)).map (· + 1) = some i := by
      intro k h
      obtain ⟨j, hj, rfl⟩ := Option.map_eq_some_iff.1 h
      rw [ih hj]
      rfl
    rw [findChild_cons] at h
    rw [List.cons_append, findChild_cons]
    split_ifs at h ⊢ with hc hk
    · exact h
    · exact hskip h
    · exact hskip h

/-- There is no first one if there is none. -/
theorem findChild_one_eq_none {name : Bytes} {cs : List Node} :
    findChild name 1 cs = none ↔ cs.countP (Node.named name) = 0 := by
  induction cs with
  | nil => simp [findChild]
  | cons c cs ih =>
    rw [findChild_cons, List.countP_cons]
    by_cases hc : c.named name = true
    · simp [hc]
    · simp [hc, ih]

/-- What is appended is the next one of its name. -/
theorem findChild_new (name : Bytes) (attr : Option Attrs) (children cs : List Node) :
    findChild name (cs.countP (Node.named name) + 1) (cs ++ [.element name attr children]) =
      some cs.length := by
  induction cs with
  | nil => simp [findChild_cons, Node.named]
  | cons c cs ih =>
    rw [List.cons_append, findChild_cons, List.countP_cons]
    by_cases hc : c.named name = true
    · simp [hc, ih]
    · simp [hc, ih]

/-- New children behind the others. -/
theorem grows_append (e : Elem) (new : List Node) : Grows e ⟨e.attr, e.children ++ new⟩ := by
  intro name k i h
  refine ⟨findChild_append h new, ?_⟩
  obtain ⟨attr, children, hi⟩ := findChild_eq_some h
  have hlt : i < e.children.length := (List.getElem?_eq_some_iff.1 hi).1
  rw [Elem.child, Elem.child, List.getElem?_append_left hlt]

theorem sameData_attachNode (e : Elem) (name : Bytes) (attr : Option Attrs) (children : List Node) :
    SameData e (attachNode (.element name attr children) e) := by
  refine ⟨?_, rfl⟩
  rw [Elem.value, Elem.value, attachNode]
  cases hcs : e.children with
  | nil => rfl
  | cons c cs => cases c <;> rfl

theorem at_concat (pos : List ℕ) (i : ℕ) : ∀ t : Elem,
    t.at (pos ++ [i]) = (t.at pos).bind (·.child i) := by
  induction pos with
  | nil =>
    intro t
    change ((t.child i).bind fun e => some e) = t.child i
    cases t.child i <;> rfl
  | cons j pos ih =>
    intro t
    rw [List.cons_append, Elem.at, Elem.at, Option.bind_assoc]
    congr 1
    funext e
    exact ih e

/-- One new element. -/
theorem attach_spec {t e : Elem} {pos : List ℕ} (he : t.at pos = some e) (name : Bytes) :
    Preserves t (t.modify pos (attachNode (createNode name))) ∧
      (t.modify pos (attachNode (createNode name))).at (pos ++ [e.children.length]) =
        some ⟨some [], []⟩ ∧
      ∀ q, follow t q = some pos → follow (t.modify pos (attachNode (createNode name)))
        (q ++ [(name, matched name e + 1)]) = some (pos ++ [e.children.length]) := by
  have hgrows : Grows e (attachNode (createNode name) e) := grows_append e _
  have hat := at_modify (f := attachNode (createNode name)) he
  have hchild : (attachNode (createNode name) e).child e.children.length = some ⟨some [], []⟩ := by
    rw [Elem.child, attachNode]
    simp [createNode]
  refine ⟨fun q r c hr hc => ?_, ?_, fun q hq => ?_⟩
  · obtain ⟨hr', c', hc', hsame, hother⟩ := follow_modify he hgrows hr hc
    refine ⟨hr', c', hc', ?_⟩
    by_cases hrpos : r = pos
    · rw [hsame hrpos]
      rw [hrpos, he, Option.some.injEq] at hc
      subst hc
      exact sameData_attachNode e name (some []) []
    · exact hother hrpos
  · rw [at_concat, hat, Option.bind_some, hchild]
  · rw [follow_concat, (follow_modify he hgrows hq he).1, Option.bind_some, hat, Option.bind_some,
      attachNode]
    dsimp only
    rw [matched, createNode, findChild_new]
    rfl

/-- The loop of `getOrCreateNode` makes the elements of a path that can be made. -/
theorem createParts_spec (ps : List Part) : ∀ {t e : Elem} {pos : List ℕ} {q : Steps},
    t.at pos = some e → follow t q = some pos → creatable e ps = true →
    ∃ t' pos', (ps.map Part.text).foldl createPart (t, pos) = (t', pos') ∧ Preserves t t' ∧
      follow t' (q ++ stepsOf ps) = some pos' := by
  induction ps with
  | nil =>
    intro t e pos q _ hq _
    exact ⟨t, pos, rfl, Preserves.refl t, by rw [stepsOf, List.map_nil, List.append_nil]; exact hq⟩
  | cons p ps ih =>
    intro t e pos q he hq hc
    have hsteps : q ++ stepsOf (p :: ps) = (q ++ [p.step]) ++ stepsOf ps := by
      rw [stepsOf, List.map_cons, List.append_assoc]
      rfl
    -- a new element, as the next one of its name
    have hmake : ∀ k, p.step = (p.name, k) → matched p.name e + 1 = k →
        creatable ⟨some [], []⟩ ps = true →
        createPart (t, pos) p.text = (t.modify pos (attachNode (createNode p.name)),
          pos ++ [e.children.length]) →
        ∃ t' pos', ((p :: ps).map Part.text).foldl createPart (t, pos) = (t', pos') ∧
          Preserves t t' ∧ follow t' (q ++ stepsOf (p :: ps)) = some pos' := by
      intro k hstep hk hcreatable hpart
      obtain ⟨hpres, hat, hres⟩ := attach_spec he p.name
      have hq' := hres q hq
      rw [hk, ← hstep] at hq'
      obtain ⟨t', pos', hfold, hpres', hres'⟩ := ih hat hq' hcreatable
      refine ⟨t', pos', ?_, hpres.trans hpres', by rw [hsteps]; exact hres'⟩
      rw [List.map_cons, List.foldl_cons, hpart, hfold]
    rw [creatable] at hc
    cases hid : p.index with
    | some id =>
      rw [hid] at hc
      obtain ⟨hk, hcreatable⟩ := (Bool.and_eq_true _ _).mp hc
      have hk := of_decide_eq_true hk
      refine hmake (digitsVal id) (by rw [Part.step, hid]; rfl) hk hcreatable ?_
      rw [createPart, he]
      dsimp only
      rw [splitIndex_text, hid]
      dsimp only [Option.map_some]
      rw [if_pos (Or.inr ⟨_, rfl, by omega⟩)]
    | none =>
      rw [hid] at hc
      dsimp only at hc
      have hstep : p.step = (p.name, 1) := by rw [Part.step, hid]; rfl
      cases hfind : findChild p.name 1 e.children with
      | some i =>
        obtain ⟨attr, children, hi⟩ := findChild_eq_some hfind
        have hchild := child_of_getElem? hi
        rw [hfind, Option.bind_some, hchild] at hc
        have hpart : createPart (t, pos) p.text = (t, pos ++ [i]) := by
          rw [createPart, he]
          dsimp only
          rw [splitIndex_text, hid]
          dsimp only [Option.map_none]
          rw [hfind]
        have hat : t.at (pos ++ [i]) = some ⟨attr, children⟩ := by
          rw [at_concat, he, Option.bind_some, hchild]
        have hq' : follow t (q ++ [p.step]) = some (pos ++ [i]) := by
          rw [follow_concat, hq, Option.bind_some, he, Option.bind_some, hstep, hfind]
          rfl
        obtain ⟨t', pos', hfold, hpres', hres'⟩ := ih hat hq' hc
        refine ⟨t', pos', ?_, hpres', by rw [hsteps]; exact hres'⟩
        rw [List.map_cons, List.foldl_cons, hpart, hfold]
      | none =>
        rw [hfind, Option.bind_none] at hc
        have hzero : matched p.name e = 0 := findChild_one_eq_none.1 hfind
        refine hmake 1 hstep (by rw [hzero]) hc ?_
        rw [createPart, he]
        dsimp only
        rw [splitIndex_text, hid]
        dsimp only [Option.map_none]
        rw [hfind]
        dsimp only
        rw [if_pos (Or.inl hzero)]

/-- **`getOrCreateNode` on a path that is ready**: every path leads where it led, and the path leads to
the element that is returned. -/
theorem getOrCreateNode_spec {t : Elem} {ps : List Part} (hr : Ready t ps) :
    ∃ t' pos, getOrCreateNode t (renderPath ps) = (t', pos) ∧ Preserves t t' ∧
      follow t' (stepsOf ps) = some pos := by
  have hlocate : locate ((renderPath ps).length + 1) t (renderPath ps) = follow t (stepsOf ps) :=
    locate_render ps (Nat.lt_succ_of_le (length_le_renderPath ps))
  rw [getOrCreateNode, hlocate]
  cases hres : follow t (stepsOf ps) with
  | some pos => exact ⟨t, pos, rfl, Preserves.refl t, hres⟩
  | none =>
    have hcreatable : creatable t ps = true := by
      refine hr.resolve_left ?_
      rintro ⟨e, he⟩
      rw [getNode_render, Elem.look, hres] at he
      cases he
    obtain ⟨t', pos, hfold, hpres, hres'⟩ := @createParts_spec ps t t [] [] rfl rfl hcreatable
    exact ⟨t', pos, by rw [pathParts_render]; exact hfold, hpres, hres'⟩

/-! ### One entry -/

theorem grows_setValue (e : Elem) (v : Bytes) : Grows e (e.setValue v) := by
  rw [Elem.setValue]
  split
  · rename_i s rest hcs
    intro name k i h
    rw [hcs, findChild_cons] at h
    obtain ⟨j, hj, rfl⟩ := Option.map_eq_some_iff.1 h
    refine ⟨by rw [findChild_cons, if_neg (by simp [Node.named]), hj]; rfl, ?_⟩
    rw [Elem.child, Elem.child, hcs]
    rfl
  · rename_i s rest hcs
    intro name k i h
    rw [hcs, findChild_cons] at h
    obtain ⟨j, hj, rfl⟩ := Option.map_eq_some_iff.1 h
    refine ⟨by rw [findChild_cons, if_neg (by simp [Node.named]), hj]; rfl, ?_⟩
    rw [Elem.child, Elem.child, hcs]
    rfl
  · exact grows_append e _

theorem setValue_attr (e : Elem) (v : Bytes) : (e.setValue v).attr = e.attr := by
  rw [Elem.setValue]
  split <;> rfl

/-- If there is a value after `Node:value(v)`, it is `v`. -/
theorem value_setValue {e : Elem} {v w : Bytes} (h : (e.setValue v).value = some w) : w = v := by
  rw [Elem.setValue] at h
  split at h
  · exact (Option.some.inj h).symm
  · exact (Option.some.inj h).symm
  · rename_i hfirst hcomment
    rw [Elem.value] at h
    cases hcs : e.children with
    | nil =>
      rw [hcs] at h
      exact (Option.some.inj h).symm
    | cons c cs =>
      cases c with
      | text t => exact absurd hcs (hfirst t cs)
      | comment t => exact absurd hcs (hcomment t cs)
      | element n attr children =>
        rw [hcs] at h
        cases h
      | other n attr =>
        rw [hcs] at h
        cases h

theorem lookup_replace_self (l : Attrs) (a v : Bytes) :
    (l.map fun p => if p.1 = a then (a, v) else p).lookup a = (l.lookup a).map fun _ => v := by
  induction l with
  | nil => rfl
  | cons p l ih =>
    rw [List.map_cons, List.lookup_cons, List.lookup_cons, ih]
    by_cases hp : p.1 = a
    · rw [if_pos hp, hp, beq_self_eq_true]
      rfl
    · have hap : (a == p.1) = false := by simpa using Ne.symm hp
      rw [if_neg hp, hap]

theorem lookup_replace_of_ne (l : Attrs) {a b : Bytes} (v : Bytes) (hb : b ≠ a) :
    (l.map fun p => if p.1 = a then (a, v) else p).lookup b = l.lookup b := by
  induction l with
  | nil => rfl
  | cons p l ih =>
    rw [List.map_cons, List.lookup_cons, List.lookup_cons, ih]
    by_cases hp : p.1 = a
    · rw [if_pos hp, hp]
      have hba : (b == a) = false := by simpa using hb
      rw [hba]
    · rw [if_neg hp]

/-- Assignment to a field. -/
theorem lookup_set (l : Attrs) (a v b : Bytes) :
    (l.set a v).lookup b = if b = a then some v else l.lookup b := by
  rw [Attrs.set]
  by_cases hb : b = a
  · subst hb
    rw [if_pos rfl]
    by_cases hl : l.lookup b = none
    · rw [if_pos hl, List.lookup_append, hl]
      simp
    · obtain ⟨w, hw⟩ := Option.ne_none_iff_exists'.1 hl
      rw [if_neg hl, lookup_replace_self, hw]
      rfl
  · rw [if_neg hb]
    by_cases hl : l.lookup a = none
    · have hba : (b == a) = false := by simpa using hb
      rw [if_pos hl, List.lookup_append, List.lookup_cons, hba]
      exact Option.or_none
    · rw [if_neg hl, lookup_replace_of_ne l v hb]

/-- What one entry does to the tree. -/
structure Entered (t t' : Elem) (base : List Part) (f : Field) (v : Bytes) : Prop where
  holds : f.Holds t' base v
  keeps : ∀ q e, t.look q = some e → ∃ e', t'.look q = some e' ∧
    (ValueFree base [(f.key, v)] q → e'.value = e.value) ∧
    ∀ a, AttrFree base [(f.key, v)] q a → e'.getAttr a = e.getAttr a

theorem look_eq_some {t e : Elem} {q : Steps} :
    t.look q = some e ↔ ∃ r, follow t q = some r ∧ t.at r = some e :=
  Option.bind_eq_some_iff

/-- Changing the element of a ready path. -/
theorem modify_spec {t : Elem} {ps : List Part} (hr : Ready t ps) (f : Elem → Elem)
    (hgrows : ∀ e, Grows e (f e)) :
    ∃ t' pos d, getOrCreateNode t (renderPath ps) = (t', pos) ∧ t'.at pos = some d ∧
      (t'.modify pos f).look (stepsOf ps) = some (f d) ∧
      ∀ q e, t.look q = some e → ∃ e', (t'.modify pos f).look q = some e' ∧
        (q ≠ stepsOf ps → SameData e e') ∧ (q = stepsOf ps → SameData e d ∧ e' = f d) := by
  obtain ⟨t', pos, hget, hpres, hres⟩ := getOrCreateNode_spec hr
  obtain ⟨d, hd⟩ := at_of_follow hres
  refine ⟨t', pos, d, hget, hd, ?_, fun q e he => ?_⟩
  · exact look_eq_some.2 ⟨pos, (follow_modify hd (hgrows d) hres hd).1, at_modify hd⟩
  · obtain ⟨r, hq, hre⟩ := look_eq_some.1 he
    obtain ⟨hq', c', hc', hsame⟩ := hpres q r e hq hre
    obtain ⟨hq'', c'', hc'', heq, hne⟩ := follow_modify hd (hgrows d) hq' hc'
    refine ⟨c'', look_eq_some.2 ⟨r, hq'', hc''⟩, fun hqne => ?_, fun hqeq => ?_⟩
    · have hrne : r ≠ pos := by
        rintro rfl
        exact hqne (follow_inj hq' hres)
      obtain ⟨hv, ha⟩ := hne hrne
      exact ⟨hv.trans hsame.1, ha.trans hsame.2⟩
    · subst hqeq
      rw [hres, Option.some.injEq] at hq'
      subst hq'
      rw [hd, Option.some.injEq] at hc'
      subst hc'
      exact ⟨hsame, heq rfl⟩

theorem getAttr_of_sameData {e e' : Elem} (h : SameData e e') (a : Bytes) :
    e'.getAttr a = e.getAttr a := by
  rw [Elem.getAttr, Elem.getAttr, h.2]

/-- An entry for a value. -/
theorem setEntry_value {base : List Part} (hb : base ≠ []) {t t' : Elem} {sub : List Part}
    {v : Bytes} (hr : Ready t (base ++ sub))
    (h : setEntry (renderPath base) t (Field.value sub).key v = (t', .ok ())) :
    Entered t t' base (.value sub) v := by
  obtain ⟨t₁, pos, d, hget, hd, hlook, hkeeps⟩ := modify_spec hr (·.setValue v) (grows_setValue · v)
  rw [setEntry, exec_attr_value_key, exec_value_key] at h
  dsimp only at h
  rw [fullPath_render hb, hget, Prod.mk.injEq] at h
  obtain ⟨rfl, hok⟩ := h
  rw [at_modify hd, Option.bind_some] at hok
  have hvalue : (d.setValue v).value = some v := by
    cases hval : (d.setValue v).value with
    | none =>
      rw [hval] at hok
      cases hok
    | some w => rw [value_setValue hval]
  constructor
  · rw [Field.Holds, Field.sub, fullPath_render hb, getNode_render]
    exact ⟨_, hlook, hvalue⟩
  · intro q e he
    obtain ⟨e', he', hne, heq⟩ := hkeeps q e he
    refine ⟨e', he', fun hfree => ?_, fun a _ => ?_⟩
    · exact (hne (hfree sub v (List.mem_singleton.2 rfl)).symm).1
    · by_cases hq : q = stepsOf (base ++ sub)
      · obtain ⟨hsame, rfl⟩ := heq hq
        rw [Elem.getAttr, setValue_attr]
        exact getAttr_of_sameData hsame a
      · exact getAttr_of_sameData (hne hq) a

/-- An entry for an attribute. -/
theorem setEntry_attr {base : List Part} (hb : base ≠ []) {t t' : Elem} {sub : List Part}
    {attrname v : Bytes} (hr : Ready t (base ++ sub))
    (h : setEntry (renderPath base) t (Field.attr sub attrname).key v = (t', .ok ())) :
    Entered t t' base (.attr sub attrname) v := by
  obtain ⟨t₁, pos, d, hget, hd, hlook, hkeeps⟩ := modify_spec hr (·.setAttr attrname v)
    fun e => Grows.refl e
  rw [setEntry, exec_attr_key] at h
  dsimp only at h
  rw [fullPath_render hb, hget, Prod.mk.injEq] at h
  obtain ⟨rfl, hok⟩ := h
  rw [getNode_render] at hok
  dsimp only at hok
  rw [hlook] at hok
  -- the element has a table of attributes
  obtain ⟨l, hl⟩ : ∃ l, d.attr = some l := by
    cases hattr : d.attr with
    | none =>
      have hnone : (d.setAttr attrname v).getAttr attrname = none := by
        rw [Elem.getAttr, Elem.setAttr, hattr]
        rfl
      simp only [Lua.get, bind, Except.bind, hnone] at hok
      cases hok
    | some l => exact ⟨l, rfl⟩
  have hget' : ∀ a, (d.setAttr attrname v).getAttr a =
      if a = attrname then some v else d.getAttr a := by
    intro a
    rw [Elem.getAttr, Elem.getAttr, Elem.setAttr, hl]
    simp only [Option.map_some, lookup_set]
    split_ifs <;> rfl
  constructor
  · rw [Field.Holds, Field.sub, fullPath_render hb, getNode_render]
    exact ⟨_, hlook, (hget' attrname).trans (if_pos rfl)⟩
  · intro q e he
    obtain ⟨e', he', hne, heq⟩ := hkeeps q e he
    refine ⟨e', he', fun _ => ?_, fun a hfree => ?_⟩
    · by_cases hq : q = stepsOf (base ++ sub)
      · obtain ⟨hsame, rfl⟩ := heq hq
        exact hsame.1
      · exact (hne hq).1
    · by_cases hq : q = stepsOf (base ++ sub)
      · obtain ⟨hsame, rfl⟩ := heq hq
        have ha : a ≠ attrname := by
          rintro rfl
          exact hfree sub v (List.mem_singleton.2 rfl) hq.symm
        rw [hget', if_neg ha]
        exact getAttr_of_sameData hsame a
      · exact getAttr_of_sameData (hne hq) a

/-- One entry of the loop that raises no error. -/
theorem setEntry_spec {base : List Part} (hb : base ≠ []) {t t' : Elem} {f : Field} {v : Bytes}
    (hr : Ready t (base ++ f.sub)) (h : setEntry (renderPath base) t f.key v = (t', .ok ())) :
    Entered t t' base f v := by
  cases f with
  | value sub => exact setEntry_value hb hr h
  | attr sub attrname => exact setEntry_attr hb hr h

theorem setEntry_ignored {k : Bytes} (hk : Ignored k) (path : Bytes) (t : Elem) (v : Bytes) :
    setEntry path t k v = (t, .ok ()) := by
  rw [setEntry, hk.1]
  dsimp only
  rw [hk.2]

/-! ### The form -/

/-- What an entry says stays true when nothing is written to its place. -/
theorem holds_mono {base : List Part} (hb : base ≠ []) {t t' : Elem} {f : Field} {v : Bytes}
    (hf : f.Holds t base v) (hkeeps : ∀ q e, t.look q = some e → ∃ e', t'.look q = some e' ∧
      (q = f.target base → (∀ sub, f = .value sub → e'.value = e.value) ∧
        ∀ sub a, f = .attr sub a → e'.getAttr a = e.getAttr a)) : f.Holds t' base v := by
  rw [Field.Holds, fullPath_render hb, getNode_render] at hf ⊢
  obtain ⟨e, he, hv⟩ := hf
  obtain ⟨e', he', hsame⟩ := hkeeps _ e he
  refine ⟨e', he', ?_⟩
  cases f with
  | value sub =>
    dsimp only at hv ⊢
    rw [(hsame rfl).1 sub rfl]
    exact hv
  | attr sub a =>
    dsimp only at hv ⊢
    rw [(hsame rfl).2 sub a rfl]
    exact hv

/-- The loop over the form. -/
theorem setEntries_kept {base : List Part} (hb : base ≠ []) (post : List (Bytes × Bytes)) :
    ∀ {t t' : Elem} {msg : Bytes}, setEntries (renderPath base) t post = (t', .ok msg) →
    (∀ e ∈ post, (∃ f, Field.key f = e.1) ∨ Ignored e.1) → Consistent base post →
    Steady base t post →
    (∀ f v, (Field.key f, v) ∈ post → f.Holds t' base v) ∧
      ∀ q e, t.look q = some e → ∃ e', t'.look q = some e' ∧
        (ValueFree base post q → e'.value = e.value) ∧
        ∀ a, AttrFree base post q a → e'.getAttr a = e.getAttr a := by
  induction post with
  | nil =>
    intro t t' msg h _ _ _
    rw [setEntries, Prod.mk.injEq] at h
    rw [← h.1]
    exact ⟨fun f v hf => absurd hf List.not_mem_nil, fun q e he => ⟨e, he, fun _ => rfl, fun _ _ => rfl⟩⟩
  | cons entry post ih =>
    intro t t' msg h hkeys hcons hsteady
    obtain ⟨k, v⟩ := entry
    obtain ⟨hready, hsteady⟩ := hsteady
    -- the first entry raised no error
    obtain ⟨t₁, hstep⟩ : ∃ t₁, setEntry (renderPath base) t k v = (t₁, .ok ()) := by
      rw [setEntries] at h
      split at h
      · exact ⟨_, by assumption⟩
      · cases h
    rw [setEntries, hstep] at h
    rw [hstep] at hsteady
    have hcons' : Consistent base post := fun f v f' v' hf hf' =>
      hcons f v f' v' (List.mem_cons_of_mem _ hf) (List.mem_cons_of_mem _ hf')
    obtain ⟨hholds, hkeeps⟩ := ih h (fun e he => hkeys e (List.mem_cons_of_mem _ he)) hcons' hsteady
    -- a place that the rest of the form does not name stays as it is
    have hlater : ∀ f, Field.key f = k → f.Holds t₁ base v → f.Holds t' base v := by
      intro f hk hf
      by_cases hnamed : ∃ f' w', (Field.key f', w') ∈ post ∧ f.SamePlace base f'
      · obtain ⟨f', w', hf', hsame⟩ := hnamed
        have hww : v = w' := hcons f v f' w'
          (by rw [hk]; exact List.mem_cons_self) (List.mem_cons_of_mem _ hf') hsame
        have hf'holds := hholds f' w' hf'
        rw [Field.Holds, fullPath_render hb, getNode_render] at hf'holds ⊢
        obtain ⟨e, he, hv⟩ := hf'holds
        refine ⟨e, ?_, ?_⟩
        · have htarget : stepsOf (base ++ f.sub) = stepsOf (base ++ f'.sub) := hsame.1
          rw [htarget]
          exact he
        · obtain ⟨-, hkind⟩ := hsame
          cases f with
          | value sub =>
            cases f' with
            | value sub' => rw [hww]; exact hv
            | attr sub' a' => exact absurd hkind id
          | attr sub a =>
            cases f' with
            | value sub' => exact absurd hkind id
            | attr sub' a' =>
              dsimp only at hkind hv ⊢
              rw [hww, hkind]
              exact hv
      · refine holds_mono hb hf fun q e he => ?_
        obtain ⟨e', he', hval, hattr⟩ := hkeeps q e he
        refine ⟨e', he', fun hq => ⟨fun sub hsub => ?_, fun sub a hsub => ?_⟩⟩
        · subst hsub
          refine hval fun sub' w' hmem htarget => hnamed ⟨_, w', hmem, ?_, trivial⟩
          exact (hq.symm.trans htarget.symm)
        · subst hsub
          refine hattr a fun sub' w' hmem htarget => hnamed ⟨_, w', hmem, ?_, rfl⟩
          exact (hq.symm.trans htarget.symm)
    rcases hkeys (k, v) List.mem_cons_self with ⟨f, hf⟩ | hignored
    · dsimp only at hf
      subst hf
      have hentered := setEntry_spec hb (hready f rfl) hstep
      constructor
      · intro f' w hf'
        rcases List.mem_cons.1 hf' with heq | hf'
        · rw [Prod.mk.injEq] at heq
          obtain ⟨hk, rfl⟩ := heq
          rw [key_injective hk]
          exact hlater f rfl hentered.holds
        · exact hholds f' w hf'
      · intro q e he
        obtain ⟨e₁, he₁, hval₁, hattr₁⟩ := hentered.keeps q e he
        obtain ⟨e', he', hval, hattr⟩ := hkeeps q e₁ he₁
        refine ⟨e', he', fun hfree => ?_, fun a hfree => ?_⟩
        · rw [hval fun sub w hmem => hfree sub w (List.mem_cons_of_mem _ hmem),
            hval₁ fun sub w hmem => hfree sub w
              (List.mem_cons.2 (Or.inl (List.mem_singleton.1 hmem)))]
        · rw [hattr a fun sub w hmem => hfree sub w (List.mem_cons_of_mem _ hmem),
            hattr₁ a fun sub w hmem => hfree sub w
              (List.mem_cons.2 (Or.inl (List.mem_singleton.1 hmem)))]
    · rw [setEntry_ignored hignored, Prod.mk.injEq] at hstep
      obtain ⟨rfl, -⟩ := hstep
      constructor
      · intro f w hf
        rcases List.mem_cons.1 hf with heq | hf
        · rw [Prod.mk.injEq] at heq
          exfalso
          obtain ⟨hattrNone, hvalueNone⟩ := hignored
          rw [← heq.1] at hattrNone hvalueNone
          cases f with
          | value sub =>
            rw [exec_value_key] at hvalueNone
            cases hvalueNone
          | attr sub a =>
            rw [exec_attr_key] at hattrNone
            cases hattrNone
        · exact hholds f w hf
      · intro q e he
        obtain ⟨e', he', hval, hattr⟩ := hkeeps q e he
        refine ⟨e', he', fun hfree => ?_, fun a hfree => ?_⟩
        · exact hval fun sub w hmem => hfree sub w (List.mem_cons_of_mem _ hmem)
        · exact hattr a fun sub w hmem => hfree sub w (List.mem_cons_of_mem _ hmem)

/-- **A form does what it says, in whatever order its entries come**, if it asks for one value at each
place, and if every entry is ready when its turn comes: its path leads to an element, or each of its
names with an index is the next one of its name. -/
theorem form_kept {tree tree' : Elem} {base : List Part} {post : List (Bytes × Bytes)}
    (hb : base ≠ []) (hpath : post.lookup (str "path") = some (renderPath base))
    (hkeys : ∀ e ∈ post, (∃ f, Field.key f = e.1) ∨ Ignored e.1) (hcons : Consistent base post)
    (hsteady : Steady base tree post) (h : setMany tree post = (tree', .ok (str "OK"))) :
    FormKept tree tree' base post := by
  rw [setMany, hpath] at h
  obtain ⟨hholds, hkeeps⟩ := setEntries_kept hb post h hkeys hcons hsteady
  refine ⟨hholds, fun q e he => ?_⟩
  rw [getNode_render] at he
  obtain ⟨e', he', hsame⟩ := hkeeps _ e he
  exact ⟨e', by rw [getNode_render]; exact he', hsame⟩

/-- A name without an index. -/
def plainPart (name : Bytes) (hne : name ≠ []) (hchars : ∀ c ∈ name, isName c = true) : Part :=
  ⟨name, none, hne, hchars, fun _ h => by cases h⟩

/-- The name `http`. -/
def httpPart : Part := plainPart (str "http") (by decide +kernel) (by decide +kernel)

/-- The name `name`. -/
def namePart : Part := plainPart (str "name") (by decide +kernel) (by decide +kernel)

/-- The name `user[1]`. -/
def firstUser : Part :=
  ⟨str "user", some (str "1"), by decide +kernel, by decide +kernel, by
    intro id h
    rw [← Option.some.inj h]
    decide +kernel⟩

/-- The form that names the first user. -/
def nameForm : List (Bytes × Bytes) :=
  [(str "cmd", str "setmany"), (str "path", str "http"), (str "sm:user[1].name", str "joe")]

theorem nameForm_key : (Field.value [firstUser, namePart]).key = str "sm:user[1].name" := by
  decide +kernel

/-- Its entries. -/
theorem nameForm_fields {f : Field} {v : Bytes} (h : (f.key, v) ∈ nameForm) :
    f = .value [firstUser, namePart] ∧ v = str "joe" := by
  have hcmd : Ignored (str "cmd") := ⟨by decide +kernel, by decide +kernel⟩
  have hpath : Ignored (str "path") := ⟨by decide +kernel, by decide +kernel⟩
  simp only [nameForm, List.mem_cons, Prod.mk.injEq, List.not_mem_nil, or_false] at h
  rcases h with ⟨h, -⟩ | ⟨h, -⟩ | ⟨h, hv⟩
  · exact absurd (h ▸ hcmd) (not_ignored f)
  · exact absurd (h ▸ hpath) (not_ignored f)
  · exact ⟨key_injective (h.trans nameForm_key.symm), hv⟩

theorem nameForm_keys : ∀ e ∈ nameForm, (∃ f, Field.key f = e.1) ∨ Ignored e.1 := by
  intro e he
  simp only [nameForm, List.mem_cons, List.not_mem_nil, or_false] at he
  rcases he with rfl | rfl | rfl
  · exact Or.inr ⟨by decide +kernel, by decide +kernel⟩
  · exact Or.inr ⟨by decide +kernel, by decide +kernel⟩
  · exact Or.inl ⟨_, nameForm_key⟩

theorem nameForm_consistent : Consistent [httpPart] nameForm := by
  intro f v f' v' h h' _
  rw [(nameForm_fields h).2, (nameForm_fields h').2]

/-- The form is steady where its one entry is ready. -/
theorem nameForm_steady {t : Elem} (hr : Ready t [httpPart, firstUser, namePart]) :
    Steady [httpPart] t nameForm := by
  have hcmd : Ignored (str "cmd") := ⟨by decide +kernel, by decide +kernel⟩
  have hpath : Ignored (str "path") := ⟨by decide +kernel, by decide +kernel⟩
  refine ⟨fun f hf => absurd (hf ▸ hcmd) (not_ignored f), ?_⟩
  rw [setEntry_ignored hcmd]
  refine ⟨fun f hf => absurd (hf ▸ hpath) (not_ignored f), ?_⟩
  rw [setEntry_ignored hpath]
  refine ⟨fun f hf => ?_, trivial⟩
  rw [key_injective (hf.trans nameForm_key.symm)]
  exact hr

/-- With no user in the tree, the form makes one. -/
theorem form_kept_newUser :
    FormKept (.root [.element (str "http") none []])
      (setMany (.root [.element (str "http") none []]) nameForm).1 [httpPart] nameForm := by
  have hready : Ready (.root [.element (str "http") none []]) [httpPart, firstUser, namePart] :=
    Or.inr (by decide +kernel)
  have hmsg : (setMany (.root [.element (str "http") none []]) nameForm).2 = .ok (str "OK") := by
    decide +kernel
  exact form_kept (by simp) (by decide +kernel) nameForm_keys nameForm_consistent
    (nameForm_steady hready) (Prod.ext rfl hmsg)

/-- With a user that has no name yet, the name goes to another place. -/
theorem name_misplaced :
    ¬ ∀ (tree tree' : Elem) (base : List Part) (post : List (Bytes × Bytes)), base ≠ [] →
      (post.map Prod.fst).Nodup → post.lookup (str "path") = some (renderPath base) →
      (∀ e ∈ post, (∃ f, Field.key f = e.1) ∨ Ignored e.1) → Consistent base post →
      setMany tree post = (tree', .ok (str "OK")) → FormKept tree tree' base post := by
  intro hall
  let tree : Elem := .root [.element (str "http") none [.element (str "user") none []]]
  have hmsg : (setMany tree nameForm).2 = .ok (str "OK") := by decide +kernel
  obtain ⟨hholds, -⟩ := hall tree (setMany tree nameForm).1 [httpPart] nameForm (by simp)
    (by decide +kernel) (by decide +kernel) nameForm_keys nameForm_consistent (Prod.ext rfl hmsg)
  obtain ⟨e, he, -⟩ := hholds (.value [firstUser, namePart]) (str "joe") (by
    rw [nameForm_key]
    simp [nameForm])
  have hnone : (getNode (setMany tree nameForm).1
      (fullPath (renderPath [httpPart]) (renderPath [firstUser, namePart]))).isNone = true := by
    decide +kernel
  change getNode _ (fullPath _ (renderPath [firstUser, namePart])) = some e at he
  rw [he] at hnone
  cases hnone

end ZRouter.Web
