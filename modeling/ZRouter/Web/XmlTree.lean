import ZRouter.Web.ConfPath
import ZRouter.Web.XmlTag

/-!
# What a configuration says

Two trees say the same if every path leads to elements with the same attributes, texts and elements in
both, or to none.  Comments do not count, nor does the order in a table of attributes.

* `Content`, `contents`: the nodes without the comments, each table of attributes as a function;
* `SameConfig`, `sameConfig_of_contents`: trees with the same contents are the same at every path;
* `Node.Every`: what holds of a node and of all nodes below it;
* `pending`: the texts that the next tag would end;
* `Readable`: the nodes that can be read back.
-/

namespace ZRouter.Web

open Pattern

/-! ### Contents -/

/-- What a node says. -/
inductive Content
  | element (name : Bytes) (attr : Bytes → Option Bytes) (children : List Content)
  | text (s : Bytes)

mutual

/-- What is left of a node without comments, processing instructions and declarations. -/
def Node.contents : Node → List Content
  | .element name attr children => [.element name ((attr.getD []).lookup ·) (contents children)]
  | .text s => [.text s]
  | .comment _ => []
  | .other _ _ => []

/-- What is left of a list of nodes. -/
def contents : List Node → List Content
  | [] => []
  | c :: cs => c.contents ++ contents cs

end

/-- The attributes and the contents of an element. -/
def Elem.content (e : Elem) : (Bytes → Option Bytes) × List Content :=
  (((e.attr.getD []).lookup ·), contents e.children)

/-- The element number `k` of that name. -/
def findContent (name : Bytes) : ℕ → List Content → Option ((Bytes → Option Bytes) × List Content)
  | _, [] => none
  | k, .element n attr children :: rest =>
      if n = name then if k = 1 then some (attr, children) else findContent name (k - 1) rest
      else findContent name k rest
  | k, .text _ :: rest => findContent name k rest

/-- At every path the two trees have the same elements, texts and attributes. -/
def SameConfig (t t' : Elem) : Prop :=
  ∀ path, (getNode t' path).map Elem.content = (getNode t path).map Elem.content

theorem contents_append (cs cs' : List Node) :
    contents (cs ++ cs') = contents cs ++ contents cs' := by
  induction cs with
  | nil => rfl
  | cons c cs ih =>
    rw [List.cons_append, contents, contents, ih, List.append_assoc]

/-- A child is found among the contents. -/
theorem content_child (name : Bytes) (attr : Option Attrs) (cs : List Node) : ∀ k,
    ((findChild name k cs).bind (Elem.child ⟨attr, cs⟩)).map Elem.content =
      findContent name k (contents cs) := by
  induction cs with
  | nil => exact fun k => rfl
  | cons c cs ih =>
    have hskip : ∀ k, (((findChild name k cs).map (· + 1)).bind (Elem.child ⟨attr, c :: cs⟩)).map
        Elem.content = findContent name k (contents cs) := by
      intro k
      rw [← ih k, Option.bind_map]
      rfl
    intro k
    rw [findChild_cons, contents]
    cases c with
    | element n a children =>
      change _ = findContent name k (.element n _ _ :: contents cs)
      rw [findContent]
      by_cases hn : n = name
      · rw [if_pos hn, if_pos (by simpa [Node.named] using hn)]
        split_ifs
        · rfl
        · exact hskip (k - 1)
      · rw [if_neg hn, if_neg (by simpa [Node.named] using hn)]
        exact hskip k
    | text s => exact hskip k
    | comment s => exact hskip k
    | other n a => exact hskip k

/-- One name of a path. -/
theorem locate_at {e : Elem} {n : ℕ} {path name rpath : Bytes} {id : Option ℕ} (hpath : path ≠ [])
    (hsplit : splitName path = some (name, id, rpath)) :
    (locate (n + 1) e path).bind e.at =
      ((findChild name (id.getD 1) e.children).bind e.child).bind fun c =>
        if rpath = [] then some c else (locate n c rpath).bind c.at := by
  rw [locate, if_neg hpath, hsplit]
  dsimp only
  cases hfind : findChild name (id.getD 1) e.children with
  | none => rfl
  | some i =>
    obtain ⟨attr, cs, hi⟩ := findChild_eq_some hfind
    have hchild := child_of_getElem? hi
    have hat : (e.at ∘ fun pos => i :: pos) = Elem.at ⟨attr, cs⟩ := by
      funext pos
      rw [Function.comp_apply, Elem.at, hchild, Option.bind_some]
    dsimp only
    rw [Option.bind_some, hchild, Option.bind_some, Option.bind_some]
    split_ifs
    · rw [Option.bind_some, Elem.at, hchild]
      rfl
    · rw [Option.bind_map, hat]

/-- Where a path leads depends on the contents only. -/
theorem content_locate (n : ℕ) : ∀ {e e' : Elem} (path : Bytes), e'.content = e.content →
    ((locate n e' path).bind e'.at).map Elem.content =
      ((locate n e path).bind e.at).map Elem.content := by
  induction n with
  | zero => exact fun path _ => rfl
  | succ n ih =>
    intro e e' path hsame
    by_cases hpath : path = []
    · rw [locate, locate, if_pos hpath, if_pos hpath]
      exact congrArg some hsame
    cases hsplit : splitName path with
    | none => rw [locate, locate, if_neg hpath, if_neg hpath, hsplit]; rfl
    | some x =>
      obtain ⟨name, id, rpath⟩ := x
      rw [locate_at hpath hsplit, locate_at hpath hsplit]
      -- the same child is found
      have hcontents : contents e'.children = contents e.children := (Prod.ext_iff.1 hsame).2
      have hchild : ((findChild name (id.getD 1) e'.children).bind e'.child).map Elem.content =
          ((findChild name (id.getD 1) e.children).bind e.child).map Elem.content := by
        have h := content_child name e.attr e.children (id.getD 1)
        rw [← hcontents, ← content_child name e'.attr] at h
        exact h.symm
      cases hc : (findChild name (id.getD 1) e.children).bind e.child with
      | none =>
        rw [hc, Option.map_none, Option.map_eq_none_iff] at hchild
        rw [hchild]
      | some c =>
        rw [hc, Option.map_some, Option.map_eq_some_iff] at hchild
        obtain ⟨c', hc', hsame'⟩ := hchild
        rw [hc', Option.bind_some, Option.bind_some]
        split_ifs
        · exact congrArg some hsame'
        · exact ih rpath hsame'

/-- **Trees with the same contents are the same at every path.** -/
theorem sameConfig_of_contents {t t' : Elem} (h : t'.content = t.content) : SameConfig t t' :=
  fun path => content_locate (path.length + 1) path h

/-! ### Nodes that can be read back -/

/-- Something holds of a node and of all nodes below it. -/
inductive Node.Every (P : Node → Prop) : Node → Prop
  | element {name : Bytes} {attr : Option Attrs} {children : List Node}
      (h : P (.element name attr children)) (hchildren : ∀ c ∈ children, Every P c) :
      Every P (.element name attr children)
  | text {s : Bytes} (h : P (.text s)) : Every P (.text s)
  | comment {s : Bytes} (h : P (.comment s)) : Every P (.comment s)
  | other {name : Bytes} {attr : Option Attrs} (h : P (.other name attr)) : Every P (.other name attr)

/-- Whether a text waits for the next tag behind the nodes, if one does or does not before them; `none`
if two texts would become one. -/
def pending : Bool → List Node → Option Bool
  | waits, [] => some waits
  | waits, .text _ :: cs => if waits then none else pending true cs
  | waits, .other _ _ :: cs => pending waits cs
  | _, .comment _ :: cs => pending false cs
  | _, .element _ _ _ :: cs => pending false cs

/-- What is written for the node is read back, if it is for the nodes below it. -/
def Node.Readable (env : Interpreter) : Node → Prop
  | .element name attr children =>
      NameOk name ∧ (∀ l ∈ attr, ∀ a ∈ l, AttrOk env a) ∧ (pending false children).isSome
  | .text s => TextOk env s
  | .comment s => CommentOk s
  | .other _ _ => True

/-- No key stands in a table of attributes twice. -/
def Node.Tabled : Node → Prop
  | .element _ attr _ => ∀ l ∈ attr, (l.map Prod.fst).Nodup
  | _ => True

theorem pending_append (cs cs' : List Node) : ∀ waits,
    pending waits (cs ++ cs') = (pending waits cs).bind (pending · cs') := by
  induction cs with
  | nil => exact fun waits => rfl
  | cons c cs ih =>
    intro waits
    cases c with
    | text s =>
      rw [List.cons_append, pending, pending, ih]
      cases waits <;> rfl
    | other n a => exact ih waits
    | comment s => exact ih false
    | element n a children => exact ih false

/-- An element among the nodes may be replaced by another one. -/
theorem pending_set {n : Bytes} {attr : Option Attrs} {children : List Node} (n' : Bytes)
    (attr' : Option Attrs) (children' : List Node) : ∀ {cs : List Node} {i : ℕ} (waits : Bool),
    cs[i]? = some (.element n attr children) →
      pending waits (cs.set i (.element n' attr' children')) = pending waits cs := by
  intro cs
  induction cs with
  | nil => exact fun waits _ => rfl
  | cons c cs ih =>
    intro i waits h
    cases i with
    | zero =>
      cases h
      rfl
    | succ i =>
      rw [List.set_cons_succ]
      cases c with
      | text s => rw [pending, pending, ih true h]
      | other n a => exact ih waits h
      | comment s => exact ih false h
      | element n a children => exact ih false h

end ZRouter.Web
