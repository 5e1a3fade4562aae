import ZRouter.Lib.Lua
import ZRouter.Web.ConfPath
import ZRouter.Web.Event

/-!
# Changing the configuration from a form (`cmd.xml`, `conf.lua`)

A form posts `sm:<sub>` for the value of an element and `smattr:<sub>:<attr>` for an attribute; the
path of the element starts with the field `path`.  Elements that are missing are made.  The order of
the entries is the one in which `pairs` gives them.

* `createPart`, `getOrCreateNode`;
* `setEntry`: one pass of the loop, with the tree that it leaves even if it raises an error;
* `setMany`: the branch `setmany` of `process`.
-/

namespace ZRouter.Web

open Pattern

/-! ### Making the elements of a path -/

/-- `createNode(part, "ELEMENT")`. -/
def createNode (part : Bytes) : Node := .element part (some []) []

/-- `attachNode`. -/
def attachNode (node : Node) (parent : Elem) : Elem :=
  { parent with children := parent.children ++ [node] }

/-- The elements of that name among the children. -/
def matched (name : Bytes) (e : Elem) : ℕ := e.children.countP (Node.named name)

/-- One name of the path, in the loop of `getOrCreateNode`.  A name without an index enters its first
element.  With an index the loop compares `id == matched`, a string with a number, so that it enters
none; and an element is made only if there are fewer than the index says. -/
def createPart (st : Elem × List ℕ) (part : Bytes) : Elem × List ℕ :=
  match st.1.at st.2 with
  | none => st
  | some node =>
      match (splitIndex part).2, findChild (splitIndex part).1 1 node.children with
      | none, some i => (st.1, st.2 ++ [i])
      | id, _ =>
          if matched (splitIndex part).1 node = 0 ∨
              ∃ k ∈ id, matched (splitIndex part).1 node < k then
            (st.1.modify st.2 (attachNode (createNode (splitIndex part).1)),
              st.2 ++ [node.children.length])
          else st

/-- The names of a path: `string.gmatch(path, "([^\.]+)%.?")`. -/
def pathParts (path : Bytes) : List Bytes :=
  (gmatch [.opens, .plus (· ≠ 46), .closes, .opt (· = 46)] path).filterMap List.head?

/-- `Conf:getOrCreateNode`: the tree, and where the element stands in it. -/
def getOrCreateNode (root : Elem) (path : Bytes) : Elem × List ℕ :=
  match locate (path.length + 1) root path with
  | some pos => (root, pos)
  | none => (pathParts path).foldl createPart (root, [])

/-! ### The loop over the entries -/

/-- The pattern `^smattr:(.-):(.*)`. -/
def attrKeyItems : List (Item UInt8) :=
  lit (str "smattr:") ++ [.opens, .lazy anyByte, .closes, .one (· = 58), .opens, .star anyByte,
    .closes]

/-- The pattern `^sm:(.*)`. -/
def valueKeyItems : List (Item UInt8) := lit (str "sm:") ++ [.opens, .star anyByte, .closes]

/-- `subpath`, after `path` was put before it. -/
def fullPath (path subpath : Bytes) : Bytes := if subpath = [] then path else path ++ 46 :: subpath

/-- One entry of the form.  The new value is printed, which raises an error if there is none. -/
def setEntry (path : Bytes) (tree : Elem) (k v : Bytes) : Elem × Lua Unit :=
  match exec attrKeyItems k with
  | some ([subpath, attrname], _) =>
      let n := getOrCreateNode tree (fullPath path subpath)
      let tree := n.1.modify n.2 (·.setAttr attrname v)
      (tree, do
        let node ← Lua.get .index (getNode tree (fullPath path subpath))
        let _ ← Lua.get .concat (node.getAttr attrname)
        return ())
  | _ =>
      match exec valueKeyItems k with
      | some ([subpath], _) =>
          let n := getOrCreateNode tree (fullPath path subpath)
          let tree := n.1.modify n.2 (·.setValue v)
          (tree, do
            let _ ← Lua.get .concat ((tree.at n.2).bind Elem.value)
            return ())
      | _ => (tree, .ok ())

/-- The loop over the form. -/
def setEntries (path : Bytes) : Elem → List (Bytes × Bytes) → Elem × Lua Bytes
  | tree, [] => (tree, .ok (str "OK"))
  | tree, (k, v) :: post =>
      match setEntry path tree k v with
      | (tree, .ok ()) => setEntries path tree post
      | (tree, .error e) => (tree, .error e)

/-- The branch `setmany`; `post` is the form in the order of `pairs`. -/
def setMany (tree : Elem) (post : List (Bytes × Bytes)) : Elem × Lua Bytes :=
  match post.lookup (str "path") with
  | none => (tree, .ok (str "path missing"))
  | some path => setEntries path tree post

/-! ### The parts of a path -/

/-- The names that `getOrCreateNode` goes through are the names of the path. -/
theorem pathParts_render (ps : List Part) : pathParts (renderPath ps) = ps.map Part.text := by
  have hnext : ∀ (p : Part) (tail : Bytes), exec
      [.opens, .plus (· ≠ 46), .closes, .opt (· = 46)] (p.text ++ 46 :: tail) =
        some ([p.text], tail) ∧
      exec [.opens, .plus (· ≠ 46), .closes, .opt (· = 46)] p.text = some ([p.text], []) := by
    intro p tail
    have hchars : ∀ x ∈ p.text, (decide (x ≠ 46)) = true := by
      intro x hx
      have hx := p.text_chars x hx
      have hne : x ≠ 46 := by
        rintro rfl
        exact absurd hx (by decide)
      simpa using hne
    constructor
    · refine run_plus_before p.text_ne hchars (by simp) ?_
      simp [Pattern.run]
    · have h := @run_plus_before _ (fun x => decide (x ≠ 46)) p.text [] p.text_ne hchars (by simp)
        [.opt (· = 46)] p.text [] ([p.text], []) rfl
      rwa [List.append_nil] at h
  have hfrom : ∀ (ps : List Part) (n : ℕ), ps.length < n →
      gmatchFrom [.opens, .plus (· ≠ 46), .closes, .opt (· = 46)] n (renderPath ps) =
        ps.map fun p => [p.text] := by
    intro ps
    induction ps with
    | nil =>
      intro n hn
      obtain ⟨n, rfl⟩ := Nat.exists_eq_succ_of_ne_zero (by omega : n ≠ 0)
      rfl
    | cons p ps ih =>
      intro n hn
      obtain ⟨n, rfl⟩ := Nat.exists_eq_succ_of_ne_zero (by omega : n ≠ 0)
      have hpos := List.length_pos_of_ne_nil p.text_ne
      by_cases h : ps = []
      · subst h
        rw [renderPath, gmatchFrom, (hnext p []).2]
        dsimp only
        rw [if_pos (by simpa using hpos)]
        cases n <;> rfl
      · rw [renderPath_cons p h, gmatchFrom, (hnext p _).1]
        dsimp only
        rw [if_pos (by simp; omega), ih n (by simpa using hn)]
        rfl
  rw [pathParts, gmatch, hfrom ps _ (Nat.lt_succ_of_le (length_le_renderPath ps))]
  simp [List.filterMap_map, Function.comp_def]

end ZRouter.Web
