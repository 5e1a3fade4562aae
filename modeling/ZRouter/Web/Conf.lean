import ZRouter.Lib.CString
import ZRouter.Lib.Pattern

/-!
# The configuration tree (`conf.lua`, `node.lua`)

The configuration is the tree that `domHandler` builds.  A path such as `http.users.user[2]` leads
from the root to an element; an index counts the elements of one name.

* `Node`, `Elem`: the nodes of the tree, and what `Node:attr` and `Node:value` see of one;
* `Elem.getAttr`, `Elem.setAttr`, `Elem.value`, `Elem.setValue`;
* `splitName`, `locate`, `getNode`: following a path.
-/

namespace ZRouter.Web

open Pattern

/-- A table of attributes; no key stands in it twice. -/
abbrev Attrs := List (Bytes × Bytes)

/-- The nodes of `domHandler`.  An element without attributes has no table for them; `other` stands for
processing instructions and declarations. -/
inductive Node
  | element (name : Bytes) (attr : Option Attrs) (children : List Node)
  | text (s : Bytes)
  | comment (s : Bytes)
  | other (name : Bytes) (attr : Option Attrs)

/-- The fields `_attr` and `_children` of an element, or of the root. -/
structure Elem where
  attr : Option Attrs
  children : List Node

/-- The root of a configuration. -/
def Elem.root (children : List Node) : Elem := ⟨none, children⟩

/-! ### `Node:attr` and `Node:value` -/

/-- Assignment to a field of a table. -/
def Attrs.set (l : Attrs) (k v : Bytes) : Attrs :=
  if l.lookup k = none then l ++ [(k, v)] else l.map fun p => if p.1 = k then (k, v) else p

/-- `Node:attr(attr)`: `none` is `nil`, and a missing attribute is read as the empty string. -/
def Elem.getAttr (e : Elem) (attr : Bytes) : Option Bytes :=
  e.attr.map fun l => (l.lookup attr).getD []

/-- `Node:attr(attr, value)`. -/
def Elem.setAttr (e : Elem) (attr value : Bytes) : Elem :=
  { e with attr := e.attr.map fun l => l.set attr value }

/-- `Node:value()`: the text of the first child, which may be a comment. -/
def Elem.value (e : Elem) : Option Bytes :=
  match e.children with
  | .text s :: _ => some s
  | .comment s :: _ => some s
  | _ => none

/-- `Node:value(value)`: if the first child has no text, a new one is appended. -/
def Elem.setValue (e : Elem) (value : Bytes) : Elem :=
  match e.children with
  | .text _ :: rest => { e with children := .text value :: rest }
  | .comment _ :: rest => { e with children := .comment value :: rest }
  | _ => { e with children := e.children ++ [.text value] }

/-! ### Paths -/

/-- The class `[%w%_%-]`. -/
def isName (c : UInt8) : Bool := isalnum c || c = 95 || c = 45

/-- The pattern `^([%w%_%-%[%]]+)(%.*)(%S*)$`. -/
def pathItems : List (Item UInt8) :=
  [.opens, .plus fun c => isName c || c = 91 || c = 93, .closes, .opens, .star (· = 46), .closes,
    .opens, .star (!isspace ·), .closes, .atEnd]

/-- The pattern `^([%w%_%-]+)%[(%d+)%]$`. -/
def indexItems : List (Item UInt8) :=
  [.opens, .plus isName, .closes, .one (· = 91), .opens, .plus isdigit, .closes, .one (· = 93),
    .atEnd]

/-- A name with its index, if it has one. -/
def splitIndex (name : Bytes) : Bytes × Option ℕ :=
  match exec indexItems name with
  | some ([idname, id], _) => (idname, some (digitsVal id))
  | _ => (name, none)

/-- The first name of a path, its index, and the path after it. -/
def splitName (lpath : Bytes) : Option (Bytes × Option ℕ × Bytes) :=
  match exec pathItems lpath with
  | some ([name, _, rpath], _) => some ((splitIndex name).1, (splitIndex name).2, rpath)
  | _ => none

/-- Where the element number `k` of that name stands among the children. -/
def findChild (name : Bytes) : ℕ → List Node → Option ℕ
  | _, [] => none
  | k, .element n _ _ :: rest =>
      if n = name then
        if k = 1 then some 0 else (findChild name (k - 1) rest).map (· + 1)
      else (findChild name k rest).map (· + 1)
  | k, _ :: rest => (findChild name k rest).map (· + 1)

/-- The child number `i`, if it is an element. -/
def Elem.child (e : Elem) (i : ℕ) : Option Elem :=
  match e.children[i]? with
  | some (.element _ attr children) => some ⟨attr, children⟩
  | _ => none

/-- The element at a position: the numbers of the children on the way to it. -/
def Elem.at (e : Elem) : List ℕ → Option Elem
  | [] => some e
  | i :: pos => (e.child i).bind fun e => e.at pos

/-- `getNodeL`, as a position. -/
def locate : ℕ → Elem → Bytes → Option (List ℕ)
  | 0, _, _ => none
  | n + 1, e, lpath =>
      if lpath = [] then some []
      else
        match splitName lpath with
        | none => none
        | some (name, id, rpath) =>
            match findChild name (id.getD 1) e.children with
            | none => none
            | some i =>
                if rpath = [] then some [i]
                else (e.child i).bind fun e => (locate n e rpath).map (i :: ·)

/-- `Conf:getNode`. -/
def getNode (root : Elem) (path : Bytes) : Option Elem :=
  (locate (path.length + 1) root path).bind root.at

end ZRouter.Web
