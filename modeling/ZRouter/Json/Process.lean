import ZRouter.Json.Path

/-!
# Setting, getting, deleting and searching (`conf.c`)

What json-c does is taken from its documentation; where that leaves the result open (the order of
the entries of an object, the text of a value) it is a parameter.

* `Libraries`: json-c, and the C library's largest `unsigned long`;
* `find`, `create`;
* `State`, `setExisting`, `createNew`, `deleteExisting`, `process`, `processAll`.
-/

namespace ZRouter.Json

/-- The libraries under the program. -/
structure Libraries where
  ulongMax : ℕ
  objectDel : Fields → Bytes → Fields
  objectDel_perm : ∀ fs key, (objectDel fs key).Perm (fs.filter (·.1 ≠ key))
  objectAdd : Fields → Bytes → Value → Fields
  objectAdd_perm : ∀ fs key v, (objectAdd fs key v).Perm ((key, v) :: fs.filter (·.1 ≠ key))
  toJsonString : Value → Bytes
  tokenerParse : Bytes → Option Value
  tokenerParse_distinct : ∀ s v, tokenerParse s = some v → v.distinct = true

/-- Libraries in which an object keeps its entries in the order they were added, and that neither
read nor write text. -/
def Libraries.inOrder : Libraries where
  ulongMax := 2 ^ 64 - 1
  objectDel fs key := fs.filter (·.1 ≠ key)
  objectDel_perm _ _ := List.Perm.refl _
  objectAdd fs key v := fs.filter (·.1 ≠ key) ++ [(key, v)]
  objectAdd_perm _ _ _ := List.perm_append_singleton _ _
  toJsonString _ := []
  tokenerParse _ := none
  tokenerParse_distinct _ _ h := nomatch h

/-- `json_object_array_put_idx`, as json-c documents it: an array that is too short is filled up with
`NULL`. -/
def arrayPutIdx (es : List Value) (i : ℕ) (v : Value) : List Value :=
  (es ++ List.replicate (i + 1 - es.length) Value.null).set i v

/-- `%d`. -/
def formatInt (n : ℤ) : Bytes :=
  (if n < 0 then str "-" else []) ++ if n = 0 then str "0" else decimal n.natAbs

/-- `strtoul` with base zero into an `int`; -1 for a string that is not read to its end. -/
def indexOrNone (ulongMax : ℕ) (s : Bytes) : ℤ :=
  let (v, check) := strtoulEnd ulongMax s
  if check then toInt v else -1

/-! ### `find` -/

/-- A line of `find`: the path of the container, the key or the index, and the value. -/
def findLine (E : Libraries) (p : Path) (level : ℕ) (name : Bytes) (child : Value) :
    Option Bytes := do
  let path ← (List.range level).mapM fun x => do some ((← ← p.part[x]?) ++ str ".")
  some (path.flatten ++ name ++ str ": " ++ E.toJsonString child ++ str "\n")

/-- The record while `find` is in a child. -/
def Path.enter (p : Path) (level : ℕ) (child : Ptr) (name : Bytes) : Option Path := do
  some ⟨← store p.part level (some name), ← store p.obj level (some child), level + 1⟩

/-- The record after `find` was in a child. -/
def Path.leave (p : Path) (level : ℕ) : Option Path := do
  some ⟨← store p.part level none, ← store p.obj level none, level⟩

/-- `strstr`, or `strcasestr` with `-i`. -/
def keyMatches (ignoreCase : Bool) (key name : Bytes) : Bool :=
  let fold (s : Bytes) : Bytes :=
    if ignoreCase then s.map fun c => if isupper c then c + 32 else c else s
  (strstr (fold key) (fold name)).isSome

mutual

/-- `find` on the node at `pos`: what is printed, and the record afterwards. -/
def find (E : Libraries) (ignoreCase : Bool) (key : Bytes) (pos : Ptr) (level : ℕ) :
    Value → Path → Option (Bytes × Path)
  | .array es, p => findElems E ignoreCase key pos level (indexOrNone E.ulongMax key) es 0 p
  | .object fs, p => findFields E ignoreCase key pos level fs 0 p
  | _, p => some ([], p)

/-- The loop of `find` over an array, from the element `l`. -/
def findElems (E : Libraries) (ignoreCase : Bool) (key : Bytes) (pos : Ptr) (level : ℕ) (i : ℤ) :
    List Value → ℕ → Path → Option (Bytes × Path)
  | [], _, p => some ([], p)
  | child :: es, l, p =>
      if child.live then do
        let line ← if (l : ℤ) = i then findLine E p level (formatInt l) child else some []
        let p ← p.enter level (pos ++ [l]) (formatInt l)
        let (out, p) ← find E ignoreCase key (pos ++ [l]) (level + 1) child p
        let p ← p.leave level
        let (rest, p) ← findElems E ignoreCase key pos level i es (l + 1) p
        some (line ++ out ++ rest, p)
      else findElems E ignoreCase key pos level i es (l + 1) p

/-- The loop of `find` over an object, from the entry `l`. -/
def findFields (E : Libraries) (ignoreCase : Bool) (key : Bytes) (pos : Ptr) (level : ℕ) :
    List (Bytes × Value) → ℕ → Path → Option (Bytes × Path)
  | [], _, p => some ([], p)
  | (k, child) :: fs, l, p =>
      if child.live then do
        let line ← if keyMatches ignoreCase key k then findLine E p level k child else some []
        let p ← p.enter level (pos ++ [l]) k
        let (out, p) ← find E ignoreCase key (pos ++ [l]) (level + 1) child p
        let p ← p.leave level
        let (rest, p) ← findFields E ignoreCase key pos level fs (l + 1) p
        some (line ++ out ++ rest, p)
      else findFields E ignoreCase key pos level fs (l + 1) p

end

/-! ### `create` -/

/-- The name of a type in the messages of `create`. -/
def typeName : Value → Bytes
  | .array _ => str "ARRAY"
  | .object _ => str "HASH"
  | _ => str "OTHER"

/-- What `create` returns, with the tree afterwards and what is printed. -/
structure Created where
  root : Value
  obj : Value
  out : Bytes

/-- The first line that `create` prints on a level. -/
def createLine (level : ℕ) (part : Bytes) (obj : Option Value) (i : ℤ) : Bytes :=
  str "level=" ++ formatInt level ++ str " part = " ++ part ++ str " obj=" ++
    (if obj.isSome then str "Exist" else str "Non") ++ str " type=" ++
    (obj.elim (str "(null)") typeName) ++ str " i=" ++ formatInt i ++ str "\n"

/-- The message of `create` about a node that cannot hold a child. -/
def cannotAttach (p : Path) (level : ℕ) : Option Bytes := do
  let path ← (List.range level).mapM fun x => do some (str "." ++ (← ← p.part[x]?))
  some (str "Can`t use object \"" ++ path.flatten ++ str "\" to attach new items\n")

/-- `create` with a child: it is attached to the node found on the level, or to a new one. -/
def attach (E : Libraries) (p : Path) (level : ℕ) (root : Value) (pos : Option Ptr) (part : Bytes)
    (i : ℤ) (child : Value) : Option Created :=
  match pos with
  | none =>
      if 0 ≤ i then some ⟨root, .array (arrayPutIdx [] i.toNat child), []⟩
      else some ⟨root, .object (E.objectAdd [] part child), []⟩
  | some pos =>
      match root.node pos with
      | some (.array es) =>
          if 0 ≤ i then
            some ⟨root.replaceAt pos (.array (arrayPutIdx es i.toNat child)), .null, []⟩
          else (cannotAttach p level).map fun out => ⟨root, .null, out⟩
      | some (.object fs) =>
          some ⟨root.replaceAt pos (.object (E.objectAdd fs part child)), .null, []⟩
      | _ => (cannotAttach p level).map fun out => ⟨root, .null, out⟩

/-- `create`; the arrays of the record end `left` entries behind `level`.  What it stores in the
record is not read again, and is left out. -/
def create (E : Libraries) (p : Path) (value : Bytes) : ℕ → ℕ → Value → Option Created
  | 0, _, _ => none
  | left + 1, level, root => do
      match ← p.part[level]? with
      | none => some ⟨root, .null, []⟩
      | some part => do
          let i := indexOrNone E.ulongMax part
          let r ← create E p value left (level + 1) root
          let pos ← p.obj[level]?
          let out := r.out ++ createLine level part (pos.bind r.root.node) i
          if r.obj.live then do
            let a ← attach E p level r.root pos part i r.obj
            some { a with out := out ++ str "child type=" ++ typeName r.obj ++ str "\n" ++ a.out }
          else some ⟨r.root, (E.tokenerParse value).getD (.string value), out⟩

/-! ### `process` -/

/-- `flags`. -/
structure Flags where
  allowMulti : Bool := true
  deleteMode : Bool := false
  searchMode : Bool := false
  ignoreCase : Bool := false
  stdoutResult : Bool := false
  dirtyData : Bool := false
  deriving DecidableEq

/-- What `process` works on: the tree, the flags, and what has been printed. -/
structure State where
  root : Value
  flags : Flags
  stdout : Bytes
  stderr : Bytes

/-- `printf`. -/
def State.print (s : State) (out : Bytes) : State := { s with stdout := s.stdout ++ out }

/-- `fprintf(stderr, ..)`. -/
def State.warn (s : State) (err : Bytes) : State := { s with stderr := s.stderr ++ err }

/-- The tree is changed, and has to be saved. -/
def State.modify (s : State) (pos : Ptr) (n : Value) : State :=
  { s with root := s.root.replaceAt pos n, flags := { s.flags with dirtyData := true } }

/-- `usage`. -/
def usage : Bytes := str "Usage:
\tconf key.subkey\t\t\t\tget/dump from that point
\tconf key.subkey=value\t\t\tset
\tconf key.subkey=value key1.sub\t\tmixed set & get
\tconf \"key.subkey=value with spaces\"\tset 
\tconf [-i] -s ubkey key\t\t\t\tsearch keys \"ubkey\" and \"key\"
\tconf -D key.subkey\t\t\tdelete
\t\t-S copy result to stdout
"

/-- A null string in `printf`. -/
def orNull (s : Option Bytes) : Bytes := s.getD (str "(null)")

/-- The message about an index. -/
def wrongIndex (last : Bytes) (parent : Option Bytes) : Bytes :=
  str "Wrong index " ++ last ++ str " for ARRAY " ++ orNull parent ++ str "\n"

/-- The message of a deletion that finds nothing. -/
def notFound (name : Bytes) (key : Bytes) : Bytes :=
  name ++ str " in " ++ key ++ str " not found\n"

/-- What `process` knows after the lookup. -/
structure Looked where
  child : Option Value
  parentobj : Option Ptr
  parent : Option Bytes
  last : Bytes

/-- `process`, set: the node exists. -/
def setExisting (E : Libraries) (s : State) (key value : Bytes) (child : Value) (l : Looked) :
    Option State :=
  if child.hasChilds then
    some (s.warn (str "Node \"" ++ key ++
      str "\" has one or more childs, please delete it first.\n"))
  else
    match l.parentobj with
    | none => some s
    | some pos =>
        match s.root.node pos with
        | some (.array es) =>
            let (v, check) := strtoulEnd E.ulongMax l.last
            let idx := toInt v
            if check then
              if idx < es.length then
                -- an index before the array is an access outside it
                if idx < 0 then none
                else some (s.modify pos (.array (arrayPutIdx es idx.toNat (.string value))))
              else some (s.warn (wrongIndex l.last l.parent))
            else some (s.warn (wrongIndex l.last l.parent))
        | some (.object fs) =>
            if (objectGet fs l.last).isSome then
              some (s.modify pos
                (.object (E.objectAdd (E.objectDel fs l.last) l.last (.string value))))
            else some s
        | _ => some s

/-- `process`, set: the node does not exist. -/
def createNew (E : Libraries) (s : State) (key value : Bytes) (p : Path) : Option State := do
  -- the component before the last one, of which there may be none
  if p.count < 2 then none
  let pos ← p.obj[p.count - 2]?
  let line := str "NOTYET Create \"" ++ key ++ str "\" with value " ++
    E.toJsonString ((pos.bind s.root.node).getD .null) ++ str "\n"
  let r ← create E p value (p.part.length - 1) 1 s.root
  some { s with root := r.root, stdout := s.stdout ++ line ++ r.out }

/-- The loop that moves the elements behind `i` down, `n` of them. -/
def shiftDown : ℕ → ℕ → List Value → List Value
  | 0, _, es => es
  | n + 1, i, es => shiftDown n (i + 1) (es.set i (es.getD (i + 1) .null))

/-- `process`, delete. -/
def deleteExisting (E : Libraries) (s : State) (key : Bytes) (l : Looked) : Option State :=
  match l.parentobj with
  | none => some (s.print (notFound (orNull l.parent) key))
  | some pos =>
      match s.root.node pos with
      | some (.array es) =>
          let (v, check) := strtoulEnd E.ulongMax l.last
          let idx := toInt v
          if !check then some (s.warn (wrongIndex l.last l.parent))
          else if idx ≥ es.length then some (s.warn (wrongIndex l.last l.parent))
          -- an index before the array is an access outside it
          else if idx < 0 then none
          else some (s.modify pos
            (.array (shiftDown (es.length - 1 - idx.toNat) idx.toNat es).dropLast))
      | some (.object fs) =>
          if (objectGet fs l.last).isNone then some (s.print (notFound l.last key))
          else some (s.modify pos (.object (E.objectDel fs l.last)))
      | _ => some (s.print (notFound l.last key))

/-- `process` after the lookup. -/
def dispatch (E : Libraries) (s : State) (key : Bytes) (value : Option Bytes) (p : Path)
    (l : Looked) : Option State :=
  match value, s.flags.deleteMode, l.child with
  | some value, false, some child => setExisting E s key value child l
  | some value, false, none => createNew E s key value p
  | none, false, some child =>
      some (s.print (key ++ str " = " ++ E.toJsonString child ++ str "\n"))
  | none, true, _ => deleteExisting E s key l
  | _, _, _ => some (s.print usage)

/-- `process`. -/
def process (E : Libraries) (s : State) (key : Bytes) : Option State := do
  if s.flags.searchMode then
    let (out, _) ← find E s.flags.ignoreCase key [] 0 s.root (allocatePath maxTreePath)
    some (s.print out)
  else
    let (key, value) := strsep (· = 61) key
    let p ← splitpath key maxTreePath
    let r ← get E.ulongMax (p.count - 1) s.root [] p 0
    let s := s.print r.out
    let p := r.p
    if p.count = 0 then
      some (s.warn (str "Error parsing key=" ++ key ++ str " value=" ++ orNull value ++ str "\n"))
    else
      let parentobj ← (if 1 < p.count then p.obj[p.count - 2]? else some none)
      let parent ← (if 1 < p.count then p.part[p.count - 2]? else some none)
      let last ← ← p.part[p.count - 1]?
      let l : Looked := ⟨r.child.map Prod.snd, parentobj, parent, last⟩
      dispatch E s key value p l

/-- The loop of `main` over the arguments. -/
def processAll (E : Libraries) (s : State) (keys : List Bytes) : Option State :=
  keys.foldlM (process E) s

end ZRouter.Json
