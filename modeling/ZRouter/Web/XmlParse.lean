import ZRouter.Lib.Lua
import ZRouter.Web.Collector
import ZRouter.Web.Conf

/-!
# Loading the configuration (`xml.lua`, `handler.lua`, `load_file`)

The parser looks for the next tag, hands the text before it to the handler, then the tag.  The handler
`domHandler` builds the tree; the elements that are open are kept with their children so far.

* `Entity`, `Interpreter`: the table `_ENTITIES`, and what depends on the interpreter;
* `parseEntities`, `stripWS`, `parseTag`;
* `Dom`: the state of the handler;
* `parseMarkup`: one tag; `parseFrom`: the loop of `parse`; `loadFile`;
* `parse_eq`: the number of steps that the loop may take does not matter.
-/

namespace ZRouter.Web

open Pattern

/-! ### Entities -/

/-- The keys of `_ENTITIES`. -/
inductive Entity
  | lt
  | gt
  | amp
  | quot
  | apos
  | dec
  | hex
deriving DecidableEq

/-- What depends on the interpreter: the order in which `pairs` goes through `_ENTITIES` and through a
table of attributes, and how a number is turned into a string. -/
structure Interpreter where
  entities : List Entity
  entities_perm : entities.Perm [.lt, .gt, .amp, .quot, .apos, .dec, .hex]
  pairs : Attrs → Attrs
  pairs_perm : ∀ l, (pairs l).Perm l
  number : ℕ → Bytes

/-- An interpreter that goes through every table in the order of its assignments. -/
def Interpreter.inOrder : Interpreter where
  entities := [.lt, .gt, .amp, .quot, .apos, .dec, .hex]
  entities_perm := List.Perm.refl _
  pairs := id
  pairs_perm := List.Perm.refl
  number := decimal

/-- The pattern of an entity. -/
def Entity.items : Entity → List (Item UInt8)
  | .lt => lit (str "&lt;")
  | .gt => lit (str "&gt;")
  | .amp => lit (str "&amp;")
  | .quot => lit (str "&quot;")
  | .apos => lit (str "&apos;")
  | .dec => lit (str "&#") ++ [.opens, .plus isdigit, .closes, .one (· = 59)]
  | .hex => lit (str "&#x") ++ [.opens, .plus isxdigit, .closes, .one (· = 59)]

/-- What it is replaced by. -/
def Entity.value (number : ℕ → Bytes) : Entity → List Bytes → Bytes
  | .lt, _ => str "<"
  | .gt, _ => str ">"
  | .amp, _ => str "&"
  | .quot, _ => str "\""
  | .apos, _ => str "'"
  | .dec, x =>
      let d := digitsVal x.flatten
      if d < 256 then [d.toUInt8] else str "&#" ++ number d ++ str ";"
  | .hex, x =>
      let d := runVal 16 x.flatten
      if d < 256 then [d.toUInt8] else str "&#x" ++ x.flatten ++ str ";"

/-- The replacement of one entity. -/
def Interpreter.expand (env : Interpreter) (e : Entity) (s : Bytes) : Bytes :=
  gsub e.items (fun _ x => e.value env.number x) s

/-- `_parseEntities`. -/
def parseEntities (env : Interpreter) (s : Bytes) : Bytes :=
  env.entities.foldl (fun s e => env.expand e s) s

/-- `_stripWS`. -/
def stripWS (s : Bytes) : Bytes := (s.dropWhile isspace).rdropWhile isspace

/-! ### Patterns -/

/-- The pattern `_XML`: `^([^<]*)<(%/?)([^>]-)(%/?)>`. -/
def xmlItems : List (Item UInt8) :=
  [.opens, .star (· ≠ 60), .closes, .one (· = 60), .opens, .opt (· = 47), .closes, .opens,
    .lazy (· ≠ 62), .closes, .opens, .opt (· = 47), .closes, .one (· = 62)]

/-- The class `[%w-:_]`. -/
def isAttrName (c : UInt8) : Bool := isalnum c || c = 45 || c = 58 || c = 95

/-- The patterns `_ATTR1` and `_ATTR2`, for a quotation mark. -/
def attrItems (q : UInt8) : List (Item UInt8) :=
  [.opens, .plus isAttrName, .closes, .star isspace, .one (· = 61), .star isspace, .one (· = q),
    .opens, .lazy anyByte, .closes, .one (· = q)]

/-- The patterns `_ATTRERR1` and `_ATTRERR2`. -/
def attrErrItems (q : UInt8) : List (Item UInt8) :=
  [.one (· = 61), .star isspace, .one (· = q), .star (· ≠ q), .atEnd]

/-- The patterns `_PI`, `_COMMENT` and `_CDATA`: anything between two strings. -/
def between (first last : Bytes) : List (Item UInt8) :=
  lit first ++ [.opens, .lazy anyByte, .closes] ++ lit last

/-- `_PI`. -/
def piItems : List (Item UInt8) := between (str "<?") (str "?>")

/-- `_COMMENT`. -/
def commentItems : List (Item UInt8) := between (str "<!--") (str "-->")

/-- `_CDATA`. -/
def cdataItems : List (Item UInt8) := between (str "<![CDATA[") (str "]]>")

/-! ### Tags -/

/-- `attrs[string.lower(k)] = self:_parseEntities(v)`. -/
def addAttr (env : Interpreter) (l : Attrs) : List Bytes → Attrs
  | [k, v] => l.set (k.map tolower) (parseEntities env v)
  | _ => l

/-- `_parseTag`: the name, and the attributes if there are any.  The field `_` notes that one was found,
and is cleared. -/
def parseTag (env : Interpreter) (s : Bytes) : Bytes × Option Attrs :=
  let found := gmatch (attrItems 34) s ++ gmatch (attrItems 39) s
  (s.takeWhile (!isspace ·),
    if found = [] then none
    else some ((found.foldl (addAttr env) []).filter (·.1 ≠ str "_")))

/-- The errors of `_errstr`, and those that Lua raises. -/
inductive XmlError
  | xmlErr
  | declErr
  | declStartErr
  | declAttrErr
  | piErr
  | commentErr
  | cdataErr
  | endTagErr
  | unmatchedTagErr
  | incompleteXmlErr
  | raised (e : LuaError)
deriving DecidableEq

/-! ### The handler -/

/-- An open element. -/
structure Frame where
  name : Bytes
  attr : Option Attrs
  children : List Node

/-- The children of the root, and the open elements, the innermost first.  Their names are the `_stack` of
the parser. -/
structure Dom where
  root : List Node
  opened : List Frame

/-- A new child of the current node. -/
def Dom.add (d : Dom) (n : Node) : Dom :=
  match d.opened with
  | [] => { d with root := d.root ++ [n] }
  | f :: opened => { d with opened := { f with children := f.children ++ [n] } :: opened }

/-- The call of `text`, which is left out for the empty string. -/
def Dom.text (d : Dom) (s : Bytes) : Dom := if s = [] then d else d.add (.text s)

/-- `starttag`. -/
def Dom.starttag (d : Dom) (name : Bytes) (attr : Option Attrs) : Dom :=
  { d with opened := ⟨name, attr, []⟩ :: d.opened }

/-- `endtag`, if the name is the one of the innermost open element. -/
def Dom.endtag (d : Dom) (name : Bytes) : Except XmlError Dom :=
  match d.opened with
  | [] => .error .unmatchedTagErr
  | f :: opened =>
      if f.name = name then .ok ({ d with opened }.add (.element f.name f.attr f.children))
      else .error .unmatchedTagErr

/-! ### The parser -/

/-- A tag that starts with `?xml` and a blank. -/
def isDecl (tagstr : Bytes) : Bool :=
  (str "?xml").isPrefixOf tagstr && (tagstr.drop 4).head?.any isspace

/-- The declaration, which must stand at the start. -/
def parseDecl (env : Interpreter) (pos : ℕ) (s : Bytes) (d : Dom) : Except XmlError (Bytes × Dom) :=
  match find piItems s with
  | some (before, [text], rest) =>
      if pos + before.length = 1 then
        match parseTag env text with
        | (_, none) => .error (.raised .index)
        | (name, some attrs) =>
            if attrs.lookup (str "version") = none then .error .declAttrErr
            else .ok (rest, d.add (.other name (some attrs)))
      else .error .declStartErr
  | _ => .error .declErr

/-- A processing instruction. -/
def parsePi (env : Interpreter) (s : Bytes) (d : Dom) : Except XmlError (Bytes × Dom) :=
  match find piItems s with
  | some (_, [text], rest) =>
      let tag := parseTag env text
      let pi := text.drop tag.1.length
      let attrs := if pi = [] then tag.2 else some ((tag.2.getD []).set (str "_text") pi)
      .ok (rest, d.add (.other tag.1 attrs))
  | _ => .error .piErr

/-- A comment. -/
def parseComment (env : Interpreter) (s : Bytes) (d : Dom) : Except XmlError (Bytes × Dom) :=
  match find commentItems s with
  | some (_, [text], rest) => .ok (rest, d.add (.comment (parseEntities env (stripWS text))))
  | _ => .error .commentErr

/-- A CDATA section. -/
def parseCdata (s : Bytes) (d : Dom) : Except XmlError (Bytes × Dom) :=
  match find cdataItems s with
  | some (_, [text], rest) => .ok (rest, d.add (.text text))
  | _ => .error .cdataErr

/-- The tag of an element.  A value with an embedded `>` raises an error: the loop that should extend
the tag calls `string.sub` on the library `string`. -/
def parseElement (env : Interpreter) (endt1 tagstr endt2 : Bytes) (d : Dom) : Except XmlError Dom :=
  if (find (attrErrItems 34) tagstr).isSome || (find (attrErrItems 39) tagstr).isSome then
    .error (.raised .argument)
  else
    let tag := parseTag env tagstr
    if endt1 = str "/" then
      if tag.2.isSome then .error .endTagErr else d.endtag tag.1
    else if endt2 = str "/" then (d.starttag tag.1 tag.2).endtag tag.1
    else .ok (d.starttag tag.1 tag.2)

/-- One tag: what is left of the document, which is `s` before the search for the tag and `rest` behind
it.  For a DOCTYPE `_parseDTD` is given the library `string` in place of the document. -/
def parseMarkup (env : Interpreter) (pos : ℕ) (s endt1 tagstr endt2 rest : Bytes) (d : Dom) :
    Except XmlError (Bytes × Dom) :=
  if isDecl tagstr then parseDecl env pos s d
  else if tagstr.take 1 = str "?" then parsePi env s d
  else if tagstr.take 3 = str "!--" then parseComment env s d
  else if tagstr.take 8 = str "!DOCTYPE" then .error (.raised .argument)
  else if tagstr.take 8 = str "![CDATA[" then parseCdata s d
  else (parseElement env endt1 tagstr endt2 d).map fun d => (rest, d)

/-- The end of the document. -/
def finish (s : Bytes) (d : Dom) : Except XmlError (List Node) :=
  if s.all isspace then
    if d.opened.isEmpty then .ok d.root else .error .incompleteXmlErr
  else .error .xmlErr

/-- The loop of `parse` in at most so many steps, from the position `pos`, where `s` is left. -/
def parseFrom (env : Interpreter) : ℕ → ℕ → Bytes → Dom → Except XmlError (List Node)
  | 0, _, _, _ => .error .xmlErr
  | n + 1, pos, s, d =>
      match exec xmlItems s with
      | some ([text, endt1, tagstr, endt2], rest) =>
          match parseMarkup env pos s endt1 tagstr endt2 rest
              (d.text (parseEntities env (stripWS text))) with
          | .ok (rest, d) => parseFrom env n (pos + (s.length - rest.length)) rest d
          | .error e => .error e
      | _ => finish s d

/-- `parse`, with the steps that it needs at most. -/
def parse (env : Interpreter) (pos : ℕ) (s : Bytes) (d : Dom) : Except XmlError (List Node) :=
  parseFrom env (s.length + 1) pos s d

/-- `load_file`, for the content of the file. -/
def loadFile (env : Interpreter) (file : Bytes) : Except XmlError Elem :=
  (parse env 1 file ⟨[], []⟩).map Elem.root

/-! ### Steps -/

/-- Something is taken by a section between two strings. -/
theorem find_between_length {first last s : Bytes} {m : Bytes × List Bytes × Bytes}
    (hne : first ≠ []) (h : find (between first last) s = some m) : m.2.2.length < s.length := by
  have hle := find_length_le h
  have hpos := List.length_pos_of_ne_nil hne
  have hone : (Item.width ∘ fun c => Item.one fun x : UInt8 => decide (x = c)) = fun _ => 1 := by
    funext c
    rfl
  have hwidth : first.length ≤ width (between first last) := by
    rw [between, width, lit, List.append_assoc, List.map_append, List.sum_append, List.map_map, hone]
    simp
  omega

/-- Something is taken by every tag. -/
theorem parseMarkup_length {env : Interpreter} {pos : ℕ} {s endt1 tagstr endt2 rest : Bytes}
    {d : Dom} {m : Bytes × Dom} (hrest : rest.length < s.length)
    (h : parseMarkup env pos s endt1 tagstr endt2 rest d = .ok m) : m.1.length < s.length := by
  rw [parseMarkup] at h
  split_ifs at h
  · rw [parseDecl] at h
    split at h
    · rename_i hfind
      split_ifs at h
      split at h
      · cases h
      · split_ifs at h
        cases h
        exact find_between_length (by decide +kernel) hfind
    · cases h
  · rw [parsePi] at h
    split at h
    · rename_i hfind
      cases h
      exact find_between_length (by decide +kernel) hfind
    · cases h
  · rw [parseComment] at h
    split at h
    · rename_i hfind
      cases h
      exact find_between_length (by decide +kernel) hfind
    · cases h
  · rw [parseCdata] at h
    split at h
    · rename_i hfind
      cases h
      exact find_between_length (by decide +kernel) hfind
    · cases h
  · cases hp : parseElement env endt1 tagstr endt2 d with
    | error e =>
      rw [hp] at h
      cases h
    | ok d' =>
      rw [hp] at h
      cases h
      exact hrest

theorem xml_length {s : Bytes} {m : List Bytes × Bytes} (h : exec xmlItems s = some m) :
    m.2.length < s.length := by
  have hle := exec_length_le h
  have hwidth : width xmlItems = 2 := rfl
  omega

/-- Any number of steps above the length gives the same. -/
theorem parseFrom_eq {env : Interpreter} {n m : ℕ} : ∀ {pos : ℕ} {s : Bytes} {d : Dom},
    s.length < n → s.length < m → parseFrom env n pos s d = parseFrom env m pos s d := by
  induction n generalizing m with
  | zero => intro pos s d h; omega
  | succ n ih =>
    intro pos s d hn hm
    obtain ⟨m, rfl⟩ := Nat.exists_eq_succ_of_ne_zero (by omega : m ≠ 0)
    rw [parseFrom, parseFrom]
    split
    · rename_i text endt1 tagstr endt2 rest hexec
      cases hmarkup : parseMarkup env pos s endt1 tagstr endt2 rest
          (d.text (parseEntities env (stripWS text))) with
      | error e => rfl
      | ok x =>
        have hlt := parseMarkup_length (xml_length hexec) hmarkup
        exact ih (by omega) (by omega)
    · rfl

/-- One step. -/
theorem parse_step {env : Interpreter} {pos : ℕ} {s text endt1 tagstr endt2 rest rest' : Bytes}
    {d d' : Dom} (hexec : exec xmlItems s = some ([text, endt1, tagstr, endt2], rest))
    (hmarkup : parseMarkup env pos s endt1 tagstr endt2 rest
      (d.text (parseEntities env (stripWS text))) = .ok (rest', d')) :
    parse env pos s d = parse env (pos + (s.length - rest'.length)) rest' d' := by
  have hlt : rest'.length < s.length := parseMarkup_length (xml_length hexec) hmarkup
  rw [parse, parseFrom, hexec]
  dsimp only
  rw [hmarkup]
  exact parseFrom_eq hlt (Nat.lt_succ_self _)

/-- The end. -/
theorem parse_finish {env : Interpreter} {pos : ℕ} {s : Bytes} {d : Dom}
    (hexec : exec xmlItems s = none) : parse env pos s d = finish s d := by
  rw [parse, parseFrom, hexec]

end ZRouter.Web
