import ZRouter.Lib.CString

/-!
# The JSON tree of `conf`

A tree as json-c keeps it: an object is the list of its entries, in the order in which they are gone
through, and `null` is the null pointer.  A pointer to a node of the tree is the list of the places
that lead there from the root (`Ptr`).

* `Value`, `Ptr`, `Value.node`, `Value.replaceAt`;
* `Value.distinct`: no object has a key twice;
* `Value.head`: a node without what hangs below it;
* `strtoulEnd`, `toInt`.
-/

namespace ZRouter.Json

/-- A value. -/
inductive Value
  | null
  | boolean (b : Bool)
  | double (bits : UInt64)
  | int (n : ℤ)
  | string (s : Bytes)
  | array (es : List Value)
  | object (fs : List (Bytes × Value))

/-- The entries of an object. -/
abbrev Fields := List (Bytes × Value)

/-- A pointer to a node: the places to go through from the root. -/
abbrev Ptr := List ℕ

/-- The keys of an object. -/
def keys (fs : Fields) : List Bytes := fs.map Prod.fst

/-- What stands at a place of a container. -/
def Value.child : Value → ℕ → Option Value
  | .array es, i => es[i]?
  | .object fs, i => fs[i]?.map Prod.snd
  | _, _ => none

/-- The node a pointer points to. -/
def Value.node : Value → Ptr → Option Value
  | t, [] => some t
  | t, i :: q => (t.child i).bind (·.node q)

/-- The tree with another node where the pointer points to. -/
def Value.replaceAt : Value → Ptr → Value → Value
  | _, [], n => n
  | .array es, i :: q, n => .array (es.modify i fun e => e.replaceAt q n)
  | .object fs, i :: q, n => .object (fs.modify i fun f => (f.1, f.2.replaceAt q n))
  | t, _ :: _, _ => t

mutual

/-- No object of the tree has a key twice. -/
def Value.distinct : Value → Bool
  | .array es => distinctElems es
  | .object fs => decide (keys fs).Nodup && distinctFields fs
  | _ => true

/-- The same for the elements of an array. -/
def distinctElems : List Value → Bool
  | [] => true
  | e :: es => e.distinct && distinctElems es

/-- The same for the values of an object. -/
def distinctFields : List (Bytes × Value) → Bool
  | [] => true
  | (_, v) :: fs => v.distinct && distinctFields fs

end

/-- A node without its children: a value, the length of an array, or the keys of an object. -/
inductive Head
  | null
  | boolean (b : Bool)
  | double (bits : UInt64)
  | int (n : ℤ)
  | string (s : Bytes)
  | array (length : ℕ)
  | object (keys : Multiset Bytes)

/-- The head of a node. -/
def Value.head : Value → Head
  | .null => .null
  | .boolean b => .boolean b
  | .double bits => .double bits
  | .int n => .int n
  | .string s => .string s
  | .array es => .array es.length
  | .object fs => .object (keys fs)

/-- The node is a container that holds something. -/
def Value.hasChilds : Value → Bool
  | .array es => !es.isEmpty
  | .object fs => !fs.isEmpty
  | _ => false

/-- The node is not the null pointer. -/
def Value.live : Value → Bool
  | .null => false
  | _ => true

/-! ### Numbers -/

/-- The number of bytes that `strtoul` with base zero uses. -/
def strtoulUsed (s : Bytes) : ℕ :=
  let s₁ := s.dropWhile isspace
  let (sign, s₂) : ℕ × Bytes :=
    match s₁ with
    | 45 :: t => (1, t)
    | 43 :: t => (1, t)
    | t => (0, t)
  let (mark, base, s₃) : ℕ × ℕ × Bytes :=
    match s₂ with
    | 48 :: x :: c :: t =>
        if (x = 120 || x = 88) && digitVal c < 16 then (2, 16, c :: t) else (0, 8, s₂)
    | 48 :: _ => (0, 8, s₂)
    | _ => (0, 10, s₂)
  let digits := (s₃.takeWhile (digitVal · < base)).length
  if digits = 0 then 0 else (s.takeWhile isspace).length + sign + mark + digits

/-- `strtoul` with base zero: the value, and whether the string is read to its end. -/
def strtoulEnd (ulongMax : ℕ) (s : Bytes) : ℕ × Bool :=
  (strtoulAuto ulongMax s, strtoulUsed s = s.length)

/-- An `unsigned long` or an `unsigned int` as an `int`. -/
def toInt (n : ℕ) : ℤ := (n : ℤ).bmod (2 ^ 32)

example : strtoulEnd (2 ^ 64 - 1) (str "0x1F") = (31, true) := rfl

example : strtoulEnd (2 ^ 64 - 1) (str "08") = (0, false) := rfl

example : toInt (strtoulEnd (2 ^ 64 - 1) (str "-1")).1 = -1 := by decide

end ZRouter.Json
