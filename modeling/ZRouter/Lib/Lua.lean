import ZRouter.Lib.CString

/-!
# Lua values and errors

What the model of a Lua program needs of the language beside its patterns: a run either gives a value
or raises an error, and `tonumber` reads numerals as `strtod` does.

* `LuaError`, `Lua`: the errors that using `nil` raises, and runs that may raise one;
* `Number`: a number as it is written, and `Number.nonneg`, the comparison with zero after it was
  rounded to a double;
* `strtod`, `tonumber`.
-/

namespace ZRouter

/-- What using `nil`, or a value out of range, raises. -/
inductive LuaError
  | compare
  | arithmetic
  | concat
  | index
  | argument
  deriving DecidableEq

/-- The outcome of Lua code. -/
abbrev Lua := Except LuaError

/-- The value of an operand that must not be `nil`. -/
def Lua.get {α : Type} (e : LuaError) : Option α → Lua α
  | none => .error e
  | some a => .ok a

/-- A numeral without its sign; `finite m b e` is `m * b ^ e`. -/
inductive Magnitude
  | nan
  | infinite
  | finite (m b : ℕ) (e : ℤ)
  deriving DecidableEq

/-- A numeral. -/
structure Number where
  neg : Bool
  magnitude : Magnitude
  deriving DecidableEq

/-- `x >= 0`.  A negative number that is too small for a double is rounded to zero. -/
def Number.nonneg (x : Number) : Bool :=
  match x.magnitude with
  | .nan => false
  | .infinite => !x.neg
  | .finite m b e => !x.neg || decide ((m : ℚ) * (b : ℚ) ^ e ≤ 1 / 2 ^ 1075)

/-- `tolower` of the C locale. -/
def tolower (c : UInt8) : UInt8 := if isupper c then c + 32 else c

/-- The word `w`, in any case, at the start of `s`: what follows it. -/
def dropWord (w s : Bytes) : Option Bytes :=
  if (s.take w.length).map tolower = w then some (s.drop w.length) else none

/-- A run of digits. -/
def digitRun (isDigit : UInt8 → Bool) (s : Bytes) : Bytes × Bytes :=
  (s.takeWhile isDigit, s.dropWhile isDigit)

/-- The value of a run of digits in some base. -/
def runVal (base : ℕ) (ds : Bytes) : ℕ := ds.foldl (fun n c => n * base + digitVal c) 0

/-- A sign, if there is one. -/
def readSign : Bytes → Bool × Bytes
  | 45 :: s => (true, s)
  | 43 :: s => (false, s)
  | s => (false, s)

/-- The exponent after a mantissa, introduced by the letter `mark`; zero if there is none. -/
def readExponent (mark : UInt8) (s : Bytes) : ℤ × Bytes :=
  match s with
  | c :: t =>
      if tolower c = mark then
        let (neg, t) := readSign t
        let (ds, rest) := digitRun isdigit t
        if ds = [] then (0, s)
        else ((if neg then -1 else 1) * (runVal 10 ds : ℤ), rest)
      else (0, s)
  | [] => (0, s)

/-- Digits with a point in a base, and an exponent: one step of it multiplies by `step ^ scale` less
than the base, in the same unit `step`. -/
def readMantissa (isDigit : UInt8 → Bool) (base step scale : ℕ) (mark : UInt8) (s : Bytes) :
    Option (Magnitude × Bytes) :=
  let (whole, s) := digitRun isDigit s
  let (frac, s) : Bytes × Bytes := match s with
    | 46 :: t => digitRun isDigit t
    | _ => ([], s)
  if whole ++ frac = [] then none
  else
    let (e, rest) := readExponent mark s
    some (.finite (runVal base (whole ++ frac)) step (e - (scale * frac.length : ℕ)), rest)

/-- What stands in brackets after `nan`. -/
def dropPayload (s : Bytes) : Bytes :=
  match s with
  | 40 :: t =>
      match t.dropWhile fun c => isalnum c || c = 95 with
      | 41 :: rest => rest
      | _ => s
  | _ => s

/-- `strtod`: the number, and where it ends; `none` if there is none. -/
def strtod (s : Bytes) : Option (Number × Bytes) :=
  let (neg, s) := readSign (skipSpaces s)
  let result : Option (Magnitude × Bytes) :=
    match dropWord (str "infinity") s, dropWord (str "inf") s, dropWord (str "nan") s,
      (dropWord (str "0x") s).bind (readMantissa isxdigit 16 2 4 112) with
    | some rest, _, _, _ => some (.infinite, rest)
    | _, some rest, _, _ => some (.infinite, rest)
    | _, _, some rest, _ => some (.nan, dropPayload rest)
    | _, _, _, some hex => some hex
    | _, _, _, none => readMantissa isdigit 10 10 1 101 s
  result.map fun (magnitude, rest) => (⟨neg, magnitude⟩, rest)

/-- `tonumber` of a string: a numeral with blanks around it.  The string ends at a NUL. -/
def tonumber (s : Bytes) : Option Number :=
  match strtod (cstr s) with
  | none => none
  | some (x, rest) => if skipSpaces rest = [] then some x else none

end ZRouter
