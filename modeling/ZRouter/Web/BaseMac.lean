import ZRouter.Lib.Double
import ZRouter.Lib.Exec
import ZRouter.Web.IpCalc

/-!
# Addresses counted up from one (`base_mac.lua`)

The script reads an address, as text or as six bytes, and prints a number of addresses from it on.  In
the first case vendor and device stay texts, which arithmetic takes as numbers.

* `tohex`, `printMac`, `baseMac`: the script; its loop has a bound on the passes;
* `Mac`: an address in hexadecimal digits, with its two forms;
* `Derives`: what is to be printed;
* `derives_of_le`: it is, as long as no number gets past `2 ^ 53`; `not_derives_past`: the first count
  that is no double.
-/

namespace ZRouter.Web

open Pattern Double

/-! ### The script -/

/-- A value of the script. -/
inductive LuaValue
  | num (x : ℚ)
  | text (s : Bytes)

/-- The double of a numeral; there is none for an infinity and for no number. -/
def doubleOf (x : Number) : Option ℚ :=
  match x.magnitude with
  | .finite m b e => some (fl ((if x.neg then -1 else 1) * (m * (b : ℚ) ^ e)))
  | _ => none

/-- An operand of arithmetic.  The texts of the script start with `0x`, so that none of them is an
infinity. -/
def LuaValue.number : LuaValue → Lua ℚ
  | .num x => .ok x
  | .text s => Lua.get .arithmetic ((tonumber s).bind doubleOf)

/-- `tohex`. -/
def tohex (ar : Bytes) (f t : ℕ) : Lua ℚ :=
  (List.range' f (t + 1 - f)).foldlM (fun x i => do
    let x := fl (x * 0x100)
    let b ← Lua.get .arithmetic ar[i - 1]?
    return fl (x + b.toNat)) 0

/-- A digit of `%x`. -/
def hexLower (d : ℕ) : UInt8 := if d < 10 then (48 + d).toUInt8 else (87 + d).toUInt8

/-- `%02x`, of an unsigned integer. -/
def hexText (n : ℕ) : Bytes :=
  let ds := (Nat.digits 16 n).reverse.map hexLower
  List.replicate (2 - ds.length) 48 ++ ds

/-- An argument of `%02x`: a fraction is cut off. -/
def formatX (x : ℚ) : Bytes := hexText ⌊x⌋.toNat

/-- The byte of a number at a power of 256. -/
def byteAt (x unit : ℚ) : Bytes := formatX (mod (div x unit) 0x100)

/-- The line that `print_mac` prints. -/
def printMac (vendor device : LuaValue) : Lua Bytes := do
  let v ← vendor.number
  let d ← device.number
  return byteAt v 0x10000 ++ 58 :: (byteAt v 0x00100 ++ 58 :: (byteAt v 0x00001 ++
    58 :: (byteAt d 0x10000 ++ 58 :: (byteAt d 0x00100 ++ 58 :: byteAt d 0x00001))))

/-- `device + i`. -/
def LuaValue.add (device : LuaValue) (i : ℚ) : Lua LuaValue := do
  let d ← device.number
  return .num (fl (d + i))

/-- `i < n`. -/
def isBelow (i : ℚ) (n : Number) : Bool :=
  match doubleOf n with
  | some n => i < n
  | none => n.magnitude = .infinite && !n.neg

/-- What the script leaves behind: the lines it has printed, and the error that has ended it. -/
abbrev Printed := List Bytes × Option LuaError

/-- A pass of the loop that prints, with `i` and the lines so far. -/
def printPass (vendor device : LuaValue) (n : Number) (s : ℚ × List Bytes) :
    Exec ((ℚ × List Bytes) ⊕ Printed) :=
  if isBelow s.1 n then
    match device.add s.1 >>= printMac vendor with
    | .ok line => .ret (.inl (fl (s.1 + 1), s.2 ++ [line]))
    | .error e => .ret (.inr (s.2, some e))
  else .ret (.inr (s.2, none))

/-- `%x%x:%x%x:%x%x:%x%x:%x%x:%x%x`. -/
def macItems : List (Item UInt8) :=
  [.one isxdigit, .one isxdigit, .one (· = 58), .one isxdigit, .one isxdigit, .one (· = 58),
    .one isxdigit, .one isxdigit, .one (· = 58), .one isxdigit, .one isxdigit, .one (· = 58),
    .one isxdigit, .one isxdigit, .one (· = 58), .one isxdigit, .one isxdigit]

/-- `ar:sub(0, 17):match(...)`. -/
def looksLikeText (ar : Bytes) : Bool := (find macItems (ar.take 17)).isSome

/-- `vendor` and `device`. -/
def readMac (ar : Bytes) : Lua (LuaValue × LuaValue) :=
  if looksLikeText ar then
    let mac := gsub (lit [58]) (fun _ _ => []) (ar.take 17)
    .ok (.text (str "0x" ++ mac.take 6), .text (str "0x" ++ (mac.drop 6).take 6))
  else do
    let vendor ← tohex ar 1 3
    let device ← tohex ar 4 6
    return (.num vendor, .num device)

/-- `n`: the argument as a number, or one. -/
def readCount : Option Bytes → Lua Number
  | none => .ok ⟨false, .finite 1 10 0⟩
  | some count => Lua.get .arithmetic (tonumber count)

/-- The script, with its argument and its input. -/
def baseMac (count : Option Bytes) (ar : Bytes) (fuel : ℕ) : Exec Printed :=
  match readCount count with
  | .error e => .ret ([], some e)
  | .ok n =>
      match readMac ar with
      | .error e => .ret ([], some e)
      | .ok (vendor, device) => Exec.loop (printPass vendor device n) fuel (0, [])

/-! ### Numerals -/

theorem isxdigit_of_isdigit {c : UInt8} (h : isdigit c = true) : isxdigit c = true := by
  have hle : digitVal c = c.toNat - 48 := by rw [digitVal, if_pos h]
  simp only [isdigit, Bool.and_eq_true, decide_eq_true_eq, UInt8.le_iff_toNat_le] at h
  rw [isxdigit, hle, decide_eq_true_eq]
  have h57 : c.toNat ≤ 57 := h.2
  omega

/-- A string of digits has no NUL in it. -/
theorem cstr_xdigits {ds : Bytes} (h : ∀ c ∈ ds, isxdigit c = true) : cstr ds = ds := by
  refine cstr_eq_self fun h0 => ?_
  have hzero := h 0 h0
  revert hzero
  decide

/-- A word is not found where its first letter is not. -/
theorem dropWord_of_head {w s : Bytes} {a c : UInt8} (hw : w.head? = some a) (hs : s.head? = some c)
    (h : tolower c ≠ a) : dropWord w s = none := by
  obtain ⟨w, rfl⟩ := List.head?_eq_some_iff.1 hw
  obtain ⟨s, rfl⟩ := List.head?_eq_some_iff.1 hs
  rw [dropWord, if_neg]
  rw [List.length_cons, List.take_succ_cons, List.map_cons]
  intro heq
  exact h (List.cons_eq_cons.1 heq).1

/-- A digit is no letter, blank or sign. -/
theorem digit_facts {c : UInt8} (h : isdigit c = true) :
    isspace c = false ∧ tolower c = c ∧ c ≠ 45 ∧ c ≠ 43 ∧ c ≠ 105 ∧ c ≠ 110 ∧ c ≠ 120 := by
  have hspace := isspace_of_isdigit h
  simp only [isdigit, Bool.and_eq_true, decide_eq_true_eq, UInt8.le_iff_toNat_le] at h
  have h48 : 48 ≤ c.toNat := h.1
  have h57 : c.toNat ≤ 57 := h.2
  have hupper : isupper c = false := by
    simp only [isupper, Bool.and_eq_false_iff, decide_eq_false_iff_not, UInt8.le_iff_toNat_le]
    left
    show ¬ 65 ≤ c.toNat
    omega
  have hne : ∀ d : UInt8, 57 < d.toNat ∨ d.toNat < 48 → c ≠ d := by
    rintro d hd rfl
    omega
  refine ⟨hspace, by rw [tolower, hupper]; rfl, hne 45 (by decide), hne 43 (by decide),
    hne 105 (by decide), hne 110 (by decide), hne 120 (by decide)⟩

theorem readSign_digit {c : UInt8} {s : Bytes} (h : isdigit c = true) :
    readSign (c :: s) = (false, c :: s) := by
  obtain ⟨-, -, h45, h43, -⟩ := digit_facts h
  rw [readSign]
  · intro t ht
    exact h45 (List.cons_eq_cons.1 ht).1
  · intro t ht
    exact h43 (List.cons_eq_cons.1 ht).1

/-- Digits to the end of the text, without point and exponent. -/
theorem readMantissa_digits {isDigit : UInt8 → Bool} {base step scale : ℕ} {mark : UInt8} {ds : Bytes}
    (hne : ds ≠ []) (h : ∀ c ∈ ds, isDigit c = true) :
    readMantissa isDigit base step scale mark ds = some (.finite (runVal base ds) step 0, []) := by
  have hrun : digitRun isDigit ds = (ds, []) := by
    rw [digitRun, List.takeWhile_eq_self_iff.2 h, List.dropWhile_eq_nil_iff.2 h]
  simp [readMantissa, hrun, hne, readExponent]

/-- A hexadecimal numeral. -/
theorem tonumber_hex {ds : Bytes} (hne : ds ≠ []) (h : ∀ c ∈ ds, isxdigit c = true) :
    tonumber (str "0x" ++ ds) = some ⟨false, .finite (runVal 16 ds) 2 0⟩ := by
  have hcstr : cstr (str "0x" ++ ds) = 48 :: 120 :: ds := by
    show cstr (48 :: 120 :: ds) = _
    rw [cstr, List.takeWhile_cons_of_pos (by decide), List.takeWhile_cons_of_pos (by decide)]
    rw [show ds.takeWhile (· ≠ 0) = ds from cstr_xdigits h]
  have hskip : skipSpaces (48 :: 120 :: ds) = 48 :: 120 :: ds := rfl
  have hsign : readSign (48 :: 120 :: ds) = (false, 48 :: 120 :: ds) := readSign_digit (by decide)
  have hinfinity : dropWord (str "infinity") (48 :: 120 :: ds) = none :=
    dropWord_of_head (a := 105) (c := 48) rfl rfl (by decide)
  have hinf : dropWord (str "inf") (48 :: 120 :: ds) = none :=
    dropWord_of_head (a := 105) (c := 48) rfl rfl (by decide)
  have hnan : dropWord (str "nan") (48 :: 120 :: ds) = none :=
    dropWord_of_head (a := 110) (c := 48) rfl rfl (by decide)
  have hhex : dropWord (str "0x") (48 :: 120 :: ds) = some ds := rfl
  rw [tonumber, hcstr, strtod, hskip, hsign]
  simp only [hinfinity, hinf, hnan, hhex, Option.bind_some, readMantissa_digits hne h]
  rfl

/-- The value of decimal digits. -/
theorem runVal_ten {ds : Bytes} (h : ∀ c ∈ ds, isdigit c = true) : runVal 10 ds = digitsVal ds := by
  have key : ∀ (ds : Bytes) (n : ℕ), (∀ c ∈ ds, isdigit c = true) →
      ds.foldl (fun n c => n * 10 + digitVal c) n =
        ds.foldl (fun acc c => acc * 10 + (c.toNat - 48)) n := by
    intro ds
    induction ds with
    | nil => intro n _; rfl
    | cons c ds ih =>
      intro n h
      obtain ⟨hc, hds⟩ := List.forall_mem_cons.1 h
      rw [List.foldl_cons, List.foldl_cons, ih _ hds, digitVal, if_pos hc]
  exact key ds 0 h

/-- A decimal numeral. -/
theorem tonumber_numeral (n : ℕ) : tonumber (numeral n) = some ⟨false, .finite n 10 0⟩ := by
  have hdigits := numeral_isdigit n
  have hval : runVal 10 (numeral n) = n := by rw [runVal_ten hdigits, digitsVal_numeral]
  obtain ⟨c, ds, hcons⟩ := List.exists_cons_of_ne_nil (numeral_ne n)
  rw [hcons] at hdigits hval ⊢
  obtain ⟨hc, hds⟩ := List.forall_mem_cons.1 hdigits
  obtain ⟨hspace, hlower, -, -, h105, h110, -⟩ := digit_facts hc
  have hcstr : cstr (c :: ds) = c :: ds :=
    cstr_xdigits fun d hd => isxdigit_of_isdigit (hdigits d hd)
  have hskip : skipSpaces (c :: ds) = c :: ds := by
    rw [skipSpaces, List.dropWhile_cons_of_neg (by rw [hspace]; decide)]
  have hinfinity : dropWord (str "infinity") (c :: ds) = none :=
    dropWord_of_head (a := 105) (c := c) rfl rfl (by rw [hlower]; exact h105)
  have hinf : dropWord (str "inf") (c :: ds) = none :=
    dropWord_of_head (a := 105) (c := c) rfl rfl (by rw [hlower]; exact h105)
  have hnan : dropWord (str "nan") (c :: ds) = none :=
    dropWord_of_head (a := 110) (c := c) rfl rfl (by rw [hlower]; exact h110)
  have hhex : dropWord (str "0x") (c :: ds) = none := by
    rw [dropWord, if_neg]
    intro heq
    cases ds with
    | nil =>
      have hlen : 1 = 2 := congrArg List.length heq
      exact absurd hlen (by decide)
    | cons d ds =>
      -- a digit stands where the `x` would be
      obtain ⟨-, hlower, -, -, -, -, h120⟩ := digit_facts (hds d List.mem_cons_self)
      have hx : tolower d = 120 := (List.cons_eq_cons.1 (List.cons_eq_cons.1 heq).2).1
      exact h120 (hlower ▸ hx)
  rw [tonumber, hcstr, strtod, hskip, readSign_digit hc]
  simp only [hinfinity, hinf, hnan, hhex, Option.bind_none,
    readMantissa_digits (List.cons_ne_nil c ds) hdigits, hval]
  rfl

/-- The double of an integer without an exponent. -/
theorem doubleOf_integer {n b : ℕ} (h : n ≤ 2 ^ 53) :
    doubleOf ⟨false, .finite n b 0⟩ = some (n : ℚ) := by
  rw [← fl_natCast h]
  simp [doubleOf]

/-! ### Addresses -/

/-- A byte in two hexadecimal digits. -/
structure HexByte where
  hi : UInt8
  lo : UInt8
  isxdigit_hi : isxdigit hi = true
  isxdigit_lo : isxdigit lo = true

/-- The byte. -/
def HexByte.val (h : HexByte) : ℕ := digitVal h.hi * 16 + digitVal h.lo

theorem HexByte.val_lt (h : HexByte) : h.val < 256 := by
  have hhi : digitVal h.hi < 16 := of_decide_eq_true h.isxdigit_hi
  have hlo : digitVal h.lo < 16 := of_decide_eq_true h.isxdigit_lo
  rw [HexByte.val]
  omega

/-- An address in hexadecimal digits. -/
structure Mac where
  a : HexByte
  b : HexByte
  c : HexByte
  d : HexByte
  e : HexByte
  f : HexByte

/-- The form with colons. -/
def Mac.text (m : Mac) : Bytes :=
  [m.a.hi, m.a.lo, 58, m.b.hi, m.b.lo, 58, m.c.hi, m.c.lo, 58, m.d.hi, m.d.lo, 58, m.e.hi, m.e.lo, 58,
    m.f.hi, m.f.lo]

/-- The form of six bytes. -/
def Mac.bytes (m : Mac) : Bytes :=
  [m.a.val.toUInt8, m.b.val.toUInt8, m.c.val.toUInt8, m.d.val.toUInt8, m.e.val.toUInt8,
    m.f.val.toUInt8]

theorem hexLower_digit : ∀ d < 16, isxdigit (hexLower d) = true ∧ digitVal (hexLower d) = d := by decide

/-- Every byte has two digits. -/
def hexByteOf (x : UInt8) : HexByte where
  hi := hexLower (x.toNat / 16)
  lo := hexLower (x.toNat % 16)
  isxdigit_hi := (hexLower_digit _ (by have hlt := x.toNat_lt; omega)).1
  isxdigit_lo := (hexLower_digit _ (by omega)).1

theorem hexByteOf_val (x : UInt8) : (hexByteOf x).val = x.toNat := by
  have hlt := x.toNat_lt
  have hhi := (hexLower_digit (x.toNat / 16) (by omega)).2
  have hlo := (hexLower_digit (x.toNat % 16) (by omega)).2
  show digitVal (hexLower _) * 16 + digitVal (hexLower _) = _
  rw [hhi, hlo]
  omega

/-- Six bytes are an address. -/
theorem Mac.exists_bytes (a b c d e f : UInt8) : ∃ m : Mac, m.bytes = [a, b, c, d, e, f] := by
  refine ⟨⟨hexByteOf a, hexByteOf b, hexByteOf c, hexByteOf d, hexByteOf e, hexByteOf f⟩, ?_⟩
  rw [Mac.bytes]
  simp only [hexByteOf_val]
  simp

/-- Three bytes as a number. -/
def tripleVal (x y z : ℕ) : ℕ := x * 2 ^ 16 + y * 2 ^ 8 + z

def Mac.vendor (m : Mac) : ℕ := tripleVal m.a.val m.b.val m.c.val

def Mac.device (m : Mac) : ℕ := tripleVal m.d.val m.e.val m.f.val

theorem tripleVal_lt {x y z : ℕ} (hx : x < 256) (hy : y < 256) (hz : z < 256) :
    tripleVal x y z < 2 ^ 24 := by
  rw [tripleVal]
  omega

theorem Mac.vendor_lt (m : Mac) : m.vendor < 2 ^ 24 :=
  tripleVal_lt m.a.val_lt m.b.val_lt m.c.val_lt

/-- The low three bytes of a number, the first one first. -/
def lowBytes (x : ℕ) : List ℕ := [x / 2 ^ 16 % 256, x / 2 ^ 8 % 256, x % 256]

theorem lowBytes_tripleVal {x y z : ℕ} (hx : x < 256) (hy : y < 256) (hz : z < 256) :
    lowBytes (tripleVal x y z) = [x, y, z] := by
  have h1 : tripleVal x y z / 2 ^ 16 % 256 = x := by rw [tripleVal]; omega
  have h2 : tripleVal x y z / 2 ^ 8 % 256 = y := by rw [tripleVal]; omega
  have h3 : tripleVal x y z % 256 = z := by rw [tripleVal]; omega
  rw [lowBytes, h1, h2, h3]

theorem lowBytes_mod (x : ℕ) : lowBytes (x % 2 ^ 24) = lowBytes x := by
  have h1 : x % 2 ^ 24 / 2 ^ 16 % 256 = x / 2 ^ 16 % 256 := by omega
  have h2 : x % 2 ^ 24 / 2 ^ 8 % 256 = x / 2 ^ 8 % 256 := by omega
  have h3 : x % 2 ^ 24 % 256 = x % 256 := by omega
  rw [lowBytes, lowBytes, h1, h2, h3]

/-- Bytes as a line. -/
def macLine (bs : List ℕ) : Bytes := List.intercalate [58] (bs.map hexText)

/-- The address with other low bytes, as a line. -/
def Mac.line (m : Mac) (x : ℕ) : Bytes := macLine ([m.a.val, m.b.val, m.c.val] ++ lowBytes x)

/-- **Both forms of an address give the same `n` lines.**  Line `i` holds the vendor bytes as they are
and the low 24 bits of `device + i`; as long as these do not come again, no line does. -/
def Derives (m : Mac) (n : ℕ) (rest rest' : Bytes) : Prop :=
  ∃ lines : List Bytes,
    Exec.Eventually (baseMac (some (numeral n)) (m.text ++ rest)) (.ret (lines, none)) ∧
    Exec.Eventually (baseMac (some (numeral n)) (m.bytes ++ rest')) (.ret (lines, none)) ∧
    lines.length = n ∧
    (∀ i < n, lines[i]? = some (m.line ((m.device + i) % 2 ^ 24))) ∧
    (n ≤ 2 ^ 24 → lines.Nodup)

/-! ### The two halves -/

theorem exec_macItems (m : Mac) : exec macItems m.text = some ([], []) := by
  simp [exec, macItems, run, Mac.text, HexByte.isxdigit_hi, HexByte.isxdigit_lo]

theorem take_text (m : Mac) (rest : Bytes) : (m.text ++ rest).take 17 = m.text :=
  List.take_left' rfl

theorem ne_colon {c : UInt8} (h : isxdigit c = true) : c ≠ 58 := by
  rintro rfl
  revert h
  decide

theorem gsub_colons (m : Mac) : gsub (lit [58]) (fun _ _ => []) m.text =
    [m.a.hi, m.a.lo, m.b.hi, m.b.lo, m.c.hi, m.c.lo, m.d.hi, m.d.lo, m.e.hi, m.e.lo, m.f.hi, m.f.lo] := by
  have hhi : ∀ h : HexByte, h.hi ≠ 58 := fun h => ne_colon h.isxdigit_hi
  have hlo : ∀ h : HexByte, h.lo ≠ 58 := fun h => ne_colon h.isxdigit_lo
  rw [gsub_lit_singleton, Mac.text]
  simp [hhi, hlo]

/-- A half of the text as a number. -/
theorem number_text (x y z : HexByte) :
    (LuaValue.text (str "0x" ++ [x.hi, x.lo, y.hi, y.lo, z.hi, z.lo])).number =
      .ok (tripleVal x.val y.val z.val : ℕ) := by
  have hdigits : ∀ c ∈ [x.hi, x.lo, y.hi, y.lo, z.hi, z.lo], isxdigit c = true := by
    simp [HexByte.isxdigit_hi, HexByte.isxdigit_lo]
  have hval : runVal 16 [x.hi, x.lo, y.hi, y.lo, z.hi, z.lo] = tripleVal x.val y.val z.val := by
    simp only [runVal, List.foldl_cons, List.foldl_nil, tripleVal, HexByte.val]
    omega
  have hle : tripleVal x.val y.val z.val ≤ 2 ^ 53 :=
    (tripleVal_lt x.val_lt y.val_lt z.val_lt).le.trans (by norm_num)
  rw [LuaValue.number, tonumber_hex (by simp) hdigits, hval, Option.bind_some, doubleOf_integer hle]
  rfl

/-- One more byte behind a number. -/
theorem fl_push {n b : ℕ} (h : n * 256 + b ≤ 2 ^ 53) :
    fl (fl ((n : ℚ) * 0x100) + b) = (n * 256 + b : ℕ) := by
  have hmul : fl ((n : ℚ) * 0x100) = (n * 256 : ℕ) := by
    rw [← fl_natCast (le_of_add_le_left h)]
    push_cast
    rfl
  rw [hmul, ← fl_natCast h]
  push_cast
  rfl

/-- Three bytes read one after the other. -/
theorem tohex_eq {ar : Bytes} {f : ℕ} {x y z : UInt8} (hx : ar[f - 1]? = some x)
    (hy : ar[f + 1 - 1]? = some y) (hz : ar[f + 2 - 1]? = some z) :
    tohex ar f (f + 2) = .ok (tripleVal x.toNat y.toNat z.toNat : ℕ) := by
  have hrange : List.range' f (f + 2 + 1 - f) = [f, f + 1, f + 2] := by
    rw [show f + 2 + 1 - f = 3 by omega]
    rfl
  have hxlt := x.toNat_lt
  have hylt := y.toNat_lt
  have hzlt := z.toNat_lt
  have h1 := fl_push (n := 0) (b := x.toNat) (by omega)
  have h2 := fl_push (n := 0 * 256 + x.toNat) (b := y.toNat) (by omega)
  have h3 := fl_push (n := (0 * 256 + x.toNat) * 256 + y.toNat) (b := z.toNat) (by omega)
  rw [Nat.cast_zero] at h1
  have hval : ((0 * 256 + x.toNat) * 256 + y.toNat) * 256 + z.toNat =
      tripleVal x.toNat y.toNat z.toNat := by
    rw [tripleVal]
    omega
  rw [tohex, hrange, ← hval, ← h3, ← h2, ← h1]
  simp only [List.foldlM_cons, List.foldlM_nil, hx, hy, hz]
  rfl

theorem readMac_text (m : Mac) (rest : Bytes) : ∃ vendor device,
    readMac (m.text ++ rest) = .ok (vendor, device) ∧ vendor.number = .ok (m.vendor : ℚ) ∧
      device.number = .ok (m.device : ℚ) := by
  have hlooks : looksLikeText (m.text ++ rest) = true := by
    rw [looksLikeText, take_text, find_of_exec (exec_macItems m)]
    rfl
  refine ⟨_, _, ?_, number_text m.a m.b m.c, number_text m.d m.e m.f⟩
  rw [readMac, if_pos hlooks, take_text, gsub_colons]
  rfl

theorem HexByte.toNat_toUInt8 (h : HexByte) : h.val.toUInt8.toNat = h.val :=
  (UInt8.toNat_ofNat' (n := h.val)).trans (Nat.mod_eq_of_lt h.val_lt)

theorem readMac_bytes (m : Mac) (rest : Bytes) (h : looksLikeText (m.bytes ++ rest) = false) :
    ∃ vendor device, readMac (m.bytes ++ rest) = .ok (vendor, device) ∧
      vendor.number = .ok (m.vendor : ℚ) ∧ device.number = .ok (m.device : ℚ) := by
  have hvendor : tohex (m.bytes ++ rest) 1 3 = .ok (m.vendor : ℚ) := by
    rw [tohex_eq (f := 1) (x := m.a.val.toUInt8) (y := m.b.val.toUInt8) (z := m.c.val.toUInt8) rfl rfl rfl]
    simp only [HexByte.toNat_toUInt8, Mac.vendor]
  have hdevice : tohex (m.bytes ++ rest) 4 6 = .ok (m.device : ℚ) := by
    rw [tohex_eq (f := 4) (x := m.d.val.toUInt8) (y := m.e.val.toUInt8) (z := m.f.val.toUInt8) rfl rfl rfl]
    simp only [HexByte.toNat_toUInt8, Mac.device]
  refine ⟨.num m.vendor, .num m.device, ?_, rfl, rfl⟩
  rw [readMac, if_neg (by rw [h]; decide), hvendor, hdevice]
  rfl

/-! ### A line -/

/-- The bytes of a number that is exact. -/
theorem byteAt_eq {n : ℕ} (h : n ≤ 2 ^ 53) (k : ℕ) : byteAt n (2 ^ k) = hexText (n / 2 ^ k % 256) := by
  have hmod : mod (n / 2 ^ k) 0x100 = ((n % 2 ^ (k + 8) : ℕ) : ℚ) / 2 ^ k := by
    rw [show (0x100 : ℚ) = 2 ^ 8 by norm_num]
    exact mod_pow_two h k 8
  have hfloor : ⌊((n % 2 ^ (k + 8) : ℕ) : ℚ) / 2 ^ k⌋ = ((n / 2 ^ k % 256 : ℕ) : ℤ) := by
    have hcast : ((n % 2 ^ (k + 8) : ℕ) : ℚ) / 2 ^ k =
        ((n % 2 ^ (k + 8) : ℕ) : ℚ) / ((2 ^ k : ℕ) : ℚ) := by push_cast; rfl
    have hdiv : n % 2 ^ (k + 8) / 2 ^ k = n / 2 ^ k % 256 := by
      rw [pow_add, Nat.mod_mul_right_div_self]
      rfl
    rw [hcast, Rat.floor_natCast_div_natCast, ← hdiv]
    norm_cast
  rw [byteAt, formatX, div_pow_two h, hmod, hfloor, Int.toNat_natCast]

theorem printMac_eq {vendor device : LuaValue} {v d : ℕ} (hv : vendor.number = .ok (v : ℚ))
    (hd : device.number = .ok (d : ℚ)) (hvle : v ≤ 2 ^ 53) (hdle : d ≤ 2 ^ 53) :
    printMac vendor device = .ok (macLine (lowBytes v ++ lowBytes d)) := by
  have hbytes : ∀ n : ℕ, n ≤ 2 ^ 53 → byteAt n 0x10000 = hexText (n / 2 ^ 16 % 256) ∧
      byteAt n 0x00100 = hexText (n / 2 ^ 8 % 256) ∧ byteAt n 0x00001 = hexText (n % 256) := by
    intro n hn
    refine ⟨?_, ?_, ?_⟩
    · rw [← byteAt_eq hn 16]
      norm_num
    · rw [← byteAt_eq hn 8]
      norm_num
    · rw [← Nat.div_one n, ← pow_zero 2, ← byteAt_eq hn 0]
      norm_num
  obtain ⟨hv1, hv2, hv3⟩ := hbytes v hvle
  obtain ⟨hd1, hd2, hd3⟩ := hbytes d hdle
  rw [printMac, hv, hd]
  show Except.ok _ = _
  rw [hv1, hv2, hv3, hd1, hd2, hd3]
  simp [macLine, lowBytes, List.intercalate]

theorem lowBytes_vendor (m : Mac) : lowBytes m.vendor = [m.a.val, m.b.val, m.c.val] :=
  lowBytes_tripleVal m.a.val_lt m.b.val_lt m.c.val_lt

/-! ### The loop -/

/-- **The lines of the loop**, with `k` of them still to come. -/
theorem loop_prints {vendor device : LuaValue} {m : Mac} {x : Number} {n : ℕ}
    (hv : vendor.number = .ok (m.vendor : ℚ)) (hd : device.number = .ok (m.device : ℚ))
    (hx : doubleOf x = some (n : ℚ)) (hn : n ≤ 2 ^ 53) (hdn : m.device + n ≤ 2 ^ 53 + 1) :
    ∀ (k i : ℕ) (lines : List Bytes), i + k = n →
      Exec.Eventually (fun fuel => Exec.loop (printPass vendor device x) fuel (i, lines))
        (.ret (lines ++ (List.range' i k).map (fun i => m.line ((m.device + i) % 2 ^ 24)), none)) := by
  intro k
  induction k with
  | zero =>
    intro i lines hi
    have hbelow : isBelow (i : ℚ) x = false := by
      rw [isBelow, hx]
      simp [show i = n from hi]
    refine Exec.Eventually.loop_done ?_
    rw [printPass, if_neg (by rw [hbelow]; decide)]
    simp
  | succ k ih =>
    intro i lines hi
    have hbelow : isBelow (i : ℚ) x = true := by
      rw [isBelow, hx]
      simpa using (by omega : i < n)
    have hdi : m.device + i ≤ 2 ^ 53 := by omega
    have hadd : device.add i = .ok (.num ((m.device + i : ℕ) : ℚ)) := by
      rw [LuaValue.add, hd, ← fl_natCast hdi]
      push_cast
      rfl
    have hvle : m.vendor ≤ 2 ^ 53 := m.vendor_lt.le.trans (by norm_num)
    have hline : (device.add i >>= printMac vendor) =
        .ok (m.line ((m.device + i) % 2 ^ 24)) := by
      rw [hadd, Mac.line, lowBytes_mod, ← lowBytes_vendor]
      exact printMac_eq hv rfl hvle hdi
    have hnext : fl ((i : ℚ) + 1) = ((i + 1 : ℕ) : ℚ) := by
      rw [← fl_natCast (n := i + 1) (by omega)]
      push_cast
      rfl
    have hrest := ih (i + 1) (lines ++ [m.line ((m.device + i) % 2 ^ 24)]) (by omega)
    have hpass : printPass vendor device x (i, lines) =
        .ret (.inl (((i + 1 : ℕ) : ℚ), lines ++ [m.line ((m.device + i) % 2 ^ 24)])) := by
      rw [printPass, if_pos hbelow, hline, ← hnext]
    rw [List.range'_succ, List.map_cons, List.append_cons]
    exact Exec.Eventually.loop_next hpass hrest

/-! ### Different lines -/

/-- The two digits of a byte. -/
theorem hexText_eq {n : ℕ} (h : n < 256) : hexText n = [hexLower (n / 16), hexLower (n % 16)] := by
  rcases Nat.lt_or_ge n 16 with hlt | hge
  · rcases Nat.eq_zero_or_pos n with rfl | hpos
    · rfl
    · have hdigits : Nat.digits 16 n = [n] := Nat.digits_of_lt 16 n hpos.ne' hlt
      rw [hexText, hdigits, Nat.div_eq_of_lt hlt, Nat.mod_eq_of_lt hlt]
      rfl
  · have hquot : n / 16 < 16 := by omega
    have hdigits : Nat.digits 16 n = [n % 16, n / 16] := by
      rw [Nat.digits_def' (by decide) (by omega), Nat.digits_of_lt 16 _ (by omega) hquot]
    rw [hexText, hdigits]
    rfl

theorem hexLower_inj : ∀ a < 16, ∀ b < 16, hexLower a = hexLower b → a = b := by decide

theorem hexText_inj {m n : ℕ} (hm : m < 256) (hn : n < 256) (h : hexText m = hexText n) : m = n := by
  rw [hexText_eq hm, hexText_eq hn] at h
  obtain ⟨hhi, hlo⟩ := List.cons_eq_cons.1 h
  have hquot := hexLower_inj (m / 16) (by omega) (n / 16) (by omega) hhi
  have hrem := hexLower_inj (m % 16) (by omega) (n % 16) (by omega) (List.cons_eq_cons.1 hlo).1
  omega

theorem length_hexText {n : ℕ} (h : n < 256) : (hexText n).length = 2 := by
  rw [hexText_eq h]
  rfl

/-- A line shows its low bytes. -/
theorem Mac.line_inj {m : Mac} {x y : ℕ} (hx : x < 2 ^ 24) (hy : y < 2 ^ 24)
    (h : m.line x = m.line y) : x = y := by
  have hlt : ∀ n : ℕ, n % 256 < 256 := fun n => Nat.mod_lt n (by decide)
  have hhead : ∀ bs : List ℕ, macLine ([m.a.val, m.b.val, m.c.val] ++ bs) =
      hexText m.a.val ++ 58 :: (hexText m.b.val ++ 58 :: (macLine (m.c.val :: bs))) := by
    intro bs
    simp [macLine, List.intercalate]
  rw [Mac.line, Mac.line, hhead, hhead, List.append_cancel_left_eq, List.cons_inj_right,
    List.append_cancel_left_eq, List.cons_inj_right] at h
  simp only [macLine, lowBytes, List.intercalate, List.map_cons, List.map_nil,
    List.intersperse_cons_cons, List.intersperse_singleton, List.flatten_cons, List.flatten_nil,
    List.append_nil, List.append_cancel_left_eq, List.singleton_append, List.cons_inj_right] at h
  -- byte by byte
  obtain ⟨h1, h⟩ := List.append_inj h (by rw [length_hexText (hlt _), length_hexText (hlt _)])
  obtain ⟨h2, h⟩ := List.append_inj (List.cons_eq_cons.1 h).2
    (by rw [length_hexText (hlt _), length_hexText (hlt _)])
  have h3 := (List.cons_eq_cons.1 h).2
  have hb1 := hexText_inj (hlt _) (hlt _) h1
  have hb2 := hexText_inj (hlt _) (hlt _) h2
  have hb3 := hexText_inj (hlt _) (hlt _) h3
  omega

/-! ### Both forms -/

/-- The run on an address that has been read. -/
theorem baseMac_of_readMac {m : Mac} {n k : ℕ} {ar : Bytes} (h : ∃ vendor device,
      readMac ar = .ok (vendor, device) ∧ vendor.number = .ok (m.vendor : ℚ) ∧
        device.number = .ok (m.device : ℚ))
    (hk : doubleOf ⟨false, .finite n 10 0⟩ = some (k : ℚ)) (hle : k ≤ 2 ^ 53)
    (hdk : m.device + k ≤ 2 ^ 53 + 1) :
    Exec.Eventually (baseMac (some (numeral n)) ar)
      (.ret ((List.range k).map (fun i => m.line ((m.device + i) % 2 ^ 24)), none)) := by
  obtain ⟨vendor, device, hread, hv, hd⟩ := h
  have hcount : readCount (some (numeral n)) = .ok ⟨false, .finite n 10 0⟩ := by
    rw [readCount, tonumber_numeral]
    rfl
  have hrun := loop_prints hv hd hk hle hdk k 0 [] (Nat.zero_add k)
  rw [List.nil_append, ← List.range_eq_range', Nat.cast_zero] at hrun
  have hbody : baseMac (some (numeral n)) ar =
      fun fuel => Exec.loop (printPass vendor device ⟨false, .finite n 10 0⟩) fuel (0, []) := by
    funext fuel
    rw [baseMac, hcount]
    show (match readMac ar with
      | .error e => Exec.ret ([], some e)
      | .ok (vendor, device) => _) = _
    rw [hread]
  rw [hbody]
  exact hrun

/-- **Both forms give the same lines, as long as no number gets past `2 ^ 53`.** -/
theorem derives_of_le (m : Mac) (n : ℕ) (rest rest' : Bytes)
    (hbinary : find macItems ((m.bytes ++ rest').take 17) = none) (hn : n ≤ 2 ^ 53)
    (hdn : m.device + n ≤ 2 ^ 53 + 1) : Derives m n rest rest' := by
  have hlooks : looksLikeText (m.bytes ++ rest') = false := by
    rw [looksLikeText, hbinary]
    rfl
  have hdouble := doubleOf_integer (b := 10) hn
  refine ⟨(List.range n).map fun i => m.line ((m.device + i) % 2 ^ 24),
    baseMac_of_readMac (readMac_text m rest) hdouble hn hdn,
    baseMac_of_readMac (readMac_bytes m rest' hlooks) hdouble hn hdn, ?_, ?_, ?_⟩
  · rw [List.length_map, List.length_range]
  · intro i hi
    rw [List.getElem?_map, List.getElem?_range hi]
    rfl
  · intro hle
    refine List.Nodup.map_on ?_ List.nodup_range
    intro i hi j hj heq
    have hi' := List.mem_range.1 hi
    have hj' := List.mem_range.1 hj
    have hmod := Mac.line_inj (Nat.mod_lt _ (by decide)) (Nat.mod_lt _ (by decide)) heq
    omega

/-- The address `1c:af:f7:ff:ff:fe`. -/
def wrapMac : Mac where
  a := ⟨49, 99, by decide, by decide⟩
  b := ⟨97, 102, by decide, by decide⟩
  c := ⟨102, 55, by decide, by decide⟩
  d := ⟨102, 102, by decide, by decide⟩
  e := ⟨102, 102, by decide, by decide⟩
  f := ⟨102, 101, by decide, by decide⟩

theorem wrapMac_device : wrapMac.device = 2 ^ 24 - 2 := by decide

/-- The third line starts again at zero, under the same vendor. -/
theorem derives_of_le_wrap : Derives wrapMac 3 (str "XX") [] ∧
    wrapMac.line ((wrapMac.device + 2) % 2 ^ 24) = str "1c:af:f7:00:00:00" := by
  refine ⟨derives_of_le wrapMac 3 (str "XX") [] (by decide) (by norm_num) ?_, by decide⟩
  rw [wrapMac_device]
  norm_num

/-- The address of zeros. -/
def zeroMac : Mac :=
  let zero : HexByte := ⟨48, 48, by decide, by decide⟩
  ⟨zero, zero, zero, zero, zero, zero⟩

theorem zeroMac_device : zeroMac.device = 0 := rfl

/-- The count `2 ^ 53 + 1` is taken for `2 ^ 53`, so that a line is missing. -/
theorem not_derives_past : ¬ Derives zeroMac (2 ^ 53 + 1) [] [] := by
  rintro ⟨lines, htext, -, hlen, -⟩
  have hdouble : doubleOf ⟨false, .finite (2 ^ 53 + 1) 10 0⟩ = some ((2 ^ 53 : ℕ) : ℚ) := by
    have htie := fl_tie
    rw [doubleOf]
    norm_num at htie ⊢
    exact htie
  have hrun := baseMac_of_readMac (readMac_text zeroMac []) hdouble le_rfl
    (by norm_num [zeroMac_device])
  have heq := Exec.ret.inj (htext.unique hrun)
  have hlen' := congrArg (fun p : Printed => p.1.length) heq
  simp only [List.length_map, List.length_range, hlen] at hlen'
  omega

end ZRouter.Web
