import ZRouter.Lib.Lua
import ZRouter.Lib.Pattern
import ZRouter.Lib.Prefix

/-!
# Subnets (`ipcalc.lua`, `bit.lua`)

The numbers of Lua are doubles.  All that occur here are exact, so they are rational numbers; a division
gives a fraction, which `%d` cuts off.

* `luaMod`, `formatD`, `hasbit`, `andL`, `dotted`: the arithmetic;
* `parseCidr`, `subnet`, `cidrToNet`;
* `andL_toNat`, `dotted_toNat`: what they do on 32-bit numbers;
* `cidrToNet_prefix`: an address with the length of a prefix;
* `not_notationsAgree`: an address with a dotted mask.
-/

namespace ZRouter.Web

open Pattern Prefix

/-! ### Arithmetic -/

/-- `a % b`. -/
def luaMod (a b : ℚ) : ℚ := a - ⌊a / b⌋ * b

/-- A numeral of a number. -/
def numeral (n : ℕ) : Bytes := if n = 0 then str "0" else decimal n

/-- `%d` of `string.format`, which cuts off a fraction. -/
def formatD (x : ℚ) : Bytes := (if x ≤ -1 then str "-" else []) ++ numeral ⌊|x|⌋.toNat

/-- `bit`. -/
def bit (p : ℤ) : ℚ := 2 ^ (p - 1)

/-- `hasbit`. -/
def hasbit (x p : ℚ) : Bool := p ≤ luaMod x (p + p)

/-- One pass of the loop of `andL`. -/
def andStep (x y o : ℚ) (i : ℕ) : ℚ :=
  if hasbit x (bit i) && hasbit y (bit i) then o + bit i else o

/-- `andL`. -/
def andL (x y : ℚ) : ℚ := (List.range' 1 32).foldl (andStep x y) 0

/-- `bits_to_hostmask`, for the text of a number, or for `nil`. -/
def bitsToHostmask (b : Option Bytes) : Lua ℚ :=
  (Lua.get .arithmetic b).map fun b => 2 ^ (32 - (digitsVal b : ℤ)) - 1

/-- `bits_to_netmask`. -/
def bitsToNetmask (b : Option Bytes) : Lua ℚ := (bitsToHostmask b).map fun h => 2 ^ 32 - 1 - h

/-- `dotted`. -/
def dotted (i : ℚ) : Bytes :=
  let r1 := luaMod i 256
  let l1 := i / 256
  let r2 := luaMod l1 256
  let l2 := l1 / 256
  let r3 := luaMod l2 256
  let l3 := l2 / 256
  let r4 := luaMod l3 256
  formatD r4 ++ 46 :: (formatD r3 ++ 46 :: (formatD r2 ++ 46 :: formatD r1))

/-- `toint`. -/
def toint (i1 i2 i3 i4 : Bytes) : ℚ :=
  digitsVal i1 * 2 ^ 24 + digitsVal i2 * 2 ^ 16 + digitsVal i3 * 2 ^ 8 + digitsVal i4

/-! ### `cidr_to_net` -/

/-- `(%d+)%.(%d+)%.(%d+)%.(%d+)`. -/
def quadItems (is : List (Item UInt8)) : List (Item UInt8) :=
  .opens :: .plus isdigit :: .closes :: .one (· = 46) :: .opens :: .plus isdigit :: .closes ::
    .one (· = 46) :: .opens :: .plus isdigit :: .closes :: .one (· = 46) :: .opens :: .plus isdigit ::
      .closes :: is

/-- The pattern for a prefix. -/
def prefixItems : List (Item UInt8) :=
  quadItems [.one (· = 47), .opens, .plus isdigit, .closes, .atEnd]

/-- The pattern for a dotted mask. -/
def maskItems : List (Item UInt8) := quadItems (.one (· = 47) :: quadItems [.atEnd])

/-- The fields of `r` before the arithmetic. -/
structure Parsed where
  ip : ℚ
  bits : Option Bytes
  net : Option ℚ

/-- The fields of `r`. -/
structure Net where
  cidr : Bytes
  bits : Option Bytes
  mask : Bytes
  net : Bytes
  host : Bytes
  broadcast : Bytes
  ip : Bytes
deriving DecidableEq

/-- Both notations.  The dotted mask goes to the field `net`, and there are no `bits`. -/
def parseCidr (cidr : Bytes) : Option Parsed :=
  match exec prefixItems cidr with
  | some ([i1, i2, i3, i4, bits], _) => some ⟨toint i1 i2 i3 i4, some bits, none⟩
  | _ =>
      match exec maskItems cidr with
      | some ([i1, i2, i3, i4, m1, m2, m3, m4], _) =>
          some ⟨toint i1 i2 i3 i4, none, some (toint m1 m2 m3 m4)⟩
      | _ => none

/-- The fields that are computed.  Every field is overwritten, also `net`. -/
def subnet (cidr : Bytes) (r : Parsed) : Lua Net := do
  let netmask ← bitsToNetmask r.bits
  let hostmask ← bitsToHostmask r.bits
  return {
    cidr
    bits := r.bits
    mask := dotted netmask
    net := dotted (andL r.ip netmask)
    host := dotted (andL r.ip hostmask)
    broadcast := dotted (andL r.ip netmask + hostmask)
    ip := dotted r.ip }

/-- `cidr_to_net`; the result is `nil` for a text in neither notation. -/
def cidrToNet (cidr : Bytes) : Lua (Option Net) :=
  match parseCidr cidr with
  | none => .ok none
  | some r => (subnet cidr r).map some

/-! ### Written addresses -/

/-- A number up to a bound, in digits. -/
structure Digits (bound : ℕ) where
  text : Bytes
  text_ne : text ≠ []
  digits : ∀ c ∈ text, isdigit c = true
  le : digitsVal text ≤ bound

/-- The number. -/
def Digits.val {bound : ℕ} (d : Digits bound) : ℕ := digitsVal d.text

/-- Four octets. -/
structure Quad where
  a : Digits 255
  b : Digits 255
  c : Digits 255
  d : Digits 255

/-- How an address is written. -/
def Quad.text (q : Quad) : Bytes := q.a.text ++ 46 :: (q.b.text ++ 46 :: (q.c.text ++ 46 :: q.d.text))

/-- Its octets, without leading zeros. -/
def Quad.plain (q : Quad) : Bytes :=
  numeral q.a.val ++ 46 :: (numeral q.b.val ++ 46 :: (numeral q.c.val ++ 46 :: numeral q.d.val))

/-- Its number. -/
def Quad.val (q : Quad) : ℕ := q.a.val * 2 ^ 24 + q.b.val * 2 ^ 16 + q.c.val * 2 ^ 8 + q.d.val

/-- Its bits. -/
def Quad.bits (q : Quad) : BitVec 32 := BitVec.ofNat 32 q.val

/-- A 32-bit number in four octets. -/
def quadText (x : BitVec 32) : Bytes :=
  numeral (x.toNat / 2 ^ 24 % 256) ++ 46 :: (numeral (x.toNat / 2 ^ 16 % 256) ++
    46 :: (numeral (x.toNat / 2 ^ 8 % 256) ++ 46 :: numeral (x.toNat % 256)))

theorem Quad.val_lt (q : Quad) : q.val < 2 ^ 32 := by
  have ha : q.a.val ≤ 255 := q.a.le
  have hb : q.b.val ≤ 255 := q.b.le
  have hc : q.c.val ≤ 255 := q.c.le
  have hd : q.d.val ≤ 255 := q.d.le
  rw [Quad.val]
  omega

theorem Quad.bits_toNat (q : Quad) : q.bits.toNat = q.val := by
  rw [Quad.bits, BitVec.toNat_ofNat, Nat.mod_eq_of_lt q.val_lt]

/-- The octets of the number are the octets of the address. -/
theorem quadText_bits (q : Quad) : quadText q.bits = q.plain := by
  have ha : q.a.val ≤ 255 := q.a.le
  have hb : q.b.val ≤ 255 := q.b.le
  have hc : q.c.val ≤ 255 := q.c.le
  have hd : q.d.val ≤ 255 := q.d.le
  have h3 : q.val / 2 ^ 24 % 256 = q.a.val := by rw [Quad.val]; omega
  have h2 : q.val / 2 ^ 16 % 256 = q.b.val := by rw [Quad.val]; omega
  have h1 : q.val / 2 ^ 8 % 256 = q.c.val := by rw [Quad.val]; omega
  have h0 : q.val % 256 = q.d.val := by rw [Quad.val]; omega
  rw [quadText, Quad.bits_toNat, h3, h2, h1, h0, Quad.plain]

theorem numeral_ne (n : ℕ) : numeral n ≠ [] := by
  rw [numeral]
  split_ifs with h
  · decide
  · exact decimal_ne_nil (Nat.pos_of_ne_zero h)

theorem numeral_isdigit (n : ℕ) : ∀ c ∈ numeral n, isdigit c = true := by
  rw [numeral]
  split_ifs with h
  · decide +kernel
  · exact decimal_isdigit n

theorem digitsVal_numeral (n : ℕ) : digitsVal (numeral n) = n := by
  rw [numeral]
  split_ifs with h
  · subst h
    decide
  · exact digitsVal_decimal n

/-- The octet of a number. -/
def octetOf (n : ℕ) : Digits 255 :=
  ⟨numeral (n % 256), numeral_ne _, numeral_isdigit _, by rw [digitsVal_numeral]; omega⟩

/-- The address of a number. -/
def quadOf (x : BitVec 32) : Quad :=
  ⟨octetOf (x.toNat / 2 ^ 24), octetOf (x.toNat / 2 ^ 16), octetOf (x.toNat / 2 ^ 8), octetOf x.toNat⟩

theorem quadOf_text (x : BitVec 32) : (quadOf x).text = quadText x := rfl

/-! ### Reading an address -/

/-- Items in front of which no digit stands. -/
def NoDigit (is : List (Item UInt8)) : Prop :=
  ∀ start caps c t, isdigit c = true → Pattern.run is start caps (c :: t) = none

theorem noDigit_one {x : UInt8} (hx : isdigit x = false) (is : List (Item UInt8)) :
    NoDigit (.one (· = x) :: is) := by
  intro start caps c t hc
  have hne : c ≠ x := by
    rintro rfl
    rw [hc] at hx
    cases hx
  rw [Pattern.run, if_neg (by simpa using hne)]

theorem noDigit_atEnd : NoDigit [.atEnd] := fun _ _ _ _ _ => rfl

/-- A number and the byte behind it. -/
theorem run_digits_one {bound : ℕ} (d : Digits bound) {x : UInt8} (hx : isdigit x = false)
    (is : List (Item UInt8)) (start : Bytes) (caps : List Bytes) (rest : Bytes) :
    Pattern.run (.opens :: .plus isdigit :: .closes :: .one (· = x) :: is) start caps
        (d.text ++ x :: rest) =
      Pattern.run is (d.text ++ x :: rest) (caps ++ [d.text]) rest := by
  have hstop : ∀ c ∈ (x :: rest).head?, isdigit c = false := by
    intro c hc
    rw [List.head?_cons, Option.mem_some_iff] at hc
    rwa [← hc]
  rw [run_plus_capture d.text_ne d.digits hstop (noDigit_one hx is), Pattern.run, if_pos (by simp)]

/-- Four octets. -/
theorem run_quad (q : Quad) {is : List (Item UInt8)} (his : NoDigit is) {rest : Bytes}
    (hrest : ∀ c ∈ rest.head?, isdigit c = false) (start : Bytes) (caps : List Bytes) :
    Pattern.run (quadItems is) start caps (q.text ++ rest) =
      Pattern.run is (q.d.text ++ rest) (caps ++ [q.a.text, q.b.text, q.c.text, q.d.text]) rest := by
  have htext : q.text ++ rest = q.a.text ++ 46 :: (q.b.text ++ 46 :: (q.c.text ++ 46 ::
      (q.d.text ++ rest))) := by simp [Quad.text]
  rw [htext, quadItems, run_digits_one q.a rfl, run_digits_one q.b rfl, run_digits_one q.c rfl,
    run_plus_capture q.d.text_ne q.d.digits hrest his]
  simp

/-- An address with the length of a prefix. -/
theorem exec_prefix {bound : ℕ} (q : Quad) (len : Digits bound) :
    exec prefixItems (q.text ++ 47 :: len.text) =
      some ([q.a.text, q.b.text, q.c.text, q.d.text, len.text], []) := by
  rw [exec, prefixItems, run_quad q (noDigit_one rfl _) (by simp [isdigit]), Pattern.run,
    if_pos (by simp), ← List.append_nil len.text,
    run_plus_capture len.text_ne len.digits (by simp) noDigit_atEnd]
  simp [Pattern.run]

/-- A dotted mask is not the length of a prefix. -/
theorem exec_prefix_quad (q m : Quad) : exec prefixItems (q.text ++ 47 :: m.text) = none := by
  rw [exec, prefixItems, run_quad q (noDigit_one rfl _) (by simp [isdigit]), Pattern.run,
    if_pos (by simp), Quad.text,
    run_plus_capture m.a.text_ne m.a.digits (by simp [isdigit]) noDigit_atEnd]
  rfl

/-- An address with a dotted mask. -/
theorem exec_mask (q m : Quad) : exec maskItems (q.text ++ 47 :: m.text) =
    some ([q.a.text, q.b.text, q.c.text, q.d.text, m.a.text, m.b.text, m.c.text, m.d.text], []) := by
  rw [exec, maskItems, run_quad q (noDigit_one rfl _) (by simp [isdigit]), Pattern.run,
    if_pos (by simp), ← List.append_nil m.text, run_quad m noDigit_atEnd (by simp)]
  simp [Pattern.run]

/-! ### Bits -/

theorem luaMod_natCast (x m : ℕ) : luaMod x m = (x % m : ℕ) := by
  have hdivmod : ((m * (x / m) + x % m : ℕ) : ℚ) = x := congrArg Nat.cast (Nat.div_add_mod x m)
  rw [luaMod, Rat.floor_natCast_div_natCast, ← Int.natCast_div, Int.cast_natCast]
  push_cast at hdivmod
  linarith

theorem bit_succ (i : ℕ) : bit (i + 1 : ℕ) = (2 ^ i : ℕ) := by
  rw [bit, Nat.cast_add, Nat.cast_one, add_sub_cancel_right, zpow_natCast]
  push_cast
  rfl

/-- `hasbit` tests a bit. -/
theorem hasbit_bit (x i : ℕ) : hasbit x (bit (i + 1 : ℕ)) = x.testBit i := by
  have hdouble : ((2 ^ i : ℕ) : ℚ) + (2 ^ i : ℕ) = (2 ^ (i + 1) : ℕ) := by
    push_cast
    ring
  have hmod : x % 2 ^ (i + 1) = x % 2 ^ i + 2 ^ i * (x / 2 ^ i % 2) := Nat.mod_pow_succ
  have hlt : x % 2 ^ i < 2 ^ i := Nat.mod_lt _ (Nat.two_pow_pos i)
  rw [hasbit, bit_succ, hdouble, luaMod_natCast, Nat.testBit_eq_decide_div_mod_eq, decide_eq_decide,
    Nat.cast_le, hmod]
  rcases Nat.mod_two_eq_zero_or_one (x / 2 ^ i) with h | h
  · rw [h]
    omega
  · rw [h]
    omega

/-- The loop of `andL` after so many bits. -/
theorem foldl_andStep (x y n : ℕ) :
    (List.range' 1 n).foldl (andStep x y) 0 = ((x &&& y) % 2 ^ n : ℕ) := by
  induction n with
  | zero =>
    rw [pow_zero, Nat.mod_one]
    rfl
  | succ n ih =>
    rw [List.range'_1_concat, List.foldl_append, ih, List.foldl_cons, List.foldl_nil, Nat.add_comm 1 n,
      andStep, hasbit_bit, hasbit_bit, ← Nat.testBit_and, bit_succ, Nat.testBit_eq_decide_div_mod_eq,
      Nat.mod_pow_succ]
    rcases Nat.mod_two_eq_zero_or_one ((x &&& y) / 2 ^ n) with h | h
    · simp [h]
    · simp [h]

/-- **`andL` is the bitwise conjunction** of 32-bit numbers. -/
theorem andL_toNat (x y : BitVec 32) : andL x.toNat y.toNat = ((x &&& y).toNat : ℕ) := by
  rw [andL, foldl_andStep, ← BitVec.toNat_and, Nat.mod_eq_of_lt (x &&& y).isLt]

theorem floor_luaMod (q : ℚ) : ⌊luaMod q 256⌋ = ⌊q⌋ % 256 := by
  have hdiv : ⌊q / 256⌋ = ⌊q⌋ / 256 := by exact_mod_cast Int.floor_div_natCast q 256
  have hcast : luaMod q 256 = q - ((⌊q⌋ / 256 * 256 : ℤ) : ℚ) := by
    rw [luaMod, hdiv]
    push_cast
    rfl
  rw [hcast, Int.floor_sub_intCast, Int.emod_def, mul_comm]

/-- An octet of `dotted`. -/
theorem formatD_luaMod {q : ℚ} {n : ℕ} (hq : ⌊q⌋ = n) : formatD (luaMod q 256) = numeral (n % 256) := by
  have hfloor : ⌊luaMod q 256⌋ = (n % 256 : ℕ) := by
    rw [floor_luaMod, hq]
    rfl
  have hnonneg : 0 ≤ luaMod q 256 := by
    rw [← Int.floor_nonneg, hfloor]
    exact Int.natCast_nonneg _
  rw [formatD, if_neg (by linarith), abs_of_nonneg hnonneg, hfloor]
  rfl

/-- **`dotted` writes the four octets** of a 32-bit number. -/
theorem dotted_toNat (x : BitVec 32) : dotted (x.toNat : ℚ) = quadText x := by
  have hdiv : ∀ {q : ℚ} {n : ℕ}, ⌊q⌋ = n → ⌊q / 256⌋ = (n / 256 : ℕ) := by
    intro q n hq
    have h : ⌊q / 256⌋ = ⌊q⌋ / 256 := by exact_mod_cast Int.floor_div_natCast q 256
    rw [h, hq]
    rfl
  have h0 : ⌊(x.toNat : ℚ)⌋ = x.toNat := Int.floor_natCast _
  have h1 := hdiv h0
  have h2 := hdiv h1
  have h3 := hdiv h2
  have h16 : x.toNat / 2 ^ 16 = x.toNat / 256 / 256 := by omega
  have h24 : x.toNat / 2 ^ 24 = x.toNat / 256 / 256 / 256 := by omega
  rw [dotted, formatD_luaMod h0, formatD_luaMod h1, formatD_luaMod h2, formatD_luaMod h3, quadText, h16,
    h24]
  rfl

/-! ### Masks -/

theorem bitsToHostmask_eq (len : Digits 32) :
    bitsToHostmask (some len.text) = .ok ((hostmask 32 len.val).toNat : ℚ) := by
  have hlen : digitsVal len.text ≤ 32 := len.le
  have hexp : (32 : ℤ) - digitsVal len.text = (32 - digitsVal len.text : ℕ) := by omega
  have hpos : 1 ≤ 2 ^ (32 - digitsVal len.text) := Nat.one_le_two_pow
  change Except.ok ((2 : ℚ) ^ ((32 : ℤ) - digitsVal len.text) - 1) = _
  rw [hostmask_toNat, Digits.val, hexp, zpow_natCast, Nat.cast_sub hpos]
  push_cast
  rfl

theorem bitsToNetmask_eq (len : Digits 32) :
    bitsToNetmask (some len.text) = .ok ((netmask 32 len.val).toNat : ℚ) := by
  have hle : 2 ^ (32 - len.val) ≤ 2 ^ 32 := Nat.pow_le_pow_right (by norm_num) (Nat.sub_le _ _)
  have hpos : 1 ≤ 2 ^ (32 - len.val) := Nat.one_le_two_pow
  rw [bitsToNetmask, bitsToHostmask_eq, netmask_toNat, hostmask_toNat]
  change Except.ok _ = _
  rw [Nat.cast_sub hle, Nat.cast_sub hpos]
  push_cast
  ring_nf

/-- What the fields of `r` should be for an address and the length of a prefix: `M`, `N`, `H` and `B` are
the mask, the net, the host and the broadcast address. -/
def IsSubnet (r : Net) (A : BitVec 32) (len : ℕ) : Prop :=
  ∃ M N H B : BitVec 32, r.mask = quadText M ∧ r.net = quadText N ∧ r.host = quadText H ∧
    r.broadcast = quadText B ∧ (∀ i < 32, M.getMsbD i = decide (i < len)) ∧ N = A &&& M ∧
    H = A &&& ~~~M ∧ N.toNat + H.toNat = A.toNat ∧ B.toNat = N.toNat + 2 ^ (32 - len) - 1 ∧
    ∀ X : BitVec 32, N ≤ X ∧ X ≤ B ↔ ∀ i < len, X.getMsbD i = A.getMsbD i

/-- The broadcast address is a 32-bit number. -/
theorem broadcast_lt (A : BitVec 32) (len : ℕ) :
    (A &&& netmask 32 len).toNat + (hostmask 32 len).toNat < 2 ^ 32 := by
  have hle : (A &&& netmask 32 len).toNat ≤ (netmask 32 len).toNat := by
    rw [BitVec.toNat_and]
    exact Nat.and_le_right
  have hnot : (netmask 32 len).toNat = 2 ^ 32 - 1 - (hostmask 32 len).toNat := BitVec.toNat_not
  have hlt := (hostmask 32 len).isLt
  omega

/-- **An address with the length of a prefix.** -/
theorem cidrToNet_prefix (q : Quad) (len : Digits 32) :
    ∃ r, cidrToNet (q.text ++ 47 :: len.text) = .ok (some r) ∧ r.ip = q.plain ∧
      IsSubnet r q.bits len.val := by
  have hip : toint q.a.text q.b.text q.c.text q.d.text = (q.bits.toNat : ℚ) := by
    rw [toint, Quad.bits_toNat, Quad.val]
    push_cast
    rfl
  have hlen : len.val ≤ 32 := len.le
  have hparse : parseCidr (q.text ++ 47 :: len.text) = some ⟨q.bits.toNat, some len.text, none⟩ := by
    rw [parseCidr, exec_prefix]
    dsimp only
    rw [hip]
  let N := q.bits &&& netmask 32 len.val
  let B : BitVec 32 := BitVec.ofNat 32 (N.toNat + (hostmask 32 len.val).toNat)
  have hB : B.toNat = N.toNat + (hostmask 32 len.val).toNat := by
    rw [BitVec.toNat_ofNat, Nat.mod_eq_of_lt (broadcast_lt q.bits len.val)]
  have hpos : 0 < 2 ^ (32 - len.val) := Nat.two_pow_pos _
  have hlast : B.toNat = N.toNat + 2 ^ (32 - len.val) - 1 := by
    rw [hB, hostmask_toNat]
    omega
  have hsubnet : cidrToNet (q.text ++ 47 :: len.text) = .ok (some {
      cidr := q.text ++ 47 :: len.text
      bits := some len.text
      mask := quadText (netmask 32 len.val)
      net := quadText N
      host := quadText (q.bits &&& hostmask 32 len.val)
      broadcast := quadText B
      ip := quadText q.bits }) := by
    rw [cidrToNet, hparse]
    dsimp only
    rw [subnet, bitsToNetmask_eq, bitsToHostmask_eq]
    simp only [bind, Except.bind, pure, Except.pure, Except.map, andL_toNat, dotted_toNat, ← Nat.cast_add]
    rw [← hB, dotted_toNat]
  refine ⟨_, hsubnet, quadText_bits q, netmask 32 len.val, N, q.bits &&& hostmask 32 len.val, B, rfl,
    rfl, rfl, rfl, fun i _ => getMsbD_netmask hlen i, rfl, ?_, parts_toNat q.bits len.val, hlast, ?_⟩
  · rw [netmask, BitVec.not_not]
  · intro X
    rw [BitVec.le_def, BitVec.le_def, hlast]
    exact mem_interval_iff hlen X q.bits

/-! ### Dotted masks -/

/-- An address with a dotted mask raises an error: there are no `bits` to compute with. -/
theorem cidrToNet_mask (q m : Quad) : cidrToNet (q.text ++ 47 :: m.text) = .error .arithmetic := by
  rw [cidrToNet, parseCidr, exec_prefix_quad, exec_mask]
  rfl

/-- Both notations give the same. -/
def NotationsAgree (q : Quad) (len : Digits 32) : Prop :=
  ∃ r r', cidrToNet (q.text ++ 47 :: len.text) = .ok (some r) ∧
    cidrToNet (q.text ++ 47 :: quadText (netmask 32 len.val)) = .ok (some r') ∧ r'.ip = r.ip ∧
    r'.mask = r.mask ∧ r'.net = r.net ∧ r'.host = r.host ∧ r'.broadcast = r.broadcast

/-- **The two notations never give the same.** -/
theorem not_notationsAgree (q : Quad) (len : Digits 32) : ¬ NotationsAgree q len := by
  rintro ⟨r, r', -, hmask, -⟩
  rw [← quadOf_text, cidrToNet_mask] at hmask
  cases hmask

/-- The octet 10. -/
def octetTen : Digits 255 := octetOf 10

/-- The length 8. -/
def lengthEight : Digits 32 :=
  ⟨str "8", by decide +kernel, by decide +kernel, by decide +kernel⟩

/-- The address `10.10.10.10/255.0.0.0`. -/
theorem not_forall_notationsAgree : ¬ ∀ (q : Quad) (len : Digits 32), NotationsAgree q len := by
  intro h
  obtain ⟨r, r', -, hmask, -⟩ := h ⟨octetTen, octetTen, octetTen, octetTen⟩ lengthEight
  rw [← quadOf_text, cidrToNet_mask] at hmask
  cases hmask

end ZRouter.Web
