import ZRouter.Json.Value
import ZRouter.Lib.Lua

/-!
# Typed values (`conf_parsers.c`)

The parsers return pointers: to the buffer of `inet_ntoa`, to `obuf`, or to a literal.  What such a
pointer shows is what the buffer holds when it is read.

* `Inet`: `inet_aton` and `strtoul`, with `inetNtoa`; `posix` is one of these libraries;
* `ipaddrParser`, `ipmaskParser`, `cidrParser`, `boolParser`, `parseAsType`;
* `keepsAddress_iff`: when `cidrParser` keeps the address;
* `parseAsType_idempotent`: a value that was parsed is parsed to itself.
-/

namespace ZRouter.Conf

open Json (strtoulUsed)

/-! ### The C library -/

/-- `%d` of a number that is not negative. -/
def formatD (n : ℕ) : Bytes := if n = 0 then str "0" else decimal n

/-- The bytes of an address. -/
def octets (addr : BitVec 32) : List ℕ :=
  [addr.toNat / 2 ^ 24, addr.toNat / 2 ^ 16 % 256, addr.toNat / 2 ^ 8 % 256, addr.toNat % 256]

/-- The text that `inet_ntoa` writes. -/
def inetNtoa (addr : BitVec 32) : Bytes := [46].intercalate ((octets addr).map formatD)

/-- The functions of the C library; `inet_aton` undoes `inet_ntoa`. -/
structure Inet where
  ulongMax : ℕ
  inetAton : Bytes → Option (BitVec 32)
  aton_ntoa : ∀ addr, inetAton (inetNtoa addr) = some addr

/-- The number that a part of a dotted address stands for: it starts with a digit. -/
def addressPart (s : Bytes) : Option ℕ :=
  if s.head?.any isdigit = true ∧ strtoulUsed s = s.length then
    some (strtoulAuto (2 ^ 32 - 1) s)
  else none

/-- An `inet_aton`: one to four parts, the last of which fills the rest of the address. -/
def posixAton (s : Bytes) : Option (BitVec 32) := do
  match ← (s.splitOn 46).mapM addressPart with
  | [a] => if a < 2 ^ 32 then some (BitVec.ofNat 32 a) else none
  | [a, b] => if a < 256 ∧ b < 2 ^ 24 then some (BitVec.ofNat 32 (a * 2 ^ 24 + b)) else none
  | [a, b, c] =>
      if a < 256 ∧ b < 256 ∧ c < 2 ^ 16 then
        some (BitVec.ofNat 32 (a * 2 ^ 24 + b * 2 ^ 16 + c))
      else none
  | [a, b, c, d] =>
      if a < 256 ∧ b < 256 ∧ c < 256 ∧ d < 256 then
        some (BitVec.ofNat 32 (a * 2 ^ 24 + b * 2 ^ 16 + c * 2 ^ 8 + d))
      else none
  | _ => none

theorem addressPart_formatD : ∀ n : Fin 256, addressPart (formatD n) = some n.val := by
  decide +kernel

theorem octets_lt (addr : BitVec 32) : ∀ n ∈ octets addr, n < 256 := by
  have := addr.isLt
  simp only [octets, List.forall_mem_cons, List.not_mem_nil, false_implies, implies_true, and_true]
  omega

theorem formatD_isdigit (n : ℕ) : ∀ c ∈ formatD n, isdigit c = true := by
  rw [formatD]
  split_ifs
  · decide +kernel
  · exact decimal_isdigit n

theorem dot_notMem_formatD (n : ℕ) : 46 ∉ formatD n := by
  intro h
  have hdigit := formatD_isdigit n 46 h
  exact absurd hdigit (by decide)

theorem mapM_addressPart {l : List ℕ} (hl : ∀ n ∈ l, n < 256) :
    (l.map formatD).mapM addressPart = some l := by
  induction l with
  | nil => rfl
  | cons n l ih =>
    obtain ⟨hn, hl⟩ := List.forall_mem_cons.1 hl
    have hpart : addressPart (formatD n) = some n := addressPart_formatD ⟨n, hn⟩
    rw [List.map_cons, List.mapM_cons, hpart, ih hl]
    rfl

/-- `inet_aton` reads what `inet_ntoa` writes. -/
theorem posixAton_inetNtoa (addr : BitVec 32) : posixAton (inetNtoa addr) = some addr := by
  have hsplit : (inetNtoa addr).splitOn 46 = (octets addr).map formatD :=
    List.splitOn_intercalate 46 (List.forall_mem_map.2 fun n _ => dot_notMem_formatD n) (by simp [octets])
  have hlt := octets_lt addr
  have hmap := mapM_addressPart hlt
  simp only [octets, List.forall_mem_cons] at hlt
  obtain ⟨ha, hb, hc, hd, -⟩ := hlt
  rw [posixAton, hsplit, hmap, Option.bind_eq_bind, Option.bind_some]
  dsimp only [octets]
  rw [if_pos ⟨ha, hb, hc, hd⟩, Option.some.injEq]
  apply BitVec.eq_of_toNat_eq
  rw [BitVec.toNat_ofNat]
  have := addr.isLt
  omega

/-- A library with this `inet_aton`. -/
def posix : Inet := ⟨2 ^ 32 - 1, posixAton, posixAton_inetNtoa⟩

/-- A digit of `%x`. -/
def hexDigit (n : ℕ) : UInt8 := if n < 10 then (48 + n).toUInt8 else (87 + n).toUInt8

/-- `%08x`. -/
def formatX8 (x : BitVec 32) : Bytes :=
  (List.range 8).map fun i => hexDigit (x.toNat / 16 ^ (7 - i) % 16)

/-! ### Buffers -/

/-- The static buffers, and what has been printed. -/
structure Statics where
  ntoa : Bytes
  obuf : Bytes
  out : Bytes
deriving Inhabited

/-- What a parser returns, unless it is null. -/
inductive Ref where
  | ntoa
  | obuf
  | literal (s : Bytes)
deriving DecidableEq

/-- The string at a pointer. -/
def Statics.read (st : Statics) : Ref → Bytes
  | .ntoa => st.ntoa
  | .obuf => st.obuf
  | .literal s => s

/-- `printf`. -/
def Statics.printf (st : Statics) (s : Bytes) : Statics := { st with out := st.out ++ s }

/-- What a parser returns, and the buffers afterwards. -/
abbrev Parsed := Option Ref × Statics

/-- The string that the caller reads. -/
def Parsed.text (r : Parsed) : Option Bytes := r.1.map r.2.read

/-! ### Parsers -/

section Parsers

variable (I : Inet)

/-- `IPADDR_parser`. -/
def ipaddrParser (arg : Option Bytes) (st : Statics) : Parsed :=
  match arg with
  | none => (none, st)
  | some arg =>
      match I.inetAton arg with
      | none => (none, st)
      | some addr => (some .ntoa, { st with ntoa := inetNtoa addr })

/-- The mask with `num` bits. -/
def maskOfLen (num : ℕ) : BitVec 32 :=
  (List.range num).foldl (fun len i => len ||| 1#32 <<< (31 - i)) 0

/-- `IPMASK_parser`; `len` and `num` are `unsigned int`. -/
def ipmaskParser (arg : Option Bytes) (st : Statics) : Parsed :=
  match arg with
  | none => (none, st)
  | some arg =>
      let len := arg.length % 2 ^ 32
      let num := BitVec.ofNat 32 (strtoulAuto I.ulongMax arg)
      if strtoulUsed arg = len then
        if num &&& 0x80000000#32 ≠ 0 then ipaddrParser I (some arg) st
        else if num.toNat ≤ 32 then
          ipaddrParser I (some (str "0x" ++ formatX8 (maskOfLen num.toNat))) st
        else (none, st.printf (str "parse error num = 0x" ++ formatX8 num ++ str "\n"))
      else if (arg.take len).any fun c => c ≠ 46 && !isdigit c then
        (none, st.printf (str "parse error in = \"" ++ arg ++ str "\", illegal characters\n"))
      else if 15 < len ∨ (arg.take len).count 46 ≠ 3 then
        (none, st.printf (str "parse error in = \"" ++ arg ++ str "\", wrong format\n"))
      else ipaddrParser I (some arg) st

/-- `CIDR_parser`. -/
def cidrParser (arg : Option Bytes) (st : Statics) : Parsed :=
  match arg with
  | none => (none, st)
  | some arg =>
      match arg.dropWhile (· ≠ 47) with
      | _ :: mask =>
          let (ip, st) := ipaddrParser I (some (arg.takeWhile (· ≠ 47))) st
          let (mask, st) := ipmaskParser I (some mask) st
          match ip, mask with
          | some ip, some mask =>
              let st := { st with obuf := st.read ip ++ 47 :: st.read mask }
              (some .obuf, st.printf (str "CIDR_parser: " ++ st.obuf ++ str "\n"))
          | _, _ => (none, st)
      | [] =>
          (none, st.printf (str "parse error in = \"" ++ arg ++
            str "\", CIDR must contain '/' char\n"))

/-- `strcasecmp(x, y) == 0`. -/
def sameIgnoringCase (x y : Bytes) : Bool := x.map tolower = y.map tolower

/-- `BOOL_parser`. -/
def boolParser (arg : Option Bytes) (st : Statics) : Parsed :=
  match arg with
  | none => (none, st)
  | some [] => (none, st)
  | some [c] =>
      if c ∈ str "TYty1" then (some (.literal (str "TRUE")), st)
      else if c ∈ str "FNfn0" then (some (.literal (str "FALSE")), st)
      else (none, st)
  | some arg =>
      if sameIgnoringCase arg (str "true") || sameIgnoringCase arg (str "yes") then
        (some (.literal (str "TRUE")), st)
      else if sameIgnoringCase arg (str "false") || sameIgnoringCase arg (str "no") then
        (some (.literal (str "FALSE")), st)
      else (none, st)

/-- `conftypes`. -/
def conftypes : List (Bytes × (Option Bytes → Statics → Parsed)) :=
  [(str "BOOL", boolParser), (str "IPADDR", ipaddrParser I), (str "IPMASK", ipmaskParser I),
    (str "CIDR", cidrParser I)]

/-- `parseAsType`. -/
def parseAsType (type : Bytes) (val : Option Bytes) (st : Statics) : Parsed :=
  match (conftypes I).find? (·.1 = type) with
  | none => (none, st.printf (str "Unknown type \"" ++ type ++ str "\"\n"))
  | some (name, parser) =>
      parser val (st.printf (str "parseAsType: parse as type " ++ name ++ str "\n"))

end Parsers

/-! ### What the parsers return -/

section Results

variable {I : Inet}

theorem inetNtoa_injective (I : Inet) : Function.Injective inetNtoa := by
  intro a b hab
  have h := congrArg I.inetAton hab
  rwa [I.aton_ntoa, I.aton_ntoa, Option.some.injEq] at h

@[simp] theorem ipaddrParser_text (arg : Bytes) (st : Statics) :
    (ipaddrParser I (some arg) st).text = (I.inetAton arg).map inetNtoa := by
  cases h : I.inetAton arg <;> simp [ipaddrParser, h, Parsed.text, Statics.read]

/-- The string that `IPMASK_parser` hands to `IPADDR_parser`. -/
def maskSource (I : Inet) (arg : Bytes) : Option Bytes :=
  let len := arg.length % 2 ^ 32
  let num := BitVec.ofNat 32 (strtoulAuto I.ulongMax arg)
  if strtoulUsed arg = len then
    if num &&& 0x80000000#32 ≠ 0 then some arg
    else if num.toNat ≤ 32 then some (str "0x" ++ formatX8 (maskOfLen num.toNat))
    else none
  else if (arg.take len).any fun c => c ≠ 46 && !isdigit c then none
  else if 15 < len ∨ (arg.take len).count 46 ≠ 3 then none
  else some arg

/-- The mask that a string stands for. -/
def maskAddress (I : Inet) (arg : Bytes) : Option (BitVec 32) := (maskSource I arg).bind I.inetAton

/-- `IPMASK_parser` ends in `IPADDR_parser`, or in a message. -/
theorem ipmaskParser_cases (I : Inet) (arg : Bytes) (st : Statics) :
    (∃ s, maskSource I arg = some s ∧ ipmaskParser I (some arg) st = ipaddrParser I (some s) st) ∨
      (maskSource I arg = none ∧ ∃ msg, ipmaskParser I (some arg) st = (none, st.printf msg)) := by
  simp only [maskSource, ipmaskParser]
  split_ifs
  all_goals first
    | exact Or.inl ⟨_, rfl, rfl⟩
    | exact Or.inr ⟨rfl, _, rfl⟩

@[simp] theorem ipmaskParser_text (arg : Bytes) (st : Statics) :
    (ipmaskParser I (some arg) st).text = (maskAddress I arg).map inetNtoa := by
  rcases ipmaskParser_cases I arg st with ⟨s, hs, h⟩ | ⟨hs, msg, h⟩
  · rw [h, ipaddrParser_text, maskAddress, hs, Option.bind_some]
  · rw [h, maskAddress, hs]
    rfl

/-- What stands before the first `/`. -/
def beforeSlash (arg : Bytes) : Bytes := arg.takeWhile (· ≠ 47)

/-- What stands behind the first `/`. -/
def afterSlash (arg : Bytes) : Bytes := (arg.dropWhile (· ≠ 47)).tail

theorem dropWhile_slash {arg : Bytes} (h : 47 ∈ arg) :
    arg.dropWhile (· ≠ 47) = 47 :: afterSlash arg := by
  induction arg with
  | nil => cases h
  | cons c arg ih =>
    by_cases hc : c = 47
    · simp [afterSlash, hc]
    · have hmem : 47 ∈ arg := by simpa [Ne.symm hc] using h
      simpa [afterSlash, hc] using ih hmem

theorem dropWhile_no_slash {arg : Bytes} (h : 47 ∉ arg) : arg.dropWhile (· ≠ 47) = [] := by
  rw [List.dropWhile_eq_nil_iff]
  intro c hc
  have hne : c ≠ 47 := fun hc' => h (hc' ▸ hc)
  simpa using hne

theorem slash_split {x : Bytes} (hx : 47 ∉ x) (y : Bytes) :
    beforeSlash (x ++ 47 :: y) = x ∧ afterSlash (x ++ 47 :: y) = y := by
  have hall : ∀ c ∈ x, decide (c ≠ 47) = true := fun c hc =>
    decide_eq_true fun h => hx (h ▸ hc)
  rw [beforeSlash, afterSlash, List.takeWhile_append_of_pos hall, List.dropWhile_append_of_pos hall]
  simp

/-- **The two results share one buffer**: `CIDR_parser` shows the mask twice. -/
theorem cidrParser_text (arg : Bytes) (st : Statics) :
    (cidrParser I (some arg) st).text =
      if 47 ∈ arg then
        (I.inetAton (beforeSlash arg)).bind fun _ =>
          (maskAddress I (afterSlash arg)).map fun mask => inetNtoa mask ++ 47 :: inetNtoa mask
      else none := by
  by_cases hslash : 47 ∈ arg
  swap
  · rw [if_neg hslash, cidrParser, dropWhile_no_slash hslash]
    rfl
  rw [if_pos hslash, cidrParser, dropWhile_slash hslash]
  dsimp only
  rw [← beforeSlash]
  cases haddr : I.inetAton (beforeSlash arg) with
  | none =>
    have hip : ∀ st, ipaddrParser I (some (beforeSlash arg)) st = (none, st) := fun st => by
      rw [ipaddrParser, haddr]
    rw [hip]
    rfl
  | some addr =>
    have hip : ∀ st, ipaddrParser I (some (beforeSlash arg)) st =
        (some .ntoa, { st with ntoa := inetNtoa addr }) := fun st => by rw [ipaddrParser, haddr]
    rw [hip]
    dsimp only
    rcases ipmaskParser_cases I (afterSlash arg) { st with ntoa := inetNtoa addr } with
      ⟨s, hs, h⟩ | ⟨hs, msg, h⟩
    · rw [h, maskAddress, hs, Option.bind_some, Option.bind_some]
      cases hmask : I.inetAton s with
      | none => simp [ipaddrParser, hmask, Parsed.text]
      | some mask => simp [ipaddrParser, hmask, Parsed.text, Statics.read, Statics.printf]
    · rw [h, maskAddress, hs]
      rfl

/-! ### An address with its mask -/

/-- The results of the two parsers with a `/` between them. -/
def addressAndMask (I : Inet) (arg : Bytes) (st : Statics) : Option Bytes :=
  if 47 ∈ arg then
    (ipaddrParser I (some (beforeSlash arg)) st).text.bind fun ip =>
      (ipmaskParser I (some (afterSlash arg)) st).text.map fun mask => ip ++ 47 :: mask
  else none

/-- `CIDR_parser` succeeds when both parsers do, and returns both results. -/
def KeepsAddress (I : Inet) (arg : Bytes) : Prop :=
  ∀ st, (cidrParser I (some arg) st).text = addressAndMask I arg st

/-- **The address is kept exactly when it is the mask**, if both are accepted. -/
theorem keepsAddress_iff (I : Inet) (arg : Bytes) :
    KeepsAddress I arg ↔ ∀ addr mask, 47 ∈ arg → I.inetAton (beforeSlash arg) = some addr →
      maskAddress I (afterSlash arg) = some mask → addr = mask := by
  simp only [KeepsAddress, cidrParser_text, addressAndMask, ipaddrParser_text, ipmaskParser_text]
  by_cases hslash : 47 ∈ arg
  swap
  · simp [hslash]
  simp only [if_pos hslash]
  cases haddr : I.inetAton (beforeSlash arg) with
  | none => simp
  | some addr =>
    cases hmask : maskAddress I (afterSlash arg) with
    | none => simp
    | some mask =>
      have heq : inetNtoa mask = inetNtoa addr ↔ addr = mask :=
        ⟨fun h => (inetNtoa_injective I h).symm, fun h => by rw [h]⟩
      simp [hslash, heq]

/-- With the address of a host the mask stands on both sides. -/
theorem not_keepsAddress_host : ¬ KeepsAddress posix (str "10.0.0.1/24") := by
  intro h
  have htext := h ⟨[], [], []⟩
  revert htext
  decide

/-! ### Fixed points -/

/-- The length of the sign, and what stands behind it. -/
def signPart : Bytes → ℕ × Bytes
  | 45 :: t => (1, t)
  | 43 :: t => (1, t)
  | t => (0, t)

/-- The length of `0x`, the base, and the digits with what stands behind them. -/
def basePart (s : Bytes) : ℕ × ℕ × Bytes :=
  match s with
  | 48 :: x :: c :: t =>
      if (x = 120 || x = 88) && digitVal c < 16 then (2, 16, c :: t) else (0, 8, s)
  | 48 :: _ => (0, 8, s)
  | _ => (0, 10, s)

theorem signPart_split (t : Bytes) :
    ∃ sign u, t = sign ++ u ∧ 46 ∉ sign ∧ signPart t = (sign.length, u) := by
  unfold signPart
  split
  · exact ⟨[45], _, rfl, by decide, rfl⟩
  · exact ⟨[43], _, rfl, by decide, rfl⟩
  · exact ⟨[], _, rfl, by simp, rfl⟩

theorem basePart_split (t : Bytes) :
    ∃ mark base u, t = mark ++ u ∧ 46 ∉ mark ∧ base ≤ 16 ∧ basePart t = (mark.length, base, u) := by
  unfold basePart
  split
  · rename_i x c u
    split_ifs with hx
    · refine ⟨[48, x], 16, c :: u, rfl, ?_, le_rfl, rfl⟩
      rcases (by simpa using hx : (x = 120 ∨ x = 88) ∧ _).1 with rfl | rfl <;> decide
    · exact ⟨[], 8, _, rfl, by simp, by norm_num, rfl⟩
  · exact ⟨[], 8, _, rfl, by simp, by norm_num, rfl⟩
  · exact ⟨[], 10, _, rfl, by simp, by norm_num, rfl⟩

theorem strtoulUsed_eq (s : Bytes) :
    strtoulUsed s =
      let (sign, t) := signPart (s.dropWhile isspace)
      let (mark, base, u) := basePart t
      let digits := (u.takeWhile (digitVal · < base)).length
      if digits = 0 then 0 else (s.takeWhile isspace).length + sign + mark + digits := rfl

/-- What `strtoul` uses: blanks, a sign, `0x`, and digits. -/
theorem strtoulUsed_split {s : Bytes} (h : strtoulUsed s ≠ 0) :
    ∃ front t base, s = front ++ t ∧ 46 ∉ front ∧ base ≤ 16 ∧
      strtoulUsed s = front.length + (t.takeWhile (digitVal · < base)).length := by
  obtain ⟨sign, t, hu, hsign, hsignPart⟩ := signPart_split (s.dropWhile isspace)
  obtain ⟨mark, base, u, ht, hmark, hbase, hbasePart⟩ := basePart_split t
  have hblanks : 46 ∉ s.takeWhile isspace := fun hmem =>
    absurd (List.mem_takeWhile_imp hmem) (by decide)
  have hs := (List.takeWhile_append_dropWhile (p := isspace) (l := s)).symm
  rw [strtoulUsed_eq, hsignPart] at h ⊢
  dsimp only at h ⊢
  rw [hbasePart] at h ⊢
  dsimp only at h ⊢
  rw [if_neg fun hz => h (if_pos hz)]
  refine ⟨s.takeWhile isspace ++ sign ++ mark, u, base, ?_, ?_, hbase, ?_⟩
  · rw [List.append_assoc, List.append_assoc, ← ht, ← hu, ← hs]
  · simp [hblanks, hsign, hmark]
  · simp only [List.length_append]

/-- A string that `strtoul` reads to its end has no dot. -/
theorem dot_notMem_of_strtoulUsed {s : Bytes} (hne : s ≠ []) (h : strtoulUsed s = s.length) :
    46 ∉ s := by
  have hused : strtoulUsed s ≠ 0 := by simpa [h] using hne
  obtain ⟨front, t, base, rfl, hfront, hbase, hlen⟩ := strtoulUsed_split hused
  rw [h, List.length_append, Nat.add_left_cancel_iff] at hlen
  have hall := List.takeWhile_eq_self_iff.1 ((List.takeWhile_prefix _).eq_of_length hlen.symm)
  intro hmem
  rcases List.mem_append.1 hmem with hmem | hmem
  · exact hfront hmem
  · have hval : digitVal 46 < base := by simpa using hall 46 hmem
    have : digitVal 46 = 16 := by decide
    omega

theorem inetNtoa_eq (addr : BitVec 32) :
    ∃ a b c d, inetNtoa addr = formatD a ++ 46 :: (formatD b ++ 46 :: (formatD c ++ 46 :: formatD d)) ∧
      a < 256 ∧ b < 256 ∧ c < 256 ∧ d < 256 := by
  have hlt := octets_lt addr
  simp only [octets, List.forall_mem_cons] at hlt
  obtain ⟨ha, hb, hc, hd, -⟩ := hlt
  exact ⟨_, _, _, _, by simp [inetNtoa, octets], ha, hb, hc, hd⟩

theorem inetNtoa_chars (addr : BitVec 32) : ∀ x ∈ inetNtoa addr, x = 46 ∨ isdigit x = true := by
  intro x hx
  obtain ⟨a, b, c, d, heq, -⟩ := inetNtoa_eq addr
  rw [heq] at hx
  have hx : x = 46 ∨ x ∈ formatD a ∨ x ∈ formatD b ∨ x ∈ formatD c ∨ x ∈ formatD d := by
    simp only [List.mem_append, List.mem_cons] at hx
    tauto
  rcases hx with rfl | hx | hx | hx | hx
  · exact Or.inl rfl
  all_goals exact Or.inr (formatD_isdigit _ x hx)

theorem length_formatD {n : ℕ} (h : n < 256) : (formatD n).length ≤ 3 := by
  by_cases h0 : n = 0
  · simp [formatD, h0, str]
  · rw [formatD, if_neg h0, decimal, List.length_map, List.length_reverse]
    exact (Nat.digits_length_le_iff (by norm_num) n).2 (by omega)

/-- An address has at most fifteen characters, so that two of them fit into `obuf`. -/
theorem length_inetNtoa (addr : BitVec 32) : (inetNtoa addr).length ≤ 15 := by
  obtain ⟨a, b, c, d, heq, ha, hb, hc, hd⟩ := inetNtoa_eq addr
  have := length_formatD ha
  have := length_formatD hb
  have := length_formatD hc
  have := length_formatD hd
  rw [heq]
  simp only [List.length_append, List.length_cons]
  omega

/-- A dotted address is a mask as it stands. -/
theorem maskSource_inetNtoa (I : Inet) (addr : BitVec 32) :
    maskSource I (inetNtoa addr) = some (inetNtoa addr) := by
  have hlen := length_inetNtoa addr
  have hmod : (inetNtoa addr).length % 2 ^ 32 = (inetNtoa addr).length := Nat.mod_eq_of_lt (by omega)
  obtain ⟨a, b, c, d, heq, -⟩ := inetNtoa_eq addr
  have hdot : 46 ∈ inetNtoa addr := by simp [heq]
  have hused : strtoulUsed (inetNtoa addr) ≠ (inetNtoa addr).length := fun h =>
    dot_notMem_of_strtoulUsed (List.ne_nil_of_mem hdot) h hdot
  have hchars : ((inetNtoa addr).any fun c => c ≠ 46 && !isdigit c) = false := by
    rw [List.any_eq_false]
    intro x hx
    rcases inetNtoa_chars addr x hx with rfl | hx
    · simp
    · simp [hx]
  have hcount : (inetNtoa addr).count 46 = 3 := by
    rw [heq]
    simp [List.count_append, List.count_eq_zero_of_not_mem (dot_notMem_formatD _)]
  simp only [maskSource, hmod, if_neg hused, List.take_length, hchars, hcount]
  rw [if_neg Bool.false_ne_true, if_neg (by omega)]

/-- Whatever the parser returns, it returns for that again. -/
def Idempotent (parser : Option Bytes → Statics → Parsed) : Prop :=
  ∀ v st w, (parser v st).text = some w → ∀ st', (parser (some w) st').text = some w

theorem ipaddrParser_idempotent (I : Inet) : Idempotent (ipaddrParser I) := by
  intro v st w h st'
  cases v with
  | none => cases h
  | some v =>
    rw [ipaddrParser_text] at h
    obtain ⟨addr, -, rfl⟩ := Option.map_eq_some_iff.1 h
    rw [ipaddrParser_text, I.aton_ntoa]
    rfl

theorem maskAddress_inetNtoa (I : Inet) (addr : BitVec 32) :
    maskAddress I (inetNtoa addr) = some addr := by
  rw [maskAddress, maskSource_inetNtoa, Option.bind_some, I.aton_ntoa]

/-- Every spelling of a mask ends as a dotted address. -/
theorem ipmaskParser_idempotent (I : Inet) : Idempotent (ipmaskParser I) := by
  intro v st w h st'
  cases v with
  | none => cases h
  | some v =>
    rw [ipmaskParser_text] at h
    obtain ⟨addr, -, rfl⟩ := Option.map_eq_some_iff.1 h
    rw [ipmaskParser_text, maskAddress_inetNtoa]
    rfl

/-- `CIDR_parser` loses the address, but what it shows instead is accepted again. -/
theorem cidrParser_idempotent (I : Inet) : Idempotent (cidrParser I) := by
  intro v st w h st'
  cases v with
  | none => cases h
  | some v =>
    rw [cidrParser_text] at h
    split_ifs at h
    obtain ⟨-, -, h⟩ := Option.bind_eq_some_iff.1 h
    obtain ⟨mask, -, rfl⟩ := Option.map_eq_some_iff.1 h
    have hslash : 47 ∉ inetNtoa mask := by
      intro h
      rcases inetNtoa_chars mask 47 h with h | h <;> exact absurd h (by decide)
    obtain ⟨hbefore, hafter⟩ := slash_split hslash (inetNtoa mask)
    rw [cidrParser_text, if_pos (by simp), hbefore, hafter, I.aton_ntoa, maskAddress_inetNtoa]
    rfl

theorem boolParser_idempotent : Idempotent boolParser := by
  intro v st w h st'
  have hw : w = str "TRUE" ∨ w = str "FALSE" := by
    unfold boolParser at h
    split at h <;> try split_ifs at h
    all_goals simp_all [Parsed.text, Statics.read]
  rcases hw with rfl | rfl <;> rfl

/-- **Typed values are canonical**: what was parsed as a type is parsed to itself. -/
theorem parseAsType_idempotent (I : Inet) (type : Bytes) : Idempotent (parseAsType I type) := by
  intro v st w h st'
  have hall : ∀ t ∈ conftypes I, Idempotent t.2 := by
    simp only [conftypes, List.forall_mem_cons]
    exact ⟨boolParser_idempotent, ipaddrParser_idempotent I, ipmaskParser_idempotent I,
      cidrParser_idempotent I, by simp⟩
  rw [parseAsType] at h ⊢
  cases hfind : (conftypes I).find? (·.1 = type) with
  | none =>
    rw [hfind] at h
    cases h
  | some t =>
    rw [hfind] at h
    exact hall t (List.mem_of_find?_eq_some hfind) v _ w h _

theorem parseAsType_idempotent_mask :
    (parseAsType posix (str "IPMASK") (some (str "255.255.255.0")) default).text =
      some (str "255.255.255.0") :=
  parseAsType_idempotent posix (str "IPMASK") (some (str "24")) default _ (rfl) default

end Results

end ZRouter.Conf
