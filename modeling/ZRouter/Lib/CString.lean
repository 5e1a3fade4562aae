import Mathlib

/-!
# Byte strings and C string functions

Byte strings are lists of `UInt8`.  A C string is the part of an array before its first NUL
(`cstr`); the functions of `<string.h>`, `<ctype.h>` and `<stdlib.h>` are given on such lists, and
a pointer into a string is the suffix it points to (`none` for a null pointer).

* `str` (literals), `cstr`, `isspace`, `skipSpaces`;
* `strstr`, `strnstr`, `strsep`, `strspn`;
* `strtoul`, `strtoulAuto`, and `decimal n`, the decimal numeral of `n`, with `strtoul_decimal`.
-/

namespace ZRouter

/-- A byte string. -/
abbrev Bytes := List UInt8

/-- The bytes of an ASCII literal. -/
def str (s : String) : Bytes := s.toList.map fun c => c.toNat.toUInt8

/-- Carriage return. -/
abbrev cr : UInt8 := 13

/-- Line feed. -/
abbrev lf : UInt8 := 10

/-- The end of line of HTTP. -/
def crlf : Bytes := [cr, lf]

/-- The C string at the start of an array: what stands before the first NUL. -/
def cstr (s : Bytes) : Bytes := s.takeWhile (· ≠ 0)

/-- `isspace` of the C locale. -/
def isspace (c : UInt8) : Bool := c = 32 || (9 ≤ c && c ≤ 13)

/-- Advance over white space. -/
def skipSpaces (s : Bytes) : Bytes := s.dropWhile isspace

/-- The first occurrence of `little` in `big`, as the suffix that starts with it. -/
def strstr (little : Bytes) : Bytes → Option Bytes
  | [] => if little = [] then some [] else none
  | c :: cs => if little.isPrefixOf (c :: cs) then some (c :: cs) else strstr little cs

/-- The first occurrence of `little` in the first `len` bytes of `big`. -/
def strnstr (big little : Bytes) (len : ℕ) : Option Bytes :=
  (strstr little (big.take len)).map fun s => s ++ big.drop len

/-- `strsep`: the token before the first delimiter, and where the next one starts. -/
def strsep (delim : UInt8 → Bool) (s : Bytes) : Bytes × Option Bytes :=
  (s.takeWhile (!delim ·),
    match s.dropWhile (!delim ·) with
    | [] => none
    | _ :: rest => some rest)

/-- Skip the bytes of an accept set. -/
def strspnSkip (accept : UInt8 → Bool) (s : Bytes) : Bytes := s.dropWhile accept

/-- A decimal digit. -/
def isdigit (c : UInt8) : Bool := 48 ≤ c && c ≤ 57

/-- The value of a run of decimal digits. -/
def digitsVal (s : Bytes) : ℕ := s.foldl (fun acc c => acc * 10 + (c.toNat - 48)) 0

/-- `strtoul` in base ten: the value, and the number of bytes used (zero when there is no
numeral).  Values past `ULONG_MAX` give `ULONG_MAX`, a minus sign negates in `unsigned long`. -/
def strtoul (ulongMax : ℕ) (s : Bytes) : ℕ × ℕ :=
  let blanks := (s.takeWhile isspace).length
  let s₁ := s.dropWhile isspace
  let (neg, sign, s₂) : Bool × ℕ × Bytes :=
    match s₁ with
    | 45 :: t => (true, 1, t)
    | 43 :: t => (false, 1, t)
    | t => (false, 0, t)
  let ds := s₂.takeWhile isdigit
  if ds = [] then (0, 0)
  else
    let v := digitsVal ds
    let v' := if ulongMax < v then ulongMax else if neg then (ulongMax + 1 - v) % (ulongMax + 1) else v
    (v', blanks + sign + ds.length)

/-- The value of a digit in the bases up to sixteen. -/
def digitVal (c : UInt8) : ℕ :=
  if isdigit c then c.toNat - 48
  else if 97 ≤ c && c ≤ 102 then c.toNat - 87
  else if 65 ≤ c && c ≤ 70 then c.toNat - 55
  else 16

/-- `isxdigit` of the C locale. -/
def isxdigit (c : UInt8) : Bool := digitVal c < 16

/-- `isupper` of the C locale. -/
def isupper (c : UInt8) : Bool := 65 ≤ c && c ≤ 90

/-- `isalnum` of the C locale. -/
def isalnum (c : UInt8) : Bool := isdigit c || isupper c || (97 ≤ c && c ≤ 122)

/-- `strtoul` with base zero: hexadecimal after `0x`, octal after `0`, decimal otherwise. -/
def strtoulAuto (ulongMax : ℕ) (s : Bytes) : ℕ :=
  let s₁ := s.dropWhile isspace
  let (neg, s₂) : Bool × Bytes :=
    match s₁ with
    | 45 :: t => (true, t)
    | 43 :: t => (false, t)
    | t => (false, t)
  let (base, s₃) : ℕ × Bytes :=
    match s₂ with
    | 48 :: x :: c :: t =>
        if (x = 120 || x = 88) && digitVal c < 16 then (16, c :: t) else (8, s₂)
    | 48 :: _ => (8, s₂)
    | _ => (10, s₂)
  let v := (s₃.takeWhile (digitVal · < base)).foldl (fun acc c => acc * base + digitVal c) 0
  if ulongMax < v then ulongMax else if neg then (ulongMax + 1 - v) % (ulongMax + 1) else v

/-- The decimal numeral of a number. -/
def decimal (n : ℕ) : Bytes := (Nat.digits 10 n).reverse.map fun d => (48 + d).toUInt8

/-! ### Prefixes and searches -/

theorem notMem_of_mem_splitOn {c : UInt8} {s n : Bytes} (h : n ∈ s.splitOn c) : c ∉ n := by
  induction s generalizing n with
  | nil =>
    rw [List.splitOn_nil, List.mem_singleton] at h
    rw [h]
    exact List.not_mem_nil
  | cons x s ih =>
    rw [List.splitOn_cons_eq_if_modifyHead] at h
    by_cases hx : x = c
    · rw [if_pos (beq_iff_eq.2 hx)] at h
      rcases List.mem_cons.1 h with rfl | h
      · exact List.not_mem_nil
      · exact ih h
    · rw [if_neg fun he => hx (beq_iff_eq.1 he)] at h
      cases hs : s.splitOn c with
      | nil => exact absurd hs (List.splitOn_ne_nil c s)
      | cons t ts =>
        rw [hs, List.modifyHead_cons] at h
        rcases List.mem_cons.1 h with rfl | h
        · have ht := ih (hs ▸ List.mem_cons_self)
          simpa [Ne.symm hx] using ht
        · exact ih (hs ▸ List.mem_cons_of_mem t h)

/-- A string without the byte `c` that stands in `xs ++ c :: ys` stands on one side of it. -/
theorem infix_split {d xs ys : Bytes} {c : UInt8} (hc : c ∉ d) (h : d <:+: xs ++ c :: ys) :
    d <:+: xs ∨ d <:+: ys := by
  obtain ⟨u, v, huv⟩ := h
  rw [List.append_assoc] at huv
  rcases List.append_eq_append_iff.1 huv with ⟨w, hw, hv⟩ | ⟨w, hw, hv⟩
  · rcases List.append_eq_append_iff.1 hv with ⟨z, hz, -⟩ | ⟨z, hz, hz'⟩
    · exact Or.inl ⟨u, z, by rw [List.append_assoc, ← hz, hw]⟩
    · cases z with
      | nil => exact Or.inl ⟨u, [], by simp [hw, hz]⟩
      | cons e z =>
        obtain ⟨rfl, -⟩ := List.cons_eq_cons.1 hz'
        exact absurd (by simp [hz]) hc
  · cases w with
    | nil =>
      rw [List.nil_append] at hv
      cases d with
      | nil => exact Or.inl (List.nil_infix)
      | cons e d =>
        obtain ⟨rfl, -⟩ := List.cons_eq_cons.1 hv
        exact absurd (by simp) hc
    | cons e w =>
      obtain ⟨-, rfl⟩ := List.cons_eq_cons.1 hv
      exact Or.inr ⟨w, v, by simp⟩

theorem isPrefixOf_append (p s : Bytes) : p.isPrefixOf (p ++ s) = true :=
  List.isPrefixOf_iff_prefix.2 (List.prefix_append p s)

/-- A literal found at the front is found there. -/
theorem strstr_append_self (little s : Bytes) : strstr little (little ++ s) = some (little ++ s) := by
  cases h : little ++ s with
  | nil =>
    have : little = [] := (List.append_eq_nil_iff.1 h).1
    simp [strstr, this]
  | cons c cs =>
    have : little.isPrefixOf (c :: cs) = true := h ▸ isPrefixOf_append little s
    simp [strstr, this]

/-- The search finds the first occurrence. -/
theorem strstr_eq_some {little big s : Bytes} :
    strstr little big = some s ↔
      ∃ pre, big = pre ++ s ∧ little <+: s ∧ ∀ i < pre.length, ¬ little <+: big.drop i := by
  induction big with
  | nil =>
    rw [strstr]
    constructor
    · intro h
      split_ifs at h with hl
      cases h
      exact ⟨[], rfl, by rw [hl], by simp⟩
    · rintro ⟨pre, hs, hp, -⟩
      obtain ⟨rfl, rfl⟩ := List.append_eq_nil_iff.1 hs.symm
      rw [if_pos (List.prefix_nil.1 hp)]
  | cons c cs ih =>
    rw [strstr]
    split_ifs with hc
    · rw [List.isPrefixOf_iff_prefix] at hc
      constructor
      · rintro ⟨⟩
        exact ⟨[], rfl, hc, by simp⟩
      · rintro ⟨pre, hs, -, hfirst⟩
        cases pre with
        | nil => rw [hs, List.nil_append]
        | cons e pre => exact absurd hc (hfirst 0 (Nat.succ_pos _))
    · rw [List.isPrefixOf_iff_prefix] at hc
      rw [ih]
      constructor
      · rintro ⟨pre, rfl, hp, hfirst⟩
        refine ⟨c :: pre, rfl, hp, fun i hi => ?_⟩
        cases i with
        | zero => exact hc
        | succ i => exact hfirst i (Nat.lt_of_succ_lt_succ hi)
      · rintro ⟨pre, hs, hp, hfirst⟩
        cases pre with
        | nil =>
          rw [List.nil_append] at hs
          exact absurd (hs ▸ hp) hc
        | cons e pre =>
          obtain ⟨rfl, rfl⟩ := List.cons_eq_cons.1 hs
          exact ⟨pre, rfl, hp, fun i hi => hfirst (i + 1) (Nat.succ_lt_succ hi)⟩

/-- A string that does not occur is not found. -/
theorem strstr_ne_none {little big : Bytes} : strstr little big ≠ none ↔ little <:+: big := by
  constructor
  · intro h
    obtain ⟨s, hs⟩ := Option.ne_none_iff_exists'.1 h
    obtain ⟨pre, rfl, hp, -⟩ := strstr_eq_some.1 hs
    exact hp.isInfix.trans (List.suffix_append pre s).isInfix
  · induction big with
    | nil =>
      intro h
      rw [strstr, if_pos (List.infix_nil.1 h)]
      exact Option.some_ne_none _
    | cons c cs ih =>
      intro h
      rw [strstr]
      split_ifs with hc
      · exact Option.some_ne_none _
      · refine ih ((List.infix_cons_iff.1 h).resolve_left fun hp => hc ?_)
        exact List.isPrefixOf_iff_prefix.2 hp

theorem cstr_eq_self {s : Bytes} (h : (0 : UInt8) ∉ s) : cstr s = s := by
  unfold cstr
  rw [List.takeWhile_eq_self_iff]
  intro c hc
  have hne : c ≠ 0 := fun h0 => h (h0 ▸ hc)
  simpa using hne

theorem cstr_append_nul (l : Bytes) : cstr (l ++ [0]) = cstr l := by
  induction l with
  | nil => rfl
  | cons c l ih =>
    simp only [cstr, List.cons_append, List.takeWhile_cons] at ih ⊢
    rw [ih]

theorem takeWhile_append_of_all {p : UInt8 → Bool} {l r : Bytes} (hl : ∀ c ∈ l, p c = true)
    (hr : ∀ c ∈ r.head?, p c = false) : (l ++ r).takeWhile p = l := by
  rw [List.takeWhile_append_of_pos hl]
  cases r with
  | nil => simp
  | cons c cs => simp [hr c (by simp)]

theorem dropWhile_append_of_all {p : UInt8 → Bool} {l r : Bytes} (hl : ∀ c ∈ l, p c = true)
    (hr : ∀ c ∈ r.head?, p c = false) : (l ++ r).dropWhile p = r := by
  rw [List.dropWhile_append_of_pos hl]
  cases r with
  | nil => simp
  | cons c cs => simp [hr c (by simp)]

/-! ### Numerals -/

theorem digit_byte {d : ℕ} (h : d < 10) :
    isdigit (48 + d).toUInt8 = true ∧ ((48 + d).toUInt8).toNat = 48 + d := by
  interval_cases d <;> decide

theorem decimal_isdigit (n : ℕ) : ∀ c ∈ decimal n, isdigit c = true := by
  intro c hc
  obtain ⟨d, hd, rfl⟩ := List.mem_map.1 hc
  exact (digit_byte (Nat.digits_lt_base (by norm_num) (List.mem_reverse.1 hd))).1

/-- Reading the digits of a numeral gives the number back. -/
theorem digitsVal_decimal (n : ℕ) : digitsVal (decimal n) = n := by
  have key : ∀ ds : List ℕ, (∀ d ∈ ds, d < 10) →
      digitsVal (ds.reverse.map fun d => (48 + d).toUInt8) = Nat.ofDigits 10 ds := by
    intro ds
    induction ds with
    | nil => intro _; rfl
    | cons d ds ih =>
      intro h
      have hd := (digit_byte (h d (by simp))).2
      have := ih fun e he => h e (by simp [he])
      rw [Nat.ofDigits_cons, ← this]
      simp only [digitsVal, List.reverse_cons, List.map_append, List.map_cons, List.map_nil,
        List.foldl_append, List.foldl_cons, List.foldl_nil, hd]
      omega
  rw [decimal, key _ fun d hd => Nat.digits_lt_base (by norm_num) hd, Nat.ofDigits_digits]

theorem decimal_ne_nil {n : ℕ} (h : 0 < n) : decimal n ≠ [] := by
  simp [decimal, Nat.digits_ne_nil_iff_ne_zero]
  omega

theorem isspace_of_isdigit {c : UInt8} (h : isdigit c = true) : isspace c = false := by
  simp only [isdigit, isspace, Bool.and_eq_true, decide_eq_true_eq, UInt8.le_iff_toNat_le,
    Bool.or_eq_false_iff, Bool.and_eq_false_iff, decide_eq_false_iff_not, ← UInt8.toNat_inj] at *
  simp at *
  omega

/-- `strtoul` reads a numeral completely. -/
theorem strtoul_decimal {ulongMax n : ℕ} (hn : 0 < n) (hmax : n ≤ ulongMax) :
    strtoul ulongMax (decimal n) = (n, (decimal n).length) := by
  have hdig := decimal_isdigit n
  have hne := decimal_ne_nil hn
  have hval := digitsVal_decimal n
  generalize decimal n = ds at *
  obtain ⟨c, cs, rfl⟩ := List.exists_cons_of_ne_nil hne
  have hc := hdig c (by simp)
  have hsp : isspace c = false := isspace_of_isdigit hc
  have h45 : c ≠ 45 := by rintro rfl; revert hc; decide
  have h43 : c ≠ 43 := by rintro rfl; revert hc; decide
  have htake : (c :: cs).takeWhile isdigit = c :: cs := by
    rw [List.takeWhile_eq_self_iff]; exact hdig
  unfold strtoul
  simp only [List.takeWhile_cons, List.dropWhile_cons, hsp, Bool.false_eq_true, ↓reduceIte,
    List.length_nil]
  split
  · rename_i heq; cases heq; exact absurd rfl h45
  · rename_i heq; cases heq; exact absurd rfl h43
  · simp only [htake, hval, reduceCtorEq, ↓reduceIte, Nat.not_lt.2 hmax, Bool.false_eq_true,
      zero_add]

end ZRouter
