import ZRouter.Lib.Lua
import ZRouter.Lib.Pattern

/-!
# `base64.lua`

`b64dec` drops what is not in the alphabet, writes six binary digits for every character and reads
them back in groups of eight.

* `decodeChar`, `octet`, `b64dec`;
* `b64dec_returns`: it never raises an error;
* `gsub_digits`: the digits of a string are read back as the string.
-/

namespace ZRouter.Web

open Pattern

/-- The alphabet `b`. -/
def alphabet : Bytes := str "ABCDEFGHIJKLMNOPQRSTUVWXYZabcdefghijklmnopqrstuvwxyz0123456789+/"

/-- The binary digits of `f`, from the bit number `n` down. -/
def binary (f : ℕ) (n : ℕ) : Bytes :=
  (List.range n).reverse.map fun i => if 0 < f % 2 ^ (i + 1) - f % 2 ^ i then 49 else 48

/-- The digits for one character; `b:find(x)` must not be `nil`. -/
def decodeChar (x : UInt8) : Lua Bytes :=
  if x = 61 then .ok []
  else (Lua.get .arithmetic (alphabet.idxOf? x)).map fun f => binary f 6

/-- The byte for a group of digits; groups that are not full are dropped. -/
def octet (x : Bytes) : Bytes :=
  if x.length ≠ 8 then []
  else [(x.foldl (fun c b => 2 * c + if b = 49 then 1 else 0) 0).toUInt8]

/-- The pattern `%d%d%d?%d?%d?%d?%d?%d?`. -/
def octetItems : List (Item UInt8) :=
  [.one isdigit, .one isdigit, .opt isdigit, .opt isdigit, .opt isdigit, .opt isdigit, .opt isdigit,
    .opt isdigit]

/-- `b64dec`. -/
def b64dec (data : Bytes) : Lua Bytes :=
  ((data.filter fun c => alphabet.contains c || c = 61).mapM decodeChar).map fun bits =>
    gsub octetItems (fun x _ => octet x) bits.flatten

/-! ### It returns -/

/-- A loop over a list returns if every pass does. -/
theorem mapM_returns {α β : Type} {f : α → Lua β} {l : List α} (h : ∀ a ∈ l, ∃ b, f a = .ok b) :
    ∃ bs, l.mapM f = .ok bs := by
  induction l with
  | nil => exact ⟨[], rfl⟩
  | cons a l ih =>
    obtain ⟨b, hb⟩ := h a List.mem_cons_self
    obtain ⟨bs, hbs⟩ := ih fun x hx => h x (List.mem_cons_of_mem a hx)
    exact ⟨b :: bs, by rw [List.mapM_cons, hb, hbs]; rfl⟩

theorem decodeChar_returns {x : UInt8} (h : x ∈ alphabet ∨ x = 61) : ∃ d, decodeChar x = .ok d := by
  unfold decodeChar
  split_ifs with hx
  · exact ⟨[], rfl⟩
  · have hmem : x ∈ alphabet := h.resolve_right hx
    obtain ⟨i, hi⟩ := Option.isSome_iff_exists.1 (List.isSome_idxOf?.2 hmem)
    exact ⟨binary i 6, by rw [hi]; rfl⟩

/-- The alphabet has every character that is left, so `b:find(x) - 1` is a number. -/
theorem b64dec_returns (data : Bytes) : ∃ s, b64dec data = .ok s := by
  obtain ⟨bits, hbits⟩ := @mapM_returns _ _ decodeChar
    (data.filter fun c => alphabet.contains c || c = 61) fun x hx =>
      decodeChar_returns (by simpa using (List.mem_filter.1 hx).2)
  exact ⟨_, by rw [b64dec, hbits]; rfl⟩

/-! ### Every string is a value -/

/-- The eight digits of a byte. -/
def byteDigits (c : UInt8) : Bytes := binary c.toNat 8

/-- A list of binary digits. -/
def BinaryDigits (l : Bytes) : Prop := ∀ b ∈ l, b = 48 ∨ b = 49

theorem binaryDigits_binary (f n : ℕ) : BinaryDigits (binary f n) := by
  intro b hb
  obtain ⟨i, -, rfl⟩ := List.mem_map.1 hb
  split_ifs
  · exact Or.inr rfl
  · exact Or.inl rfl

theorem octet_byteDigits (c : UInt8) : octet (byteDigits c) = [c] := by
  have hall : ∀ n < 256, octet (binary n 8) = [n.toUInt8] := by decide +kernel
  rw [byteDigits, hall c.toNat c.toNat_lt]
  simp

/-- Eight digits are one group. -/
theorem exec_octet {x : Bytes} (hx : BinaryDigits x) (hlen : x.length = 8) (rest : Bytes) :
    exec octetItems (x ++ rest) = some ([], rest) := by
  have hdigit : ∀ b ∈ x, isdigit b = true := by
    intro b hb
    rcases hx b hb with rfl | rfl <;> decide
  match x, hlen, hdigit with
  | [a, b, c, d, e, f, g, h], _, hdigit =>
    simp only [List.forall_mem_cons, List.not_mem_nil, IsEmpty.forall_iff, implies_true, and_true]
      at hdigit
    obtain ⟨ha, hb, hc, hd, he, hf, hg, hh⟩ := hdigit
    simp [exec, octetItems, Pattern.run, ha, hb, hc, hd, he, hf, hg, hh]

/-- The digits of a string, and up to four zeros after them, give the string. -/
theorem gsub_digits (s pad : Bytes)
    (hpad : gsub octetItems (fun x _ => octet x) pad = []) :
    gsub octetItems (fun x _ => octet x) (s.flatMap byteDigits ++ pad) = s := by
  induction s with
  | nil => exact hpad
  | cons c s ih =>
    have hlen : (byteDigits c).length = 8 := by simp [byteDigits, binary]
    have hdigits : BinaryDigits (byteDigits c) := binaryDigits_binary c.toNat 8
    have hexec := exec_octet hdigits hlen (s.flatMap byteDigits ++ pad)
    rw [List.flatMap_cons, List.append_assoc, gsub_match hexec (by simp [hlen]), ih]
    have htake : (byteDigits c ++ (s.flatMap byteDigits ++ pad)).take
        ((byteDigits c ++ (s.flatMap byteDigits ++ pad)).length -
          (s.flatMap byteDigits ++ pad).length) = byteDigits c := by
      rw [List.length_append, Nat.add_sub_cancel, List.take_left]
    rw [htake, octet_byteDigits]
    rfl

end ZRouter.Web
