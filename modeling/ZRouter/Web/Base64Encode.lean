import ZRouter.Web.Base64

/-!
# Encoding (`base64.lua`)

`b64enc` writes eight binary digits for every byte and four zeros behind them, and reads them in groups
of six; a group that is not full is dropped.

* `sextet`, `b64enc`;
* `gsub_sextets`: groups of six digits are characters of the alphabet, which `b64dec` turns back;
* `exists_token`: every byte string is the value of some string over the alphabet;
* `b64dec_b64enc`: the round trip, and the form of the encoded string.
-/

namespace ZRouter.Web

open Pattern

/-- The character for a group of digits, `b:sub(c+1,c+1)`; groups that are not full are dropped. -/
def sextet (x : Bytes) : Bytes :=
  if x.length < 6 then []
  else (alphabet.drop ((x.take 6).foldl (fun c b => 2 * c + if b = 49 then 1 else 0) 0)).take 1

/-- The pattern `%d%d%d?%d?%d?%d?`. -/
def sextetItems : List (Item UInt8) :=
  [.one isdigit, .one isdigit, .opt isdigit, .opt isdigit, .opt isdigit, .opt isdigit]

/-- `({ '', '==', '=' })[#data%3+1]`. -/
def padding (n : ℕ) : Bytes :=
  match n % 3 with
  | 0 => []
  | 1 => str "=="
  | _ => str "="

/-- `b64enc`. -/
def b64enc (data : Bytes) : Bytes :=
  gsub sextetItems (fun x _ => sextet x)
      (gsub [.one fun _ => true] (fun x _ => x.flatMap fun b => binary b.toNat 8) data ++ str "0000") ++
    padding data.length

/-! ### Digits -/

/-- The digits of the bytes, one after the other. -/
theorem gsub_byteDigits (s : Bytes) :
    gsub [.one fun _ => true] (fun x _ => x.flatMap fun b => binary b.toNat 8) s = s.flatMap byteDigits := by
  induction s with
  | nil => exact gsub_nil rfl
  | cons c s ih =>
    have hexec : exec [.one fun _ => true] (c :: s) = some ([], s) := rfl
    have htake : (c :: s).take ((c :: s).length - s.length) = [c] := by
      rw [List.length_cons, Nat.add_sub_cancel_left]
      rfl
    rw [gsub_match hexec (by simp), ih, htake, List.flatMap_cons, List.flatMap_nil, List.append_nil]
    rfl

/-- Six digits are one group. -/
theorem exec_sextet {x : Bytes} (hx : BinaryDigits x) (hlen : x.length = 6) (rest : Bytes) :
    exec sextetItems (x ++ rest) = some ([], rest) := by
  have hdigit : ∀ b ∈ x, isdigit b = true := by
    intro b hb
    rcases hx b hb with rfl | rfl <;> decide
  match x, hlen, hdigit with
  | [a, b, c, d, e, f], _, hdigit =>
    simp only [List.forall_mem_cons, List.not_mem_nil, IsEmpty.forall_iff, implies_true, and_true]
      at hdigit
    obtain ⟨ha, hb, hc, hd, he, hf⟩ := hdigit
    simp [exec, sextetItems, Pattern.run, ha, hb, hc, hd, he, hf]

/-- Six digits are encoded to a character that is decoded to them. -/
theorem sextet_char {g : Bytes} (hg : BinaryDigits g) (hlen : g.length = 6) :
    ∃ c ∈ alphabet, sextet g = [c] ∧ decodeChar c = .ok g := by
  have hall : ∀ b₁ b₂ b₃ b₄ b₅ b₆ : Bool, ∃ c ∈ alphabet,
      sextet ([b₁, b₂, b₃, b₄, b₅, b₆].map fun b => if b then 49 else 48) = [c] ∧
        decodeChar c = .ok ([b₁, b₂, b₃, b₄, b₅, b₆].map fun b => if b then 49 else 48) := by
    decide +kernel
  have hbits : ∃ bs : List Bool, bs.length = 6 ∧ g = bs.map fun b => if b then 49 else 48 := by
    refine ⟨g.map fun b => b = 49, by rw [List.length_map, hlen], ?_⟩
    rw [List.map_map]
    refine ((List.map_congr_left fun b hb => ?_).trans (List.map_id g)).symm
    rcases hg b hb with rfl | rfl <;> rfl
  obtain ⟨bs, hlength, rfl⟩ := hbits
  match bs, hlength with
  | [b₁, b₂, b₃, b₄, b₅, b₆], _ => exact hall b₁ b₂ b₃ b₄ b₅ b₆

/-- Groups of six digits are encoded to characters that are decoded to them. -/
theorem gsub_sextets (q : ℕ) : ∀ {l : Bytes} (tail : Bytes), BinaryDigits l → l.length = 6 * q →
    ∃ (t : Bytes) (gs : List Bytes), (∀ c ∈ t, c ∈ alphabet) ∧ t.length = q ∧
      t.mapM decodeChar = .ok gs ∧ gs.flatten = l ∧
      gsub sextetItems (fun x _ => sextet x) (l ++ tail) =
        t ++ gsub sextetItems (fun x _ => sextet x) tail := by
  induction q with
  | zero =>
    intro l tail _ hlen
    rw [Nat.mul_zero, List.length_eq_zero_iff] at hlen
    subst hlen
    exact ⟨[], [], by simp, rfl, rfl, rfl, rfl⟩
  | succ q ih =>
    intro l tail hl hlen
    have htake : (l.take 6).length = 6 := by
      rw [List.length_take]
      omega
    have hfirst : BinaryDigits (l.take 6) := fun b hb => hl b (List.mem_of_mem_take hb)
    obtain ⟨c, hc, hsextet, hdec⟩ := sextet_char hfirst htake
    obtain ⟨t, gs, ht, hq, hmap, hflat, hgsub⟩ := @ih (l.drop 6) tail
      (fun b hb => hl b (List.mem_of_mem_drop hb)) (by rw [List.length_drop]; omega)
    have hl6 : l ++ tail = l.take 6 ++ (l.drop 6 ++ tail) := by
      rw [← List.append_assoc, List.take_append_drop]
    have hmatch : (l.take 6 ++ (l.drop 6 ++ tail)).take
        ((l.take 6 ++ (l.drop 6 ++ tail)).length - (l.drop 6 ++ tail).length) = l.take 6 := by
      rw [List.length_append, Nat.add_sub_cancel, List.take_left]
    refine ⟨c :: t, l.take 6 :: gs, List.forall_mem_cons.2 ⟨hc, ht⟩, by simp [hq], ?_, ?_, ?_⟩
    · rw [List.mapM_cons, hdec, hmap]
      rfl
    · rw [List.flatten_cons, hflat, List.take_append_drop]
    · rw [hl6, gsub_match (exec_sextet hfirst htake _) (by simp only [List.length_append, htake]; omega),
        hmatch, hsextet, hgsub]
      rfl

/-! ### The round trip -/

/-- What is encoded: characters of the alphabet for the digits and up to four zeros, and then the
padding. -/
theorem b64enc_spec (s : Bytes) : ∃ (t : Bytes) (gs : List Bytes) (k p : ℕ),
    b64enc s = t ++ List.replicate p 61 ∧ (∀ c ∈ t, c ∈ alphabet) ∧ t.mapM decodeChar = .ok gs ∧
      gs.flatten = s.flatMap byteDigits ++ List.replicate k 48 ∧ (k = 0 ∨ k = 2 ∨ k = 4) ∧ p ≤ 2 ∧
      t.length + p = 4 * ((s.length + 2) / 3) := by
  have hlen : (s.flatMap byteDigits).length = 8 * s.length := by
    simp [List.length_flatMap, byteDigits, binary, mul_comm]
  have hbits : BinaryDigits (s.flatMap byteDigits) := by
    intro b hb
    obtain ⟨c, -, hc⟩ := List.mem_flatMap.1 hb
    exact binaryDigits_binary c.toNat 8 b hc
  have hzeros : str "0000" = List.replicate 4 48 := by decide +kernel
  -- of the four zeros, `k` fill the last group and the others are dropped
  obtain ⟨k, m, p, q, hk, hkm, hq, hm, hpad, hp, htotal⟩ : ∃ k m p q,
      (k = 0 ∨ k = 2 ∨ k = 4) ∧ k + m = 4 ∧
      8 * s.length + k = 6 * q ∧
      gsub sextetItems (fun x _ => sextet x) (List.replicate m 48) = [] ∧
      padding s.length = List.replicate p 61 ∧ p ≤ 2 ∧ q + p = 4 * ((s.length + 2) / 3) := by
    have hmod : s.length % 3 < 3 := Nat.mod_lt _ (by norm_num)
    rw [padding]
    rcases (by omega : s.length % 3 = 0 ∨ s.length % 3 = 1 ∨ s.length % 3 = 2) with h | h | h
    · exact ⟨0, 4, 0, 4 * (s.length / 3), by omega, rfl, by omega, by decide +kernel, by rw [h]; rfl, by omega,
        by omega⟩
    · exact ⟨4, 0, 2, 4 * (s.length / 3) + 2, by omega, rfl, by omega, by decide +kernel, by rw [h]; rfl,
        by omega, by omega⟩
    · exact ⟨2, 2, 1, 4 * (s.length / 3) + 3, by omega, rfl, by omega, by decide +kernel, by rw [h]; rfl,
        by omega, by omega⟩
  obtain ⟨t, gs, ht, htlen, hmap, hflat, hgsub⟩ := @gsub_sextets q
    (s.flatMap byteDigits ++ List.replicate k 48) (List.replicate m 48)
    (fun b hb => (List.mem_append.1 hb).elim (hbits b) fun hb => Or.inl (List.eq_of_mem_replicate hb))
    (by rw [List.length_append, hlen, List.length_replicate, hq])
  refine ⟨t, gs, k, p, ?_, ht, hmap, hflat, hk, hp, by rw [htlen, htotal]⟩
  rw [b64enc, gsub_byteDigits, hzeros, ← hkm, List.replicate_add, ← List.append_assoc, hgsub, hm, hpad,
    List.append_nil]

theorem mapM_decodeChar_padding {t : Bytes} {gs : List Bytes} (h : t.mapM decodeChar = .ok gs) (p : ℕ) :
    (t ++ List.replicate p 61).mapM decodeChar = .ok (gs ++ List.replicate p []) := by
  have hpad : (List.replicate p 61).mapM decodeChar = .ok (List.replicate p []) := by
    induction p with
    | zero => rfl
    | succ p ih =>
      rw [List.replicate_succ, List.mapM_cons, ih]
      rfl
  rw [List.mapM_append, h, hpad]
  rfl

/-- Characters for the digits of a string are decoded to it, with or without padding. -/
theorem b64dec_digits {s t : Bytes} {gs : List Bytes} {k : ℕ} (ht : ∀ c ∈ t, c ∈ alphabet)
    (hmap : t.mapM decodeChar = .ok gs)
    (hflat : gs.flatten = s.flatMap byteDigits ++ List.replicate k 48)
    (hk : k = 0 ∨ k = 2 ∨ k = 4) (p : ℕ) : b64dec (t ++ List.replicate p 61) = .ok s := by
  have hfilter : (t ++ List.replicate p 61).filter (fun c => alphabet.contains c || c = 61) =
      t ++ List.replicate p 61 := by
    rw [List.filter_eq_self]
    intro c hc
    rcases List.mem_append.1 hc with hc | hc
    · simp [ht c hc]
    · simp [List.eq_of_mem_replicate hc]
  have hpad : gsub octetItems (fun x _ => octet x) (List.replicate k 48) = [] := by
    rcases hk with rfl | rfl | rfl <;> decide
  have hflatten : (gs ++ List.replicate p []).flatten = gs.flatten := by
    rw [List.flatten_append]
    simp
  rw [b64dec, hfilter, mapM_decodeChar_padding hmap]
  simp only [Except.map]
  rw [hflatten, hflat, gsub_digits s _ hpad]

/-- **Every byte string is decoded from some string over the alphabet.** -/
theorem exists_token (s : Bytes) :
    ∃ t, (∀ c ∈ t, c ∈ alphabet) ∧ (s ≠ [] → t ≠ []) ∧ b64dec t = .ok s := by
  obtain ⟨t, gs, k, p, -, ht, hmap, hflat, hk, hp, hlen⟩ := b64enc_spec s
  refine ⟨t, ht, fun hs htnil => ?_, ?_⟩
  · have hpos := List.length_pos_of_ne_nil hs
    rw [htnil, List.length_nil] at hlen
    omega
  · have hdec := b64dec_digits ht hmap hflat hk 0
    rwa [List.replicate_zero, List.append_nil] at hdec

/-- **Decoding inverts encoding**, and the encoded string has four characters for three bytes, with up
to two `=` at its end only. -/
theorem b64dec_b64enc (s : Bytes) :
    b64dec (b64enc s) = .ok s ∧ (b64enc s).length = 4 * ((s.length + 2) / 3) ∧
      ∃ t p, b64enc s = t ++ List.replicate p 61 ∧ p ≤ 2 ∧ ∀ c ∈ t, c ∈ alphabet := by
  obtain ⟨t, gs, k, p, henc, ht, hmap, hflat, hk, hp, hlen⟩ := b64enc_spec s
  refine ⟨?_, by rw [henc, List.length_append, List.length_replicate, hlen], t, p, henc, hp, ht⟩
  rw [henc]
  exact b64dec_digits ht hmap hflat hk p

end ZRouter.Web
