import ZRouter.Lib.CString
import ZRouter.Lib.Pattern

/-!
# URL coding and query lines (`urlXxcode.lua`, `parse_query`)

A Lua table with strings for keys and values is a function.  `parse_query` stands twice in the
source, in `collector.lua` and in `httpd.lua`, with the same text.

* `urlEncode`, `urlDecode`; `urlDecode_urlEncode`;
* `Table`, `parseQuery`;
* `encodeQuery`: the line of a list of pairs; `parseQuery_encodeQuery`: it is read back;
* `urlDecode_eq_self_iff`: the strings that decoding does not change.
-/

namespace ZRouter.Web

open Pattern

/-! ### Definitions -/

/-- A digit of `%02X`. -/
def hexDigit (n : ℕ) : UInt8 := if n < 10 then (48 + n).toUInt8 else (55 + n).toUInt8

/-- `string.format("%%%02X", string.byte(c))`. -/
def percent (c : UInt8) : Bytes := [37, hexDigit (c.toNat / 16), hexDigit (c.toNat % 16)]

/-- `urlEncode`. -/
def urlEncode (s : Bytes) : Bytes :=
  let s := gsub (lit [lf]) (fun _ _ => crlf) s
  let s := gsub [.opens, .one fun c => !(isalnum c || c = 32), .closes]
    (fun _ caps => (caps.headD []).flatMap percent) s
  gsub (lit [32]) (fun _ _ => [43]) s

/-- `string.gsub(str, "+", " ")`. -/
def plusToSpace (s : Bytes) : Bytes := gsub (lit [43]) (fun _ _ => [32]) s

/-- The pattern `%%(%x%x)`. -/
def percentItems : List (Item UInt8) :=
  [.one (· = 37), .opens, .one isxdigit, .one isxdigit, .closes]

/-- `string.char(tonumber(h, 16))`. -/
def hexChar (h : Bytes) : Bytes := [(h.foldl (fun n c => 16 * n + digitVal c) 0).toUInt8]

/-- `string.gsub(str, "%%(%x%x)", function(h) return string.char(tonumber(h,16)) end)`. -/
def unpercent (s : Bytes) : Bytes := gsub percentItems (fun _ caps => hexChar (caps.headD [])) s

/-- `string.gsub(str, "\r\n", "\n")`. -/
def crlfToLf (s : Bytes) : Bytes := gsub (lit crlf) (fun _ _ => [lf]) s

/-- `urlDecode`. -/
def urlDecode (s : Bytes) : Bytes := crlfToLf (unpercent (plusToSpace s))

/-- A Lua table with strings for keys and values. -/
abbrev Table := Bytes → Option Bytes

/-- The table after a list of assignments. -/
def Table.ofPairs (l : List (Bytes × Bytes)) : Table :=
  l.foldl (fun t p => Function.update t p.1 (some p.2)) fun _ => none

/-- The three replacements at the start of `parse_query`. -/
def entities (query : Bytes) : Bytes :=
  let query := gsub (lit (str "&amp;")) (fun _ _ => str "&") query
  let query := gsub (lit (str "&lt;")) (fun _ _ => str "<") query
  gsub (lit (str "&gt;")) (fun _ _ => str ">") query

/-- `ginsert`: the assignment it makes. -/
def ginsert (qstr : Bytes) : Option (Bytes × Bytes) :=
  match qstr.dropWhile (· ≠ 61) with
  | [] => none
  | _ :: value => some (urlDecode (qstr.takeWhile (· ≠ 61)), urlDecode value)

/-- The assignments of `parse_query`, one for each field that has a `=`. -/
def queryPairs (query : Bytes) : List (Bytes × Bytes) :=
  ((entities query).splitOn 38).filterMap ginsert

/-- `parse_query`. -/
def parseQuery (query : Bytes) : Table := Table.ofPairs (queryPairs query)

/-- The field of a query line for a key and its value. -/
def encodeField (p : Bytes × Bytes) : Bytes := urlEncode p.1 ++ 61 :: urlEncode p.2

/-- The query line of a table, in the order in which `pairs` enumerates it. -/
def encodeQuery (l : List (Bytes × Bytes)) : Bytes := [38].intercalate (l.map encodeField)

/-! ### Encoding -/

/-- What a byte is encoded to. -/
def encodeByte (c : UInt8) : Bytes :=
  if c = lf then percent cr ++ percent lf
  else if isalnum c then [c]
  else if c = 32 then [43]
  else percent c

theorem percent_bytes (c : UInt8) : ∀ d ∈ percent c, d = 37 ∨ isalnum d = true := by
  have key : ∀ n < 16, isalnum (hexDigit n) = true := by decide
  have hc : c.toNat < 256 := c.toNat_lt
  intro d hd
  simp only [percent, List.mem_cons, List.not_mem_nil, or_false] at hd
  rcases hd with rfl | rfl | rfl
  · exact Or.inl rfl
  · exact Or.inr (key _ (by omega))
  · exact Or.inr (key _ (by omega))

theorem encodeByte_bytes (c : UInt8) :
    ∀ d ∈ encodeByte c, d = 37 ∨ d = 43 ∨ isalnum d = true := by
  intro d hd
  unfold encodeByte at hd
  split_ifs at hd with h1 h2 h3
  · rcases List.mem_append.1 hd with hd | hd <;> have := percent_bytes _ d hd <;> tauto
  · obtain rfl := List.mem_singleton.1 hd
    exact Or.inr (Or.inr h2)
  · exact Or.inr (Or.inl (List.mem_singleton.1 hd))
  · have := percent_bytes _ d hd
    tauto

theorem isalnum_ne_space {d : UInt8} (h : isalnum d = true) : d ≠ 32 := by
  rintro rfl
  exact absurd h (by decide)

theorem urlEncode_eq (s : Bytes) : urlEncode s = s.flatMap encodeByte := by
  have h1 : ∀ s : Bytes, gsub [.opens, .one fun c => !(isalnum c || c = 32), .closes]
      (fun _ caps => (caps.headD []).flatMap percent) s =
      s.flatMap fun c => if !(isalnum c || c = 32) then percent c else [c] := by
    intro s
    rw [@gsub_single _ _ _ (fun c => !(isalnum c || c = 32)) (fun c => [[c]]) rfl]
    · simp
    · intro c s
      simp [exec, run]
  have hsp : ∀ l : Bytes, (∀ d ∈ l, d ≠ 32) →
      l.flatMap (fun c => if c = 32 then [43] else [c]) = l := by
    intro l hl
    induction l with
    | nil => rfl
    | cons d l ih =>
      rw [List.flatMap_cons, if_neg (hl d (by simp)), ih fun x hx => hl x (by simp [hx])]
      rfl
  have hpc : ∀ c : UInt8, ∀ d ∈ percent c, d ≠ 32 := by
    intro c d hd
    rcases percent_bytes c d hd with rfl | h
    · decide
    · exact isalnum_ne_space h
  simp only [urlEncode, gsub_lit_singleton, h1, List.flatMap_assoc]
  congr 1
  funext c
  unfold encodeByte
  by_cases hlf : c = lf
  · subst hlf
    decide
  by_cases hal : isalnum c = true
  · simp [hlf, hal, isalnum_ne_space hal]
  by_cases hs : c = 32
  · subst hs
    decide
  · simp [hlf, hal, hs]
    exact hsp _ (hpc c)

/-! ### Decoding -/

theorem plusToSpace_eq (s : Bytes) : plusToSpace s = s.map fun c => if c = 43 then 32 else c := by
  rw [plusToSpace, gsub_lit_singleton, ← List.flatMap_singleton' (s.map _), List.flatMap_map]
  congr 1
  funext c
  split_ifs <;> rfl

theorem exec_percentItems (s : Bytes) : exec percentItems s =
    match s with
    | 37 :: h :: l :: rest =>
        if isxdigit h && isxdigit l then some ([[h, l]], rest) else none
    | _ => none := by
  match s with
  | [] => rfl
  | [c] => by_cases hc : c = 37 <;> simp [exec, percentItems, run, hc]
  | [c, h] => by_cases hc : c = 37 <;> simp [exec, percentItems, run, hc]
  | c :: h :: l :: rest =>
    by_cases hc : c = 37
    · subst hc
      have htake : (h :: l :: rest).take (rest.length + 1 + 1 - rest.length) = [h, l] := by
        rw [show rest.length + 1 + 1 - rest.length = 2 by omega]
        rfl
      cases hh : isxdigit h <;> cases hl : isxdigit l <;>
        simp [exec, percentItems, run, hh, hl, htake]
    · simp [exec, percentItems, run, hc]

theorem unpercent_nil : unpercent [] = [] := gsub_nil rfl

/-- A byte that is not `%` stays. -/
theorem unpercent_cons {c : UInt8} (h : c ≠ 37) (s : Bytes) :
    unpercent (c :: s) = c :: unpercent s := by
  refine gsub_skip ?_
  rw [exec_percentItems]
  split
  · rename_i heq
    exact absurd (List.cons.inj heq).1 h
  · rfl

/-- An encoded byte is decoded. -/
theorem unpercent_percent (c : UInt8) (s : Bytes) :
    unpercent (percent c ++ s) = c :: unpercent s := by
  have hdig : ∀ n < 16, isxdigit (hexDigit n) = true ∧ digitVal (hexDigit n) = n := by decide
  have hc : c.toNat < 256 := c.toNat_lt
  have h1 := hdig (c.toNat / 16) (by omega)
  have h2 := hdig (c.toNat % 16) (by omega)
  have hx : exec percentItems (percent c ++ s) =
      some ([[hexDigit (c.toNat / 16), hexDigit (c.toNat % 16)]], s) := by
    rw [exec_percentItems]
    simp [percent, h1.1, h2.1]
  have hchar : hexChar [hexDigit (c.toNat / 16), hexDigit (c.toNat % 16)] = [c] := by
    simp only [hexChar, List.foldl_cons, List.foldl_nil, h1.2, h2.2]
    rw [show 16 * (16 * 0 + c.toNat / 16) + c.toNat % 16 = c.toNat by omega]
    simp
  have hlt : s.length < (percent c ++ s).length := by
    simp only [percent, List.length_append, List.length_cons]
    omega
  rw [unpercent, gsub_match hx hlt]
  simp only [List.headD_cons, hchar]
  rfl

/-- A byte as it is before the last step of `urlDecode`. -/
def lfToCrlf (s : Bytes) : Bytes := s.flatMap fun c => if c = lf then crlf else [c]

/-- The first two steps of `urlDecode` undo the last two of `urlEncode`. -/
theorem unpercent_urlEncode (s t : Bytes) :
    unpercent (plusToSpace (urlEncode s ++ t)) = lfToCrlf s ++ unpercent (plusToSpace t) := by
  have hpc : ∀ c, plusToSpace (percent c) = percent c := by
    intro c
    rw [plusToSpace_eq]
    refine (List.map_congr_left fun d hd => ?_).trans (List.map_id _)
    rcases percent_bytes c d hd with rfl | h
    · rfl
    · rw [if_neg]
      · rfl
      · rintro rfl
        exact absurd h (by decide)
  have hbyte : ∀ c u, unpercent (plusToSpace (encodeByte c) ++ u) =
      (if c = lf then crlf else [c]) ++ unpercent u := by
    intro c u
    unfold encodeByte
    split_ifs with h1 h2 h3
    · have : plusToSpace (percent cr ++ percent lf) = percent cr ++ percent lf := by decide
      rw [this, List.append_assoc, unpercent_percent, unpercent_percent]
      rfl
    · have h37 : c ≠ 37 := by
        rintro rfl
        exact absurd h2 (by decide)
      have h43 : c ≠ 43 := by
        rintro rfl
        exact absurd h2 (by decide)
      rw [plusToSpace_eq]
      simp only [List.map_cons, h43, if_false, List.map_nil, List.cons_append, List.nil_append]
      exact unpercent_cons h37 u
    · subst h3
      exact unpercent_cons (by decide) u
    · rw [hpc, unpercent_percent]
      rfl
  rw [urlEncode_eq]
  induction s with
  | nil => rfl
  | cons c s ih =>
    have happ : ∀ a b, plusToSpace (a ++ b) = plusToSpace a ++ plusToSpace b := by
      intro a b
      simp only [plusToSpace_eq, List.map_append]
    rw [List.flatMap_cons, List.append_assoc, happ, hbyte, ih, ← List.append_assoc]
    rfl

theorem crlfToLf_nil : crlfToLf [] = [] := gsub_nil rfl

theorem crlfToLf_crlf (s : Bytes) : crlfToLf (cr :: lf :: s) = lf :: crlfToLf s := by
  have hx : exec (lit crlf) (cr :: lf :: s) = some ([], s) := by
    rw [exec_lit, if_pos ⟨s, rfl⟩]
    rfl
  rw [crlfToLf, gsub_match hx (by simp)]
  rfl

theorem crlfToLf_cons {c : UInt8} {s : Bytes} (h : c = cr → s.head? ≠ some lf) :
    crlfToLf (c :: s) = c :: crlfToLf s := by
  refine gsub_skip ?_
  rw [exec_lit, if_neg]
  rintro ⟨t, ht⟩
  rw [crlf, List.cons_append, List.cons_append, List.nil_append] at ht
  obtain ⟨rfl, rfl⟩ := List.cons.inj ht
  exact h rfl rfl

/-- The last step of `urlDecode` undoes the first of `urlEncode`. -/
theorem crlfToLf_lfToCrlf (s t : Bytes) (h : t.head? ≠ some lf) :
    crlfToLf (lfToCrlf s ++ t) = s ++ crlfToLf t := by
  have hhead : ∀ s : Bytes, (lfToCrlf s ++ t).head? ≠ some lf := by
    intro s
    cases s with
    | nil => exact h
    | cons c s =>
      rw [lfToCrlf, List.flatMap_cons]
      split_ifs with hc
      · have hne : cr ≠ lf := by decide
        simpa [crlf] using hne
      · simpa using hc
  induction s with
  | nil => rfl
  | cons c s ih =>
    have hcons : lfToCrlf (c :: s) = (if c = lf then crlf else [c]) ++ lfToCrlf s := rfl
    rw [hcons, List.append_assoc]
    split_ifs with hc
    · subst hc
      rw [crlf, List.cons_append, List.cons_append, List.nil_append, crlfToLf_crlf, ih,
        List.cons_append]
    · rw [List.cons_append, List.nil_append, crlfToLf_cons fun _ => hhead s, ih, List.cons_append]

/-- Decoding goes on behind a byte that has no part in it. -/
theorem urlDecode_cons {c : UInt8} (h1 : c ≠ 43) (h2 : c ≠ 37) (h3 : c ≠ cr) (s : Bytes) :
    urlDecode (c :: s) = c :: urlDecode s := by
  have hplus : plusToSpace (c :: s) = c :: plusToSpace s := by
    rw [plusToSpace_eq, plusToSpace_eq, List.map_cons, if_neg h1]
  rw [urlDecode, hplus, unpercent_cons h2, crlfToLf_cons fun h => absurd h h3]
  rfl

/-- **Decoding inverts encoding.** -/
theorem urlDecode_urlEncode (s : Bytes) : urlDecode (urlEncode s) = s := by
  have h := unpercent_urlEncode s []
  rw [List.append_nil, show plusToSpace [] = [] from rfl, unpercent_nil, List.append_nil] at h
  have h2 := crlfToLf_lfToCrlf s [] (by simp)
  rw [List.append_nil, crlfToLf_nil, List.append_nil] at h2
  rw [urlDecode, h, h2]

/-! ### What decoding does not change -/

/-- There is nothing to decode in a string. -/
structure Literal (s : Bytes) : Prop where
  plus : 43 ∉ s
  escape : ∀ h l t, 37 :: h :: l :: t <:+ s → isxdigit h = true → isxdigit l = false
  crlf : ¬ crlf <:+: s

theorem shrinks_percentItems :
    Shrinks percentItems fun _ caps => hexChar (caps.headD []) := by
  intro s caps rest hx
  rw [exec_percentItems] at hx
  split at hx
  · split_ifs at hx
    cases hx
    simp only [List.headD_cons, hexChar, List.length_cons, List.length_nil]
    omega
  · cases hx

theorem exec_percentItems_eq_none_iff {s : Bytes} :
    (∀ t, t <:+ s → exec percentItems t = none) ↔
      ∀ h l t, 37 :: h :: l :: t <:+ s → isxdigit h = true → isxdigit l = false := by
  simp only [exec_percentItems]
  constructor
  · intro hs h l t ht hh
    have := hs _ ht
    simpa [hh] using this
  · intro hs t ht
    split
    · rename_i h l rest
      have := hs h l rest ht
      cases hh : isxdigit h <;> simp_all
    · rfl

theorem plusToSpace_length (s : Bytes) : (plusToSpace s).length = s.length := by
  rw [plusToSpace_eq, List.length_map]

theorem plusToSpace_of_not_mem {s : Bytes} (h : 43 ∉ s) : plusToSpace s = s := by
  rw [plusToSpace_eq]
  refine (List.map_congr_left fun c hc => ?_).trans (List.map_id s)
  rw [if_neg (ne_of_mem_of_not_mem hc h)]
  rfl

theorem not_mem_plusToSpace (s : Bytes) : 43 ∉ plusToSpace s := by
  rw [plusToSpace_eq, List.mem_map]
  rintro ⟨c, -, hc⟩
  split_ifs at hc with h
  · exact absurd hc (by decide)
  · exact h hc

/-- The last two steps of `urlDecode` do not make a string longer, and change nothing if it stays as
long as it was. -/
theorem crlfToLf_unpercent (s : Bytes) : (crlfToLf (unpercent s)).length ≤ s.length ∧
    ((crlfToLf (unpercent s)).length = s.length →
      crlfToLf (unpercent s) = s ∧ (∀ t, t <:+ s → exec percentItems t = none) ∧
        ¬ crlf <:+: s) := by
  obtain ⟨h1, h2⟩ := shrinks_percentItems.gsub s
  obtain ⟨h3, h4⟩ := (shrinks_lit (l := crlf) (r := [lf]) (by decide)).gsub (unpercent s)
  refine ⟨h3.trans h1, fun heq => ?_⟩
  have hlen : (unpercent s).length = s.length := le_antisymm h1 (heq ▸ h3)
  have hnone := h2 hlen
  have hs : unpercent s = s := gsub_of_none hnone
  have hcr := h4 (heq.trans hlen.symm)
  rw [hs] at hcr ⊢
  exact ⟨gsub_of_none hcr, hnone, exec_lit_eq_none_iff.1 hcr⟩

theorem urlDecode_length_le (s : Bytes) : (urlDecode s).length ≤ s.length :=
  (crlfToLf_unpercent (plusToSpace s)).1.trans (plusToSpace_length s).le

/-- Decoding that does not make a string shorter replaces `+` only. -/
theorem urlDecode_of_length {s : Bytes} (h : (urlDecode s).length = s.length) :
    urlDecode s = plusToSpace s :=
  ((crlfToLf_unpercent (plusToSpace s)).2 (h.trans (plusToSpace_length s).symm)).1

theorem urlDecode_eq_self_iff {s : Bytes} : urlDecode s = s ↔ Literal s := by
  constructor
  · intro h
    have hplus : plusToSpace s = s := (urlDecode_of_length (congrArg _ h)).symm.trans h
    have hlen : (crlfToLf (unpercent s)).length = s.length := by
      rw [urlDecode, hplus] at h
      exact congrArg _ h
    obtain ⟨-, h1, h2⟩ := (crlfToLf_unpercent s).2 hlen
    exact ⟨hplus ▸ not_mem_plusToSpace s, exec_percentItems_eq_none_iff.1 h1, h2⟩
  · intro h
    have h1 : unpercent s = s := gsub_of_none (exec_percentItems_eq_none_iff.2 h.escape)
    rw [urlDecode, plusToSpace_of_not_mem h.plus, h1]
    exact gsub_of_none (exec_lit_eq_none_iff.2 h.crlf)

/-! ### Query lines -/

theorem mem_intercalate {x d : UInt8} {ls : List Bytes} (h : d ∈ [x].intercalate ls) :
    d = x ∨ ∃ l ∈ ls, d ∈ l := by
  induction ls with
  | nil => simp at h
  | cons l ls ih =>
    cases ls with
    | nil => exact Or.inr ⟨l, by simp, by simpa using h⟩
    | cons l' ls =>
      rw [List.intercalate_cons_cons, List.append_assoc, List.mem_append] at h
      rcases h with h | h
      · exact Or.inr ⟨l, by simp, h⟩
      · rcases List.mem_cons.1 h with h | h
        · exact Or.inl h
        · rcases ih h with h | ⟨m, hm, h⟩
          · exact Or.inl h
          · exact Or.inr ⟨m, by simp [hm], h⟩

theorem mem_urlEncode {s : Bytes} {d : UInt8} (h : d ∈ urlEncode s) :
    d = 37 ∨ d = 43 ∨ isalnum d = true := by
  rw [urlEncode_eq, List.mem_flatMap] at h
  obtain ⟨c, -, hc⟩ := h
  exact encodeByte_bytes c d hc

theorem mem_encodeQuery {l : List (Bytes × Bytes)} {d : UInt8} (h : d ∈ encodeQuery l) :
    d = 37 ∨ d = 43 ∨ d = 38 ∨ d = 61 ∨ isalnum d = true := by
  rcases mem_intercalate h with h | ⟨f, hf, h⟩
  · tauto
  · obtain ⟨p, -, rfl⟩ := List.mem_map.1 hf
    rcases List.mem_append.1 h with h | h
    · have := mem_urlEncode h
      tauto
    · rcases List.mem_cons.1 h with h | h
      · tauto
      · have := mem_urlEncode h
        tauto

theorem gsub_lit_of_not_mem {c : UInt8} {l r s : Bytes} (hc : c ∈ l) (h : c ∉ s) :
    gsub (lit l) (fun _ _ => r) s = s :=
  gsub_of_none (exec_lit_eq_none_iff.2 fun hl => h (hl.subset hc))

/-- A line without `;` has no entities. -/
theorem entities_of_not_mem {s : Bytes} (h : 59 ∉ s) : entities s = s := by
  unfold entities
  dsimp only
  rw [gsub_lit_of_not_mem (c := 59) (by decide) h, gsub_lit_of_not_mem (c := 59) (by decide) h,
    gsub_lit_of_not_mem (c := 59) (by decide) h]

/-- The assignment of a field is made of what stands before and behind its first `=`. -/
theorem ginsert_eq {k v : Bytes} (h : 61 ∉ k) :
    ginsert (k ++ 61 :: v) = some (urlDecode k, urlDecode v) := by
  have h1 : ∀ c ∈ k, decide (c ≠ 61) = true := fun c hc => by
    simpa using ne_of_mem_of_not_mem hc h
  unfold ginsert
  rw [List.takeWhile_append_of_pos h1, List.dropWhile_append_of_pos h1]
  simp

/-- A query line is read back. -/
theorem queryPairs_encodeQuery (l : List (Bytes × Bytes)) : queryPairs (encodeQuery l) = l := by
  have hsemi : 59 ∉ encodeQuery l := fun h => absurd (mem_encodeQuery h) (by decide)
  rw [queryPairs, entities_of_not_mem hsemi]
  by_cases hl : l = []
  · subst hl
    rfl
  have hfield : ∀ f ∈ l.map encodeField, (38 : UInt8) ∉ f := by
    intro f hf h
    obtain ⟨p, -, rfl⟩ := List.mem_map.1 hf
    rcases List.mem_append.1 h with h | h
    · exact absurd (mem_urlEncode h) (by decide)
    · rcases List.mem_cons.1 h with h | h
      · exact absurd h (by decide)
      · exact absurd (mem_urlEncode h) (by decide)
  rw [encodeQuery, List.splitOn_intercalate 38 hfield (by simpa using hl), List.filterMap_map]
  have hone : ∀ p : Bytes × Bytes, ginsert (encodeField p) = some p := by
    intro p
    have h61 : (61 : UInt8) ∉ urlEncode p.1 := fun h => absurd (mem_urlEncode h) (by decide)
    rw [encodeField, ginsert_eq h61, urlDecode_urlEncode, urlDecode_urlEncode]
  rw [show ginsert ∘ encodeField = some from funext hone, List.filterMap_some]

theorem parseQuery_encodeQuery (l : List (Bytes × Bytes)) :
    parseQuery (encodeQuery l) = Table.ofPairs l := by
  rw [parseQuery, queryPairs_encodeQuery]

/-! ### Tables -/

theorem Table.ofPairs_append (l : List (Bytes × Bytes)) (p : Bytes × Bytes) :
    Table.ofPairs (l ++ [p]) = Function.update (Table.ofPairs l) p.1 (some p.2) := by
  simp [Table.ofPairs]

theorem Table.mem_of_ofPairs {l : List (Bytes × Bytes)} {k v : Bytes}
    (h : Table.ofPairs l k = some v) : (k, v) ∈ l := by
  induction l using List.reverseRecOn with
  | nil => cases h
  | append_singleton l p ih =>
    rw [Table.ofPairs_append] at h
    by_cases hk : k = p.1
    · subst hk
      rw [Function.update_self] at h
      cases h
      simp
    · rw [Function.update_of_ne hk] at h
      exact List.mem_append_left _ (ih h)

theorem Table.ofPairs_eq_some_iff {l : List (Bytes × Bytes)} (hl : (l.map Prod.fst).Nodup)
    {k v : Bytes} : Table.ofPairs l k = some v ↔ (k, v) ∈ l := by
  refine ⟨Table.mem_of_ofPairs, fun h => ?_⟩
  induction l using List.reverseRecOn with
  | nil => cases h
  | append_singleton l p ih =>
    rw [List.map_append, List.nodup_append] at hl
    obtain ⟨h1, -, h3⟩ := hl
    rw [Table.ofPairs_append]
    rcases List.mem_append.1 h with h | h
    · have hk : k ≠ p.1 := h3 k (List.mem_map_of_mem h) p.1 (by simp)
      rw [Function.update_of_ne hk]
      exact ih h1 h
    · obtain rfl := List.mem_singleton.1 h
      exact Function.update_self ..

end ZRouter.Web
