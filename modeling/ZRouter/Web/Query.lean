import ZRouter.Web.UrlCode

/-!
# Building and parsing query lines (`collector.lua`, `parse_query`)

`parse_query` goes through the line by positions, which count from one; the search for the first `&`
starts at zero.

* `sub`, `findByte`: `string.sub` and `string.find` with positions;
* `scanQuery`: the loop of `parse_query`; `scanQuery_eq`: it splits the line at the `&`;
* `reventQuery`: the loop of the branch `revent` of `process`;
* `scanQuery_reventQuery`: the table is read back.
-/

namespace ZRouter.Web

open Pattern

/-! ### Definitions -/

/-- `string.sub(s, i, j)`. -/
def sub (s : Bytes) (i j : ℕ) : Bytes := (s.take j).drop (i - 1)

/-- `string.find(s, c, pos)`: the position of the byte. -/
def findByte (s : Bytes) (c : UInt8) (pos : ℕ) : Option ℕ :=
  ((s.drop (pos - 1)).idxOf? c).map fun i => min (pos - 1) s.length + i + 1

/-- `ginsert`, on the table `parsed`. -/
def insertField (parsed : Table) (qstr : Bytes) : Table :=
  match findByte qstr 61 1 with
  | some first =>
      Function.update parsed (urlDecode (sub qstr 0 (first - 1)))
        (some (urlDecode (sub qstr (first + 1) qstr.length)))
  | none => parsed

/-- The loop of `parse_query` in at most so many passes. -/
def scanFrom (query : Bytes) : ℕ → ℕ → Table → Table
  | 0, _, parsed => parsed
  | n + 1, pos, parsed =>
      match findByte query 38 pos with
      | some first => scanFrom query n (first + 1) (insertField parsed (sub query pos (first - 1)))
      | none => insertField parsed (sub query pos query.length)

/-- `parse_query`, with its positions.  The loop does not pass more often than there are bytes. -/
def scanQuery (query : Bytes) : Table :=
  scanFrom (entities query) ((entities query).length + 1) 0 fun _ => none

/-- The loop of the branch `revent`, from the line `ret` on. -/
def reventFrom : Option Bytes → List (Bytes × Bytes) → Option Bytes
  | ret, [] => ret
  | some ret, (k, v) :: l => reventFrom (some (ret ++ str "&" ++ urlEncode k ++ str "=" ++ urlEncode v)) l
  | none, (k, v) :: l => reventFrom (some (urlEncode k ++ str "=" ++ urlEncode v)) l

/-- The line that the branch `revent` returns; it is `nil` for an empty table. -/
def reventQuery (l : List (Bytes × Bytes)) : Option Bytes := reventFrom none l

/-! ### Positions -/

/-- The first `c` behind a position. -/
theorem findByte_append {c : UInt8} {a b pre : Bytes} {pos : ℕ} (hpos : pos - 1 = pre.length)
    (hc : c ∉ a) :
    findByte (pre ++ (a ++ c :: b)) c pos = some (pre.length + a.length + 1) := by
  have hidx : (a ++ c :: b).idxOf? c = some a.length := by
    induction a with
    | nil => simp [List.idxOf?_cons]
    | cons d a ih =>
      rw [List.mem_cons, not_or] at hc
      have hd : (d == c) = false := by simpa using Ne.symm hc.1
      simp [List.idxOf?_cons, hd, ih hc.2]
  rw [findByte, hpos, List.drop_left, hidx, Option.map_some, Nat.min_eq_left (by simp)]

theorem findByte_eq_none {c : UInt8} {a pre : Bytes} {pos : ℕ} (hpos : pos - 1 = pre.length)
    (hc : c ∉ a) : findByte (pre ++ a) c pos = none := by
  rw [findByte, hpos, List.drop_left, List.idxOf?_eq_none_iff.2 hc]
  rfl

theorem sub_append {a b pre : Bytes} {pos : ℕ} (hpos : pos - 1 = pre.length) :
    sub (pre ++ (a ++ b)) pos (pre.length + a.length) = a := by
  rw [sub, hpos, ← List.append_assoc, ← List.length_append, List.take_left, List.drop_left]

/-- A string has a byte, behind a part without it, or it has none. -/
theorem split_at_byte (c : UInt8) (s : Bytes) : c ∉ s ∨ ∃ a b, s = a ++ c :: b ∧ c ∉ a := by
  by_cases h : c ∈ s
  · obtain ⟨a, b, hs, ha⟩ := List.eq_append_cons_of_mem h
    exact Or.inr ⟨a, b, hs, ha⟩
  · exact Or.inl h

/-! ### The loops -/

/-- An assignment of `parse_query`. -/
def assign (t : Table) (p : Bytes × Bytes) : Table := Function.update t p.1 (some p.2)

/-- `ginsert` makes the assignment of the field, if it has one. -/
theorem insertField_eq (parsed : Table) (qstr : Bytes) :
    insertField parsed qstr = (ginsert qstr).toList.foldl assign parsed := by
  rcases split_at_byte 61 qstr with h | ⟨k, v, rfl, hk⟩
  · have hfind : findByte qstr 61 1 = none := @findByte_eq_none 61 qstr [] 1 rfl h
    have hdrop : qstr.dropWhile (fun c => decide (c ≠ 61)) = [] := by
      rw [List.dropWhile_eq_nil_iff]
      exact fun c hc => by simpa using ne_of_mem_of_not_mem hc h
    rw [insertField, hfind, ginsert, hdrop]
    rfl
  · have hfind := @findByte_append 61 k v [] 1 rfl hk
    have hkey := @sub_append k (61 :: v) [] 0 rfl
    rw [List.nil_append, List.length_nil, Nat.zero_add] at hfind hkey
    have hvalue : sub (k ++ 61 :: v) (k.length + 1 + 1) (k ++ 61 :: v).length = v := by
      rw [sub, List.take_length, Nat.add_sub_cancel, List.append_cons,
        ← List.length_singleton (a := (61 : UInt8)), ← List.length_append, List.drop_left]
    rw [insertField, hfind]
    dsimp only
    rw [Nat.add_sub_cancel, hkey, hvalue, ginsert_eq hk]
    rfl

theorem filterMap_ginsert (a : Bytes) (l : List Bytes) :
    (a :: l).filterMap ginsert = (ginsert a).toList ++ l.filterMap ginsert := by
  rw [List.filterMap_cons]
  cases ginsert a <;> rfl

/-- The loop makes the assignments of the fields that are left. -/
theorem scanFrom_eq {query : Bytes} (n : ℕ) : ∀ {pre rest : Bytes} {pos : ℕ} {parsed : Table},
    query = pre ++ rest → pos - 1 = pre.length → rest.length < n →
    scanFrom query n pos parsed = ((rest.splitOn 38).filterMap ginsert).foldl assign parsed := by
  induction n with
  | zero => exact fun _ _ h => absurd h (Nat.not_lt_zero _)
  | succ n ih =>
    intro pre rest pos parsed hquery hpos hn
    subst hquery
    rw [scanFrom]
    rcases split_at_byte 38 rest with h | ⟨a, b, rfl, ha⟩
    · have hsub := @sub_append rest [] pre pos hpos
      rw [List.append_nil, ← List.length_append] at hsub
      rw [findByte_eq_none hpos h]
      dsimp only
      rw [hsub, insertField_eq, List.splitOn_eq_singleton h, filterMap_ginsert, List.filterMap_nil,
        List.append_nil]
    · rw [findByte_append hpos ha]
      dsimp only
      have hrest : pre ++ (a ++ 38 :: b) = (pre ++ (a ++ [38])) ++ b := by simp
      have hnext : pre.length + a.length + 1 + 1 - 1 = (pre ++ (a ++ [38])).length := by
        simp only [List.length_append, List.length_singleton]
        omega
      have hlen : b.length < n := by
        simp only [List.length_append, List.length_cons] at hn
        omega
      rw [Nat.add_sub_cancel, sub_append hpos, ih hrest hnext hlen, insertField_eq,
        List.splitOn_append_cons_self_of_not_mem ha, ← List.foldl_append, filterMap_ginsert]

/-- **The positions of `parse_query` are the fields between the `&`.** -/
theorem scanQuery_eq (query : Bytes) : scanQuery query = parseQuery query :=
  scanFrom_eq _ (List.nil_append _).symm rfl (Nat.lt_succ_self _)

/-- What the loop adds to its line. -/
theorem reventFrom_some (l : List (Bytes × Bytes)) : ∀ ret : Bytes,
    reventFrom (some ret) l = some (ret ++ l.flatMap fun p => 38 :: encodeField p) := by
  induction l with
  | nil =>
    intro ret
    rw [reventFrom, List.flatMap_nil, List.append_nil]
  | cons p l ih =>
    intro ret
    obtain ⟨k, v⟩ := p
    have hand : str "&" = [38] := rfl
    have hequals : str "=" = [61] := rfl
    rw [reventFrom, ih, hand, hequals]
    simp [encodeField]

/-- The loop joins the fields of its table. -/
theorem reventQuery_eq (l : List (Bytes × Bytes)) : (reventQuery l).getD [] = encodeQuery l := by
  cases l with
  | nil => rfl
  | cons p l =>
    obtain ⟨k, v⟩ := p
    have hequals : str "=" = [61] := rfl
    rw [reventQuery, reventFrom, reventFrom_some, Option.getD_some, hequals]
    induction l generalizing k v with
    | nil => simp [encodeQuery, encodeField]
    | cons p l ih =>
      rw [encodeQuery, List.map_cons, List.map_cons, List.intercalate_cons_cons]
      have hrest := ih p.1 p.2
      rw [encodeQuery, List.map_cons] at hrest
      rw [← hrest]
      simp [encodeField]

/-! ### The results -/

/-- **Decoding inverts encoding**, whatever the bytes are. -/
theorem urlEncode_leftInverse : Function.LeftInverse urlDecode urlEncode := urlDecode_urlEncode

/-- The entries of a table, in some order. -/
structure Enumerates (t : Table) (l : List (Bytes × Bytes)) : Prop where
  nodup : (l.map Prod.fst).Nodup
  mem_iff : ∀ k v, (k, v) ∈ l ↔ t k = some v

/-- **A table is read back from its query line**, in whatever order its entries are joined. -/
theorem scanQuery_reventQuery {t : Table} {l : List (Bytes × Bytes)} (h : Enumerates t l) :
    scanQuery ((reventQuery l).getD []) = t := by
  rw [reventQuery_eq, scanQuery_eq, parseQuery_encodeQuery]
  funext k
  refine Option.ext fun v => ?_
  rw [Table.ofPairs_eq_some_iff h.nodup, h.mem_iff]

/-- A table with a `=` in a key and an empty value. -/
theorem scanQuery_reventQuery_pair :
    scanQuery ((reventQuery [(str "a=b", []), ([], str "&\r\n")]).getD []) =
      Table.ofPairs [(str "a=b", []), ([], str "&\r\n")] := by
  have hnodup : ([(str "a=b", []), ([], str "&\r\n")].map Prod.fst : List Bytes).Nodup := by
    decide +kernel
  exact scanQuery_reventQuery ⟨hnodup, fun k v => (Table.ofPairs_eq_some_iff hnodup).symm⟩

end ZRouter.Web
