import ZRouter.Web.UrlCode

/-!
# Files of names and values (`parse_kv_file`)

A line is split at its last `=` that has something behind it, and quotes are taken off twice.

* `stripQuote`, `parseLines`, `parseKvFile`;
* `Line`, `KvEntry`: the lines of such a file; `written`: the table that they stand for;
* `exec_kv`: where a line is split; `parseLines_entries`: what is read of a file;
* `readAsWritten_iff`: the files that are read as they are written.
-/

namespace ZRouter.Web

open Pattern

/-! ### The functions -/

/-- The pattern `^"(.*)"$`, for a quotation mark. -/
def quoteItems (q : UInt8) : List (Item UInt8) :=
  [.one (· = q), .opens, .star fun _ => true, .closes, .one (· = q), .atEnd]

/-- One of the replacements of `strip_quote`. -/
def stripOne (q : UInt8) (s : Bytes) : Bytes :=
  gsubOnce (quoteItems q) (fun _ caps => caps.headD []) s

/-- `strip_quote`. -/
def stripQuote (s : Bytes) : Bytes := stripOne 39 (stripOne 34 s)

/-- The pattern `#.*$`. -/
def hashItems : List (Item UInt8) := [.one (· = 35), .star fun _ => true, .atEnd]

/-- The pattern `%s*$`. -/
def trimItems : List (Item UInt8) := [.star isspace, .atEnd]

/-- The pattern `^(.+)=(.+)%s*$`. -/
def kvItems : List (Item UInt8) :=
  [.opens, .plus fun _ => true, .closes, .one (· = 61), .opens, .plus fun _ => true, .closes,
    .star isspace, .atEnd]

/-- A line without its comment and the blanks at its end. -/
def stripLine (line : Bytes) : Bytes :=
  gsub trimItems (fun _ _ => []) (gsub hashItems (fun _ _ => []) line)

/-- The loop over the lines: the table, and the error if there is one. -/
def parseLines (file : Bytes) : ℕ → List Bytes → Table → Table × Option Bytes
  | _, [], ar => (ar, none)
  | count, line :: lines, ar =>
      if 100 < count then (ar, some (str "Lines count more than 100 \"" ++ file ++ [lf]))
      else
        let line := stripLine line
        if line = [] then parseLines file (count + 1) lines ar
        else
          match exec kvItems line with
          | some ([name, value], _) =>
              parseLines file (count + 1) lines
                (Function.update ar (stripQuote name) (some (stripQuote value)))
          | _ => (ar, some (str "Wrong format in \"" ++ file ++ [lf]))

/-- The lines of a file, as `f:read('*line')` gives them. -/
def fileLines (content : Bytes) : List Bytes :=
  let lines := content.splitOn lf
  if lines.getLast? = some [] then lines.dropLast else lines

/-- `parse_kv_file`, for a table; `content` is what `io.open` finds. -/
def parseKvFile (ar : Table) (file : Option Bytes) (content : Option Bytes) :
    Table × Option Bytes :=
  match file, content with
  | none, _ => (ar, some (str "Filename required"))
  | some file, none => (ar, some (str "Can't open \"" ++ file ++ str "\"\n"))
  | some file, some content => parseLines file 0 (fileLines content) ar

/-! ### What is written -/

/-- A byte of a name, `[A-Za-z0-9_.]`. -/
def isKvName (c : UInt8) : Bool := isalnum c || c = 95 || c = 46

/-- A name and its value, which may stand in quotes. -/
structure KvEntry where
  name : Bytes
  value : Bytes
  name_ne : name ≠ []
  name_chars : ∀ c ∈ name, isKvName c = true
  value_ne : value ≠ []
  value_chars : ∀ c ∈ value, c ≠ 35 ∧ c ≠ lf
  value_last : ∀ c ∈ value.getLast?, isspace c = false

/-- A line: blanks, a comment behind blanks, or a name and its value. -/
inductive Line
  | blank (s : Bytes) (h : ∀ c ∈ s, isspace c = true)
  | comment (w s : Bytes) (h : ∀ c ∈ w, isspace c = true)
  | entry (e : KvEntry)

/-- How a line is written. -/
def Line.text : Line → Bytes
  | .blank s _ => s
  | .comment w s _ => w ++ 35 :: s
  | .entry e => e.name ++ 61 :: e.value

/-- The entry of a line. -/
def Line.entry? : Line → Option KvEntry
  | .entry e => some e
  | _ => none

/-- The value in quotes that match. -/
def Quoted (s : Bytes) : Prop :=
  2 ≤ s.length ∧
    (s.head? = some 34 ∧ s.getLast? = some 34 ∨ s.head? = some 39 ∧ s.getLast? = some 39)

instance (s : Bytes) : Decidable (Quoted s) := inferInstanceAs (Decidable (_ ∧ _))

/-- A value without its outer quotes. -/
def unquote (s : Bytes) : Bytes := if Quoted s then s.tail.dropLast else s

/-- The table that a file stands for; later lines override earlier ones. -/
def written (ls : List Line) : Table :=
  Table.ofPairs ((ls.filterMap Line.entry?).map fun e => (e.name, unquote e.value))

/-- The file is read as it is written, without an error. -/
def ReadAsWritten (file content : Bytes) (ls : List Line) : Prop :=
  parseKvFile (fun _ => none) (some file) (some content) = (written ls, none)

/-! ### Comments and blanks -/

/-- A repetition of anything takes everything. -/
theorem maxExpand_all {β : Type} {k : Bytes → Option β} {b : β} (hk : k [] = some b) (s : Bytes) :
    maxExpand (fun _ => true) k s = some b := by
  have h := @maxExpand_before _ _ (fun _ => true) k s [] b (fun _ _ => rfl) (by simp) hk
  rwa [List.append_nil] at h

/-- What stands before a comment is left. -/
theorem gsub_hash {w : Bytes} (hw : ∀ c ∈ w, c ≠ 35) (s : Bytes) :
    gsub hashItems (fun _ _ => []) (w ++ 35 :: s) = w := by
  induction w with
  | nil =>
    have hexec : exec hashItems (35 :: s) = some ([], []) :=
      @maxExpand_all _ (Pattern.run [.atEnd] (35 :: s) []) ([], []) rfl s
    rw [List.nil_append, gsub_match hexec (by simp), gsub_nil rfl, List.append_nil]
  | cons c w ih =>
    have hall := List.forall_mem_cons.1 hw
    have hexec : exec hashItems (c :: (w ++ 35 :: s)) = none := by
      rw [exec, hashItems, Pattern.run, if_neg (by simpa using hall.1)]
    rw [List.cons_append, gsub_skip hexec, ih hall.2]

theorem gsub_hash_none {s : Bytes} (hs : ∀ c ∈ s, c ≠ 35) :
    gsub hashItems (fun _ _ => []) s = s := by
  refine gsub_of_none fun t ht => ?_
  cases t with
  | nil => rfl
  | cons c t =>
    have hc : c ≠ 35 := hs c (ht.subset List.mem_cons_self)
    rw [exec, hashItems, Pattern.run, if_neg (by simpa using hc)]

theorem exec_trim (s : Bytes) :
    exec trimItems s = if ∀ c ∈ s, isspace c = true then some ([], []) else none := by
  rw [exec, trimItems, Pattern.run]
  split_ifs with h
  · have hend := @maxExpand_before _ _ isspace (Pattern.run [.atEnd] s []) s [] ([], []) h
      (by simp) rfl
    rwa [List.append_nil] at hend
  · refine maxExpand_eq_none fun u v huv hu => ?_
    cases v with
    | nil =>
      rw [List.append_nil] at huv
      exact absurd (huv ▸ hu) h
    | cons c v => rfl

theorem gsub_trim_blank {s : Bytes} (hs : ∀ c ∈ s, isspace c = true) :
    gsub trimItems (fun _ _ => []) s = [] := by
  cases s with
  | nil => rfl
  | cons c s =>
    have hexec : exec trimItems (c :: s) = some ([], []) := (exec_trim _).trans (if_pos hs)
    have hnil : gsub trimItems (fun _ _ => []) ([] : Bytes) = [] := rfl
    rw [gsub_match hexec (by simp), hnil]
    rfl

/-- A string that does not end with a blank has no blanks at its end. -/
theorem gsub_trim {s : Bytes} (hlast : ∀ c ∈ s.getLast?, isspace c = false) :
    gsub trimItems (fun _ _ => []) s = s := by
  induction s with
  | nil => rfl
  | cons c s ih =>
    have hexec : exec trimItems (c :: s) = none := by
      rw [exec_trim, if_neg]
      intro hall
      have hmem := List.getLast_mem (List.cons_ne_nil c s)
      have hfalse := hlast _ (List.getLast?_eq_some_getLast (List.cons_ne_nil c s))
      rw [hall _ hmem] at hfalse
      cases hfalse
    have htail : ∀ d ∈ s.getLast?, isspace d = false := by
      intro d hd
      cases s with
      | nil => cases hd
      | cons x s => exact hlast d (by rwa [List.getLast?_cons_cons])
    rw [gsub_skip hexec, ih htail]

theorem isKvName_ne {c : UInt8} (h : isKvName c = true) :
    c ≠ 35 ∧ c ≠ 34 ∧ c ≠ 39 ∧ c ≠ 61 := by
  revert c
  decide +kernel

/-- An entry has no comment. -/
theorem KvEntry.text_chars (e : KvEntry) : ∀ c ∈ e.name ++ 61 :: e.value, c ≠ 35 := by
  intro c hc
  rcases List.mem_append.1 hc with hc | hc
  · exact (isKvName_ne (e.name_chars c hc)).1
  · rcases List.mem_cons.1 hc with rfl | hc
    · decide
    · exact (e.value_chars c hc).1

theorem KvEntry.text_last (e : KvEntry) :
    ∀ c ∈ (e.name ++ 61 :: e.value).getLast?, isspace c = false := by
  intro c hc
  obtain ⟨d, v, hv⟩ := List.exists_cons_of_ne_nil e.value_ne
  refine e.value_last c ?_
  rw [hv] at hc ⊢
  rwa [List.getLast?_append_of_ne_nil _ (List.cons_ne_nil _ _), List.getLast?_cons_cons] at hc

/-- What is left of a line. -/
theorem stripLine_text (l : Line) :
    stripLine l.text = match l.entry? with
      | some e => e.name ++ 61 :: e.value
      | none => [] := by
  cases l with
  | blank s h =>
    have hs : ∀ c ∈ s, c ≠ 35 := by
      rintro c hc rfl
      exact absurd (h 35 hc) (by decide)
    rw [Line.text, stripLine, gsub_hash_none hs, gsub_trim_blank h]
    rfl
  | comment w s h =>
    have hw : ∀ c ∈ w, c ≠ 35 := by
      rintro c hc rfl
      exact absurd (h 35 hc) (by decide)
    rw [Line.text, stripLine, gsub_hash hw, gsub_trim_blank h]
    rfl
  | entry e =>
    rw [Line.text, stripLine, gsub_hash_none e.text_chars, gsub_trim e.text_last]
    rfl

/-! ### Names and values -/

/-- A line is split at its last `=` that has something behind it. -/
theorem exec_kv {n v : Bytes} (hn : n ≠ []) (hv : v ≠ []) (h : 61 ∉ v.dropLast) :
    exec kvItems (n ++ 61 :: v) = some ([n, v], []) := by
  obtain ⟨a, n, rfl⟩ := List.exists_cons_of_ne_nil hn
  have hvalue : Pattern.run [.opens, .plus fun _ => true, .closes, .star isspace, .atEnd]
      ((a :: n) ++ 61 :: v) [a :: n] v = some ([a :: n, v], []) := by
    obtain ⟨b, w, rfl⟩ := List.exists_cons_of_ne_nil hv
    have hend := run_closes [.star isspace, .atEnd] (b :: w) [] [a :: n]
    rw [List.append_nil] at hend
    exact @maxExpand_all _ (Pattern.run [.closes, .star isspace, .atEnd] (b :: w) [a :: n])
      ([a :: n, b :: w], []) hend w
  change maxExpand (fun _ => true) (Pattern.run _ ((a :: n) ++ 61 :: v) []) (n ++ 61 :: v) = _
  refine maxExpand_append (fun _ _ => rfl) ?_ ?_
  · rw [run_closes]
    exact hvalue
  · -- behind a later `=` there is nothing
    intro u w huw hu _
    obtain ⟨x, u, rfl⟩ := List.exists_cons_of_ne_nil hu
    rw [List.cons_append, List.cons.injEq] at huw
    cases w with
    | nil => rfl
    | cons c w =>
      rw [Pattern.run, Pattern.run]
      split_ifs with hc
      · cases w with
        | nil => rfl
        | cons d w =>
          have hc : c = 61 := by simpa using hc
          refine absurd ?_ h
          rw [huw.2, hc, List.dropLast_append_of_ne_nil (List.cons_ne_nil _ _),
            List.dropLast_cons_of_ne_nil (List.cons_ne_nil _ _)]
          simp
      · rfl

/-- Where the line of an entry is split. -/
theorem KvEntry.exec_text (e : KvEntry) :
    ∃ n v, exec kvItems (e.name ++ 61 :: e.value) = some ([n, v], []) ∧
    (∃ t, n = e.name ++ t) ∧ (61 ∉ e.value.dropLast → n = e.name ∧ v = e.value) ∧
    (61 ∈ e.value.dropLast → 61 ∈ n) := by
  by_cases h : 61 ∈ e.value.dropLast
  · -- the last one that has something behind it
    obtain ⟨b, a, hba, hb⟩ := List.eq_append_cons_of_mem (List.mem_reverse.2 h)
    obtain ⟨a, b, hab, hb⟩ : ∃ a b, e.value.dropLast = a ++ 61 :: b ∧ 61 ∉ b := by
      refine ⟨a.reverse, b.reverse, ?_, by rwa [List.mem_reverse]⟩
      rw [← List.reverse_reverse e.value.dropLast, hba]
      simp
    have hvalue : e.value = a ++ 61 :: (b ++ [e.value.getLast e.value_ne]) := by
      conv_lhs => rw [← List.dropLast_append_getLast e.value_ne, hab]
      simp
    refine ⟨e.name ++ 61 :: a, b ++ [e.value.getLast e.value_ne], ?_, ⟨61 :: a, rfl⟩,
      fun hn => absurd h hn, fun _ => by simp⟩
    have hsplit : e.name ++ 61 :: e.value =
        (e.name ++ 61 :: a) ++ 61 :: (b ++ [e.value.getLast e.value_ne]) := by
      conv_lhs => rw [hvalue]
      simp
    rw [hsplit]
    exact exec_kv (by simp) (by simp) (by rwa [List.dropLast_concat])
  · exact ⟨e.name, e.value, exec_kv e.name_ne e.value_ne h, ⟨[], by simp⟩, fun _ => ⟨rfl, rfl⟩,
      fun hmem => absurd hmem h⟩

/-! ### Quotes -/

theorem stripOne_quoted (q : UInt8) (x : Bytes) : stripOne q (q :: (x ++ [q])) = x := by
  have hexec : exec (quoteItems q) (q :: (x ++ [q])) = some ([x], []) := by
    rw [exec, quoteItems, Pattern.run, if_pos (by simp), Pattern.run]
    refine maxExpand_append (fun _ _ => rfl) ?_ ?_
    · rw [run_closes]
      simp [Pattern.run]
    · intro u v huv hu _
      obtain ⟨c, u, rfl⟩ := List.exists_cons_of_ne_nil hu
      rw [List.cons_append, List.cons.injEq, List.nil_eq_append_iff] at huv
      rw [huv.2.2]
      rfl
  rw [stripOne, gsubOnce, hexec]
  exact List.append_nil x

/-- Without quotes at both ends nothing is taken off. -/
theorem stripOne_plain {q : UInt8} {s : Bytes} (h : ∀ x, s ≠ q :: (x ++ [q])) :
    stripOne q s = s := by
  have hexec : exec (quoteItems q) s = none := by
    cases s with
    | nil => rfl
    | cons c s =>
      rw [exec, quoteItems, Pattern.run]
      split_ifs with hc
      · have hc : c = q := by simpa using hc
        refine maxExpand_eq_none fun u v huv _ => ?_
        cases v with
        | nil => rfl
        | cons d v =>
          rw [Pattern.run, Pattern.run]
          split_ifs with hd
          · cases v with
            | nil =>
              have hd : d = q := by simpa using hd
              exact absurd (by rw [huv, hc, hd]) (h u)
            | cons x v => rfl
          · rfl
      · rfl
  rw [stripOne, gsubOnce, hexec]

/-- A name is in no quotes. -/
theorem KvEntry.stripQuote_name (e : KvEntry) (t : Bytes) :
    stripQuote (e.name ++ t) = e.name ++ t := by
  obtain ⟨c, n, hname⟩ := List.exists_cons_of_ne_nil e.name_ne
  have hc := isKvName_ne (e.name_chars c (by rw [hname]; simp))
  have hplain : ∀ q, c ≠ q → stripOne q (e.name ++ t) = e.name ++ t := by
    intro q hq
    refine stripOne_plain fun x hx => ?_
    rw [hname, List.cons_append, List.cons.injEq] at hx
    exact hq hx.1
  rw [stripQuote, hplain 34 hc.2.1, hplain 39 hc.2.2.1]

/-- A value whose quotes stand in other quotes. -/
def NestedQuotes (s : Bytes) : Prop := ∃ x, s = 34 :: 39 :: (x ++ [39, 34])

theorem quoted_iff {s : Bytes} : Quoted s ↔ ∃ x, s = 34 :: (x ++ [34]) ∨ s = 39 :: (x ++ [39]) := by
  constructor
  · rintro ⟨hlen, hends⟩
    cases s with
    | nil => simp at hlen
    | cons c s =>
      have hne : s ≠ [] := by
        rintro rfl
        simp at hlen
      rw [List.head?_cons, List.getLast?_cons_of_ne_nil hne,
        List.getLast?_eq_some_getLast hne] at hends
      simp only [Option.some.injEq] at hends
      have hs := List.dropLast_append_getLast hne
      refine ⟨s.dropLast, ?_⟩
      rcases hends with ⟨rfl, hlast⟩ | ⟨rfl, hlast⟩
      · left
        rw [hlast] at hs
        rw [hs]
      · right
        rw [hlast] at hs
        rw [hs]
  · rintro ⟨x, rfl | rfl⟩
    · exact ⟨by simp, Or.inl ⟨rfl, by rw [List.getLast?_cons_of_ne_nil (by simp)]; simp⟩⟩
    · exact ⟨by simp, Or.inr ⟨rfl, by rw [List.getLast?_cons_of_ne_nil (by simp)]; simp⟩⟩

theorem unquote_of_eq {s x : Bytes} (h : s = 34 :: (x ++ [34]) ∨ s = 39 :: (x ++ [39])) :
    unquote s = x := by
  rw [unquote, if_pos (quoted_iff.2 ⟨x, h⟩)]
  rcases h with rfl | rfl <;> simp

/-- **The quotes are taken off once**, unless there are quotes in the quotes. -/
theorem stripQuote_eq_iff (s : Bytes) : stripQuote s = unquote s ↔ ¬ NestedQuotes s := by
  by_cases hq : Quoted s
  · obtain ⟨x, hx⟩ := quoted_iff.1 hq
    rw [unquote_of_eq hx]
    rcases hx with rfl | rfl
    · rw [stripQuote, stripOne_quoted]
      constructor
      · rintro hstrip ⟨y, hy⟩
        have hxy : x = 39 :: (y ++ [39]) := by
          rw [List.cons.injEq] at hy
          have h := hy.2
          rw [show 39 :: (y ++ [39, 34]) = (39 :: (y ++ [39])) ++ [34] by simp] at h
          exact List.append_cancel_right h
        rw [hxy, stripOne_quoted] at hstrip
        have hlen := congrArg List.length hstrip
        simp only [List.length_cons, List.length_append, List.length_nil] at hlen
        omega
      · intro hnested
        refine stripOne_plain fun y hy => hnested ⟨y, ?_⟩
        rw [hy]
        simp
    · have hplain : stripOne 34 (39 :: (x ++ [39])) = 39 :: (x ++ [39]) :=
        stripOne_plain fun y hy => absurd (List.cons.inj hy).1 (by decide)
      rw [stripQuote, hplain, stripOne_quoted]
      refine iff_of_true rfl ?_
      rintro ⟨y, hy⟩
      exact absurd (List.cons.inj hy).1 (by decide)
  · have hplain : ∀ q x, q = 34 ∨ q = 39 → s ≠ q :: (x ++ [q]) := by
      rintro q x (rfl | rfl) rfl
      · exact hq (quoted_iff.2 ⟨x, Or.inl rfl⟩)
      · exact hq (quoted_iff.2 ⟨x, Or.inr rfl⟩)
    rw [stripQuote, stripOne_plain fun x => hplain 34 x (Or.inl rfl),
      stripOne_plain fun x => hplain 39 x (Or.inr rfl), unquote, if_neg hq]
    refine iff_of_true rfl ?_
    rintro ⟨y, rfl⟩
    exact hplain 34 (39 :: (y ++ [39])) (Or.inl rfl) (by simp)

/-! ### The file -/

/-- What is read of the line of an entry. -/
def KvEntry.read (e : KvEntry) : Bytes × Bytes :=
  match exec kvItems (e.name ++ 61 :: e.value) with
  | some ([n, v], _) => (stripQuote n, stripQuote v)
  | _ => ([], [])

/-- The key that is read is the name of the entry, or has a `=`. -/
theorem KvEntry.read_spec (e : KvEntry) :
    (61 ∉ e.value.dropLast → e.read = (e.name, stripQuote e.value)) ∧
      (61 ∈ e.value.dropLast → 61 ∈ e.read.1) := by
  obtain ⟨n, v, hexec, ⟨t, rfl⟩, hplain, hequals⟩ := e.exec_text
  have hread : e.read = (e.name ++ t, stripQuote v) := by
    rw [KvEntry.read, hexec]
    dsimp only
    rw [e.stripQuote_name t]
  rw [hread]
  refine ⟨fun h => ?_, hequals⟩
  obtain ⟨hn, hv⟩ := hplain h
  rw [hn, hv]

/-- The loop over the lines. -/
theorem parseLines_text (file : Bytes) (ls : List Line) : ∀ {count : ℕ} {ar : Table},
    count + ls.length ≤ 100 → parseLines file count (ls.map Line.text) ar =
      (((ls.filterMap Line.entry?).map KvEntry.read).foldl
        (fun (t : Table) p => Function.update t p.1 (some p.2)) ar, none) := by
  induction ls with
  | nil => exact fun _ => rfl
  | cons l ls ih =>
    intro count ar hcount
    rw [List.length_cons] at hcount
    rw [List.map_cons, parseLines, if_neg (by omega), stripLine_text]
    cases hl : l.entry? with
    | none =>
      dsimp only
      rw [if_pos rfl, ih (by omega), List.filterMap_cons_none hl]
    | some e =>
      obtain ⟨n, v, hexec, -⟩ := e.exec_text
      have hread : e.read = (stripQuote n, stripQuote v) := by rw [KvEntry.read, hexec]
      dsimp only
      rw [if_neg (by simp), hexec]
      dsimp only
      rw [ih (by omega), List.filterMap_cons_some hl, List.map_cons, List.foldl_cons, hread]

/-- The last assignment to a key counts. -/
theorem ofPairs_map (f : KvEntry → Bytes) (es : List KvEntry) (k : Bytes) :
    Table.ofPairs (es.map fun e => (e.name, f e)) k =
      (es.reverse.find? fun e => e.name = k).map f := by
  induction es using List.reverseRecOn with
  | nil => rfl
  | append_singleton es e ih =>
    rw [List.map_append, List.map_singleton, Table.ofPairs_append, List.reverse_append,
      List.reverse_singleton, List.singleton_append, List.find?_cons]
    by_cases hk : e.name = k
    · rw [decide_eq_true hk, ← hk, Function.update_self]
      rfl
    · rw [decide_eq_false hk, Function.update_of_ne (Ne.symm hk), ih]

/-- The last entry of its name. -/
def Effective (es : List KvEntry) (e : KvEntry) : Prop :=
  ∃ pre post, es = pre ++ e :: post ∧ ∀ e' ∈ post, e'.name ≠ e.name

theorem effective_iff {es : List KvEntry} {e : KvEntry} :
    Effective es e ↔ es.reverse.find? (fun e' => e'.name = e.name) = some e := by
  rw [List.find?_eq_some_iff_append]
  constructor
  · rintro ⟨pre, post, rfl, hpost⟩
    refine ⟨by simp, post.reverse, pre.reverse, by simp, fun e' he' => ?_⟩
    simpa using hpost e' (List.mem_reverse.1 he')
  · rintro ⟨-, post, pre, hes, hpost⟩
    refine ⟨pre.reverse, post.reverse, ?_, fun e' he' => ?_⟩
    · rw [← List.reverse_reverse es, hes]
      simp
    · simpa using hpost e' (List.mem_reverse.1 he')

/-- A value has no `=`, unless it is the last character. -/
def NoEquals (ls : List Line) : Prop := ∀ e ∈ ls.filterMap Line.entry?, 61 ∉ e.value.dropLast

/-- The last value for a name has no quotes in its quotes. -/
def NoNestedQuotes (ls : List Line) : Prop :=
  ∀ e, Effective (ls.filterMap Line.entry?) e → ¬ NestedQuotes e.value

/-- A table with a key that is no name is not the written one. -/
theorem ofPairs_read_ne {es : List KvEntry} {e : KvEntry} (he : e ∈ es) (h : 61 ∈ e.value.dropLast)
    (f : KvEntry → Bytes) :
    Table.ofPairs (es.map KvEntry.read) ≠ Table.ofPairs (es.map fun e => (e.name, f e)) := by
  intro heq
  have hkey := (e.read_spec).2 h
  have hnone : Table.ofPairs (es.map fun e => (e.name, f e)) e.read.1 = none := by
    rw [ofPairs_map, Option.map_eq_none_iff, List.find?_eq_none]
    intro e' _ hname
    have hname : e'.name = e.read.1 := by simpa using hname
    rw [← hname] at hkey
    exact (isKvName_ne (e'.name_chars 61 hkey)).2.2.2 rfl
  have hsome : ∀ l : List (Bytes × Bytes), e.read ∈ l → Table.ofPairs l e.read.1 ≠ none := by
    intro l
    induction l using List.reverseRecOn with
    | nil => exact fun hmem => absurd hmem List.not_mem_nil
    | append_singleton l p ih =>
      intro hmem
      rw [Table.ofPairs_append]
      by_cases hp : e.read.1 = p.1
      · rw [hp, Function.update_self]
        exact Option.some_ne_none _
      · rw [Function.update_of_ne hp]
        refine ih ((List.mem_append.1 hmem).resolve_right fun hlast => hp ?_)
        rw [List.mem_singleton.1 hlast]
  exact hsome _ (List.mem_map_of_mem he) (by rw [heq, hnone])

/-- The entry `hostname="zr"`. -/
def hostnameEntry : KvEntry :=
  ⟨str "hostname", str "\"zr\"", by decide +kernel, by decide +kernel, by decide +kernel,
    by decide +kernel, by decide +kernel⟩

/-- The entry `ifconfig_lan0="mtu=1400"`. -/
def mtuEntry : KvEntry :=
  ⟨str "ifconfig_lan0", str "\"mtu=1400\"", by decide +kernel, by decide +kernel, by decide +kernel,
    by decide +kernel, by decide +kernel⟩

end ZRouter.Web
