import ZRouter.Lib.CString
import ZRouter.Lib.Exec

/-!
# The rules of the event daemon (`cdevd.c`)

A line of the configuration gives a regular expression and the program that is run for the events that it
matches.  An entry is put into the list before its line is parsed, and `main` goes on to handle events
whatever `parse_config` returns.

* `Reg`: the library of regular expressions;
* `fgets`, `parseEntry`, `parseConfig`, `processEvent`, `main`: the daemon;
* `IsRule`, `Malformed`, `RulesUpTo`: the rules of a file;
* `RulesExact`: the list holds these rules, and events are compared with no others;
* `rulesExact_iff`: it does if no line is malformed; `not_rulesExact_noSlash`: a line without a slash.
-/

namespace ZRouter.Cdevd

/-! ### Regular expressions -/

/-- What `regexec` returns. -/
inductive Match
  | found
  | noMatch
  | error
deriving DecidableEq

/-- The library: `regcomp` with `REG_EXTENDED`, and `regexec`. -/
structure Reg where
  Regex : Type
  regcomp : Bytes → Option Regex
  regexec : Regex → Bytes → Match

/-- `reg_match`. -/
def regMatch (reg : Reg) (regexp line : Bytes) : ℤ :=
  match reg.regcomp regexp with
  | none => -1
  | some r =>
      match reg.regexec r line with
      | .found => 1
      | .noMatch => 0
      | .error => -1

/-! ### Reading the configuration -/

/-- `struct config_line`; what has not been written to memory is `none`. -/
structure ConfigLine where
  regex : Option Bytes
  handler : Option Bytes
deriving DecidableEq

/-- The errors of a line. -/
inductive ParseError
  | noOpening
  | noClosing
  | noSpace
  | noHandler
  | compile
deriving DecidableEq

/-- What the error is called. -/
def ParseError.text : ParseError → Bytes
  | .noOpening => str "Open '/' not found\n"
  | .noClosing => str " Closing '/' not found\n"
  | .noSpace => str "no space after closing '/'\n"
  | .noHandler => str "no handler\n"
  | .compile => str "regexp compile error\n"

/-- The message; `line` is the number of rules before. -/
def ParseError.message (e : ParseError) (line : ℕ) : Bytes :=
  str "Error in config file at line " ++ (if line = 0 then str "0" else decimal line) ++ str " " ++ e.text

/-- What is in memory after `parse_config`: its result, what it has printed, and the list from `cl_first`
on. -/
structure Parsed where
  ret : ℤ
  printed : Bytes
  rules : List ConfigLine
deriving DecidableEq

/-- `fgets` with room for so many characters: the line with its end, and the rest of the file. -/
def fgets : ℕ → Bytes → Bytes × Bytes
  | 0, s => ([], s)
  | _, [] => ([], [])
  | n + 1, c :: s =>
      if c = lf then ([c], s)
      else
        let (line, rest) := fgets n s
        (c :: line, rest)

/-- `strchr`. -/
def strchr (s : Bytes) (c : UInt8) : Option Bytes :=
  match s.dropWhile (· ≠ c) with
  | [] => none
  | m => some m

/-- A NUL is written over the first `c`. -/
def cutAt (c : UInt8) (s : Bytes) : Bytes := s.takeWhile (· ≠ c)

/-- The line without comment and line end. -/
def strip (buf : Bytes) : Bytes := cutAt cr (cutAt lf (cutAt 35 (cstr buf)))

/-- What is written to the entry of a line, and the error that ends it. -/
def parseEntry (reg : Reg) (buf : Bytes) : ConfigLine × Option ParseError :=
  match strchr buf 47 with
  | none => (⟨none, none⟩, some .noOpening)
  | some m =>
      let regex := m.drop 1
      match strchr regex 47 with
      | none => (⟨some regex, none⟩, some .noClosing)
      | some m =>
          let regex := cutAt 47 regex
          match m.drop 1 with
          | [] => (⟨some regex, none⟩, some .noSpace)
          | c :: m =>
              if isspace c = false then (⟨some regex, none⟩, some .noSpace)
              else
                let m := skipSpaces m
                if m = [] then (⟨some regex, none⟩, some .noHandler)
                else
                  (⟨some regex, some m⟩, if regMatch reg regex [] = -1 then some .compile else none)

/-- The loop of `parse_config` after a line has been read. -/
def parseLine (reg : Reg) (buf rest : Bytes) (line : ℕ) (rules : List ConfigLine) :
    (Bytes × ℕ × List ConfigLine) ⊕ Parsed :=
  if skipSpaces (strip buf) = [] then .inl (rest, line, rules)
  else
    match parseEntry reg (strip buf) with
    | (entry, none) => .inl (rest, line + 1, rules ++ [entry])
    | (entry, some e) => .inr ⟨1, e.message line, rules ++ [entry]⟩

/-- A pass of the loop: what is left of the file, `line`, and the list so far. -/
def parsePass (reg : Reg) (s : Bytes × ℕ × List ConfigLine) :
    Exec ((Bytes × ℕ × List ConfigLine) ⊕ Parsed) :=
  match fgets 1023 s.1 with
  | ([], _) => .ret (.inr ⟨0, [], s.2.2⟩)
  | (buf, rest) => .ret (parseLine reg buf rest s.2.1 s.2.2)

/-- `parse_config`, with the two files that it tries to open. -/
def parseConfig (reg : Reg) (conf confCwd : Option Bytes) (n : ℕ) : Exec Parsed :=
  match conf.or confCwd with
  | none => .ret ⟨1, str "Error open config file\n", []⟩
  | some fh => Exec.loop (parsePass reg) n (fh, 0, [])

/-! ### Handling events -/

/-- A call of `run_handler`: the program, and the event. -/
abbrev Call := Bytes × Bytes

/-- `process_event`: the calls of `run_handler`; an entry must have been written before it is read. -/
def processEvent (reg : Reg) (buffer : Bytes) : List ConfigLine → Exec (List Call)
  | [] => .ret []
  | entry :: rules =>
      match entry.regex with
      | none => .undefined
      | some regex =>
          if regMatch reg regex buffer = 1 then
            match entry.handler with
            | none => .undefined
            | some handler =>
                processEvent reg buffer rules >>= fun calls => .ret ((handler, buffer) :: calls)
          else processEvent reg buffer rules

/-- The events of `event_loop`, one after the other. -/
def eventLoop (reg : Reg) (rules : List ConfigLine) : List Bytes → Exec (List Call)
  | [] => .ret []
  | buffer :: events =>
      processEvent reg buffer rules >>= fun calls =>
      eventLoop reg rules events >>= fun calls' => .ret (calls ++ calls')

/-- `main`; the result of `parse_config` is not looked at. -/
def main (reg : Reg) (conf confCwd : Option Bytes) (events : List Bytes) (n : ℕ) :
    Exec (List Call) :=
  parseConfig reg conf confCwd n >>= fun p => eventLoop reg p.rules events

/-! ### The rules of a file -/

/-- A rule: a regular expression and a program. -/
abbrev Rule := Bytes × Bytes

/-- The lines of a file, if there is one. -/
def fileLines : Option Bytes → List Bytes
  | none => []
  | some fh => fh.splitOn lf

/-- A line up to a comment, a carriage return or a NUL. -/
def stripped (l : Bytes) : Bytes := l.takeWhile fun c => c ≠ 0 && c ≠ 35 && c ≠ cr

/-- Nothing but blanks. -/
def Blank (s : Bytes) : Prop := ∀ c ∈ s, isspace c = true

/-- `/regex/ handler`; other characters may stand before it. -/
structure IsRule (reg : Reg) (s : Bytes) (r : Rule) : Prop where
  form : ∃ pre blanks, s = pre ++ 47 :: (r.1 ++ 47 :: (blanks ++ r.2)) ∧ 47 ∉ pre ∧ blanks ≠ [] ∧
    Blank blanks
  regex : 47 ∉ r.1
  handler : ∃ c t, r.2 = c :: t ∧ isspace c = false
  compiles : regMatch reg r.1 [] ≠ -1

/-- Neither blank nor a rule. -/
def Malformed (reg : Reg) (s : Bytes) : Prop := ¬ Blank s ∧ ∀ r, ¬ IsRule reg s r

/-- The rules of the lines before the first malformed one. -/
inductive RulesUpTo (reg : Reg) : List Bytes → List Rule → Prop
  | nil : RulesUpTo reg [] []
  | blank {l : Bytes} {ls : List Bytes} {rs : List Rule} :
      Blank (stripped l) → RulesUpTo reg ls rs → RulesUpTo reg (l :: ls) rs
  | rule {l : Bytes} {ls : List Bytes} {r : Rule} {rs : List Rule} :
      IsRule reg (stripped l) r → RulesUpTo reg ls rs → RulesUpTo reg (l :: ls) (r :: rs)
  | malformed {l : Bytes} {ls : List Bytes} : Malformed reg (stripped l) → RulesUpTo reg (l :: ls) []

/-- The entry of a rule. -/
def entryOf (r : Rule) : ConfigLine := ⟨some r.1, some r.2⟩

/-- The programs that are to be run for an event. -/
def handlersFor (reg : Reg) (rules : List Rule) (event : Bytes) : List Call :=
  (rules.filter fun r => regMatch reg r.1 event = 1).map fun r => (r.2, event)

/-- **The list is exactly the rules before the first malformed line**, and events are compared with these
rules only. -/
def RulesExact (reg : Reg) (conf confCwd : Option Bytes) : Prop :=
  ∃ p rules, Exec.Eventually (parseConfig reg conf confCwd) (.ret p) ∧
    RulesUpTo reg (fileLines (conf.or confCwd)) rules ∧ p.rules = rules.map entryOf ∧
    ∀ events, Exec.Eventually (main reg conf confCwd events)
      (.ret (events.flatMap (handlersFor reg rules)))

/-! ### A line -/

variable {reg : Reg}

/-- What is dropped ends where the test fails. -/
theorem dropWhile_head {p : UInt8 → Bool} {s t : Bytes} {c : UInt8} (h : s.dropWhile p = c :: t) :
    p c = false := by
  have hhead := List.head?_dropWhile_not p s
  rw [h] at hhead
  simpa using hhead

theorem strchr_append {pre t : Bytes} {c : UInt8} (hpre : c ∉ pre) :
    strchr (pre ++ c :: t) c = some (c :: t) := by
  have hdrop : (pre ++ c :: t).dropWhile (· ≠ c) = c :: t := by
    rw [List.dropWhile_append_of_pos]
    · rw [List.dropWhile_cons_of_neg (by simp)]
    · intro d hd
      simp only [ne_eq, decide_eq_true_eq]
      rintro rfl
      exact hpre hd
  rw [strchr, hdrop]

/-- What `strchr` finds is the rest of the string from the first `c` on. -/
theorem strchr_eq_some {s m : Bytes} {c : UInt8} (h : strchr s c = some m) :
    ∃ pre t, s = pre ++ c :: t ∧ c ∉ pre ∧ m = c :: t ∧ cutAt c s = pre := by
  rw [strchr] at h
  have hsplit := List.takeWhile_append_dropWhile (p := (· ≠ c)) (l := s)
  cases hdrop : s.dropWhile (· ≠ c) with
  | nil => rw [hdrop] at h; cases h
  | cons d t =>
    rw [hdrop] at h hsplit
    have hd : d = c := by simpa using dropWhile_head hdrop
    rw [hd] at h hsplit
    refine ⟨s.takeWhile (· ≠ c), t, hsplit.symm, fun hmem => ?_, (Option.some.inj h).symm, rfl⟩
    simpa using List.mem_takeWhile_imp hmem

theorem cutAt_append {pre t : Bytes} {c : UInt8} (hpre : c ∉ pre) : cutAt c (pre ++ c :: t) = pre := by
  rw [cutAt, List.takeWhile_append_of_pos, List.takeWhile_cons_of_neg (by simp), List.append_nil]
  intro d hd
  simp only [ne_eq, decide_eq_true_eq]
  rintro rfl
  exact hpre hd

/-- An empty string is left after the blanks of a blank line only. -/
theorem skipSpaces_eq_nil {s : Bytes} : skipSpaces s = [] ↔ Blank s := List.dropWhile_eq_nil_iff

/-- **The entry of a rule is complete.** -/
theorem parseEntry_rule {s : Bytes} {r : Rule} (hr : IsRule reg s r) :
    parseEntry reg s = (entryOf r, none) := by
  obtain ⟨⟨pre, blanks, rfl, hpre, hne, hblank⟩, hregex, ⟨c, t, hhandler, hc⟩, hcompiles⟩ := hr
  obtain ⟨b, blanks, rfl⟩ := List.exists_cons_of_ne_nil hne
  obtain ⟨hb, hblanks⟩ := List.forall_mem_cons.1 hblank
  have hskip : skipSpaces (blanks ++ r.2) = r.2 := by
    rw [skipSpaces, List.dropWhile_append_of_pos hblanks, hhandler,
      List.dropWhile_cons_of_neg (by simp [hc])]
  have hne' : r.2 ≠ [] := by simp [hhandler]
  rw [parseEntry, strchr_append hpre]
  simp only [List.drop_one, List.tail_cons, strchr_append hregex, cutAt_append hregex, List.cons_append,
    hb, hskip, if_neg hne', if_neg hcompiles]
  rfl

/-- An entry without an error is the one of a rule. -/
theorem isRule_of_parseEntry {s : Bytes} {entry : ConfigLine} (h : parseEntry reg s = (entry, none)) :
    ∃ r, IsRule reg s r := by
  rw [parseEntry] at h
  cases hopen : strchr s 47 with
  | none => simp [hopen] at h
  | some m =>
    obtain ⟨pre, t, rfl, hpre, rfl, -⟩ := strchr_eq_some hopen
    simp only [hopen, List.drop_one, List.tail_cons] at h
    cases hclose : strchr t 47 with
    | none => simp [hclose] at h
    | some m =>
      obtain ⟨regex, u, rfl, hregex, rfl, hcut⟩ := strchr_eq_some hclose
      simp only [hclose, List.tail_cons, hcut] at h
      cases u with
      | nil => simp at h
      | cons b u =>
        simp only at h
        by_cases hb : isspace b = false
        · simp [hb] at h
        · rw [if_neg hb] at h
          by_cases hskip : skipSpaces u = []
          · simp [hskip] at h
          · rw [if_neg hskip] at h
            by_cases hcompiles : regMatch reg regex [] = -1
            · simp [hcompiles] at h
            · refine ⟨(regex, skipSpaces u), ⟨pre, b :: u.takeWhile isspace, ?_, hpre, by simp, ?_⟩,
                hregex, ?_, hcompiles⟩
              · rw [List.cons_append, skipSpaces, List.takeWhile_append_dropWhile]
              · refine List.forall_mem_cons.2 ⟨by simpa using hb, fun c hc => List.mem_takeWhile_imp hc⟩
              · obtain ⟨c, v, hcv⟩ := List.exists_cons_of_ne_nil hskip
                exact ⟨c, v, hcv, dropWhile_head hcv⟩

/-- A line that is malformed leaves an entry and an error. -/
theorem parseEntry_malformed {s : Bytes} (h : Malformed reg s) :
    ∃ entry e, parseEntry reg s = (entry, some e) := by
  rcases hentry : parseEntry reg s with ⟨entry, _ | e⟩
  · obtain ⟨r, hr⟩ := isRule_of_parseEntry hentry
    exact absurd hr (h.2 r)
  · exact ⟨entry, e, rfl⟩

/-- A rule is not blank. -/
theorem IsRule.not_blank {s : Bytes} {r : Rule} (hr : IsRule reg s r) : ¬ Blank s := by
  obtain ⟨pre, blanks, rfl, -⟩ := hr.form
  intro hblank
  have hslash := hblank 47 (by simp)
  revert hslash
  decide

/-- A line has one rule at most. -/
theorem IsRule.unique {s : Bytes} {r r' : Rule} (hr : IsRule reg s r) (hr' : IsRule reg s r') : r = r' := by
  have heq : entryOf r = entryOf r' := by
    have h := (parseEntry_rule hr).symm.trans (parseEntry_rule hr')
    exact (Prod.mk.inj h).1
  simp only [entryOf, ConfigLine.mk.injEq, Option.some.injEq] at heq
  exact Prod.ext heq.1 heq.2

/-- Every line is blank, a rule, or malformed. -/
theorem line_cases (reg : Reg) (s : Bytes) : Blank s ∨ (∃ r, IsRule reg s r) ∨ Malformed reg s := by
  by_cases hblank : Blank s
  · exact Or.inl hblank
  · by_cases hrule : ∃ r, IsRule reg s r
    · exact Or.inr (Or.inl hrule)
    · exact Or.inr (Or.inr ⟨hblank, not_exists.1 hrule⟩)

/-! ### The loop -/

/-- The loop over the lines of a file. -/
def parseLines (reg : Reg) : List Bytes → ℕ → List ConfigLine → Parsed
  | [], _, rules => ⟨0, [], rules⟩
  | l :: ls, line, rules =>
      if skipSpaces (stripped l) = [] then parseLines reg ls line rules
      else
        match parseEntry reg (stripped l) with
        | (entry, none) => parseLines reg ls (line + 1) (rules ++ [entry])
        | (entry, some e) => ⟨1, e.message line, rules ++ [entry]⟩

theorem fgets_line {l rest : Bytes} {n : ℕ} (hl : lf ∉ l) (hn : l.length < n) :
    fgets n (l ++ lf :: rest) = (l ++ [lf], rest) := by
  induction l generalizing n with
  | nil =>
    obtain ⟨n, rfl⟩ : ∃ m, n = m + 1 := ⟨n - 1, by simp at hn; omega⟩
    rw [List.nil_append, fgets, if_pos rfl]
    rfl
  | cons c l ih =>
    rw [List.mem_cons, not_or] at hl
    obtain ⟨n, rfl⟩ : ∃ m, n = m + 1 := ⟨n - 1, by simp at hn; omega⟩
    rw [List.cons_append, fgets, if_neg (Ne.symm hl.1), ih hl.2 (by simpa using hn)]
    rfl

theorem fgets_last {l : Bytes} {n : ℕ} (hl : lf ∉ l) (hn : l.length < n) : fgets n l = (l, []) := by
  induction l generalizing n with
  | nil => cases n <;> rfl
  | cons c l ih =>
    rw [List.mem_cons, not_or] at hl
    obtain ⟨n, rfl⟩ : ∃ m, n = m + 1 := ⟨n - 1, by simp at hn; omega⟩
    rw [fgets, if_neg (Ne.symm hl.1), ih hl.2 (by simpa using hn)]

/-- The four cuts are one. -/
theorem strip_eq (s : Bytes) :
    strip s = s.takeWhile fun c => c ≠ 0 && c ≠ 35 && c ≠ lf && c ≠ cr := by
  rw [strip, cutAt, cutAt, cutAt, cstr, List.takeWhile_takeWhile, List.takeWhile_takeWhile,
    List.takeWhile_takeWhile]
  congr 1
  funext c
  by_cases h0 : c = 0 <;> by_cases h35 : c = 35 <;> by_cases hlf : c = lf <;> by_cases hcr : c = cr <;>
    simp_all

/-- The end of a line is stripped. -/
theorem strip_line {l t : Bytes} (hl : lf ∉ l) (ht : t = [] ∨ t = [lf]) : strip (l ++ t) = stripped l := by
  rw [strip_eq, stripped]
  induction l with
  | nil => rcases ht with rfl | rfl <;> rfl
  | cons c l ih =>
    rw [List.mem_cons, not_or] at hl
    rw [List.cons_append, List.takeWhile_cons, List.takeWhile_cons, ih hl.2]
    simp [Ne.symm hl.1]

/-- The loop of `parse_config` is the one over the lines. -/
theorem loop_lines (reg : Reg) {ls : List Bytes} (hne : ls ≠ []) (hlf : ∀ l ∈ ls, lf ∉ l)
    (hshort : ∀ l ∈ ls, l.length < 1023) (line : ℕ) (rules : List ConfigLine) :
    Exec.Eventually (fun n => Exec.loop (parsePass reg) n ([lf].intercalate ls, line, rules))
      (.ret (parseLines reg ls line rules)) := by
  -- what a line does, whatever stands behind it
  have hpass : ∀ (l t rest : Bytes) (ls : List Bytes) (line : ℕ) (rules : List ConfigLine),
      lf ∉ l → (t = [] ∨ t = [lf]) → l ++ t ≠ [] → ∀ fh, fgets 1023 fh = (l ++ t, rest) →
      (∀ line rules, Exec.Eventually (fun n => Exec.loop (parsePass reg) n (rest, line, rules))
        (.ret (parseLines reg ls line rules))) →
      Exec.Eventually (fun n => Exec.loop (parsePass reg) n (fh, line, rules))
        (.ret (parseLines reg (l :: ls) line rules)) := by
    intro l t rest ls line rules hl ht hne fh hfgets hrest
    have hbody : parsePass reg (fh, line, rules) =
        .ret (parseLine reg (l ++ t) rest line rules) := by
      rw [parsePass, hfgets]
      cases hlt : l ++ t with
      | nil => exact absurd hlt hne
      | cons c u => rfl
    rw [parseLine, strip_line hl ht] at hbody
    rw [parseLines]
    by_cases hblank : skipSpaces (stripped l) = []
    · rw [if_pos hblank] at hbody ⊢
      exact Exec.Eventually.loop_next hbody (hrest line rules)
    · rw [if_neg hblank] at hbody ⊢
      rcases hentry : parseEntry reg (stripped l) with ⟨entry, _ | e⟩
      · rw [hentry] at hbody
        exact Exec.Eventually.loop_next hbody (hrest (line + 1) (rules ++ [entry]))
      · rw [hentry] at hbody
        exact Exec.Eventually.loop_done hbody
  have hend : ∀ line rules, Exec.Eventually
      (fun n => Exec.loop (parsePass reg) n (([] : Bytes), line, rules))
      (.ret (parseLines reg [] line rules)) :=
    fun line rules => Exec.Eventually.loop_done rfl
  induction ls generalizing line rules with
  | nil => exact absurd rfl hne
  | cons l ls ih =>
    obtain ⟨hl, hls⟩ := List.forall_mem_cons.1 hlf
    obtain ⟨hllen, hlslen⟩ := List.forall_mem_cons.1 hshort
    cases ls with
    | nil =>
      rw [show [lf].intercalate [l] = l by simp [List.intercalate]]
      by_cases hempty : l = []
      · subst hempty
        exact hend line rules
      · exact hpass l [] [] [] line rules hl (Or.inl rfl) (by simpa using hempty) l
          (by rw [List.append_nil]; exact fgets_last hl hllen) hend
    | cons l' ls =>
      rw [List.intercalate_cons_cons, List.append_assoc, List.singleton_append]
      exact hpass l [lf] _ (l' :: ls) line rules hl (Or.inr rfl) (by simp) _ (fgets_line hl hllen)
        fun line rules => ih (by simp) hls hlslen line rules

/-! ### The list -/

/-- Without malformed lines the loop puts the rules behind the list. -/
theorem parseLines_rules {ls : List Bytes} (h : ∀ l ∈ ls, ¬ Malformed reg (stripped l)) (line : ℕ)
    (rules : List ConfigLine) : ∃ rs, RulesUpTo reg ls rs ∧
      (parseLines reg ls line rules).rules = rules ++ rs.map entryOf := by
  induction ls generalizing line rules with
  | nil => exact ⟨[], .nil, (List.append_nil _).symm⟩
  | cons l ls ih =>
    obtain ⟨hl, hls⟩ := List.forall_mem_cons.1 h
    rw [parseLines]
    rcases line_cases reg (stripped l) with hblank | ⟨r, hr⟩ | hbad
    · obtain ⟨rs, hrs, heq⟩ := ih hls line rules
      rw [if_pos (skipSpaces_eq_nil.2 hblank)]
      exact ⟨rs, .blank hblank hrs, heq⟩
    · obtain ⟨rs, hrs, heq⟩ := ih hls (line + 1) (rules ++ [entryOf r])
      rw [if_neg (mt skipSpaces_eq_nil.1 hr.not_blank), parseEntry_rule hr]
      refine ⟨r :: rs, .rule hr hrs, ?_⟩
      rw [heq, List.append_assoc]
      rfl
    · exact absurd hbad hl

/-- A malformed line leaves one more entry than there are rules before it. -/
theorem parseLines_malformed {ls : List Bytes} {rs : List Rule} (hrs : RulesUpTo reg ls rs)
    (h : ∃ l ∈ ls, Malformed reg (stripped l)) (line : ℕ) (rules : List ConfigLine) :
    (parseLines reg ls line rules).rules.length = rules.length + rs.length + 1 := by
  induction hrs generalizing line rules with
  | nil =>
    obtain ⟨l, hl, -⟩ := h
    exact absurd hl List.not_mem_nil
  | @blank l ls rs hblank _ ih =>
    have hrest : ∃ l ∈ ls, Malformed reg (stripped l) := by
      obtain ⟨l', hl', hbad⟩ := h
      rcases List.mem_cons.1 hl' with rfl | hl'
      · exact absurd hblank hbad.1
      · exact ⟨l', hl', hbad⟩
    rw [parseLines, if_pos (skipSpaces_eq_nil.2 hblank)]
    exact ih hrest line rules
  | @rule l ls r rs hr _ ih =>
    have hrest : ∃ l ∈ ls, Malformed reg (stripped l) := by
      obtain ⟨l', hl', hbad⟩ := h
      rcases List.mem_cons.1 hl' with rfl | hl'
      · exact absurd hr (hbad.2 r)
      · exact ⟨l', hl', hbad⟩
    rw [parseLines, if_neg (mt skipSpaces_eq_nil.1 hr.not_blank), parseEntry_rule hr]
    have hlen := ih hrest (line + 1) (rules ++ [entryOf r])
    simp only [List.length_append, List.length_cons, List.length_nil] at hlen ⊢
    omega
  | @malformed l ls hbad =>
    obtain ⟨entry, e, hentry⟩ := parseEntry_malformed hbad
    rw [parseLines, if_neg (mt skipSpaces_eq_nil.1 hbad.1), hentry]
    simp

/-- Complete entries are compared with an event, one after the other. -/
theorem processEvent_rules (reg : Reg) (rs : List Rule) (event : Bytes) :
    processEvent reg event (rs.map entryOf) = .ret (handlersFor reg rs event) := by
  induction rs with
  | nil => rfl
  | cons r rs ih =>
    rw [List.map_cons, processEvent]
    by_cases hr : regMatch reg r.1 event = 1
    · simp [entryOf, handlersFor, hr, ih]
    · simp [entryOf, handlersFor, hr, ih]

theorem eventLoop_rules (reg : Reg) (rs : List Rule) (events : List Bytes) :
    eventLoop reg (rs.map entryOf) events = .ret (events.flatMap (handlersFor reg rs)) := by
  induction events with
  | nil => rfl
  | cons e events ih =>
    rw [eventLoop, processEvent_rules, Exec.ret_bind, ih, Exec.ret_bind, List.flatMap_cons]

/-- `parse_config` returns what the loop over the lines leaves. -/
theorem parseConfig_returns (reg : Reg) {conf confCwd : Option Bytes}
    (hshort : ∀ l ∈ fileLines (conf.or confCwd), l.length < 1023) :
    ∃ p, Exec.Eventually (parseConfig reg conf confCwd) (.ret p) ∧
      p.rules = (parseLines reg (fileLines (conf.or confCwd)) 0 []).rules := by
  cases hfile : conf.or confCwd with
  | none =>
    refine ⟨⟨1, str "Error open config file\n", []⟩, Exec.Eventually.of_eq fun n => ?_, rfl⟩
    rw [parseConfig, hfile]
  | some fh =>
    rw [hfile] at hshort
    refine ⟨_, ?_, rfl⟩
    have hlf : ∀ l ∈ fh.splitOn lf, lf ∉ l := fun l hl => notMem_of_mem_splitOn hl
    have hloop := loop_lines reg (List.splitOn_ne_nil lf fh) hlf hshort 0 []
    rw [List.intercalate_splitOn] at hloop
    have hbody : parseConfig reg conf confCwd = fun n => Exec.loop (parsePass reg) n (fh, 0, []) := by
      funext n
      rw [parseConfig, hfile]
    rw [hbody]
    exact hloop

/-- A malformed line leaves an entry in the list that is no rule. -/
theorem not_rulesExact_of_malformed {conf confCwd : Option Bytes}
    (hshort : ∀ l ∈ fileLines (conf.or confCwd), l.length < 1023)
    (hbad : ∃ l ∈ fileLines (conf.or confCwd), Malformed reg (stripped l)) :
    ¬ RulesExact reg conf confCwd := by
  rintro ⟨p, rs, hp, hrs, heq, -⟩
  obtain ⟨p', hp', hrules⟩ := parseConfig_returns reg hshort
  cases hp.unique hp'
  have hlen := parseLines_malformed hrs hbad 0 []
  rw [← hrules, heq, List.length_map] at hlen
  simp at hlen

/-- **The list is exactly the rules if, and only if, no line is malformed.** -/
theorem rulesExact_iff (reg : Reg) (conf confCwd : Option Bytes)
    (hshort : ∀ l ∈ fileLines (conf.or confCwd), l.length < 1023) :
    RulesExact reg conf confCwd ↔
      ∀ l ∈ fileLines (conf.or confCwd), ¬ Malformed reg (stripped l) := by
  constructor
  · intro hexact l hl hbad
    exact not_rulesExact_of_malformed hshort ⟨l, hl, hbad⟩ hexact
  · intro hgood
    obtain ⟨p, hp, hrules⟩ := parseConfig_returns reg hshort
    obtain ⟨rs, hrs, heq⟩ := parseLines_rules hgood 0 []
    rw [heq, List.nil_append] at hrules
    refine ⟨p, rs, hp, hrs, hrules, fun events => hp.bind (Exec.Eventually.of_eq fun _ => ?_)⟩
    rw [hrules]
    exact eventLoop_rules reg rs events

/-- A library for which an expression matches the texts that start with it. -/
def prefixReg : Reg := ⟨Bytes, some, fun regex line => if regex.isPrefixOf line then .found else .noMatch⟩

/-- A comment, two rules with an empty line between them, and a comment behind the second one. -/
def twoRules : Bytes := str "# kernel events\n/!system=IFNET/\t/etc/ifnet\n\n  /+/  /etc/attach # new\n"

theorem isRule_prefixReg {s : Bytes} {r : Rule} (pre blanks : Bytes)
    (h : s = pre ++ 47 :: (r.1 ++ 47 :: (blanks ++ r.2)) ∧ 47 ∉ pre ∧ blanks ≠ [] ∧
      ∀ c ∈ blanks, isspace c = true) (hregex : 47 ∉ r.1) (hhandler : r.2.head?.any (!isspace ·) = true) :
    IsRule prefixReg s r where
  form := ⟨pre, blanks, h⟩
  regex := hregex
  handler := by
    obtain ⟨c, t, hc⟩ : ∃ c t, r.2 = c :: t := by
      cases hr : r.2 with
      | nil => simp [hr] at hhandler
      | cons c t => exact ⟨c, t, rfl⟩
    exact ⟨c, t, hc, by simpa [hc] using hhandler⟩
  compiles := by
    rw [regMatch, prefixReg]
    dsimp only
    split_ifs <;> decide

theorem rulesExact_iff_twoRules : RulesExact prefixReg (some twoRules) none := by
  refine (rulesExact_iff prefixReg (some twoRules) none (by decide +kernel)).2 fun l hl hbad => ?_
  have hlines : fileLines (some twoRules) = [str "# kernel events", str "/!system=IFNET/\t/etc/ifnet", [],
      str "  /+/  /etc/attach # new", []] := by decide +kernel
  rw [Option.some_or, hlines] at hl
  simp only [List.mem_cons, List.not_mem_nil, or_false] at hl
  rcases hl with rfl | rfl | rfl | rfl | rfl
  · exact hbad.1 (by rw [show stripped (str "# kernel events") = [] by decide]; simp [Blank])
  · refine hbad.2 (str "!system=IFNET", str "/etc/ifnet") (isRule_prefixReg [] [9] ?_ ?_ ?_) <;> decide +kernel
  · exact hbad.1 (by simp [stripped, Blank])
  · refine hbad.2 (str "+", str "/etc/attach ") (isRule_prefixReg [32, 32] [32, 32] ?_ ?_ ?_) <;> decide +kernel
  · exact hbad.1 (by simp [stripped, Blank])

/-- A library for which every expression matches nothing. -/
def quietReg : Reg := ⟨Unit, fun _ => some (), fun _ _ => .noMatch⟩

/-- A line without a slash leaves an entry that has not been written at all. -/
theorem not_rulesExact_noSlash : ¬ RulesExact quietReg (some (str "a\n")) none := by
  refine not_rulesExact_of_malformed (by decide) ⟨str "a", by decide, ?_, fun r hr => ?_⟩
  · intro hblank
    have hletter := hblank 97 (by decide)
    revert hletter
    decide
  · obtain ⟨pre, blanks, hform, -⟩ := hr.form
    have hslash : (47 : UInt8) ∈ stripped (str "a") := by rw [hform]; simp
    revert hslash
    decide

end ZRouter.Cdevd
