import ZRouter.Upgrade.Filename
import ZRouter.Upgrade.ReadErr

/-!
# The parts in front of the firmware part

`test_part_header` skips the content of a part that it does not want by looking at the bytes behind
each line feed.  What it has looked at is gone: a line feed among these bytes does not make it look
at the line behind it.

* `lfLines`: a text as lines; `Clear`: the lines in which the skip loop finds no boundary and does
  not use up the line feed in front of the one behind them;
* `seeksTo_iff_clear`: the content of a part is left at its delimiter exactly when it is `Clear`;
* `FormPart`: a part of the form; `dispositionParams_good`: what its first line amounts to;
* `firmware_found`: behind parts that are all left at their delimiters, the firmware part is found;
* `not_firmware_found_dashes`: a content whose last line starts with two dashes hides what follows.
-/

namespace ZRouter.Upgrade

/-! ### Contents as lines -/

/-- The lines of a text, without the line feeds between them. -/
def lfLines : Bytes → List Bytes
  | [] => [[]]
  | c :: cs =>
      if c = lf then [] :: lfLines cs
      else
        match lfLines cs with
        | [] => [[c]]
        | l :: ls => (c :: l) :: ls

/-- Lines with line feeds between them. -/
def joinLf : List Bytes → Bytes
  | [] => []
  | [l] => l
  | l :: ls => l ++ lf :: joinLf ls

/-- A line that is looked at together with the line feed behind it: an empty one, a single dash, or
two dashes and no more than `read_line` takes. -/
def Swallows (l : Bytes) : Prop := l = [] ∨ l = [45] ∨ (str "--" <+: l ∧ l.length ≤ 257)

/-- The lines of a content whose last line is followed by the delimiter.  A line is looked at when the
line feed before it is; no such line may start with the delimiter, and the last line must leave its
line feed. -/
def Clear (b : Bytes) : Bool → List Bytes → Prop
  | _, [] => True
  | false, _ :: ls => Clear b true ls
  | true, l :: ls =>
      ¬ 45 :: 45 :: b <+: l ∧ (Swallows l → ls ≠ [] ∧ Clear b false ls) ∧
        (¬ Swallows l → Clear b true ls)

theorem joinLf_cons (l : Bytes) {ls : List Bytes} (h : ls ≠ []) :
    joinLf (l :: ls) = l ++ lf :: joinLf ls := by
  cases ls with
  | nil => exact absurd rfl h
  | cons k ls => rfl

theorem lfLines_ne_nil (xs : Bytes) : lfLines xs ≠ [] := by
  cases xs with
  | nil => simp [lfLines]
  | cons c cs =>
    rw [lfLines]
    split_ifs
    · simp
    · split <;> simp

theorem joinLf_lfLines (xs : Bytes) : joinLf (lfLines xs) = xs := by
  induction xs with
  | nil => rfl
  | cons c cs ih =>
    rw [lfLines]
    split_ifs with hc
    · rw [joinLf_cons _ (lfLines_ne_nil cs), ih, hc]
      rfl
    · rcases hls : lfLines cs with _ | ⟨l, ls⟩
      · exact absurd hls (lfLines_ne_nil cs)
      · rw [hls] at ih
        rw [← ih]
        cases ls <;> rfl

theorem lf_not_mem_lfLines (xs : Bytes) : ∀ l ∈ lfLines xs, lf ∉ l := by
  induction xs with
  | nil => simp [lfLines]
  | cons c cs ih =>
    rw [lfLines]
    split_ifs with hc
    · simpa using ih
    · rcases hls : lfLines cs with _ | ⟨l, ls⟩
      · simpa using Ne.symm hc
      · rw [hls, List.forall_mem_cons] at ih
        refine List.forall_mem_cons.2 ⟨?_, ih.2⟩
        simpa using ⟨Ne.symm hc, ih.1⟩

/-! ### The skip loop on bytes -/

section Seeks

variable {b xs ys ws : Bytes} {c : UInt8}

/-- Bytes without a line feed are skipped. -/
theorem seeksTo_append {l : Bytes} (hl : lf ∉ l) : SeeksTo b (l ++ xs) ws ↔ SeeksTo b xs ws := by
  induction l with
  | nil => rfl
  | cons c l ih =>
    simp only [List.mem_cons, not_or] at hl
    rw [List.cons_append, seeksTo_byte (Ne.symm hl.1), ih hl.2]

theorem SeeksTo.length_add_le (h : SeeksTo b xs ws) : ws.length + 4 ≤ xs.length := by
  induction h with
  | byte _ _ ih => rw [List.length_cons]; omega
  | noDash _ _ ih => rw [List.length_cons, List.length_cons]; omega
  | oneDash _ _ ih => rw [List.length_cons, List.length_cons, List.length_cons]; omega
  | other hl _ _ ih =>
    have := (line_suffix hl).2
    rw [List.length_cons, List.length_cons, List.length_cons]
    omega
  | boundary hl =>
    have := (line_suffix hl).2
    rw [List.length_cons, List.length_cons, List.length_cons]
    omega

end Seeks

/-- The bytes that `read_line` stores for bytes of a line. -/
def crToNul (m : Bytes) : Bytes := m.map fun c => if c = cr then 0 else c

/-- A line up to its line feed, or the part of it that fits. -/
theorem lineFrom_lf {m : Bytes} (hm : lf ∉ m) : ∀ (n : ℕ) (rest acc : Bytes),
    lineFrom n (m ++ lf :: rest) acc =
      if m.length < n then some (acc ++ crToNul m, rest)
      else some ((acc ++ crToNul (m.take n)).take 255, m.drop n ++ lf :: rest) := by
  induction m with
  | nil =>
    intro n rest acc
    cases n with
    | zero => simp [lineFrom, crToNul]
    | succ n => simp [lineFrom, crToNul, show lf ≠ cr by decide]
  | cons c m ih =>
    intro n rest acc
    simp only [List.mem_cons, not_or] at hm
    cases n with
    | zero => simp [lineFrom, crToNul]
    | succ n =>
      rw [List.cons_append, lineFrom]
      by_cases hc : c = cr
      · rw [if_pos hc, ih hm.2]
        simp [crToNul, hc]
      · rw [if_neg hc, if_neg (Ne.symm hm.1), ih hm.2]
        simp [crToNul, hc]

/-- A boundary in front of a stored line is one in front of the line. -/
theorem isPrefixOf_crToNul {b m : Bytes} (hcr : cr ∉ b) (h0 : (0 : UInt8) ∉ b) :
    b.isPrefixOf (cstr (crToNul m)) = true ↔ b <+: m := by
  rw [List.isPrefixOf_iff_prefix]
  induction b generalizing m with
  | nil => exact iff_of_true (List.nil_prefix) (List.nil_prefix)
  | cons e b ih =>
    simp only [List.mem_cons, not_or] at hcr h0
    cases m with
    | nil => simp [crToNul, cstr]
    | cons c m =>
      rw [List.cons_prefix_cons, ← ih hcr.2 h0.2]
      by_cases hc : c = cr
      · simp [crToNul, cstr, hc, Ne.symm hcr.1]
      · by_cases hc0 : c = 0
        · simp [crToNul, cstr, hc0, show ¬ (0 : UInt8) = cr by decide, Ne.symm h0.1]
        · have hhead : cstr (crToNul (c :: m)) = c :: cstr (crToNul m) := by
            simp [crToNul, cstr, hc, hc0]
          rw [hhead, List.cons_prefix_cons]

/-- A boundary as `http_input` hands it to `test_part_header`. -/
structure Boundary (b : Bytes) : Prop where
  fit : FitBoundary b
  nul : (0 : UInt8) ∉ b

section Lines

variable {b : Bytes}

theorem Boundary.lineText (hb : Boundary b) : LineText b := by
  refine ⟨hb.nul, fun hc => ?_, fun hc => ?_, by have := hb.fit.short; omega⟩
  · simpa [isBlank] using hb.fit.blank _ hc
  · simpa [isBlank] using hb.fit.blank _ hc

/-- What is behind the line feed in front of the delimiter. -/
def delimiterTail (b next : Bytes) : Bytes := 45 :: 45 :: (b ++ crlf ++ next)

theorem delimiterTail_length (b next : Bytes) :
    (delimiterTail b next).length = b.length + 4 + next.length := by
  simp [delimiterTail, crlf]
  omega

/-- The delimiter is seen when its line feed is looked at. -/
theorem seeksTo_delimiter (hb : Boundary b) (next : Bytes) :
    SeeksTo b (lf :: delimiterTail b next) next :=
  .boundary (hb.lineText.line next) (List.isPrefixOf_iff_prefix.2 List.prefix_rfl) (by simp [str])

/-- It is missed when its line feed is gone. -/
theorem not_seeksTo_tail (hb : Boundary b) (next : Bytes) : ¬ SeeksTo b (delimiterTail b next) next := by
  intro h
  have hno : lf ∉ 45 :: 45 :: (b ++ [cr]) := by
    simpa [show lf ≠ 45 by decide, show lf ≠ cr by decide] using hb.lineText.lf
  have hsplit : delimiterTail b next = (45 :: 45 :: (b ++ [cr])) ++ lf :: next := by
    simp [delimiterTail, crlf]
  rw [hsplit, seeksTo_append hno] at h
  have := h.length_add_le
  rw [List.length_cons] at this
  omega

/-- One line that is looked at. -/
theorem seeksTo_tested (hb : Boundary b) {l rest next : Bytes} (hl : lf ∉ l)
    (hlen : next.length < rest.length) :
    SeeksTo b (lf :: (l ++ lf :: rest)) next ↔ ¬ 45 :: 45 :: b <+: l ∧
      (Swallows l → SeeksTo b rest next) ∧ (¬ Swallows l → SeeksTo b (lf :: rest) next) := by
  have hdash : str "--" = [45, 45] := by decide
  rcases l with _ | ⟨c, l⟩
  · have hs : Swallows [] := Or.inl rfl
    rw [List.nil_append, seeksTo_noDash (by decide)]
    simp [hs]
  by_cases hc : c = 45
  swap
  · have hs : ¬ Swallows (c :: l) := by simp [Swallows, hdash, hc, List.cons_prefix_cons, Ne.symm hc]
    simp only [List.mem_cons, not_or] at hl
    rw [List.cons_append, seeksTo_noDash hc, seeksTo_append hl.2]
    simp [hs, List.cons_prefix_cons, Ne.symm hc]
  subst hc
  rcases l with _ | ⟨c, m⟩
  · have hs : Swallows [45] := Or.inr (Or.inl rfl)
    rw [List.singleton_append, seeksTo_oneDash (by decide)]
    simp [hs, List.cons_prefix_cons]
  by_cases hc : c = 45
  swap
  · have hs : ¬ Swallows (45 :: c :: m) := by
      simp [Swallows, hdash, List.cons_prefix_cons, Ne.symm hc]
    simp only [List.mem_cons, not_or] at hl
    rw [List.cons_append, List.cons_append, seeksTo_oneDash hc, seeksTo_append hl.2.2]
    simp [hs, List.cons_prefix_cons, Ne.symm hc]
  subst hc
  -- two dashes: `read_line` takes the rest of the line, or what fits of it
  have hm : lf ∉ m := fun h => hl (by simp [h])
  have hpre : 45 :: 45 :: b <+: 45 :: 45 :: m ↔ b <+: m := by simp [List.cons_prefix_cons]
  have hshort : Swallows (45 :: 45 :: m) ↔ m.length < 256 := by
    simp only [Swallows, hdash, List.cons_prefix_cons, List.nil_prefix, List.length_cons, true_and,
      reduceCtorEq, List.cons.injEq, false_or, and_false]
    omega
  rw [List.cons_append, List.cons_append, hpre, hshort]
  have hline := lineFrom_lf hm 256 rest []
  rw [List.nil_append] at hline
  by_cases hlt : m.length < 256
  · rw [if_pos hlt] at hline
    have hl' : line (m ++ lf :: rest) = some (cstr (crToNul m), rest) := by
      rw [line, hline]
      rfl
    have hbuf := @isPrefixOf_crToNul b m hb.lineText.cr hb.nul
    rw [seeksTo_line hl']
    by_cases hbm : b <+: m
    · rw [if_pos (hbuf.2 hbm)]
      refine iff_of_false (fun h => ?_) fun h => h.1 hbm
      rw [h.2] at hlen
      exact lt_irrefl _ hlen
    · rw [if_neg fun h => hbm (hbuf.1 h)]
      simp [hbm, hlt]
  · have htake : (crToNul (m.take 256)).take 255 = crToNul (m.take 255) := by
      rw [crToNul, ← List.map_take, List.take_take]
      rfl
    rw [if_neg hlt, List.nil_append, htake] at hline
    have hl' : line (m ++ lf :: rest) = some (cstr (crToNul (m.take 255)),
        m.drop 256 ++ lf :: rest) := by
      rw [line, hline]
      rfl
    have hfit := hb.fit.short
    have hbuf : b.isPrefixOf (cstr (crToNul (m.take 255))) = true ↔ b <+: m := by
      rw [isPrefixOf_crToNul hb.lineText.cr hb.nul, List.prefix_take_iff]
      exact and_iff_left (by omega)
    rw [seeksTo_line hl', seeksTo_append fun h => hm (List.mem_of_mem_drop h)]
    by_cases hbm : b <+: m
    · rw [if_pos (hbuf.2 hbm)]
      refine iff_of_false (fun h => ?_) fun h => h.1 hbm
      rw [h.2, List.length_append, List.length_cons] at hlen
      omega
    · rw [if_neg fun h => hbm (hbuf.1 h)]
      simp [hbm, hlt]

/-- The lines of a content, with the delimiter behind them. -/
theorem seeksTo_lines (hb : Boundary b) (next : Bytes) (ls : List Bytes) :
    ls ≠ [] → (∀ l ∈ ls, lf ∉ l) →
      (SeeksTo b (joinLf ls ++ lf :: delimiterTail b next) next ↔ Clear b false ls) ∧
      (SeeksTo b (lf :: (joinLf ls ++ lf :: delimiterTail b next)) next ↔ Clear b true ls) := by
  induction ls with
  | nil => exact fun h => absurd rfl h
  | cons l ls ih =>
    intro _ hlf
    obtain ⟨hl, hls⟩ := List.forall_mem_cons.1 hlf
    have htail := delimiterTail_length b next
    -- what comes behind the line feed of the first line
    obtain ⟨rest, hrest, hlen, hfree, htest⟩ : ∃ rest : Bytes,
        joinLf (l :: ls) ++ lf :: delimiterTail b next = l ++ lf :: rest ∧
        next.length < rest.length ∧
        (SeeksTo b rest next ↔ ls ≠ [] ∧ Clear b false ls) ∧
        (SeeksTo b (lf :: rest) next ↔ Clear b true ls) := by
      by_cases hnil : ls = []
      · subst hnil
        exact ⟨delimiterTail b next, rfl, by omega,
          iff_of_false (not_seeksTo_tail hb next) fun h => h.1 rfl,
          iff_of_true (seeksTo_delimiter hb next) trivial⟩
      · obtain ⟨h1, h2⟩ := ih hnil hls
        refine ⟨joinLf ls ++ lf :: delimiterTail b next, ?_, ?_, ?_, h2⟩
        · rw [joinLf_cons l hnil]
          simp
        · rw [List.length_append, List.length_cons]
          omega
        · rw [h1, and_iff_right hnil]
    rw [hrest]
    constructor
    · rw [seeksTo_append hl, htest]
      exact Iff.rfl
    · rw [seeksTo_tested hb hl hlen, hfree, htest]
      exact Iff.rfl

end Lines

/-- **The content of a part is left exactly at its delimiter when it is clear, and only then.** -/
theorem seeksTo_iff_clear {b : Bytes} (hb : Boundary b) (content next : Bytes) :
    SeeksTo b (content ++ crlf ++ delimiterTail b next) next ↔
      Clear b false (lfLines (content ++ [cr])) := by
  have h := (seeksTo_lines hb next (lfLines (content ++ [cr])) (lfLines_ne_nil _)
    (lf_not_mem_lfLines _)).1
  rw [joinLf_lfLines] at h
  rw [← h]
  simp [crlf]

/-! ### The first line of a part -/

/-- Each file name that the loop looks at, with `m` parameters matched before, is closed and not
empty. -/
def GoodNames (m : ℕ) (ps : List Bytes) : Prop :=
  ∀ i p, ps[i]? = some p → m + ((ps.take i).filterMap paramAt).length < 2 →
    str "filename=\"" <+: p → paramAt p = some .file

theorem GoodNames.head {m : ℕ} {p : Bytes} {ps : List Bytes} (hm : m < 2)
    (h : GoodNames m (p :: ps)) (hp : str "filename=\"" <+: p) : paramAt p = some .file :=
  h 0 p rfl (by simpa using hm) hp

theorem GoodNames.tail {m : ℕ} {p : Bytes} {ps : List Bytes} (h : GoodNames m (p :: ps)) :
    GoodNames (m + (paramAt p).toList.length) ps := by
  intro i q hq hlen hpre
  refine h (i + 1) q hq ?_ hpre
  rw [List.take_succ_cons, List.filterMap_cons]
  cases hp : paramAt p <;> simp only [hp, Option.toList, List.length_cons, List.length_nil] at hlen ⊢
  all_goals omega

/-- A file name that is counted is closed and not empty. -/
theorem paramAt_eq_file {p : Bytes} (h : paramAt p = some .file) :
    (str "filename=\"").isPrefixOf p = true ∧ 34 ∈ p.drop 10 ∧ (p.drop 10).head? ≠ some 34 := by
  unfold paramAt at h
  split_ifs at h with hname hfile
  · cases h
  · exact hfile

/-- The loop over the parameters matches those that are there, two at most. -/
theorem dispositionParams_good : ∀ (n : ℕ) (p : Bytes) (m : ℕ), m < 2 →
    GoodNames m (paramsFrom n p) → dispositionParams n p m =
      .matched (min 2 (m + ((paramsFrom n p).filterMap paramAt).length)) := by
  intro n
  induction n with
  | zero =>
    intro p m hm _
    simp only [dispositionParams, paramsFrom, List.filterMap_nil, List.length_nil, add_zero]
    rw [Nat.min_eq_right hm.le]
  | succ n ih =>
    intro p m hm hgood
    rw [dispositionParams]
    rw [paramsFrom] at hgood ⊢
    rcases hq : (strsep (· = 59) p).2 with _ | _ | ⟨e, q⟩
    · simp [Nat.min_eq_right hm.le]
    · simp [Nat.min_eq_right hm.le]
    simp only [hq] at hgood
    dsimp only
    generalize strspnSkip (fun c => c = 32 || c = 9) (e :: q) = p' at hgood ⊢
    have htail := hgood.tail
    rw [List.filterMap_cons]
    by_cases hname : (str "name=\"firmware\"").isPrefixOf p' = true
    · have hparam : paramAt p' = some .name := if_pos hname
      have hfile := name_not_filename hname
      rw [hparam] at htail ⊢
      simp only [hname, if_true, hfile, Bool.false_eq_true, if_false, List.length_cons]
      obtain rfl | rfl : m = 0 ∨ m = 1 := by omega
      · rw [if_neg (by norm_num), ih p' 1 (by norm_num) htail]
        congr 2
        omega
      · rw [if_pos rfl]
        congr 1
        omega
    · by_cases hfile : (str "filename=\"").isPrefixOf p' = true
      · have hparam := hgood.head hm (List.isPrefixOf_iff_prefix.1 hfile)
        obtain ⟨-, h34, hhead⟩ := paramAt_eq_file hparam
        rw [hparam] at htail ⊢
        simp only [hname, Bool.false_eq_true, if_false, hfile, if_true, h34, not_true_eq_false, hhead,
          List.length_cons]
        obtain rfl | rfl : m = 0 ∨ m = 1 := by omega
        · have hrest := ih (p'.drop 10) 1 (by norm_num)
          rw [paramsFrom_filename hfile] at hrest
          rw [if_neg (by norm_num), hrest htail]
          congr 2
          omega
        · rw [if_pos rfl]
          congr 1
          omega
      · have hparam : paramAt p' = none := by
          rw [paramAt, if_neg hname, if_neg fun hc => hfile hc.1]
        rw [hparam] at htail ⊢
        simp only [hname, hfile, Bool.false_eq_true, if_false]
        rw [if_neg (by omega)]
        exact ih p' m hm htail

/-! ### The parts of a form -/

/-- A part of the form data: the first line of its header, the other lines and the content. -/
structure FormPart where
  disposition : Bytes
  headers : List Bytes
  content : Bytes

/-- Everything up to the content. -/
def FormPart.head (p : FormPart) : Bytes := p.disposition ++ crlf ++ (block p.headers ++ crlf)

/-- Parts with the delimiter line behind each. -/
def partsText (b : Bytes) (ps : List FormPart) : Bytes :=
  (ps.map fun p => p.head ++ (p.content ++ crlf ++ (45 :: 45 :: b ++ crlf))).flatten

/-- The parameters that `test_part_header` looks at: the texts behind the first eight semicolons. -/
def FormPart.params (p : FormPart) : List Bytes :=
  (dispositionText (cstr p.disposition)).elim [] (paramsFrom 8)

/-- A part of form data, with lines that fit the buffer. -/
structure FormPart.WellFormed (p : FormPart) : Prop where
  formData : str "Content-Disposition: form-data" <+: p.disposition
  lines : ∀ l ∈ p.disposition :: p.headers, PlainLine l
  notEmpty : ∀ l ∈ p.headers, l ≠ []

/-- A part header in which no line looks empty, with good file names. -/
structure FormPart.Readable (p : FormPart) : Prop where
  nul : ∀ l ∈ p.headers, l.head? ≠ some 0
  names : GoodNames 0 p.params

/-- A part that is passed over: fewer than two parameters match, and the content is clear. -/
structure FormPart.Passed (b : Bytes) (p : FormPart) : Prop extends p.Readable where
  few : (p.params.filterMap paramAt).length < 2
  content : Clear b false (lfLines (p.content ++ [cr]))

/-- A part that is taken for the firmware: two parameters match. -/
structure FormPart.Accepted (p : FormPart) : Prop extends p.Readable where
  both : 2 ≤ (p.params.filterMap paramAt).length

section Parts

variable {b : Bytes} {p : FormPart}

/-- The parameters of a line of form data. -/
theorem FormPart.WellFormed.dispositionText (h : p.WellFormed) :
    ∃ t, Upgrade.dispositionText (cstr p.disposition) = some t := by
  obtain ⟨t, ht⟩ := h.formData
  have hc : cstr p.disposition = str "Content-Disposition: form-data" ++ cstr t := by
    rw [← ht, cstr, List.takeWhile_append_of_pos (by decide +kernel)]
    rfl
  have hskip : skipSpaces ((str "Content-Disposition: form-data" ++ cstr t).drop 20) =
      str "form-data" ++ cstr t := by
    simp [str, skipSpaces, isspace]
  refine ⟨_, if_pos ⟨?_, ?_⟩⟩
  · rw [hc, show str "Content-Disposition: form-data" = str "Content-Disposition:" ++ str " form-data"
      by decide +kernel, List.append_assoc]
    exact isPrefixOf_append _ _
  · rw [hc, hskip]
    exact isPrefixOf_append _ _

theorem FormPart.testDisposition (h : p.WellFormed) (hr : p.Readable) :
    testDisposition (cstr p.disposition) =
      .matched (min 2 (p.params.filterMap paramAt).length) := by
  obtain ⟨t, ht⟩ := h.dispositionText
  have hnames := hr.names
  rw [FormPart.params, ht] at hnames ⊢
  have hgood := dispositionParams_good 8 t 0 (by norm_num) hnames
  rw [Nat.zero_add] at hgood
  unfold Upgrade.dispositionText at ht
  dsimp only at ht
  split_ifs at ht with hpre
  rw [Upgrade.testDisposition, if_pos hpre.1]
  dsimp only
  rw [if_pos hpre.2, Option.some.inj ht]
  exact hgood

theorem FormPart.line_disposition (h : p.WellFormed) (xs : Bytes) :
    line (p.head ++ xs) = some (cstr p.disposition, block p.headers ++ crlf ++ xs) := by
  have hl := h.lines p.disposition List.mem_cons_self
  rw [FormPart.head, List.append_assoc]
  exact line_short hl.cr hl.lf hl.short _

theorem FormPart.skipsTo (h : p.WellFormed) (hr : p.Readable) (ws : Bytes) :
    SkipsTo (block p.headers ++ crlf ++ ws) ws := by
  refine skipsTo_block p.headers (fun l hl => ?_) ws
  have hplain := h.lines l (List.mem_cons_of_mem _ hl)
  have hnul := hr.nul l hl
  obtain ⟨c, cs, rfl⟩ := List.exists_cons_of_ne_nil (h.notEmpty l hl)
  have hc : c ≠ 0 := by simpa using hnul
  have hcstr : cstr (c :: cs) = c :: cstr cs := by simp [cstr, hc]
  exact ⟨c, cstr cs, fun xs => by rw [line_short hplain.cr hplain.lf hplain.short, hcstr]⟩

/-- Behind parts that are passed over, the firmware part is found. -/
theorem findsPart_parts (hb : Boundary b) {fw : FormPart} (hfw : fw.WellFormed) (hacc : fw.Accepted) :
    ∀ {ps : List FormPart}, (∀ p ∈ ps, p.WellFormed ∧ p.Passed b) →
      FindsPart b (partsText b ps ++ (fw.head ++ fw.content)) (cstr fw.disposition) fw.content := by
  intro ps
  induction ps with
  | nil =>
    intro _
    have hd := FormPart.testDisposition hfw hacc.toReadable
    rw [Nat.min_eq_left hacc.both] at hd
    exact .here (FormPart.line_disposition hfw _) hd (FormPart.skipsTo hfw hacc.toReadable _)
  | cons p ps ih =>
    intro hps
    obtain ⟨⟨hp, hpass⟩, hps⟩ := List.forall_mem_cons.1 hps
    have htext : partsText b (p :: ps) ++ (fw.head ++ fw.content) = p.head ++ (p.content ++ crlf ++
        delimiterTail b (partsText b ps ++ (fw.head ++ fw.content))) := by
      simp [partsText, delimiterTail]
    have hd := FormPart.testDisposition hp hpass.toReadable
    rw [Nat.min_eq_right hpass.few.le] at hd
    rw [htext]
    exact .next (FormPart.line_disposition hp _) hd hpass.few.ne
      (FormPart.skipsTo hp hpass.toReadable _) ((seeksTo_iff_clear hb _ _).2 hpass.content) (ih hps)

/-- **The firmware part is found at its place** behind any number of parts that are passed over, as
long as no call of `local_read` comes back empty before its content. -/
theorem firmware_found (hb : Boundary b) {ps : List FormPart} {fw : FormPart}
    (hps : ∀ p ∈ ps, p.WellFormed ∧ p.Passed b) (hfw : fw.WellFormed) (hacc : fw.Accepted)
    {r : Reader} (hr : Unbroken fw.content.length r (partsText b ps ++ (fw.head ++ fw.content))) :
    ∃ r', Exec.Eventually (fun f => testPartHeader f b r) (.ret (.ready r')) ∧
      Unbroken fw.content.length r' fw.content := by
  obtain ⟨r', h1, h2⟩ := (findsPart_parts hb hfw hacc hps).run (reads_unbroken fw.content.length)
    (fun zs hz => hz) hr
  exact ⟨r', h2.eventually, h1⟩

end Parts

/-! ### Parts that hide the firmware part -/

/-- The reader at the start of a body. -/
theorem bodyAt_atBody {s : Schedule} (hs : NoErr s) {xs : Bytes} (h : xs.length < 4294967296) :
    AtBody (bodyAt s xs) xs where
  body := (bodyAt_start s h).bodyReader hs
  bytes := by
    rw [Reader.rest, Reader.unread_nil rfl]
    exact (List.take_length).symm

/-- The reads of a body that hand out all but its last `m` bytes without a break. -/
theorem bodyAt_unbroken {s : Schedule} (hs : NoErr s) {xs : Bytes} (h : xs.length < 4294967296)
    {m : ℕ} (hd : DeliversTo m xs.length s xs xs.length) : Unbroken m (bodyAt s xs) xs := by
  have hb := bodyAt_atBody hs h
  rw [DeliversTo, List.take_length, Nat.sub_self] at hd
  refine ⟨hb, (handsOut_iff hb.body rfl (Nat.sub_le _ _) (Nat.sub_le _ _)).2 fun i hi => ?_⟩
  exact hd i hi

/-- A part without other lines in its header. -/
def field (disposition content : String) : FormPart := ⟨str disposition, [], str content⟩

/-- The firmware part of a form. -/
def firmwareField : FormPart :=
  field "Content-Disposition: form-data; name=\"firmware\"; filename=\"f\"" "A\r\n--b--\r\n"

/-- A part in front of it. -/
def textField (content : String) : FormPart :=
  field "Content-Disposition: form-data; name=\"a\"" content

theorem field_wellFormed {d : String} (content : String)
    (h : str "Content-Disposition: form-data" <+: str d) (hl : PlainLine (str d)) :
    (field d content).WellFormed where
  formData := h
  lines := by simpa [field] using hl
  notEmpty := by simp [field]

theorem firmwareField_wellFormed : firmwareField.WellFormed :=
  field_wellFormed _ (by decide +kernel)
    ⟨by decide +kernel, by decide +kernel, by decide +kernel⟩

theorem textField_wellFormed (content : String) : (textField content).WellFormed :=
  field_wellFormed _ (by decide +kernel)
    ⟨by decide +kernel, by decide +kernel, by decide +kernel⟩

theorem boundary_b : Boundary (str "b") where
  fit := fitBoundary_singleton (by decide)
  nul := by decide

theorem goodNames_of_mem {m : ℕ} {ps : List Bytes}
    (h : ∀ p ∈ ps, str "filename=\"" <+: p → paramAt p = some .file) : GoodNames m ps :=
  fun _ p hp _ => h p (List.mem_of_getElem? hp)

/-- A text field of two lines, where the first `read()` leaves out the last bytes of the body. -/
theorem firmware_found_textField : ∃ r', Exec.Eventually (fun f => testPartHeader f (str "b")
      (bodyAt tardy (partsText (str "b") [textField "x\ny"] ++
        (firmwareField.head ++ firmwareField.content)))) (.ret (.ready r')) ∧
    Unbroken firmwareField.content.length r' firmwareField.content := by
  have hread : (textField "x\ny").Readable :=
    ⟨by simp [textField, field], goodNames_of_mem (by decide +kernel)⟩
  have hclear : Clear (str "b") false (lfLines (str "x\ny" ++ [cr])) := by
    rw [show lfLines (str "x\ny" ++ [cr]) = [[120], [121, 13]] by decide +kernel]
    simp [Clear, Swallows, str]
  have hpass : (textField "x\ny").Passed (str "b") := ⟨hread, by decide +kernel, hclear⟩
  have hacc : firmwareField.Accepted :=
    ⟨⟨by simp [firmwareField, field], goodNames_of_mem (by decide +kernel)⟩, by decide +kernel⟩
  have hlen : (partsText (str "b") [textField "x\ny"] ++
      (firmwareField.head ++ firmwareField.content)).length = 129 := by decide +kernel
  have hcontent : firmwareField.content.length = 10 := by decide +kernel
  refine firmware_found boundary_b (fun p hp => ?_) firmwareField_wellFormed hacc
    (bodyAt_unbroken tardy_positive.noErr (by omega) fun i hi => ⟨_, rfl, ?_⟩)
  swap
  · rw [List.take_length, hlen, hcontent] at *
    omega
  obtain rfl := List.mem_singleton.1 hp
  exact ⟨textField_wellFormed _, hpass⟩

/-- A part whose `Content-Disposition` names the firmware and a file. -/
def FormPart.Named (p : FormPart) : Prop :=
  ∃ t, dispositionText (cstr p.disposition) = some t ∧
    Param.name ∈ (paramsFrom t.length t).filterMap paramAt ∧
    Param.file ∈ (paramsFrom t.length t).filterMap paramAt

/-- A pass that returns does so with more fuel. -/
theorem partPass_mono {f g : ℕ} (hfg : f ≤ g) {b : Bytes} {r : Reader} {x : Reader ⊕ PartTest}
    (h : partPass f b r = .ret x) : partPass g b r = .ret x := by
  unfold partPass at h ⊢
  split at h
  · exact h
  · split at h
    · exact h
    · exact h
    · cases h
    · obtain ⟨r₁, h1, h2⟩ := Exec.bind_eq_ret h
      have h1' := Exec.loop_mono (fun _ _ hx => hx) hfg h1
      rw [h1', Exec.ret_bind]
      unfold partContent at h2 ⊢
      split_ifs at h2 ⊢
      · exact h2
      · obtain ⟨s, h3, h4⟩ := Exec.bind_eq_ret h2
        rw [Exec.loop_mono (fun _ _ hx => hx) hfg h3, Exec.ret_bind]
        exact h4

theorem testPartHeader_returns {f : ℕ} {b : Bytes} {r : Reader} {t : PartTest}
    (h : testPartHeader f b r = .ret t) :
    Exec.Eventually (fun f => testPartHeader f b r) (.ret t) :=
  ⟨f, fun _ hf => Exec.loop_mono (fun _ _ hx => partPass_mono hf hx) hf h⟩

/-- A content whose last line starts with two dashes takes the line feed of its delimiter along. -/
theorem not_firmware_found_dashes :
    ¬ ∀ (b : Bytes) (ps : List FormPart) (fw : FormPart) (r : Reader), Boundary b →
      (∀ p ∈ ps, p.WellFormed ∧ ¬ crlf ++ 45 :: 45 :: b <:+: p.content) →
      fw.WellFormed → fw.Named → Unbroken 0 r (partsText b ps ++ (fw.head ++ fw.content)) →
      ∃ r', Exec.Eventually (fun f => testPartHeader f b r) (.ret (.ready r')) ∧
        Unbroken 0 r' fw.content := by
  intro h
  have hnamed : firmwareField.Named := ⟨_, rfl, by decide +kernel, by decide +kernel⟩
  obtain ⟨r', h1, -⟩ := h (str "b") [textField "\n--x"] firmwareField
    (bodyAt eager (partsText (str "b") [textField "\n--x"] ++
      (firmwareField.head ++ firmwareField.content)))
    boundary_b (fun p hp => by
      obtain rfl := List.mem_singleton.1 hp
      exact ⟨textField_wellFormed _, by decide +kernel⟩)
    firmwareField_wellFormed hnamed (bodyAt_unbroken eager_full.positive.noErr (by decide +kernel)
      (eager_full.deliversTo _ _ _ _))
  have hrun : (match testPartHeader 200 (str "b") (bodyAt eager
      (partsText (str "b") [textField "\n--x"] ++
        (firmwareField.head ++ firmwareField.content))) with
      | .ret .rejected => true
      | _ => false) = true := by decide +kernel
  split at hrun
  · rename_i heq
    cases (testPartHeader_returns heq).unique h1
  · cases hrun

end ZRouter.Upgrade
