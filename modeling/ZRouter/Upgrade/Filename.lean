import ZRouter.Upgrade.HeaderLines
import ZRouter.Upgrade.Ready

/-!
# The copy of the file name

Where `test_part_header` finds `filename="` it copies `index(p, '"') - p` bytes, without a look at
whether `index` found anything.

* `copySites`: the strings `p` for which the loop over the parameters does this;
* `unclosed_iff`: the model leaves the loop without a result at a copy that has no closing quote;
* `Considered`: the parameters that the loop comes to;
* `filenameTotal_iff`: all copies are closed exactly when the considered parameters are.
-/

namespace ZRouter.Upgrade

/-- The strings behind `filename="` that the loop over the parameters comes to, with `m` matches
made; it goes no further where there is no closing quote. -/
def copySites : ℕ → Bytes → ℕ → List Bytes
  | 0, _, _ => []
  | n + 1, p, m =>
      match (strsep (· = 59) p).2 with
      | none => []
      | some [] => []
      | some q =>
          let p := strspnSkip (fun c => c = 32 || c = 9) q
          let m := if (str "name=\"firmware\"").isPrefixOf p then m + 1 else m
          if (str "filename=\"").isPrefixOf p then
            let p := p.drop 10
            p :: if 34 ∉ p ∨ p.head? = some 34 ∨ m + 1 = 2 then [] else copySites n p (m + 1)
          else if m = 2 then []
          else copySites n p m

/-- The parameters of a `Content-Disposition` line of form data. -/
def dispositionText (buf : Bytes) : Option Bytes :=
  let p := skipSpaces (buf.drop 20)
  if (str "Content-Disposition:").isPrefixOf buf ∧ (str "form-data").isPrefixOf p then
    some (p.drop 9)
  else none

/-- The strings at which a line makes `test_part_header` copy a file name. -/
def copiesOf (buf : Bytes) : List Bytes := (dispositionText buf).elim [] fun p => copySites 8 p 0

/-- Every copy of a file name is closed by a quote in the rest of the line, and is no longer than
`filename`. -/
def FilenameTotal (buf : Bytes) : Prop :=
  ∀ p ∈ copiesOf buf, p <:+ buf ∧ 34 ∈ p ∧ (p.takeWhile (· ≠ 34)).length ≤ 255

/-- The loop looks at parameter `i`: fewer than two of the parameters before it were matched, and
none of them is an empty file name. -/
def Considered (ps : List Bytes) (i : ℕ) : Prop :=
  ((ps.take i).filterMap paramAt).length < 2 ∧ ∀ q ∈ ps.take i, ¬ str "filename=\"\"" <+: q

/-- Every file name that the loop looks at is closed. -/
def ClosedNames (ps : List Bytes) : Prop :=
  ∀ i p, ps[i]? = some p → Considered ps i → str "filename=\"" <+: p → 34 ∈ p.drop 10

/-! ### The copies of the model -/

theorem dispositionParams_unclosed :
    ∀ (n : ℕ) (p : Bytes) (m : ℕ),
      dispositionParams n p m = .unclosed ↔ ∃ c ∈ copySites n p m, 34 ∉ c := by
  intro n
  induction n with
  | zero => simp [dispositionParams, copySites]
  | succ n ih =>
    intro p m
    rw [dispositionParams, copySites]
    rcases hq : (strsep (· = 59) p).2 with _ | _ | ⟨c, q⟩
    · simp
    · simp
    · dsimp only
      generalize strspnSkip (fun c => c = 32 || c = 9) (c :: q) = p'
      generalize (if (str "name=\"firmware\"").isPrefixOf p' = true then m + 1 else m) = m'
      by_cases hfile : (str "filename=\"").isPrefixOf p' = true
      · simp only [hfile, if_true]
        generalize p'.drop 10 = t
        by_cases h34 : 34 ∈ t
        · by_cases hhead : t.head? = some 34
          · simp [h34, hhead]
          · by_cases hm : m' + 1 = 2
            · simp [h34, hhead, hm]
            · simp [h34, hhead, hm, ih]
        · simp [h34]
      · simp only [hfile]
        by_cases hm : m' = 2
        · simp [hm]
        · simp [hm, ih]

/-- The model has no result for a line exactly when one of its copies is not closed. -/
theorem unclosed_iff (buf : Bytes) :
    testDisposition buf = .unclosed ↔ ∃ p ∈ copiesOf buf, 34 ∉ p := by
  unfold testDisposition copiesOf dispositionText
  dsimp only
  by_cases h1 : (str "Content-Disposition:").isPrefixOf buf = true
  · by_cases h2 : (str "form-data").isPrefixOf (skipSpaces (buf.drop 20)) = true
    · rw [if_pos h1, if_pos h2, if_pos ⟨h1, h2⟩]
      exact dispositionParams_unclosed 8 _ 0
    · rw [if_pos h1, if_neg h2, if_neg fun h => h2 h.2]
      simp
  · rw [if_neg h1, if_neg fun h => h1 h.1]
    simp

theorem strsep_suffix {f : UInt8 → Bool} {p q : Bytes} (h : (strsep f p).2 = some q) : q <:+ p := by
  have hdrop : p.dropWhile (!f ·) <:+ p := List.dropWhile_suffix _
  unfold strsep at h
  rcases hp : p.dropWhile (!f ·) with _ | ⟨c, cs⟩ <;> rw [hp] at h
  · cases h
  · obtain rfl := Option.some.inj h
    exact (List.suffix_cons c cs).trans (hp ▸ hdrop)

/-- A copy starts inside the line. -/
theorem copySites_suffix : ∀ (n : ℕ) (p : Bytes) (m : ℕ), ∀ c ∈ copySites n p m, c <:+ p := by
  intro n
  induction n with
  | zero => simp [copySites]
  | succ n ih =>
    intro p m c hc
    rw [copySites] at hc
    rcases hq : (strsep (· = 59) p).2 with _ | _ | ⟨e, q⟩ <;> simp only [hq] at hc
    · cases hc
    · cases hc
    have hp : strspnSkip (fun c => c = 32 || c = 9) (e :: q) <:+ p :=
      (List.dropWhile_suffix _).trans (strsep_suffix hq)
    generalize strspnSkip (fun c => c = 32 || c = 9) (e :: q) = p' at hc hp
    generalize (if (str "name=\"firmware\"").isPrefixOf p' = true then m + 1 else m) = m' at hc
    have hdrop : p'.drop 10 <:+ p := (List.drop_suffix 10 p').trans hp
    split at hc
    · rcases List.mem_cons.1 hc with rfl | hc
      · exact hdrop
      · split_ifs at hc
        · cases hc
        · exact (ih _ _ _ hc).trans hdrop
    · split at hc
      · cases hc
      · exact (ih _ _ _ hc).trans hp

theorem copiesOf_suffix {buf p : Bytes} (h : p ∈ copiesOf buf) : p <:+ buf := by
  unfold copiesOf dispositionText at h
  dsimp only at h
  split_ifs at h
  · exact (copySites_suffix _ _ _ _ h).trans ((List.drop_suffix _ _).trans
      ((List.dropWhile_suffix _).trans (List.drop_suffix _ _)))
  · cases h

/-! ### The parameters of the text -/

/-- A file name at the front that is closed and not empty. -/
theorem paramAt_file {p : Bytes} (hp : (str "filename=\"").isPrefixOf p = true)
    (h34 : 34 ∈ p.drop 10) (hhead : (p.drop 10).head? ≠ some 34) : paramAt p = some .file := by
  have hname : ¬ (str "name=\"firmware\"").isPrefixOf p = true := fun hn => by
    rw [name_not_filename hn] at hp
    cases hp
  rw [paramAt, if_neg hname, if_pos ⟨hp, h34, hhead⟩]

theorem emptyName_iff {p : Bytes} (hp : str "filename=\"" <+: p) :
    str "filename=\"\"" <+: p ↔ (p.drop 10).head? = some 34 := by
  obtain ⟨t, rfl⟩ := hp
  rw [show (str "filename=\"" ++ t).drop 10 = t from List.drop_left' (by decide),
    show str "filename=\"\"" = str "filename=\"" ++ [34] from by decide, List.prefix_append_right_inj]
  cases t <;> simp [eq_comm]

/-- What the loop still looks at, with `m` matches made. -/
def ClosedFrom (m : ℕ) (ps : List Bytes) : Prop :=
  ∀ i p, ps[i]? = some p → m + ((ps.take i).filterMap paramAt).length < 2 →
    (∀ q ∈ ps.take i, ¬ str "filename=\"\"" <+: q) → str "filename=\"" <+: p → 34 ∈ p.drop 10

theorem closedFrom_nil (m : ℕ) : ClosedFrom m [] := fun i p h => by simp at h

/-- After two matches nothing is looked at. -/
theorem closedFrom_two (ps : List Bytes) : ClosedFrom 2 ps := fun _ _ _ h => by omega

/-- The parameter at the front and what the loop looks at behind it. -/
theorem closedFrom_cons {m : ℕ} {p : Bytes} {ps : List Bytes} (hm : m < 2) :
    ClosedFrom m (p :: ps) ↔ (str "filename=\"" <+: p → 34 ∈ p.drop 10) ∧
      (¬ str "filename=\"\"" <+: p → ClosedFrom (m + (paramAt p).toList.length) ps) := by
  constructor
  · intro h
    refine ⟨h 0 p rfl (by simpa using hm) (by simp), fun hne i q hq hlen hno => ?_⟩
    refine h (i + 1) q hq ?_ (by simpa using ⟨hne, hno⟩)
    rw [List.take_succ_cons, List.filterMap_cons]
    cases hp : paramAt p <;> simp only [hp, Option.toList, List.length_cons, List.length_nil] at hlen ⊢
    all_goals omega
  · rintro ⟨hfirst, hrest⟩ (_ | i) q hq hlen hno
    · obtain rfl := Option.some.inj hq
      exact hfirst
    · rw [List.take_succ_cons, List.forall_mem_cons] at hno
      refine hrest hno.1 i q hq ?_ hno.2
      rw [List.take_succ_cons, List.filterMap_cons] at hlen
      cases hp : paramAt p <;> simp only [hp, Option.toList, List.length_cons, List.length_nil] at hlen ⊢
      all_goals omega

/-- All copies are closed when the file names that the loop looks at are. -/
theorem copySites_closed : ∀ (n : ℕ) (p : Bytes) (m : ℕ), m < 2 →
    ((∀ c ∈ copySites n p m, 34 ∈ c) ↔ ClosedFrom m (paramsFrom n p)) := by
  intro n
  induction n with
  | zero => exact fun p m _ => iff_of_true (by simp [copySites]) (closedFrom_nil m)
  | succ n ih =>
    intro p m hm
    rw [copySites, paramsFrom]
    rcases hq : (strsep (· = 59) p).2 with _ | _ | ⟨e, q⟩
    · exact iff_of_true (by simp) (closedFrom_nil m)
    · exact iff_of_true (by simp) (closedFrom_nil m)
    dsimp only
    generalize strspnSkip (fun c => c = 32 || c = 9) (e :: q) = p'
    rw [closedFrom_cons hm]
    by_cases hname : (str "name=\"firmware\"").isPrefixOf p' = true
    · have hfile := name_not_filename hname
      have hno : ¬ str "filename=\"" <+: p' := fun h => by
        rw [List.isPrefixOf_iff_prefix.2 h] at hfile
        cases hfile
      have hempty : ¬ str "filename=\"\"" <+: p' := fun h =>
        hno (List.IsPrefix.trans (by decide) h)
      have hparam : paramAt p' = some .name := if_pos hname
      simp only [hname, if_true, hfile, Bool.false_eq_true, if_false, hno, hempty, hparam,
        not_false_eq_true, true_imp_iff, false_imp_iff, true_and, Option.toList, List.length_cons,
        List.length_nil, zero_add]
      obtain rfl | rfl : m = 0 ∨ m = 1 := by omega
      · rw [if_neg (by norm_num)]
        exact ih p' 1 (by norm_num)
      · rw [if_pos rfl]
        exact iff_of_true (by simp) (closedFrom_two _)
    · simp only [hname]
      by_cases hfile : (str "filename=\"").isPrefixOf p' = true
      · have hpre := List.isPrefixOf_iff_prefix.1 hfile
        simp only [hfile, if_true, List.forall_mem_cons, hpre, true_imp_iff, emptyName_iff hpre]
        refine and_congr_right fun h34 => ?_
        by_cases hhead : (p'.drop 10).head? = some 34
        · simp [hhead]
        · have hparam := paramAt_file hfile h34 hhead
          simp only [h34, hhead, hparam, not_true_eq_false, false_or, not_false_eq_true,
            true_imp_iff, Option.toList, List.length_cons, List.length_nil, zero_add]
          obtain rfl | rfl : m = 0 ∨ m = 1 := by omega
          · have := ih (p'.drop 10) 1 (by norm_num)
            rw [paramsFrom_filename hfile] at this
            simpa using this
          · exact iff_of_true (by simp) (closedFrom_two _)
      · have hno : ¬ str "filename=\"" <+: p' := fun h => hfile (List.isPrefixOf_iff_prefix.2 h)
        have hempty : ¬ str "filename=\"\"" <+: p' := fun h =>
          hno (List.IsPrefix.trans (by decide) h)
        have hparam : paramAt p' = none := by
          rw [paramAt, if_neg hname, if_neg fun hc => hfile hc.1]
        simp only [hfile, hno, hempty, hparam, Bool.false_eq_true, if_false, not_false_eq_true,
          true_imp_iff, false_imp_iff, true_and, Option.toList, List.length_nil, add_zero]
        rw [if_neg (by omega)]
        exact ih p' m hm

theorem closedNames_iff (ps : List Bytes) : ClosedNames ps ↔ ClosedFrom 0 ps := by
  simp only [ClosedNames, ClosedFrom, Considered, zero_add, and_imp]

/-- A line that `read_line` returns fits its buffer. -/
theorem readLine_length_le {r r' : Reader} {buf : Bytes} (h : readLine r = (some buf, r')) :
    buf.length ≤ 255 := by
  have hfrom : ∀ n r acc l r', acc.length + n ≤ 256 → readLineFrom n r acc = (some l, r') →
      l.length ≤ 255 := by
    intro n
    induction n with
    | zero =>
      intro r acc l r' _ h
      obtain ⟨hl, -⟩ := Prod.mk.inj h
      rw [← Option.some.inj hl]
      exact List.length_take_le _ _
    | succ n ih =>
      intro r acc l r' hn h
      rw [readLineFrom] at h
      split at h
      · cases h
      · split_ifs at h
        · exact ih _ _ _ _ (by simp; omega) h
        · obtain ⟨hl, -⟩ := Prod.mk.inj h
          rw [← Option.some.inj hl]
          omega
        · exact ih _ _ _ _ (by simp; omega) h
  unfold readLine at h
  split at h
  · rename_i l r₁ hl
    obtain ⟨hbuf, -⟩ := Prod.mk.inj h
    rw [← Option.some.inj hbuf]
    exact (List.takeWhile_prefix _).length_le.trans (hfrom 256 r [] l r₁ (by simp) hl)
  · cases h

theorem filenameTotal_of_length {buf : Bytes} (hl : buf.length ≤ 255) :
    FilenameTotal buf ↔ ∀ p ∈ copiesOf buf, 34 ∈ p :=
  ⟨fun h p hp => (h p hp).2.1, fun h p hp => ⟨copiesOf_suffix hp, h p hp,
    (List.takeWhile_prefix _).length_le.trans ((copiesOf_suffix hp).length_le.trans hl)⟩⟩

/-- **The copy of the file name is total on a line exactly when every file name among the parameters
that are looked at is closed.** -/
theorem filenameTotal_iff {r r' : Reader} {buf : Bytes} (h : readLine r = (some buf, r')) :
    FilenameTotal buf ↔ ∀ p ∈ dispositionText buf, ClosedNames (paramsFrom 8 p) := by
  rw [filenameTotal_of_length (readLine_length_le h), copiesOf]
  cases dispositionText buf with
  | none => simp
  | some p =>
    rw [Option.elim_some, copySites_closed 8 p 0 (by norm_num), ← closedNames_iff]
    simp

/-- The first line of the part header of the form of `http_index`. -/
theorem filenameTotal_iff_form : FilenameTotal sampleDisposition := by
  have hline : line (sampleDisposition ++ crlf) = some (sampleDisposition, []) := by decide +kernel
  obtain ⟨r', hr, -⟩ := readLine_of_line (reads_header 0 eager _)
    (inHeader_zero eager_full.positive _) hline (by simp)
  have hparams : ∀ p ∈ dispositionText sampleDisposition, ∀ q ∈ paramsFrom 8 p,
      str "filename=\"" <+: q → 34 ∈ q.drop 10 := by decide +kernel
  exact (filenameTotal_iff hr).2 fun p hp i q hq _ hpre =>
    hparams p hp q (List.mem_of_getElem? hq) hpre

/-- The line of a part whose file name has no closing quote. -/
def unclosedLine : Bytes := str "Content-Disposition: form-data; filename=\"x"

theorem not_filenameTotal_unclosed :
    ¬ ∀ (r r' : Reader) (buf : Bytes), readLine r = (some buf, r') → FilenameTotal buf := by
  intro h
  have hline : line (unclosedLine ++ crlf) = some (unclosedLine, []) := by decide +kernel
  obtain ⟨r', hr, -⟩ := readLine_of_line (reads_header 0 eager _)
    (inHeader_zero eager_full.positive _) hline (by simp)
  have hcopies : copiesOf unclosedLine = [str "x"] := by decide +kernel
  have := (h _ _ _ hr (str "x") (by rw [hcopies]; simp)).2.1
  revert this
  decide

end ZRouter.Upgrade
