import ZRouter.Upgrade.Extraction

/-!
# What `HTTP_INPUT_READY` says about a request

The status tells `main` to write the device.  It should mean that the firmware part of the form was
located and that the output file holds content of that part.

* `matchedParams`: the parameters on which a `Content-Disposition` line is accepted;
* `contentOf`: the content of a part, up to the line that starts with the delimiter;
* `extracted_prefix_iff`: when the bytes written are content of the part;
* `Sound`: what the status should mean; `Careful`: the requests for which it does, when no call of
  `local_read` comes back empty before the content (`UnbrokenToContent`).
-/

namespace ZRouter.Upgrade

/-! ### The parameters of `Content-Disposition` -/

/-- The two parameters that `test_part_header` counts. -/
inductive Param
  | name
  | file
  deriving DecidableEq

/-- The parameter at the start of a string, the file name closed and not empty. -/
def paramAt (p : Bytes) : Option Param :=
  if (str "name=\"firmware\"").isPrefixOf p then some .name
  else if (str "filename=\"").isPrefixOf p ∧ 34 ∈ p.drop 10 ∧ (p.drop 10).head? ≠ some 34 then
    some .file
  else none

/-- The strings behind the first `n` semicolons, without leading blanks. -/
def paramsFrom : ℕ → Bytes → List Bytes
  | 0, _ => []
  | n + 1, p =>
      match (strsep (· = 59) p).2 with
      | none => []
      | some [] => []
      | some q =>
          let p := strspnSkip (fun c => c = 32 || c = 9) q
          p :: paramsFrom n p

/-- The parameters on which a line is accepted: the first two that are counted. -/
def matchedParams (buf : Bytes) : List Param :=
  ((paramsFrom 8 ((skipSpaces (buf.drop 20)).drop 9)).filterMap paramAt).take 2

/-- The quotation mark is not a semicolon, so that the search for the next semicolon may start
before or after `filename="`. -/
theorem strsep_filename {p : Bytes} (h : (str "filename=\"").isPrefixOf p = true) :
    (strsep (· = 59) (p.drop 10)).2 = (strsep (· = 59) p).2 := by
  obtain ⟨t, rfl⟩ := List.isPrefixOf_iff_prefix.1 h
  simp [strsep, str]

theorem paramsFrom_filename {n : ℕ} {p : Bytes} (h : (str "filename=\"").isPrefixOf p = true) :
    paramsFrom n (p.drop 10) = paramsFrom n p := by
  cases n with
  | zero => rfl
  | succ n => rw [paramsFrom, paramsFrom, strsep_filename h]

theorem name_not_filename {p : Bytes} (h : (str "name=\"firmware\"").isPrefixOf p = true) :
    (str "filename=\"").isPrefixOf p = false := by
  obtain ⟨t, rfl⟩ := List.isPrefixOf_iff_prefix.1 h
  simp [str, List.isPrefixOf]

/-- A line that is accepted has as many parameters left to match as are missing. -/
theorem dispositionParams_matched :
    ∀ (n : ℕ) (p : Bytes) (m : ℕ), m < 2 → dispositionParams n p m = .matched 2 →
      (((paramsFrom n p).filterMap paramAt).take (2 - m)).length = 2 - m := by
  intro n
  induction n with
  | zero =>
    intro p m hm h
    simp only [dispositionParams, Disposition.matched.injEq] at h
    omega
  | succ n ih =>
    intro p m hm h
    rw [dispositionParams] at h
    rw [paramsFrom]
    rcases hq : (strsep (· = 59) p).2 with _ | _ | ⟨c, q⟩ <;> simp only [hq] at h ⊢
    · simp only [Disposition.matched.injEq] at h
      omega
    · simp only [Disposition.matched.injEq] at h
      omega
    generalize strspnSkip (fun c => c = 32 || c = 9) (c :: q) = p' at h ⊢
    by_cases hname : (str "name=\"firmware\"").isPrefixOf p' = true
    · have hparam : paramAt p' = some .name := if_pos hname
      simp only [hname, if_true, name_not_filename hname, Bool.false_eq_true, if_false] at h
      simp only [List.filterMap_cons, hparam]
      obtain rfl | rfl : m = 0 ∨ m = 1 := by omega
      · rw [if_neg (by norm_num)] at h
        have := ih p' 1 (by norm_num) h
        simpa using this
      · simp
    · by_cases hfile : (str "filename=\"").isPrefixOf p' = true
      · simp only [hname, Bool.false_eq_true, if_false, hfile, if_true] at h
        split_ifs at h with h34 hhead hm1
        · have hparam : paramAt p' = some .file := by
            rw [paramAt, if_neg hname, if_pos ⟨hfile, h34, hhead⟩]
          obtain rfl : m = 1 := by omega
          simp [hparam]
        · have hparam : paramAt p' = some .file := by
            rw [paramAt, if_neg hname, if_pos ⟨hfile, h34, hhead⟩]
          obtain rfl : m = 0 := by omega
          have := ih (p'.drop 10) 1 (by norm_num) h
          rw [paramsFrom_filename hfile] at this
          simpa [hparam] using this
      · have hparam : paramAt p' = none := by
          rw [paramAt, if_neg hname, if_neg fun hc => hfile hc.1]
        simp only [hname, hfile, Bool.false_eq_true, if_false] at h
        rw [if_neg (by omega)] at h
        simpa [hparam] using ih p' m hm h

/-- A line that is accepted has matched two parameters: both of them unless one came twice. -/
theorem matchedParams_iff {buf : Bytes} (h : testDisposition buf = .matched 2) :
    (.name ∈ matchedParams buf ∧ .file ∈ matchedParams buf) ↔ (matchedParams buf).Nodup := by
  have hlen : (matchedParams buf).length = 2 := by
    unfold testDisposition at h
    dsimp only at h
    split_ifs at h
    · exact dispositionParams_matched 8 _ 0 (by norm_num) h
    · cases h
  obtain ⟨p, q, hpq⟩ := List.length_eq_two.1 hlen
  rw [hpq]
  cases p <;> cases q <;> simp

/-! ### The content of a part -/

/-- What comes before the first line that starts with `d`, up to the line feed. -/
def beforeLine (d : Bytes) : Bytes → Option Bytes
  | [] => none
  | c :: cs => if (lf :: d).isPrefixOf (c :: cs) then some [] else (beforeLine d cs).map (c :: ·)

/-- A line without the carriage return at its end. -/
def stripCr (xs : Bytes) : Bytes := if xs.getLast? = some cr then xs.dropLast else xs

/-- The content of a part: everything before the first line that starts with the delimiter, or all
that there is. -/
def contentOf (d ws : Bytes) : Bytes :=
  if d.isPrefixOf ws then []
  else
    match beforeLine d ws with
    | some xs => stripCr xs
    | none => ws

theorem beforeLine_eq_some {d ws us : Bytes} (h : beforeLine d ws = some us) :
    ∃ post, ws = us ++ lf :: (d ++ post) ∧ ∀ pre post', ws = pre ++ lf :: (d ++ post') →
      us.length ≤ pre.length := by
  induction ws generalizing us with
  | nil => cases h
  | cons c cs ih =>
    rw [beforeLine] at h
    split_ifs at h with hp
    · obtain rfl := Option.some.inj h
      obtain ⟨post, hpost⟩ := List.isPrefixOf_iff_prefix.1 hp
      exact ⟨post, by simpa using hpost.symm, fun _ _ _ => Nat.zero_le _⟩
    · obtain ⟨vs, hv, rfl⟩ := Option.map_eq_some_iff.1 h
      obtain ⟨post, hpost, hmin⟩ := ih hv
      refine ⟨post, by rw [hpost]; rfl, fun pre post' heq => ?_⟩
      cases pre with
      | nil =>
        refine absurd (List.isPrefixOf_iff_prefix.2 ⟨post', ?_⟩) hp
        rw [heq]
        rfl
      | cons e pre => simpa using hmin pre post' (List.cons_eq_cons.1 heq).2

theorem beforeLine_eq_none {d ws : Bytes} (h : beforeLine d ws = none) :
    ∀ pre post, ws ≠ pre ++ lf :: (d ++ post) := by
  induction ws with
  | nil => simp
  | cons c cs ih =>
    rw [beforeLine] at h
    split_ifs at h with hp
    rw [Option.map_eq_none_iff] at h
    rintro (_ | ⟨e, pre⟩) post heq
    · refine hp (List.isPrefixOf_iff_prefix.2 ⟨post, ?_⟩)
      rw [heq]
      rfl
    · exact ih h pre post (List.cons_eq_cons.1 heq).2

/-- The place where the delimiter `d` is found in `ws`: behind `pre`. -/
structure FirstHit (d ws pre post : Bytes) : Prop where
  split : ws = pre ++ d ++ post
  notYet : NotYet d (pre ++ d.dropLast)
  hit : matchAfter d (pre ++ d) = d.length

section Hit

variable {d ws pre post : Bytes}

theorem FirstHit.le_of_hit (h : FirstHit d ws pre post) (vs : Bytes) (hv : vs <+: ws)
    (hm : matchAfter d vs = d.length) : pre.length + d.length ≤ vs.length := by
  by_contra hlt
  refine h.notYet vs ?_ hm
  have h1 : pre ++ d.dropLast <+: ws :=
    ⟨d.drop (d.length - 1) ++ post, by
      rw [h.split, List.append_assoc, List.append_assoc, ← List.append_assoc d.dropLast,
        List.dropLast_eq_take, List.take_append_drop]⟩
  refine List.prefix_of_prefix_length_le hv h1 ?_
  rw [List.length_append, List.length_dropLast]
  omega

/-- The delimiter at the start is found there. -/
theorem FirstHit.pre_nil (h : FirstHit d ws pre post) (hp : d <+: ws) : pre = [] := by
  have := h.le_of_hit _ hp (by simpa using @matchAfter_delimiter d [] rfl)
  exact List.length_eq_zero_iff.1 (by omega)

/-- The delimiter at the start of a line is found, if it has not been found before. -/
theorem FirstHit.le_line (h : FirstHit d ws pre post) (hlf : lf ∉ d) {us post' : Bytes}
    (hu : ws = us ++ lf :: (d ++ post')) : pre.length ≤ us.length + 1 := by
  have h1 : matchAfter d (us ++ [lf] ++ d) = d.length :=
    matchAfter_delimiter (matchAfter_reset hlf (by decide))
  have h2 := h.le_of_hit (us ++ [lf] ++ d) ⟨post', by rw [hu]; simp⟩ h1
  simp only [List.length_append, List.length_cons, List.length_nil] at h2
  omega

theorem extracted_prefix (n : ℕ) (xs : Bytes) : extracted n xs <+: xs := by
  unfold extracted
  split_ifs
  · exact List.prefix_refl xs
  · exact List.take_prefix _ _

/-- From a ring that wrapped, the line before the delimiter is written without its end. -/
theorem extracted_long {us : Bytes} {e : UInt8} (hn : 256 ≤ us.length + 1 + d.length)
    (hd : d.length < 200) : extracted d.length (us ++ [e] ++ d) = stripCr us := by
  obtain ⟨vs, g, rfl⟩ : ∃ vs g, us = vs ++ [g] := by
    rcases List.eq_nil_or_concat us with rfl | ⟨vs, g, rfl⟩
    · simp only [List.length_nil] at hn
      omega
    · exact ⟨vs, g, by simp⟩
  have htotal : (vs ++ [g] ++ [e] ++ d).length = vs.length + 2 + d.length := by
    simp only [List.length_append, List.length_cons, List.length_nil]
  have hget : (vs ++ [g] ++ [e] ++ d).getD (vs.length + 2 + d.length - d.length - 2) 0 = g := by
    rw [show vs.length + 2 + d.length - d.length - 2 = vs.length by omega]
    simp
  simp only [List.length_append, List.length_cons, List.length_nil] at hn
  rw [extracted, if_neg (by omega), cutLength, htotal, hget, stripCr]
  simp only [List.getLast?_append, List.getLast?_singleton, Option.some_or, Option.some.injEq,
    List.dropLast_concat]
  split_ifs
  · rw [show vs.length + 2 + d.length - (d.length + 2) = vs.length by omega]
    simp
  · rw [show vs.length + 2 + d.length - (d.length + 1) = (vs ++ [g]).length by simp; omega,
      List.append_assoc (vs ++ [g]), List.take_left]

/-- A delimiter found within a line stands before the end of that line. -/
theorem FirstHit.prefix_line (h : FirstHit d ws pre post) (hlf : lf ∉ d) {us post' : Bytes}
    (hu : ws = us ++ lf :: (d ++ post')) (hle : pre.length ≤ us.length) : pre ++ d <+: us := by
  have h1 : pre ++ d <+: ws := ⟨post, h.split.symm⟩
  rcases Nat.lt_or_ge us.length (pre ++ d).length with hlt | hge
  · have h2 : us ++ [lf] <+: pre ++ d :=
      List.prefix_of_prefix_length_le ⟨d ++ post', by rw [hu]; simp⟩ h1 (by simpa using hlt)
    obtain ⟨t, ht⟩ := h2
    have h3 := congrArg (List.drop pre.length) ht
    rw [List.append_assoc, List.drop_append_of_le_length hle, List.drop_left] at h3
    exact absurd (by rw [← h3]; simp) hlf
  · exact List.prefix_of_prefix_length_le h1 ⟨lf :: (d ++ post'), hu.symm⟩ hge

theorem prefix_stripCr {us vs : Bytes} (h : vs <+: us) (hcr : vs.getLast? ≠ some cr) :
    vs <+: stripCr us := by
  unfold stripCr
  split_ifs with hlast
  · obtain ⟨zs, rfl⟩ := List.getLast?_eq_some_iff.1 hlast
    rcases List.prefix_concat_iff.1 h with rfl | h
    · exact absurd hlast hcr
    · simpa using h
  · exact h

/-- **When the bytes written are content of the part**: when they filled the ring, or when the
delimiter was found in the middle of a line. -/
theorem FirstHit.extracted_prefix_iff (h : FirstHit d ws pre post) (hd : d ≠ [])
    (hcr : cr ∉ d) (hlf : lf ∉ d) (hlen : d.length < 200) :
    extracted d.length (pre ++ d) <+: contentOf d ws ↔
      256 ≤ pre.length + d.length ∨ (pre ≠ [] ∧ pre.getLast? ≠ some lf) := by
  by_cases hstart : d <+: ws
  · -- the part is empty, and the delimiter is written
    obtain rfl := h.pre_nil hstart
    have hext : extracted d.length ([] ++ d) = d := if_pos (by simp; omega)
    rw [contentOf, if_pos (List.isPrefixOf_iff_prefix.2 hstart), hext]
    simp only [List.prefix_nil, hd, List.length_nil, zero_add, ne_eq, not_true_eq_false, false_and,
      or_false, false_iff, not_le]
    omega
  have hpre : pre ≠ [] := by
    rintro rfl
    exact hstart ⟨post, h.split.symm⟩
  obtain ⟨us', e, rfl⟩ : ∃ us' e, pre = us' ++ [e] := by
    rcases List.eq_nil_or_concat pre with rfl | ⟨vs, g, rfl⟩
    · exact absurd rfl hpre
    · exact ⟨vs, g, by simp⟩
  have hext := extracted_prefix d.length (us' ++ [e] ++ d)
  rw [contentOf, if_neg fun hc => hstart (List.isPrefixOf_iff_prefix.1 hc)]
  -- a line feed before the delimiter would make it the start of a line
  have hline : e = lf → ws = us' ++ lf :: (d ++ post) := by
    rintro rfl
    rw [h.split]
    simp
  cases hb : beforeLine d ws with
  | none =>
    have he : e ≠ lf := fun he => beforeLine_eq_none hb us' post (hline he)
    exact iff_of_true (hext.trans ⟨post, h.split.symm⟩) (Or.inr ⟨hpre, by simpa using he⟩)
  | some us =>
    obtain ⟨post', hu, hmin⟩ := beforeLine_eq_some hb
    dsimp only
    rcases Nat.lt_or_ge us.length (us' ++ [e]).length with hlt | hge
    · -- the delimiter is found where the line starts
      have hle := h.le_line hlf hu
      have heq : us' ++ [e] = us ++ [lf] := by
        have h1 : us' ++ [e] <+: ws := ⟨d ++ post, by rw [h.split]; simp⟩
        have h2 : us ++ [lf] <+: ws := ⟨d ++ post', by rw [hu]; simp⟩
        exact (List.prefix_of_prefix_length_le h1 h2 (by simpa using hle)).eq_of_length
          (by simp at hle hlt ⊢; omega)
      obtain ⟨rfl, he⟩ := List.append_inj heq (by simp at hle hlt; omega)
      obtain rfl : e = lf := by simpa using he
      simp only [List.getLast?_append, List.getLast?_singleton, Option.some_or, ne_eq,
        not_true_eq_false, and_false, or_false]
      constructor
      · intro hpref
        by_contra hshort
        have hall : extracted d.length (us' ++ [lf] ++ d) = us' ++ [lf] ++ d :=
          if_pos (by rw [List.length_append]; omega)
        rw [hall] at hpref
        have h1 := hpref.length_le
        have h2 : (stripCr us').length ≤ us'.length := by
          unfold stripCr
          split_ifs <;> simp
        simp only [List.length_append, List.length_cons, List.length_nil] at h1
        omega
      · intro hlong
        rw [extracted_long (by simpa using hlong) hlen]
    · -- the delimiter is found within a line
      have he : e ≠ lf := fun he => by
        have := hmin us' post (hline he)
        simp at hge
        omega
      refine iff_of_true ?_ (Or.inr ⟨hpre, by simpa using he⟩)
      refine hext.trans (prefix_stripCr (h.prefix_line hlf hu hge) fun hlast => hcr ?_)
      rw [List.getLast?_append_of_ne_nil _ hd] at hlast
      exact List.mem_of_getLast? hlast

end Hit

/-! ### The status -/

/-- What `HTTP_INPUT_READY` should mean for a request `xs` with the result `res`: it was a `POST`
whose body started with the boundary marker, `test_part_header` located a part on its name and its
file name, and the output file holds a prefix of the content of that part. -/
def Sound (env : Env) (a : Args) (xs : Bytes) (res : Result) : Prop :=
  ∃ buf ys w l zs disp ws, line xs = some (buf, ys) ∧ (str "POST").isPrefixOf buf = true ∧
    announced env a xs = .ret (.inr w) ∧ line w.body = some (l, zs) ∧
    isMarker w.boundary l = true ∧ FindsPart w.boundary zs disp ws ∧
    (.name ∈ matchedParams disp ∧ .file ∈ matchedParams disp) ∧
    res.written <+: contentOf w.delimiter ws

/-- The requests for which the status does mean this: the body starts with the boundary marker, the
part is accepted on two different parameters, and from the start of its content through the delimiter
there are at least 256 bytes, or the delimiter is found in the middle of a line. -/
def Careful (w : Announced) : Prop :=
  ∃ l zs disp ws pre post, line w.body = some (l, zs) ∧ isMarker w.boundary l = true ∧
    FindsPart w.boundary zs disp ws ∧ (matchedParams disp).Nodup ∧
    FirstHit w.delimiter ws pre post ∧
    (256 ≤ pre.length + w.delimiter.length ∨ (pre ≠ [] ∧ pre.getLast? ≠ some lf))

theorem FirstHit.unique {d ws pre post pre' post' : Bytes} (h : FirstHit d ws pre post)
    (h' : FirstHit d ws pre' post') : pre = pre' := by
  have h1 := h.le_of_hit (pre' ++ d) ⟨post', h'.split.symm⟩ h'.hit
  have h2 := h'.le_of_hit (pre ++ d) ⟨post, h.split.symm⟩ h.hit
  rw [List.length_append] at h1 h2
  have h3 : pre ++ (d ++ post) = pre' ++ (d ++ post') := by
    rw [← List.append_assoc, ← List.append_assoc, ← h.split, ← h'.split]
  exact (List.append_inj h3 (by omega)).1

theorem Announced.Sane.delimiter {w : Announced} (h : w.Sane) :
    w.delimiter ≠ [] ∧ cr ∉ w.delimiter ∧ lf ∉ w.delimiter ∧ w.delimiter.length < 200 := by
  have hcr : cr ∉ w.boundary := fun hc => by simpa [isBlank] using h.fit.blank _ hc
  have hlf : lf ∉ w.boundary := fun hc => by simpa [isBlank] using h.fit.blank _ hc
  have := h.fit.short
  refine ⟨by simp [Announced.delimiter], ?_, ?_, ?_⟩
  · simpa [Announced.delimiter, show cr ≠ 45 by decide] using hcr
  · simpa [Announced.delimiter, show lf ≠ 45 by decide] using hlf
  · simp only [Announced.delimiter, List.length_cons]
    omega

/-- A found delimiter has just been read. -/
theorem Finds.firstHit {b : Bytes} {r r' : Reader} {ys xs' : Bytes} {c : UInt8} {rb : Ring}
    (h : Finds b r ys c xs' rb r') :
    ∃ pre, ys ++ [c] = pre ++ (45 :: 45 :: b) ∧
      FirstHit (45 :: 45 :: b) (ys ++ c :: xs') pre xs' := by
  obtain ⟨pre, hpre⟩ := matchAfter_found (by simp) h.notYet h.hit
  refine ⟨pre, hpre.symm, ⟨?_, ?_, by rw [hpre]; exact h.hit⟩⟩
  · rw [hpre]
    simp
  · have hlast := congrArg List.dropLast hpre
    rw [List.dropLast_concat, List.dropLast_append_of_ne_nil (by simp)] at hlast
    rw [hlast]
    exact h.notYet

/-- Where the part was located, with no empty call up to its content, the result is what was read up to
the delimiter. -/
theorem ready_written {env : Env} {a : Args} {s : Schedule} {xs : Bytes} {res : Result}
    {w : Announced} {l zs disp ws : Bytes} (hs : Positive s)
    (hr : InHeader 0 s xs.length a.reader xs) (hret : Returns env a res)
    (hready : res.status = .ready) (hw : announced env a xs = .ret (.inr w))
    (hl : line w.body = some (l, zs)) (hm : isMarker w.boundary l = true)
    (hf : FindsPart w.boundary zs disp ws)
    (hd : DeliversTo ws.length xs.length s w.rest w.len) :
    ∃ pre post, FirstHit w.delimiter ws pre post ∧
      res.written = extracted w.delimiter.length (pre ++ w.delimiter) := by
  cases course env hs hr with
  | badHeader h _ => cases hw.symm.trans h
  | answered h _ => cases hw.symm.trans h
  | badPart _ _ run => cases run.unique hret
  | refused _ _ hst run =>
    cases run.unique hret
    rw [hready] at hst
    simp at hst
  | missed _ _ _ _ _ _ run =>
    cases run.unique hret
    cases hready
  | ready he hloc ho hb _ hfinds _ run =>
    obtain rfl := Sum.inr.inj (Exec.ret.inj (hw.symm.trans he.header))
    obtain ⟨r₁, hr₁, h1⟩ := (Located.part hl hm hf).run env a (reads_unbroken ws.length)
      (he.starts.unbroken he.sane hd) (fun _ h => h) ho
    obtain rfl := Sum.inr.inj (Exec.ret.inj (h1.unique hloc))
    obtain ⟨pre, hpre, hhit⟩ := hfinds.firstHit
    rw [← hb.bytes.trans hr₁.bytes.symm] at *
    cases run.unique hret
    exact ⟨pre, _, hhit, by rw [hpre]; rfl⟩
  | hangs _ _ _ _ run => cases run.unique hret

/-- No call of `local_read` comes back empty before the content of the part that is located: the `read()`s
of the body deliver 1024 bytes each, or all up to there. -/
def UnbrokenToContent (env : Env) (a : Args) (s : Schedule) (xs : Bytes) : Prop :=
  ∀ w l zs disp ws, announced env a xs = .ret (.inr w) → line w.body = some (l, zs) →
    FindsPart w.boundary zs disp ws → DeliversTo ws.length xs.length s w.rest w.len

/-- **`HTTP_INPUT_READY` means what it should exactly for the careful requests**, as long as no call of
`local_read` comes back empty before the content of the part. -/
theorem ready_sound_iff_careful (env : Env) (xs : Bytes) (s : Schedule) (key realm : Option Bytes)
    (outfile : Bytes) (res : Result) (hs : Positive s)
    (hret : Returns env (Args.start xs s key realm outfile) res) (hready : res.status = .ready)
    (hunbroken : UnbrokenToContent env (Args.start xs s key realm outfile) s xs) :
    Sound env (Args.start xs s key realm outfile) xs res ↔
      ∃ w, announced env (Args.start xs s key realm outfile) xs = .ret (.inr w) ∧ Careful w := by
  have hr : InHeader 0 s xs.length (Args.start xs s key realm outfile).reader xs :=
    inHeader_zero hs xs
  constructor
  · rintro ⟨-, -, w, l, zs, disp, ws, -, -, hw, hl, hm, hf, hparams, hpref⟩
    obtain ⟨-, -, -, -, -, -, -, -, -, -, hsane⟩ := announced_upload hw
    obtain ⟨hd, hcr, hlf, hlen⟩ := hsane.delimiter
    obtain ⟨pre, post, hhit, hwr⟩ := ready_written hs hr hret hready hw hl hm hf
      (hunbroken w l zs disp ws hw hl hf)
    rw [hwr] at hpref
    exact ⟨w, hw, l, zs, disp, ws, pre, post, hl, hm, hf,
      (matchedParams_iff hf.disposition).1 hparams, hhit,
      (hhit.extracted_prefix_iff hd hcr hlf hlen).1 hpref⟩
  · rintro ⟨w, hw, l, zs, disp, ws, pre, post, hl, hm, hf, hnodup, hhit, hlong⟩
    obtain ⟨buf, ys, -, -, -, hbuf, hpost, -, -, -, hsane⟩ := announced_upload hw
    obtain ⟨hd, hcr, hlf, hlen⟩ := hsane.delimiter
    obtain ⟨pre', post', hhit', hwr⟩ := ready_written hs hr hret hready hw hl hm hf
      (hunbroken w l zs disp ws hw hl hf)
    obtain rfl := hhit.unique hhit'
    refine ⟨buf, ys, w, l, zs, disp, ws, hbuf, hpost, hw, hl, hm, hf,
      (matchedParams_iff hf.disposition).2 hnodup, ?_⟩
    rw [hwr]
    exact (hhit.extracted_prefix_iff hd hcr hlf hlen).2 hlong

/-- What the upload of 300 bytes announces. -/
theorem sampleUpload_announced {s : Schedule} {outfile : Bytes} :
    announced lp64 (Args.start (sampleUpload.request ++ []) s none none outfile)
      (sampleUpload.request ++ []) =
      .ret (.inr ⟨sampleUpload.boundary, sampleUpload.body.length, sampleUpload.body ++ []⟩) :=
  announced_request sampleUpload lp64 [] rfl

/-- The first `read()` of this body may leave out its last three bytes. -/
theorem sampleUpload_delivers {m : ℕ} (hm : 3 ≤ m) : DeliversTo m
    (sampleUpload.request ++ []).length tardy (sampleUpload.body ++ []) sampleUpload.body.length := by
  have hlen : sampleUpload.body.length = 379 := sampleForm_body_length (str "x") 300 379
  intro i hi
  refine ⟨_, rfl, ?_⟩
  rw [List.append_nil, List.take_length, hlen] at hi ⊢
  omega

/-- An upload of 300 bytes, where the first `read()` of the body leaves out the last three bytes. -/
theorem ready_sound_iff_careful_tardy :
    Sound lp64 (Args.start (sampleUpload.request ++ []) tardy none none (str "/dev/md0"))
        (sampleUpload.request ++ []) ⟨.ready, sampleUpload.payload.length, sampleUpload.payload, some .ok⟩ ↔
      ∃ w, announced lp64 (Args.start (sampleUpload.request ++ []) tardy none none (str "/dev/md0"))
        (sampleUpload.request ++ []) = .ret (.inr w) ∧ Careful w := by
  refine ready_sound_iff_careful lp64 (sampleUpload.request ++ []) tardy none none (str "/dev/md0") _
    tardy_positive (sampleUpload.returns_ready lp64 tardy_positive (sampleUpload_delivers (by decide)) rfl
      (Or.inl rfl)) rfl fun w l zs disp ws hw hl hf => ?_
  obtain rfl := Sum.inr.inj (Exec.ret.inj (sampleUpload_announced.symm.trans hw))
  -- the part that is located is the one of the upload
  obtain ⟨zs', hline, hpart⟩ := findsPart_body sampleUpload
  have hbody : (⟨sampleUpload.boundary, sampleUpload.body.length, sampleUpload.body ++ []⟩ :
      Announced).body = sampleUpload.body := by simp [Announced.body]
  obtain ⟨-, rfl⟩ := Prod.mk.inj (Option.some.inj (hline.symm.trans (hbody ▸ hl)))
  obtain ⟨-, rfl⟩ := hpart.unique hf
  refine sampleUpload_delivers ?_
  rw [Form.content, List.length_append, List.length_append]
  exact le_trans (by decide) (Nat.le_add_left _ _)

/-- A body without form data: no boundary marker, no part header. -/
def noFormBody : Bytes := str "hello\r\n--x--\r\n"

/-- A request that announces form data and does not send any. -/
def noFormRequest : Bytes :=
  str "POST / HTTP/1.1\r\nContent-Type: multipart/form-data; boundary=x\r\n" ++
    str "Content-Length: 14\r\n\r\n" ++ noFormBody

theorem line_noFormBody : line (⟨str "x", 14, noFormBody⟩ : Announced).body =
    some (str "hello", str "--" ++ 120 :: str "--\r\n") := by decide +kernel

/-- Once its header is accepted, the request without form data is `HTTP_INPUT_READY`. -/
theorem noFormRequest_returns {env : Env} {file : Bytes}
    (hw : announced env (Args.start noFormRequest eager none none file) noFormRequest =
      .ret (.inr ⟨str "x", 14, noFormBody⟩)) (ho : env.opens file = true) :
    Returns env (Args.start noFormRequest eager none none file)
      ⟨.ready, 3, str "--x", some .ok⟩ := by
  obtain ⟨r, he⟩ := enters_of_announced eager_full.positive hw
  have hfull := he.starts.unbroken he.sane (eager_full.deliversTo 0 _ _ _)
  have hle : ∀ zs ws : Bytes, zs.length ≤ 0 → zs.length ≤ ws.length := fun zs ws hz => hz.trans (Nat.zero_le _)
  obtain ⟨r₁, h1, h2⟩ := (Located.noMarker (b := str "x") line_noFormBody (by decide)).run env
    (Args.start noFormRequest eager none none file) (reads_unbroken 0) hfull (fun zs => hle zs _) ho
  obtain ⟨rb, r₂, h3, -⟩ := search_found (b := str "x") (reads_unbroken 0)
    (fun _ _ h => h.toAtBody) h1 (notYet_of_absent (by decide) (by decide)) (by decide) fun zs => hle zs _
  exact he.returns_ready eager_full.positive (inHeader_zero eager_full.positive _)
    h2 h1.toAtBody h3 (by decide +kernel)

/-- A request without form data is `HTTP_INPUT_READY` all the same. -/
theorem noFormRequest_ready_not_sound :
    Returns lp64 (Args.start noFormRequest eager none none [])
        ⟨.ready, 3, str "--x", some .ok⟩ ∧
      ¬ Sound lp64 (Args.start noFormRequest eager none none []) noFormRequest
        ⟨.ready, 3, str "--x", some .ok⟩ := by
  have hw : announced lp64 (Args.start noFormRequest eager none none []) noFormRequest =
      .ret (.inr ⟨str "x", 14, noFormBody⟩) := by decide +kernel
  refine ⟨noFormRequest_returns hw rfl, ?_⟩
  rintro ⟨-, -, w, l, zs, disp, ws, -, -, hw', hl', hm, -⟩
  obtain rfl := Sum.inr.inj (Exec.ret.inj (hw.symm.trans hw'))
  obtain ⟨rfl, rfl⟩ := Prod.mk.inj (Option.some.inj (line_noFormBody.symm.trans hl'))
  revert hm
  decide

end ZRouter.Upgrade
