import ZRouter.Upgrade.Main

/-!
# The lines of the request header

`read_line` gives `http_input` at most 255 bytes of a line, up to its first NUL; what is left of the
line comes as a line of its own.  Two things depend on this: what `parse_boundary` and `parse_hash`
copy into the buffers of `http_input`, and where the header loop takes the header to be over.

* `Announces`: the text of a line from which a boundary is copied (`announces_iff`);
* `FitsFirst`: the first boundary announced fits the 71 bytes of `boundary`;
* `PassFits`, `HeaderFits`: what the header loop copies fits; `headerFits_iff`;
* `pieces`: what `read_line` makes of a line (`splits_line`); `Splits`: lines read one after another;
* `StopsAtBody`, `stopsAtBody_iff`: the header loop stops at the empty line behind the header.
-/

namespace ZRouter.Upgrade

/-! ### Boundaries in the text -/

/-- A line that announces the boundary `v`: the bytes up to the next white space, behind the first
`boundary=`. -/
def Announces (l v : Bytes) : Prop :=
  str "multipart/form-data" <:+: l ∧ v ≠ [] ∧ (∀ c ∈ v, isBlank c = false) ∧
    ∃ pre post, l = str "Content-Type:" ++ (pre ++ (str "boundary=" ++ (v ++ post))) ∧
      (∀ i < pre.length, ¬ str "boundary=" <+: (pre ++ (str "boundary=" ++ (v ++ post))).drop i) ∧
      ∀ c ∈ post.head?, isBlank c = true

/-- The first of the lines that announces a boundary announces one of at most 70 bytes. -/
def FitsFirst (ls : List Bytes) : Prop :=
  ∀ pre l post v, ls = pre ++ l :: post → (∀ k ∈ pre, ∀ w, ¬ Announces k w) → Announces l v →
    v.length ≤ 70

/-- In a line that fits the buffer the bound of `strnstr` makes no difference. -/
theorem strnstr_short {big little : Bytes} {n : ℕ} (h : big.length ≤ n) :
    strnstr big little n = strstr little big := by
  rw [strnstr, List.take_of_length_le h, List.drop_eq_nil_of_le h]
  simp

theorem takeWhile_blank {v post : Bytes} (hv : ∀ c ∈ v, isBlank c = false)
    (hp : ∀ c ∈ post.head?, isBlank c = true) : (strsep isBlank (v ++ post)).1 = v :=
  takeWhile_append_of_all (by simpa using hv) (by simpa using hp)

theorem strsep_append (p : UInt8 → Bool) (s : Bytes) :
    ∃ post, s = (strsep p s).1 ++ post ∧ ∀ c ∈ post.head?, p c = true := by
  refine ⟨s.dropWhile (!p ·), (List.takeWhile_append_dropWhile).symm, fun c hc => ?_⟩
  have := List.head?_dropWhile_not (fun c => !p c) s
  rw [Option.mem_def.1 hc] at this
  simpa using this

/-- `parse_boundary` copies what the line announces. -/
theorem announces_iff {l v : Bytes} (hl : l.length ≤ 255) :
    Announces l v ↔ (str "Content-Type:").isPrefixOf l = true ∧ parseBoundary l = some v := by
  have hlen : (l.drop 13).length ≤ 243 := by
    rw [List.length_drop]
    omega
  constructor
  · rintro ⟨hform, hne, hblank, pre, post, hline, hfirst, hpost⟩
    have hdrop : l.drop 13 = pre ++ (str "boundary=" ++ (v ++ post)) := by
      rw [hline]
      exact List.drop_left' (by decide)
    have hfind : strnstr (l.drop 13) (str "boundary=") 243 = some (str "boundary=" ++ (v ++ post)) := by
      rw [strnstr_short hlen, hdrop, strstr_eq_some]
      exact ⟨pre, rfl, List.prefix_append _ _, hfirst⟩
    have htoken : (strsep isBlank ((str "boundary=" ++ (v ++ post)).drop 9)).1 = v := by
      rw [show (str "boundary=" ++ (v ++ post)).drop 9 = v ++ post from
        List.drop_left' (by decide)]
      exact takeWhile_blank hblank hpost
    have hpos := List.length_pos_iff.2 hne
    refine ⟨hline ▸ isPrefixOf_append _ _, ?_⟩
    simp only [parseBoundary, hfind, if_neg (strstr_ne_none.2 hform), htoken,
      if_neg (by omega : ¬ v.length < 1)]
  · rintro ⟨hct, hparse⟩
    obtain ⟨t, rfl⟩ := List.isPrefixOf_iff_prefix.1 hct
    have hdrop : (str "Content-Type:" ++ t).drop 13 = t := List.drop_left' (by decide)
    have hblank := parseBoundary_blank hparse
    rw [parseBoundary, strnstr_short hlen, hdrop] at hparse
    split at hparse
    · cases hparse
    · rename_i p hp
      obtain ⟨pre, rfl, ⟨q, rfl⟩, hfirst⟩ := strstr_eq_some.1 hp
      have hq : (str "boundary=" ++ q).drop 9 = q := List.drop_left' (by decide)
      rw [hq] at hparse
      dsimp only at hparse
      split_ifs at hparse with hform hpos
      obtain rfl := Option.some.inj hparse
      obtain ⟨post, hpost, hhead⟩ := strsep_append isBlank q
      refine ⟨strstr_ne_none.1 hform, fun hnil => hpos (by rw [hnil]; exact Nat.one_pos), hblank,
        pre, post, ?_, ?_, hhead⟩
      · rw [← hpost]
      · rw [← hpost]
        exact hfirst

/-! ### Lines that `read_line` can return -/

theorem lineFrom_length_le {n : ℕ} {xs acc l ys : Bytes} (hn : acc.length + n ≤ 256)
    (h : lineFrom n xs acc = some (l, ys)) : l.length ≤ 255 := by
  induction n generalizing xs acc with
  | zero =>
    obtain ⟨rfl, -⟩ := Prod.mk.inj (Option.some.inj h)
    exact List.length_take_le _ _
  | succ n ih =>
    cases xs with
    | nil => cases h
    | cons c xs =>
      rw [lineFrom] at h
      split_ifs at h
      · exact ih (by simp; omega) h
      · obtain ⟨rfl, -⟩ := Prod.mk.inj (Option.some.inj h)
        omega
      · exact ih (by simp; omega) h

/-- A line fits its buffer. -/
theorem line_length_le {xs l ys : Bytes} (h : line xs = some (l, ys)) : l.length ≤ 255 := by
  obtain ⟨l', h1, rfl⟩ := line_eq_some h
  exact (List.takeWhile_prefix _).length_le.trans (lineFrom_length_le (by simp) h1)

/-- The header phase for any results of `read()`. -/
structure AnyHeader (r : Reader) (xs : Bytes) : Prop where
  off : r.enableCounter = false
  stream : r.fd.stream = xs

theorem reads_anyHeader : Reads AnyHeader fun _ => True := by
  intro r xs h
  have hread : ∀ bs fd, r.fd.read 1 = (bs, fd) → (∃ c xs', xs = c :: xs' ∧ bs = some [c] ∧
      fd.stream = xs') ∨ ((bs = none ∨ bs = some []) ∧ fd.stream = xs) := by
    intro bs fd hfd
    unfold Fd.read at hfd
    split at hfd
    · rename_i n hn
      obtain ⟨rfl, rfl⟩ := Prod.mk.inj hfd
      rw [h.stream]
      rcases Nat.eq_zero_or_pos n with rfl | hpos
      · exact Or.inr ⟨Or.inr rfl, rfl⟩
      · rw [Nat.min_eq_right hpos]
        cases xs with
        | nil => exact Or.inr ⟨Or.inr rfl, rfl⟩
        | cons c xs => exact Or.inl ⟨c, xs, rfl, rfl, rfl⟩
    · obtain ⟨rfl, rfl⟩ := Prod.mk.inj hfd
      exact Or.inr ⟨Or.inl rfl, h.stream⟩
  have hlocal : ∀ bs fd, r.fd.read 1 = (bs, fd) →
      localRead r = (bs.bind List.head?, { r with fd := fd }) := by
    intro bs fd hfd
    rw [localRead, h.off, hfd]
    rcases bs with _ | _ | ⟨c, cs⟩ <;> rfl
  rcases hfd : r.fd.read 1 with ⟨bs, fd⟩
  have hlocal := hlocal bs fd hfd
  rcases hread bs fd hfd with ⟨c, xs', rfl, rfl, hs⟩ | ⟨rfl | rfl, hs⟩
  · exact Or.inl ⟨c, xs', _, rfl, hlocal, h.off, hs⟩
  · exact Or.inr ⟨trivial, _, hlocal, h.off, hs⟩
  · exact Or.inr ⟨trivial, _, hlocal, h.off, hs⟩

/-! ### What is copied -/

/-- The two methods that `http_input` accepts. -/
def isMethod (buf : Bytes) : Bool := (str "GET").isPrefixOf buf || (str "POST").isPrefixOf buf

/-- What a pass of the header loop copies from the line `buf` fits its buffer, and the two pointers
stay in the line. -/
structure PassFits (h : Headers) (buf : Bytes) : Prop where
  line : buf.length < 256
  boundary : h.boundary = [] → (str "Content-Type:").isPrefixOf buf = true →
    ∀ b, parseBoundary buf = some b → b.length ≤ 70
  boundaryp : (str "Content-Type:").isPrefixOf buf = true →
    ∀ p, strnstr (buf.drop 13) (str "boundary=") 243 = some p → 9 ≤ p.length ∧ p <:+ buf
  hash : h.hash = [] → (str "Authorization:").isPrefixOf buf = true →
    ∀ t, parseHash buf = some t → t.length ≤ 255
  hashp : (str "Authorization:").isPrefixOf buf = true →
    ∀ p, strnstr (buf.drop 14) (str "Basic") 242 = some p → 5 ≤ p.length ∧ p <:+ buf

/-- A state of the header loop in which another line is read. -/
def HeaderReaches (ulongMax : ℕ) : Headers × Reader → Headers × Reader → Prop :=
  Relation.ReflTransGen fun s s' => headerPass ulongMax s = .ret (.inl s')

/-- Whatever the results of `read()`, all that the header loop copies from the request fits. -/
def HeaderFits (ulongMax : ℕ) (xs : Bytes) : Prop :=
  ∀ (s : Schedule) (buf₀ : Bytes) (r₁ : Reader), readLine (Reader.zero ⟨xs, s, 0⟩) = (some buf₀, r₁) →
    isMethod buf₀ = true → ∀ (h : Headers) (r : Reader) (buf : Bytes) (r' : Reader),
      HeaderReaches ulongMax (⟨[], []⟩, r₁) (h, r) → readLine r = (some buf, r') → PassFits h buf

/-- The lines of a request that the header loop goes through, up to the first empty one. -/
def requestLines (xs : Bytes) : List Bytes :=
  match line xs with
  | none => []
  | some (l, ys) => if isMethod l then headerLines xs.length ys else []

theorem strnstr_inside {buf little p : Bytes} {k n : ℕ} (hl : buf.length ≤ 255) (hn : 255 - k ≤ n)
    (h : strnstr (buf.drop k) little n = some p) : little.length ≤ p.length ∧ p <:+ buf := by
  rw [strnstr_short (by rw [List.length_drop]; omega)] at h
  obtain ⟨pre, hpre, hp, -⟩ := strstr_eq_some.1 h
  exact ⟨hp.length_le, (hpre ▸ List.suffix_append pre p).trans (List.drop_suffix k buf)⟩

theorem parseHash_length_le {buf t : Bytes} (h : parseHash buf = some t) : t.length ≤ buf.length := by
  unfold parseHash at h
  split at h
  · cases h
  · rename_i p hp
    dsimp only at h
    split_ifs at h
    obtain rfl := Option.some.inj h
    obtain ⟨s, hs, rfl⟩ := Option.map_eq_some_iff.1 hp
    obtain ⟨pre, hpre, -, -⟩ := strstr_eq_some.1 hs
    have hlen := congrArg List.length hpre
    have h1 : (strsep isBlank (skipSpaces ((s ++ (buf.drop 14).drop 242).drop 5))).1.length ≤
        ((s ++ (buf.drop 14).drop 242).drop 5).length :=
      (List.takeWhile_prefix _).length_le.trans (List.dropWhile_suffix _).length_le
    simp only [List.length_append, List.length_drop, List.length_take] at hlen h1 ⊢
    omega

/-- Only the boundary can be too long. -/
theorem passFits_iff {h : Headers} {buf : Bytes} (hl : buf.length ≤ 255) :
    PassFits h buf ↔ (h.boundary = [] → ∀ v, Announces buf v → v.length ≤ 70) := by
  constructor
  · intro hf hb v hv
    obtain ⟨hct, hp⟩ := (announces_iff hl).1 hv
    exact hf.boundary hb hct v hp
  · intro hf
    exact ⟨Nat.lt_succ_of_le hl, fun hb hct v hp => hf hb v ((announces_iff hl).2 ⟨hct, hp⟩),
      fun _ p hp => strnstr_inside hl (by norm_num) hp,
      fun _ _ t ht => (parseHash_length_le ht).trans hl,
      fun _ p hp => strnstr_inside hl (by norm_num) hp⟩

theorem FitsFirst.cons_of_not {l : Bytes} {ls : List Bytes} (hl : ∀ v, ¬ Announces l v) :
    FitsFirst (l :: ls) ↔ FitsFirst ls := by
  constructor
  · intro h pre k post v hls hpre hk
    exact h (l :: pre) k post v (by rw [hls, List.cons_append])
      (List.forall_mem_cons.2 ⟨hl, hpre⟩) hk
  · rintro h (_ | ⟨k, pre⟩) l' post v hls hpre hk
    · obtain ⟨rfl, rfl⟩ := List.cons_eq_cons.1 hls
      exact absurd hk (hl v)
    · obtain ⟨rfl, rfl⟩ := List.cons_eq_cons.1 hls
      exact h pre l' post v rfl (fun e he => hpre e (List.mem_cons_of_mem _ he)) hk

theorem FitsFirst.cons_iff {l v : Bytes} {ls : List Bytes} (hl : l.length ≤ 255)
    (hv : Announces l v) : FitsFirst (l :: ls) ↔ v.length ≤ 70 := by
  constructor
  · exact fun h => h [] l ls v rfl (by simp) hv
  · rintro h (_ | ⟨k, pre⟩) l' post w hls hpre hk
    · obtain ⟨rfl, rfl⟩ := List.cons_eq_cons.1 hls
      obtain rfl : v = w := Option.some.inj
        (((announces_iff hl).1 hv).2.symm.trans ((announces_iff hl).1 hk).2)
      exact h
    · obtain ⟨rfl, rfl⟩ := List.cons_eq_cons.1 hls
      exact absurd hv (hpre l (by simp) v)

/-- The boundary after a line. -/
theorem takeBoundary_cases {h : Headers} {buf : Bytes} (hl : buf.length ≤ 255) :
    (h.takeBoundary buf = .ret h.boundary ∧ (h.boundary = [] → ∀ v, ¬ Announces buf v)) ∨
    (h.boundary = [] ∧ ∃ v, Announces buf v ∧
      h.takeBoundary buf = if v.length ≤ 70 then .ret v else .undefined) := by
  unfold Headers.takeBoundary
  by_cases hc : h.boundary = [] ∧ (str "Content-Type:").isPrefixOf buf = true
  · rw [if_pos hc]
    cases hp : parseBoundary buf with
    | none =>
      refine Or.inl ⟨rfl, fun _ v hv => ?_⟩
      rw [((announces_iff hl).1 hv).2] at hp
      cases hp
    | some v => exact Or.inr ⟨hc.1, v, (announces_iff hl).2 ⟨hc.2, hp⟩, rfl⟩
  · rw [if_neg hc]
    exact Or.inl ⟨rfl, fun hb v hv => hc ⟨hb, ((announces_iff hl).1 hv).1⟩⟩

theorem not_announces_nil (v : Bytes) : ¬ Announces [] v := by
  rintro ⟨-, -, -, pre, post, h, -⟩
  exact absurd (congrArg List.length h) (by simp [str])

theorem headerLines_cons {n : ℕ} {zs l ys : Bytes} (hl : line zs = some (l, ys)) (hne : l ≠ []) :
    headerLines (n + 1) zs = l :: headerLines n ys := by
  simp only [headerLines, hl, if_neg hne]

theorem headerLines_eq_cons {n : ℕ} {zs l : Bytes} {ls : List Bytes}
    (h : headerLines n zs = l :: ls) :
    ∃ m ys, line zs = some (l, ys) ∧ l ≠ [] ∧ headerLines m ys = ls := by
  cases n with
  | zero => cases h
  | succ n =>
    rw [headerLines] at h
    split at h
    · cases h
    · rename_i buf ys hl
      split_ifs at h with hne
      obtain ⟨rfl, hls⟩ := List.cons_eq_cons.1 h
      exact ⟨n, ys, hl, hne, hls⟩

/-- A pass of the header loop that goes on has read a line that is not empty. -/
theorem headerPass_goes_on {ulongMax : ℕ} {h h' : Headers} {r r' : Reader} {zs : Bytes}
    (hr : AnyHeader r zs) (hp : headerPass ulongMax (h, r) = .ret (.inl (h', r'))) :
    ∃ buf zs', line zs = some (buf, zs') ∧ buf ≠ [] ∧ h.takeBoundary buf = .ret h'.boundary ∧
      AnyHeader r' zs' := by
  rcases readLine_reads reads_anyHeader hr with ⟨buf, zs', r₁, hl, h1, hr₁⟩ | ⟨_, r₁, h1, -⟩
  · simp only [headerPass, h1] at hp
    obtain ⟨b, hb, hp⟩ := Exec.bind_eq_ret hp
    split_ifs at hp with hbuf
    · cases hp
    · obtain ⟨rfl, rfl⟩ := Prod.mk.inj (Sum.inl.inj (Exec.ret.inj hp))
      exact ⟨buf, zs', hl, hbuf, hb, hr₁.off, hr₁.stream⟩
  · simp only [headerPass, h1] at hp
    cases hp

/-- What the header loop keeps while the boundary is not known: the lines to come are those of the
text, and the first boundary in them fits. -/
def BoundaryPending (s : Headers × Reader) : Prop :=
  ∃ zs n, AnyHeader s.2 zs ∧ zs.length ≤ n ∧ (s.1.boundary = [] → FitsFirst (headerLines n zs))

theorem boundaryPending_step {ulongMax : ℕ} {s s' : Headers × Reader} (hs : BoundaryPending s)
    (hp : headerPass ulongMax s = .ret (.inl s')) : BoundaryPending s' := by
  obtain ⟨h, r⟩ := s
  obtain ⟨h', r'⟩ := s'
  obtain ⟨zs, n, hr, hn, hfit⟩ := hs
  obtain ⟨buf, zs', hl, hne, hb, hr'⟩ := headerPass_goes_on hr hp
  have hlt := (line_suffix hl).2
  obtain ⟨n, rfl⟩ : ∃ m, n = m + 1 := ⟨n - 1, by omega⟩
  rw [headerLines_cons hl hne] at hfit
  refine ⟨zs', n, hr', by omega, fun hnil => ?_⟩
  rcases takeBoundary_cases (h := h) (line_length_le hl) with ⟨hsame, hnot⟩ | ⟨-, v, hv, htake⟩
  · rw [hsame, Exec.ret.injEq] at hb
    exact (FitsFirst.cons_of_not (hnot (hb.trans hnil))).1 (hfit (hb.trans hnil))
  · rw [htake] at hb
    split_ifs at hb
    exact absurd (Exec.ret.inj hb ▸ hnil) hv.2.1

theorem boundaryPending_run {ulongMax : ℕ} {s s' : Headers × Reader}
    (h : HeaderReaches ulongMax s s') (hs : BoundaryPending s) : BoundaryPending s' := by
  induction h with
  | refl => exact hs
  | tail _ hstep ih => exact boundaryPending_step ih hstep

/-- In a state that keeps `BoundaryPending` the next line fits. -/
theorem passFits_of_pending {h : Headers} {r r' : Reader} {buf : Bytes} (hs : BoundaryPending (h, r))
    (hr : readLine r = (some buf, r')) : PassFits h buf := by
  obtain ⟨zs, n, hr₀, hn, hfit⟩ := hs
  obtain ⟨l, ys, r₁, hl, h1, -⟩ | ⟨-, r₁, h1, -⟩ := readLine_reads reads_anyHeader hr₀
  · obtain ⟨hbuf, rfl⟩ := Prod.mk.inj (hr.symm.trans h1)
    obtain rfl := Option.some.inj hbuf
    refine (passFits_iff (line_length_le hl)).2 fun hb v hv => ?_
    have hne : buf ≠ [] := by
      rintro rfl
      exact not_announces_nil v hv
    have hlt := (line_suffix hl).2
    obtain ⟨n, rfl⟩ : ∃ m, n = m + 1 := ⟨n - 1, by omega⟩
    have hfirst := hfit hb
    rw [headerLines_cons hl hne] at hfirst
    exact (FitsFirst.cons_iff (line_length_le hl) hv).1 hfirst
  · cases hr.symm.trans h1

/-- The header loop gets to every line of the text in front of which no boundary was announced. -/
theorem headerReaches_line (ulongMax : ℕ) {s : Schedule} {k : ℕ} {l : Bytes} {pre post : List Bytes} :
    ∀ {n m : ℕ} {zs : Bytes} {h : Headers} {r : Reader}, InHeader m s k r zs → h.boundary = [] →
      headerLines n zs = pre ++ l :: post → (∀ e ∈ pre, ∀ w, ¬ Announces e w) →
      ∃ h' r' r'', HeaderReaches ulongMax (h, r) (h', r') ∧ h'.boundary = [] ∧
        readLine r' = (some l, r'') := by
  induction pre with
  | nil =>
    intro n m zs h r hr hb hls _
    obtain ⟨n, ys, hl, -, -⟩ := headerLines_eq_cons hls
    obtain ⟨r', h1, -⟩ := readLine_of_line (reads_header m s k) hr hl (by simp)
    exact ⟨h, r, r', Relation.ReflTransGen.refl, hb, h1⟩
  | cons e pre ih =>
    intro n m zs h r hr hb hls hpre
    obtain ⟨n, ys, hl, hne, hls⟩ := headerLines_eq_cons hls
    obtain ⟨r', hr', h1⟩ := headerPass_some ulongMax h hr hl
    obtain ⟨hno, hpre⟩ := List.forall_mem_cons.1 hpre
    have htake : h.takeBoundary e = .ret h.boundary := by
      rcases takeBoundary_cases (h := h) (line_length_le hl) with ⟨h2, -⟩ | ⟨-, v, hv, -⟩
      · exact h2
      · exact absurd hv (hno v)
    rw [htake, Exec.ret_bind, if_neg hne] at h1
    obtain ⟨h₂, r₂, r₃, h3, h4, h5⟩ := ih (h := ⟨h.boundary, h.takeHash e⟩) hr' hb hls hpre
    exact ⟨h₂, r₂, r₃, Relation.ReflTransGen.head h1 h3, h4, h5⟩

theorem HeaderFits.fitsFirst {ulongMax : ℕ} {xs : Bytes} (hfits : HeaderFits ulongMax xs) :
    FitsFirst (requestLines xs) := by
  unfold requestLines
  rcases hl : line xs with _ | ⟨buf₀, ys⟩
  · exact fun pre l post v h => absurd h (by simp)
  dsimp only
  split_ifs with hm
  · obtain ⟨r₁, h1, hr₁⟩ := readLine_of_line (reads_header 0 eager xs.length)
      (inHeader_zero eager_full.positive xs) hl (by simp)
    intro pre l post v hls hpre hv
    obtain ⟨h', r', r'', hreach, hb, hread⟩ := headerReaches_line ulongMax
      (h := ⟨[], []⟩) hr₁ rfl hls hpre
    have hpass := hfits eager buf₀ r₁ h1 hm h' r' l r'' hreach hread
    exact (passFits_iff (Nat.le_of_lt_succ hpass.line)).1 hpass hb v hv
  · exact fun pre l post v h => absurd h (by simp)

/-- **What the header loop copies fits its buffers exactly when the first boundary in the text has
at most 70 bytes.** -/
theorem headerFits_iff (ulongMax : ℕ) (xs : Bytes) :
    HeaderFits ulongMax xs ↔ FitsFirst (requestLines xs) := by
  refine ⟨HeaderFits.fitsFirst, fun hfit s buf₀ r₁ h1 hm h r buf r' hreach hread => ?_⟩
  have h0 : AnyHeader (Reader.zero ⟨xs, s, 0⟩) xs := ⟨rfl, rfl⟩
  obtain ⟨l, ys, r₂, hl, h2, hr₂⟩ | ⟨-, r₂, h2, -⟩ := readLine_reads reads_anyHeader h0
  · obtain ⟨hbuf, rfl⟩ := Prod.mk.inj (h1.symm.trans h2)
    obtain rfl := Option.some.inj hbuf
    simp only [requestLines, hl, hm, if_true] at hfit
    have hpend : BoundaryPending ((⟨[], []⟩ : Headers), r₁) :=
      ⟨ys, xs.length, hr₂, (line_suffix hl).2.le, fun _ => hfit⟩
    exact passFits_of_pending (boundaryPending_run hreach hpend) hread
  · cases h1.symm.trans h2

/-- A request whose boundary is one byte too long. -/
def longBoundaryRequest : Bytes :=
  str "POST / HTTP/1.1" ++ crlf ++ (contentType (List.replicate 71 120) ++ crlf ++ crlf)

theorem not_headerFits_longBoundary : ¬ ∀ ulongMax xs, HeaderFits ulongMax xs := by
  intro h
  have hlines : requestLines longBoundaryRequest = [contentType (List.replicate 71 120)] := by
    decide +kernel
  have hfit := (h 4294967295 longBoundaryRequest).fitsFirst
  rw [hlines] at hfit
  have hlen : (contentType (List.replicate 71 120)).length ≤ 255 := by decide +kernel
  have hv : Announces (contentType (List.replicate 71 120)) (List.replicate 71 120) :=
    (announces_iff hlen).2 ⟨by decide +kernel, by decide +kernel⟩
  have := hfit [] _ [] _ rfl (by simp) hv
  simp at this

/-! ### The pieces of a line -/

/-- What `read_line` makes of a line, one call after the other: its buffer takes 256 bytes, the last
of which becomes the terminator. -/
def pieces (l : Bytes) : List Bytes :=
  (List.range ((l.length + 1) / 256 + 1)).map fun i => cstr ((l.drop (256 * i)).take 255)

/-- The lines `ps` are read from `xs`, one after the other, which leaves `ys`. -/
inductive Splits : Bytes → List Bytes → Bytes → Prop
  | nil (xs : Bytes) : Splits xs [] xs
  | cons {xs p ys ps zs} (hp : line xs = some (p, ys)) (hps : Splits ys ps zs) :
      Splits xs (p :: ps) zs

theorem Splits.append {xs ys zs : Bytes} {ps qs : List Bytes} (h : Splits xs ps ys)
    (k : Splits ys qs zs) : Splits xs (ps ++ qs) zs := by
  induction h with
  | nil => exact k
  | cons hp _ ih => exact .cons hp (ih k)

theorem Splits.length_le {xs ys : Bytes} {ps : List Bytes} (h : Splits xs ps ys) :
    ys.length ≤ xs.length := by
  induction h with
  | nil => exact le_rfl
  | cons hp _ ih => exact ih.trans (line_suffix hp).2.le

/-- A line that fits is one piece. -/
theorem pieces_short {l : Bytes} (h : l.length < 255) : pieces l = [cstr l] := by
  have hdiv : (l.length + 1) / 256 = 0 := Nat.div_eq_of_lt (by omega)
  simp only [pieces, hdiv, zero_add, List.range_one, List.map_cons, List.map_nil, mul_zero,
    List.drop_zero, List.take_of_length_le h.le]

/-- The carriage return still fits, the line feed does not. -/
theorem pieces_full {l : Bytes} (h : l.length = 255) : pieces l = [cstr l, []] := by
  have hdrop : l.drop 256 = [] := List.drop_eq_nil_of_le (by omega)
  have htake : l.take 255 = l := List.take_of_length_le h.le
  simp only [pieces, h, show List.range ((255 + 1) / 256 + 1) = [0, 1] from rfl, List.map_cons,
    List.map_nil, mul_zero, mul_one, List.drop_zero, hdrop, htake, List.take_nil]
  rfl

/-- A longer line leaves the rest behind its first 256 bytes. -/
theorem pieces_long {l : Bytes} (h : 256 ≤ l.length) :
    pieces l = cstr (l.take 255) :: pieces (l.drop 256) := by
  have hdiv : (l.length + 1) / 256 = ((l.drop 256).length + 1) / 256 + 1 := by
    rw [List.length_drop]
    omega
  rw [pieces, hdiv, List.range_succ_eq_map, List.map_cons, List.map_map, mul_zero, List.drop_zero,
    pieces]
  congr 1
  apply List.map_congr_left
  intro i _
  simp only [Function.comp, List.drop_drop]
  congr 3
  omega

/-- A piece is empty where the line ends on the length of the buffer, or where a NUL comes first. -/
theorem nil_mem_pieces {l : Bytes} :
    [] ∈ pieces l ↔ l.length % 256 = 0 ∨ l.length % 256 = 255 ∨ ∃ i, l[256 * i]? = some 0 := by
  have hpiece : ∀ i, cstr ((l.drop (256 * i)).take 255) = [] ↔
      l.length ≤ 256 * i ∨ l[256 * i]? = some 0 := by
    intro i
    rw [← List.head?_drop]
    rcases hd : l.drop (256 * i) with _ | ⟨c, cs⟩
    · simp [cstr, List.drop_eq_nil_iff.1 hd]
    · have hlt : ¬ l.length ≤ 256 * i := fun hle => by simp [List.drop_eq_nil_of_le hle] at hd
      simp [cstr, List.takeWhile_cons, hlt]
  rw [pieces, List.mem_map]
  constructor
  · rintro ⟨i, hi, h⟩
    rw [List.mem_range] at hi
    rcases (hpiece i).1 h with hle | h0
    · rcases Nat.lt_or_ge l.length (256 * i) with hlt | hge
      · exact Or.inr (Or.inl (by omega))
      · exact Or.inl (by omega)
    · exact Or.inr (Or.inr ⟨i, h0⟩)
  · rintro (h | h | ⟨i, h⟩)
    · exact ⟨l.length / 256, List.mem_range.2 (by omega), (hpiece _).2 (Or.inl (by omega))⟩
    · exact ⟨l.length / 256 + 1, List.mem_range.2 (by omega), (hpiece _).2 (Or.inl (by omega))⟩
    · have hlt := (List.getElem?_eq_some_iff.1 h).1
      exact ⟨i, List.mem_range.2 (by omega), (hpiece i).2 (Or.inr h)⟩

/-- Bytes that hold no end of line are stored as they come. -/
theorem lineFrom_plain {l : Bytes} (hcr : cr ∉ l) (hlf : lf ∉ l) :
    ∀ n xs acc, lineFrom (l.length + n) (l ++ xs) acc = lineFrom n xs (acc ++ l) := by
  induction l with
  | nil => simp
  | cons c l ih =>
    intro n xs acc
    simp only [List.mem_cons, not_or] at hcr hlf
    rw [List.length_cons, show l.length + 1 + n = l.length + n + 1 by omega, List.cons_append,
      lineFrom, if_neg (Ne.symm hcr.1), if_neg (Ne.symm hlf.1), ih hcr.2 hlf.2]
    simp

/-- A line is read piece by piece. -/
theorem splits_line {l : Bytes} (hcr : cr ∉ l) (hlf : lf ∉ l) (xs : Bytes) :
    Splits (l ++ crlf ++ xs) (pieces l) xs := by
  induction hn : l.length using Nat.strong_induction_on generalizing l with
  | _ n ih =>
    subst hn
    rcases Nat.lt_or_ge l.length 255 with hlt | hge
    · rw [pieces_short hlt]
      exact .cons (line_short hcr hlf hlt xs) (.nil xs)
    rcases Nat.eq_or_lt_of_le hge with heq | hgt
    · have hline : line (l ++ crlf ++ xs) = some (cstr l, lf :: xs) := by
        have h := lineFrom_plain hcr hlf 1 (crlf ++ xs) []
        rw [← heq] at h
        rw [line, List.append_assoc, h]
        simp [crlf, lineFrom, heq]
      rw [pieces_full heq.symm]
      exact .cons hline (.cons (by simp [line, lineFrom, show lf ≠ cr by decide, cstr]) (.nil xs))
    · have hlen : (l.take 256).length = 256 := by
        rw [List.length_take]
        omega
      have hline : line (l ++ crlf ++ xs) = some (cstr (l.take 255), l.drop 256 ++ crlf ++ xs) := by
        have h := lineFrom_plain (fun h => hcr (List.mem_of_mem_take h))
          (fun h => hlf (List.mem_of_mem_take h)) 0 (l.drop 256 ++ crlf ++ xs) [] (l := l.take 256)
        rw [hlen] at h
        rw [line, show l ++ crlf ++ xs = l.take 256 ++ (l.drop 256 ++ crlf ++ xs) by
          simp [← List.append_assoc], h]
        simp [lineFrom, List.take_take]
      rw [pieces_long hgt]
      exact .cons hline (ih _ (by rw [List.length_drop]; omega)
        (fun h => hcr (List.mem_of_mem_drop h)) (fun h => hlf (List.mem_of_mem_drop h)) rfl)

theorem splits_block {ls : List Bytes} (hls : ∀ l ∈ ls, cr ∉ l ∧ lf ∉ l) (xs : Bytes) :
    Splits (block ls ++ xs) (ls.flatMap pieces) xs := by
  induction ls with
  | nil => exact .nil xs
  | cons l ls ih =>
    obtain ⟨hl, hls⟩ := List.forall_mem_cons.1 hls
    rw [show block (l :: ls) ++ xs = l ++ crlf ++ (block ls ++ xs) by simp [block],
      List.flatMap_cons]
    exact (splits_line hl.1 hl.2 _).append (ih hls)

/-! ### Where the header loop stops -/

/-- The request line and the header loop leave `body` to be read, and nothing counted. -/
def StopsAtBody (ulongMax : ℕ) (s : Schedule) (xs body : Bytes) : Prop :=
  ∃ buf r₁ h r₂, readLine (Reader.zero ⟨xs, s, 0⟩) = (some buf, r₁) ∧
    Exec.Eventually (fun f => readHeaders ulongMax f r₁) (.ret (some h, r₂)) ∧
    r₂.fd.stream = body ∧ r₂.counterValue = 0

/-- Lines that do not look empty to `read_line` anywhere, with a boundary that fits. -/
structure HeaderReadable (requestLine : Bytes) (headers : List Bytes) : Prop where
  lengths : ∀ l ∈ requestLine :: headers, l.length % 256 ≠ 0 ∧ l.length % 256 ≠ 255
  nul : ∀ l ∈ requestLine :: headers, ∀ i, l[256 * i]? ≠ some 0
  boundary : FitsFirst ((pieces requestLine).tail ++ headers.flatMap pieces)

section Stops

variable {ulongMax : ℕ} {xs ys : Bytes} {ps : List Bytes}

/-- An empty piece stops the loop in front of what comes after it. -/
theorem Splits.stops (hps : Splits xs ps ys) (hmem : [] ∈ ps) :
    ∀ {f n n' : ℕ} {h h' : Headers} {zs : Bytes},
      headerFrom ulongMax f h n xs = .ret (some (h', n', zs)) → ys.length ≤ zs.length := by
  induction hps with
  | nil => cases hmem
  | @cons xs p ys' ps ys hp hps ih =>
    intro f n n' h h' zs hf
    cases f with
    | zero => cases hf
    | succ f =>
      simp only [headerFrom, hp] at hf
      obtain ⟨b, -, hf⟩ := Exec.bind_eq_ret hf
      split_ifs at hf with hnil
      · cases hf
        exact hps.length_le
      · exact ih ((List.mem_cons.1 hmem).resolve_left (Ne.symm hnil)) hf

/-- A boundary that does not fit. -/
theorem Splits.overflows (hps : Splits xs ps ys) (hne : [] ∉ ps) (hfit : ¬ FitsFirst ps) :
    ∀ {f n : ℕ} {h : Headers}, h.boundary = [] → xs.length < f →
      headerFrom ulongMax f h n xs = .undefined := by
  induction hps with
  | nil => exact absurd (fun pre l post v h => absurd h (by simp)) hfit
  | @cons xs p ys' ps ys hp hps ih =>
    intro f n h hb hlen
    simp only [List.mem_cons, not_or] at hne
    have hlt := (line_suffix hp).2
    have hshort := line_length_le hp
    obtain ⟨f, rfl⟩ : ∃ m, f = m + 1 := ⟨f - 1, by omega⟩
    rcases takeBoundary_cases (h := h) hshort with ⟨htake, hnot⟩ | ⟨-, v, hv, htake⟩
    · rw [FitsFirst.cons_of_not (hnot hb)] at hfit
      simp only [headerFrom, hp, htake, Exec.ret_bind, if_neg (Ne.symm hne.1)]
      exact ih hne.2 hfit hb (by omega)
    · rw [FitsFirst.cons_iff hshort hv] at hfit
      simp only [headerFrom, hp, htake, if_neg hfit, Exec.undefined_bind]

/-- Pieces that are not empty, with a boundary that fits, are gone through. -/
theorem Splits.passes (hps : Splits xs ps ys) (hne : [] ∉ ps) :
    ∀ {f n : ℕ} {h : Headers}, (h.boundary = [] → FitsFirst ps) → xs.length < f →
      ∃ f' n' h', headerFrom ulongMax f h n xs = headerFrom ulongMax f' h' n' ys ∧ ys.length < f' := by
  induction hps with
  | nil => exact fun {f n h} _ hlen => ⟨f, n, h, rfl, hlen⟩
  | @cons xs p ys' ps ys hp hps ih =>
    intro f n h hfit hlen
    simp only [List.mem_cons, not_or] at hne
    have hlt := (line_suffix hp).2
    have hshort := line_length_le hp
    obtain ⟨f, rfl⟩ : ∃ m, f = m + 1 := ⟨f - 1, by omega⟩
    have hfrom : ∀ b, h.takeBoundary p = .ret b → headerFrom ulongMax (f + 1) h n xs =
        headerFrom ulongMax f ⟨b, h.takeHash p⟩ (takeLen ulongMax n p) ys' := fun b hb => by
      simp only [headerFrom, hp, hb, Exec.ret_bind, if_neg (Ne.symm hne.1)]
    rcases takeBoundary_cases (h := h) hshort with ⟨htake, hnot⟩ | ⟨hb, v, hv, htake⟩
    · rw [hfrom _ htake]
      refine ih hne.2 (fun hb => ?_) (by omega)
      exact (FitsFirst.cons_of_not (hnot hb)).1 (hfit hb)
    · rw [if_pos ((FitsFirst.cons_iff hshort hv).1 (hfit hb))] at htake
      rw [hfrom _ htake]
      exact ih hne.2 (fun hnil => absurd hnil hv.2.1) (by omega)

/-- The header loop over the pieces of the header. -/
theorem Splits.headerFrom_iff {body : Bytes} (hps : Splits xs ps (crlf ++ body)) {f : ℕ}
    (hf : xs.length < f) :
    (∃ h n, headerFrom ulongMax f ⟨[], []⟩ 0 xs = .ret (some (h, n, body))) ↔
      [] ∉ ps ∧ FitsFirst ps := by
  constructor
  · rintro ⟨h, n, hret⟩
    have hne : [] ∉ ps := fun hmem => by
      have := hps.stops hmem hret
      simp [crlf] at this
    refine ⟨hne, ?_⟩
    by_contra hfit
    cases hret.symm.trans (hps.overflows hne hfit rfl hf)
  · rintro ⟨hne, hfit⟩
    have hpass : ∃ f' n' h', headerFrom ulongMax f ⟨[], []⟩ 0 xs =
        headerFrom ulongMax f' h' n' (crlf ++ body) ∧ (crlf ++ body).length < f' :=
      hps.passes hne (fun _ => hfit) hf
    obtain ⟨f', n', h', hfrom, hlt⟩ := hpass
    obtain ⟨f', rfl⟩ : ∃ m, f' = m + 1 := ⟨f' - 1, by omega⟩
    have hb : h'.takeBoundary [] = .ret h'.boundary := by simp [Headers.takeBoundary, str]
    rw [hfrom]
    exact ⟨⟨h'.boundary, h'.takeHash []⟩, takeLen ulongMax n' [], by
      simp only [headerFrom, line_empty, hb, Exec.ret_bind, if_true]⟩

end Stops

/-- What the reader leaves behind is what `headerFrom` says. -/
theorem stopsAtBody_headerFrom {ulongMax : ℕ} {s : Schedule} (hs : Positive s) {xs buf ys body : Bytes}
    (hl : line xs = some (buf, ys)) :
    StopsAtBody ulongMax s xs body ↔
      ∃ h n, headerFrom ulongMax (ys.length + 1) ⟨[], []⟩ 0 ys = .ret (some (h, n, body)) := by
  obtain ⟨r₁, h1, hr₁⟩ := readLine_of_line (reads_header 0 s xs.length) (inHeader_zero hs xs) hl
    (by simp)
  have hrun := readHeaders_eventually ulongMax (h := ⟨[], []⟩) (ys.length + 1) (Nat.lt_succ_self _) hr₁
  constructor
  · rintro ⟨buf', r₁', h, r₂, h2, h3, h4, -⟩
    obtain ⟨-, rfl⟩ := Prod.mk.inj (h1.symm.trans h2)
    rcases hrun with ⟨-, r', h5⟩ | ⟨h', n', zs, r', h5, hr', h6⟩ | ⟨-, h5⟩
    · cases h3.unique h5
    · obtain ⟨-, rfl⟩ := Prod.mk.inj (Exec.ret.inj (h3.unique h6))
      rw [hr'.stream] at h4
      exact ⟨h', n', h4 ▸ h5⟩
    · cases h3.unique h5
  · rintro ⟨h, n, hret⟩
    rcases hrun with ⟨h5, -⟩ | ⟨h', n', zs, r', h5, hr', h6⟩ | ⟨h5, -⟩
    · cases hret.symm.trans h5
    · cases hret.symm.trans h5
      exact ⟨buf, r₁, h, r', h1, h6, hr'.stream, hr'.counter⟩
    · cases hret.symm.trans h5

/-- **The header loop stops at the body exactly when no line looks empty before the empty one and
the boundary fits.** -/
theorem stopsAtBody_iff {ulongMax : ℕ} {s : Schedule} (hs : Positive s) {requestLine : Bytes}
    {headers : List Bytes} (body : Bytes)
    (hm : str "GET" <+: requestLine ∨ str "POST" <+: requestLine)
    (hls : ∀ l ∈ requestLine :: headers, l ≠ [] ∧ cr ∉ l ∧ lf ∉ l) :
    StopsAtBody ulongMax s (requestLine ++ crlf ++ (block headers ++ (crlf ++ body))) body ↔
      HeaderReadable requestLine headers := by
  obtain ⟨⟨-, hcr, hlf⟩, hhs⟩ := List.forall_mem_cons.1 hls
  have hsplit := splits_line hcr hlf (block headers ++ (crlf ++ body))
  have hblock := splits_block (fun l hl => (hhs l hl).2) (crlf ++ body)
  rcases hpieces : pieces requestLine with _ | ⟨p, ps⟩
  · simp [pieces, List.range_succ_eq_map] at hpieces
  -- the first piece holds the method
  have hp : p ≠ [] := by
    have h0 : (pieces requestLine).head? = some (cstr (requestLine.take 255)) := by
      rw [pieces, List.range_succ_eq_map, List.map_cons, mul_zero, List.drop_zero]
      rfl
    rw [hpieces] at h0
    obtain rfl := Option.some.inj h0
    rcases hm with ⟨t, rfl⟩ | ⟨t, rfl⟩ <;> simp [str, cstr]
  rw [hpieces] at hsplit
  obtain ⟨ys, hl, hrest⟩ : ∃ ys, line (requestLine ++ crlf ++ (block headers ++ (crlf ++ body))) =
      some (p, ys) ∧ Splits ys ps (block headers ++ (crlf ++ body)) := by
    cases hsplit with
    | cons hp hps => exact ⟨_, hp, hps⟩
  have hmem : [] ∉ ps ++ headers.flatMap pieces ↔
      ∀ l ∈ requestLine :: headers, [] ∉ pieces l := by
    rw [List.forall_mem_cons, hpieces]
    simp [Ne.symm hp]
  rw [stopsAtBody_headerFrom hs hl, (hrest.append hblock).headerFrom_iff (Nat.lt_succ_self _), hmem]
  constructor
  · rintro ⟨hne, hfit⟩
    have hclean := fun l hl => nil_mem_pieces.not.1 (hne l hl)
    simp only [not_or, not_exists] at hclean
    exact ⟨fun l hl => ⟨(hclean l hl).1, (hclean l hl).2.1⟩, fun l hl => (hclean l hl).2.2,
      by rwa [hpieces]⟩
  · rintro ⟨hlen, hnul, hfit⟩
    rw [hpieces] at hfit
    refine ⟨fun l hl => nil_mem_pieces.not.2 ?_, hfit⟩
    simp only [not_or, not_exists]
    exact ⟨(hlen l hl).1, (hlen l hl).2, hnul l hl⟩

/-- A request with a header line of 300 bytes. -/
theorem stopsAtBody_iff_long :
    StopsAtBody 4294967295 eager
      (str "GET / HTTP/1.0" ++ crlf ++ (block [List.replicate 300 65] ++ (crlf ++ str "body")))
      (str "body") := by
  refine (stopsAtBody_iff eager_full.positive (str "body") (Or.inl (by decide)) ?_).2 ⟨?_, ?_, ?_⟩
  · simp only [List.forall_mem_cons]
    refine ⟨by decide, by decide +kernel, by simp⟩
  · decide +kernel
  · intro l hl i h0
    have hno : ∀ l ∈ [str "GET / HTTP/1.0", List.replicate 300 65], (0 : UInt8) ∉ l := by
      decide +kernel
    exact hno l hl (List.mem_of_getElem? h0)
  · intro pre l post v h _ hv
    have hct : ∀ l ∈ (pieces (str "GET / HTTP/1.0")).tail ++ [List.replicate 300 65].flatMap pieces,
        ¬ str "Content-Type:" <+: l := by decide +kernel
    have hmem : l ∈ pre ++ l :: post := by simp
    rw [← h] at hmem
    obtain ⟨-, -, -, pre', post', hl, -⟩ := hv
    exact absurd (hl ▸ List.prefix_append _ _) (hct l hmem)

/-- A header line of 256 bytes ends the header. -/
theorem not_stopsAtBody_full :
    ¬ ∀ (ulongMax : ℕ) (s : Schedule) (requestLine : Bytes) (headers : List Bytes) (body : Bytes),
      Positive s → (str "GET" <+: requestLine ∨ str "POST" <+: requestLine) →
      (∀ l ∈ requestLine :: headers, l ≠ [] ∧ cr ∉ l ∧ lf ∉ l) →
      StopsAtBody ulongMax s (requestLine ++ crlf ++ (block headers ++ (crlf ++ body))) body := by
  intro hall
  have hstop := hall 4294967295 eager (str "GET / HTTP/1.0") [List.replicate 256 65] []
    eager_full.positive (Or.inl (by decide)) (by decide +kernel)
  have hl : line (str "GET / HTTP/1.0" ++ crlf ++ (block [List.replicate 256 65] ++ (crlf ++ []))) =
      some (str "GET / HTTP/1.0", block [List.replicate 256 65] ++ (crlf ++ [])) := by
    decide +kernel
  obtain ⟨h, n, hret⟩ := (stopsAtBody_headerFrom eager_full.positive hl).1 hstop
  have hplain : ∀ l ∈ [List.replicate 256 (65 : UInt8)], cr ∉ l ∧ lf ∉ l := by decide +kernel
  have hps := splits_block hplain (crlf ++ [])
  have hread := (hps.headerFrom_iff (Nat.lt_add_one _)).1 ⟨h, n, hret⟩
  exact hread.1 (by decide +kernel)

end ZRouter.Upgrade
