import ZRouter.Upgrade.Outcome

/-!
# Short reads

In the body phase `local_read` returns nothing when the buffer is used up, and refills it only at
the call after that.  A `read()` that delivers less than was asked for therefore looks like the end
of the body, and what `http_input` does depends on how the request was split.

* `SameOutcome`: two schedules of `read()` lead to the same status, output and file size;
* `slow`: the schedule that delivers one byte at a time;
* `SplitSafe`: the few bodies for which all schedules agree.
-/

namespace ZRouter.Upgrade

/-- `http_input` returns this status, with these bytes in the output file and this file size. -/
def Yields (env : Env) (a : Args) (st : Status) (written : Bytes) (filesize : ℕ) : Prop :=
  ∃ res, Returns env a res ∧ res.status = st ∧ res.written = written ∧ res.filesize = filesize

/-- Two runs of `http_input` that a caller cannot tell apart. -/
def SameOutcome (env : Env) (a a' : Args) : Prop :=
  ∀ st written filesize, Yields env a st written filesize ↔ Yields env a' st written filesize

/-- The bodies that are treated alike however they are split: those without a first line, and those
that start with an empty line, when the output file cannot be opened or when so little follows that
nothing is written. -/
def SplitSafe (env : Env) (outfile : Bytes) (w : Announced) : Prop :=
  (lf ∉ w.body ∧ w.body.length < 256) ∨
    ∃ tail, w.body = lf :: tail ∧
      (env.opens outfile = true → tail.length ≤ 256 ∧ NotYet w.delimiter tail)

section Start

variable {env : Env} {w : Announced} {s : Schedule} {k : ℕ} {r : Reader} {tail : Bytes}

/-- The first byte of the body is always handed out. -/
theorem Announced.Starts.first (h : w.Starts s k r) (hw : w.Sane) (hs : Positive s) {c : UInt8}
    (hbody : w.body = c :: tail) : ∃ r', localRead r = (some c, r') ∧ BodyOf w s r' tail := by
  have hb := h.bodyOf hw
  have hp : r.inbufP % 1024 = 0 := by
    obtain ⟨r₀, hr₀, rfl⟩ := h
    simp [hr₀.inbufP]
  obtain ⟨c₁, r₁, h1⟩ := localRead_positive hb.toAtBody (hb.sched ▸ hs) hp (by simp [hbody])
  rw [hbody] at hb
  rcases reads_bodyOf w s r _ hb with ⟨c₂, xs', r', hx, h2, h3⟩ | ⟨-, r', h2, -⟩
  · obtain ⟨rfl, rfl⟩ := List.cons_eq_cons.1 hx
    exact ⟨r', h2, h3⟩
  · cases h1.symm.trans h2

theorem readLine_lf {r' : Reader} (h : localRead r = (some lf, r')) : readLine r = (some [], r') := by
  simp [readLine, readLineFrom, h, show lf ≠ cr by decide, cstr]

/-- A body that starts with an empty line has no boundary marker there. -/
theorem locate_lf {r' : Reader} (h : localRead r = (some lf, r')) (a : Args) (f : ℕ) :
    locate env f a w.boundary r =
      .ret (if env.opens a.outfile then .inr r' else .inl (a.answer .cantOpenOfile none)) :=
  locate_noMarker _ _ (readLine_lf h) (by simp [isMarker]) f

end Start

/-! ### All schedules agree -/

/-- A request with a body in `SplitSafe` has one and the same result for all schedules. -/
theorem returns_of_splitSafe {env : Env} {outfile : Bytes} {w : Announced}
    (hsafe : SplitSafe env outfile w) :
    ∃ res : Result, ∀ (s : Schedule) (xs : Bytes) (key realm : Option Bytes) (r : Reader),
      Positive s → Enters env (Args.start xs s key realm outfile) s xs w r →
      Returns env (Args.start xs s key realm outfile) res := by
  rcases hsafe with hnone | ⟨tail, hbody, hopen⟩
  · refine ⟨(Args.start [] eager none none outfile).unreadable, fun s xs key realm r _ he => ?_⟩
    exact returns_of_locate he.run (.of_eq (locate_unreadable (reads_bodyOf w s) w.boundary
      (he.starts.bodyOf he.sane) (line_eq_none.2 hnone)))
  by_cases ho : env.opens outfile = true
  · obtain ⟨hlen, hny⟩ := hopen ho
    refine ⟨⟨.showIndex, 0, [], some .fail⟩, fun s xs key realm r hs he => ?_⟩
    obtain ⟨r', h1, h2⟩ := he.starts.first he.sane hs hbody
    have hl : Exec.Eventually (fun f => locate env f (Args.start xs s key realm outfile)
        w.boundary r) (.ret (.inr r')) :=
      .of_eq fun f => (locate_lf h1 _ f).trans (congrArg Exec.ret (if_pos ho))
    rcases search_eventually (reads_bodyOf w s) (fun _ _ h => h.toAtBody) w.boundary h2 with
      ⟨ys, c, xs', rb, r₂, hx, -, h3, -⟩ | ⟨ys, xs', rb, r₂, hx, -, h3, -, -, h4⟩
    · exact absurd h3 (hny (ys ++ [c]) ⟨xs', by rw [hx]; simp⟩)
    · have hle : ys.length ≤ 256 := by
        have := congrArg List.length hx
        rw [List.length_append] at this
        omega
      have hfin := finish_missed (Args.start xs s key realm outfile) r₂ h3
      rw [show ys.length - 256 = 0 by omega, List.take_zero] at hfin
      exact eventually_of_search he.run hl h4 (.of_eq hfin)
  · refine ⟨(Args.start [] eager none none outfile).answer .cantOpenOfile none,
      fun s xs key realm r hs he => ?_⟩
    obtain ⟨r', h1, -⟩ := he.starts.first he.sane hs hbody
    exact returns_of_locate he.run
      (.of_eq fun f => (locate_lf h1 _ f).trans (congrArg Exec.ret (if_neg ho)))

/-! ### One byte at a time -/

/-- The schedule of `read()` that delivers one byte at a time. -/
def slow : Schedule := fun _ _ => some 1

theorem slow_positive : Positive slow := fun _ _ => ⟨1, rfl, fun _ => Nat.one_pos⟩

section Slow

variable {w : Announced} {k : ℕ} {r : Reader} {c : UInt8} {tail : Bytes}

/-- One byte at a time, the second call of `local_read` comes back empty. -/
theorem Announced.Starts.second (h : w.Starts slow k r) (hw : w.Sane) (hbody : w.body = c :: tail) :
    ∃ r' r'', localRead r = (some c, r') ∧ localRead r' = (none, r'') := by
  have hb := h.bodyOf hw
  have hp : r.inbufP % 1024 = 0 := by
    obtain ⟨r₀, hr₀, rfl⟩ := h
    simp [hr₀.inbufP]
  obtain ⟨r', h1, -⟩ := h.first hw slow_positive hbody
  obtain ⟨n, hn, ⟨-, h2⟩ | ⟨c', cs, htake, h2⟩⟩ := localRead_body_refill hb.body hp
  · cases h1.symm.trans h2
  rw [hb.sched] at hn
  obtain rfl : 1 = n := Option.some.inj hn
  have hcs : cs = [] := by
    have := congrArg List.length htake
    rw [List.length_take, List.length_cons] at this
    exact List.length_eq_zero_iff.1 (by omega)
  subst hcs
  obtain ⟨-, rfl⟩ := Prod.mk.inj (h1.symm.trans h2)
  exact ⟨_, _, h1, localRead_used_up hb.body.on Nat.one_pos (by norm_num) (by simp)⟩

/-- A first line that does not end at once cannot be read one byte at a time. -/
theorem readLine_slow {r' r'' : Reader} (h1 : localRead r = (some c, r'))
    (h2 : localRead r' = (none, r'')) (hc : c ≠ lf) : readLine r = (none, r'') := by
  have h3 : ∀ n acc, readLineFrom (n + 1) r' acc = (none, r'') := by
    intro n acc
    rw [readLineFrom, h2]
  have h4 : readLineFrom 256 r [] = (none, r'') := by
    rw [readLineFrom, h1]
    dsimp only
    split_ifs
    · exact h3 254 _
    · exact h3 254 _
  rw [readLine, h4]

end Slow

/-! ### The schedules that disagree -/

section Eager

variable {env : Env} {a : Args} {b : Bytes} {r : Reader} {f : ℕ} {res : Result}

/-- Once the first line of the body is read, the answer is not that it could not be. -/
theorem locate_ne_readErr {l : Bytes} {r' : Reader} (h : readLine r = (some l, r'))
    (hl : locate env f a b r = .ret (.inl res)) : res.status ≠ .readErr := by
  rcases locate_inl hl with ⟨-, hnone⟩ | rfl | rfl
  · rw [h] at hnone
    cases hnone
  · simp [Args.noFirmware, Args.answer]
  · simp [Args.answer]

theorem finish_status {st : Bool × Ring × Reader} (h : finish f a st = .ret res) :
    res.status = if st.1 then .ready else .showIndex := by
  obtain ⟨found, rb, r'⟩ := st
  cases found with
  | true =>
    obtain ⟨-, -, h⟩ := Exec.bind_eq_ret h
    cases h
    rfl
  | false =>
    cases h
    rfl

/-- A request that goes on to the body is answered by phase two or at the end. -/
theorem Enters.returns {s : Schedule} {xs : Bytes} {w : Announced} (h : Enters env a s xs w r)
    (hres : Returns env a res) :
    ∃ N, ∀ f ≥ N, locate env f a w.boundary r = .ret (.inl res) ∨
      ∃ r₁ st, locate env f a w.boundary r = .ret (.inr r₁) ∧ search f w.boundary r₁ = .ret st ∧
        finish f a st = .ret res := by
  obtain ⟨x, hx, N, hN⟩ := Exec.Eventually.bind_ret hres h.run
  cases hx
  refine ⟨N, fun f hf => ?_⟩
  obtain ⟨y, hy, h1⟩ := Exec.bind_eq_ret (hN f hf)
  cases y with
  | inl res' =>
    cases h1
    exact Or.inl hy
  | inr r₁ =>
    obtain ⟨st, h2, h3⟩ := Exec.bind_eq_ret h1
    exact Or.inr ⟨r₁, st, hy, h2, h3⟩

variable {xs tail : Bytes} {w : Announced}

/-- With full reads, a body that cannot be read has no first line. -/
theorem Enters.line_eq_none (h : Enters env a eager xs w r) (hres : Returns env a res)
    (hst : res.status = .readErr) : line w.body = none := by
  have hfull := h.starts.unbroken h.sane (eager_full.deliversTo 0 xs.length w.rest w.len)
  obtain ⟨N, hN⟩ := h.returns hres
  by_contra hne
  obtain ⟨⟨l, zs⟩, hl⟩ := Option.ne_none_iff_exists'.1 hne
  obtain ⟨r', h1, -⟩ := readLine_of_line (reads_unbroken 0) hfull hl fun zs hz => hz.trans (Nat.zero_le _)
  rcases hN N le_rfl with h2 | ⟨r₁, st, -, -, h2⟩
  · exact locate_ne_readErr h1 h2 hst
  · have h3 := finish_status h2
    rw [hst] at h3
    split_ifs at h3

/-- With full reads, a body that starts with an empty line goes through the ring to its end. -/
theorem Enters.lf_missed (h : Enters env a eager xs w r) (hbody : w.body = lf :: tail)
    (ho : env.opens a.outfile = true) (hres : Returns env a res) (hst : res.status = .showIndex)
    (hwr : res.written = []) : tail.length ≤ 256 ∧ NotYet w.delimiter tail := by
  have hfull := h.starts.unbroken h.sane (eager_full.deliversTo 0 xs.length w.rest w.len)
  rw [hbody] at hfull
  obtain ⟨r₁, h1, hr₁⟩ := localRead_of_cons (reads_unbroken 0) hfull (by simp)
  obtain ⟨N, hN⟩ := h.returns hres
  rcases search_eventually (reads_unbroken 0) (fun _ _ h => h.toAtBody) w.boundary hr₁ with
    ⟨ys, c, xs', rb, r₂, -, -, -, -, -, -, M, hM⟩ | ⟨ys, xs', rb, r₂, hx, hny, h3, -, hend, M, hM⟩
  all_goals
    obtain hl | ⟨r₁', st, hl, hs, hfin⟩ := hN (max N M) (le_max_left N M) <;>
      rw [locate_lf h1, if_pos ho] at hl <;> cases hl
    obtain rfl := Exec.ret.inj ((hM (max N M) (le_max_right N M)).symm.trans hs)
  · have h3 := finish_status hfin
    rw [hst] at h3
    cases h3
  · obtain rfl : xs' = [] := hend.elim id fun h => List.length_eq_zero_iff.1 (Nat.le_zero.1 h)
    rw [List.append_nil] at hx
    subst hx
    rw [finish_missed _ _ h3] at hfin
    obtain rfl := Exec.ret.inj hfin
    simp only [List.take_eq_nil_iff] at hwr
    refine ⟨?_, hny⟩
    rcases hwr with hwr | rfl
    · omega
    · simp

end Eager

/-- One byte at a time, a first line that does not end at once is not read. -/
theorem Enters.unreadable_slow {env : Env} {a : Args} {xs tail : Bytes} {c : UInt8} {w : Announced}
    {r : Reader} (h : Enters env a slow xs w r) (hbody : w.body = c :: tail) (hc : c ≠ lf) :
    Returns env a a.unreadable := by
  obtain ⟨r₁, r₂, h1, h2⟩ := h.starts.second h.sane hbody
  refine returns_of_locate h.run (.of_eq fun f => ?_)
  simp only [locate, readLine_slow h1 h2 hc]

/-- One byte at a time, nothing of a body that starts with an empty line is read. -/
theorem Enters.lf_slow {env : Env} {xs tail : Bytes} {key realm : Option Bytes} {outfile : Bytes}
    {w : Announced} {r : Reader} (h : Enters env (Args.start xs slow key realm outfile) slow xs w r)
    (hbody : w.body = lf :: tail) (ho : env.opens outfile = true) :
    Returns env (Args.start xs slow key realm outfile) ⟨.showIndex, 0, [], some .fail⟩ := by
  obtain ⟨r₁, r₂, h1, h2⟩ := h.starts.second h.sane hbody
  have hl : Exec.Eventually (fun f => locate env f (Args.start xs slow key realm outfile)
      w.boundary r) (.ret (.inr r₁)) :=
    .of_eq fun f => (locate_lf h1 _ f).trans (congrArg Exec.ret (if_pos ho))
  have hs : Exec.Eventually (fun n => search n w.boundary r₁)
      (.ret (false, ringBufferInit w.boundary, if r₁.counterValue < r₁.len then r₂ else r₁)) := by
    refine .loop_done ?_
    by_cases hlt : r₁.counterValue < r₁.len
    · simp only [searchPass, if_pos hlt, h2]
    · simp only [searchPass, if_neg hlt]
  have hfin := finish_missed (Args.start xs slow key realm outfile)
    (if r₁.counterValue < r₁.len then r₂ else r₁) (ringHolds_init w.boundary)
  rw [List.take_nil] at hfin
  exact eventually_of_search h.run hl hs (.of_eq hfin)

/-- **The outcome does not depend on how the request is split exactly for the bodies in
`SplitSafe`.** -/
theorem same_outcome_iff_splitSafe (env : Env) (xs : Bytes) (key realm : Option Bytes)
    (outfile : Bytes) :
    (∀ s s', Positive s → Positive s' → SameOutcome env (Args.start xs s key realm outfile)
      (Args.start xs s' key realm outfile)) ↔
    ∀ w, announced env (Args.start xs eager key realm outfile) xs = .ret (.inr w) →
      SplitSafe env outfile w := by
  constructor
  · intro hall w hw
    obtain ⟨r, he⟩ := enters_of_announced slow_positive hw
    obtain ⟨r', he'⟩ := enters_of_announced eager_full.positive hw
    have same := hall slow eager slow_positive eager_full.positive
    cases hbody : w.body with
    | nil => exact Or.inl (by simp [hbody])
    | cons c tail =>
      by_cases hc : c = lf
      · subst hc
        refine Or.inr ⟨tail, hbody, fun ho => ?_⟩
        obtain ⟨res, h1, h2, h3, -⟩ := (same .showIndex [] 0).1
          ⟨_, he.lf_slow hbody ho, rfl, rfl, rfl⟩
        exact he'.lf_missed hbody ho h1 h2 h3
      · obtain ⟨res, h3, h4, -⟩ := (same .readErr [] 0).1
          ⟨_, he.unreadable_slow hbody hc, rfl, rfl, rfl⟩
        exact Or.inl (line_eq_none.1 (he'.line_eq_none h3 h4))
  · intro hsafe
    -- for each of the courses the result is the same for every schedule
    have key : ∃ o : Exec Result, ∀ s, Positive s →
        Exec.Eventually (fun f => httpInput env f (Args.start xs s key realm outfile)) o := by
      rcases hw : announced env (Args.start xs eager key realm outfile) xs with (res₀ | w) | - | -
      · refine ⟨.ret res₀, fun s hs => ?_⟩
        cases course env hs (a := Args.start xs s key realm outfile) (inHeader_zero hs xs) with
        | answered h run => cases hw.symm.trans h; exact run
        | badHeader h _ => cases hw.symm.trans h
        | badPart he | refused he | missed he | ready he | hangs he => cases hw.symm.trans he.header
      · obtain ⟨res₀, h0⟩ := returns_of_splitSafe (hsafe w hw)
        refine ⟨.ret res₀, fun s hs => ?_⟩
        obtain ⟨r, he⟩ := enters_of_announced hs hw
        exact h0 s xs key realm r hs he
      · refine ⟨.undefined, fun s hs => ?_⟩
        cases course env hs (a := Args.start xs s key realm outfile) (inHeader_zero hs xs) with
        | badHeader _ run => exact run
        | answered h _ => cases hw.symm.trans h
        | badPart he | refused he | missed he | ready he | hangs he => cases hw.symm.trans he.header
      · rcases accept_eventually env (a := Args.start xs eager key realm outfile)
          (inHeader_zero eager_full.positive xs) with ⟨_, h1, -⟩ | ⟨_, _, h1, -⟩ | ⟨h1, -⟩ <;>
          cases hw.symm.trans h1
    obtain ⟨o, ho⟩ := key
    have unique : ∀ s, Positive s → ∀ res,
        Returns env (Args.start xs s key realm outfile) res ↔ o = .ret res := fun s hs res =>
      ⟨fun h => (ho s hs).unique h, fun h => by rw [Returns, ← h]; exact ho s hs⟩
    intro s s' hs hs' st written filesize
    simp only [Yields, unique s hs, unique s' hs']

/-- The upload of one byte is an unreadable body when it arrives byte by byte, and only then. -/
theorem oneByteUpload_differs :
    ¬ ∀ s s', Positive s → Positive s' →
      SameOutcome lp64 (Args.start oneByteUpload s none none [])
        (Args.start oneByteUpload s' none none []) := by
  intro hall
  have hw : announced lp64 (Args.start oneByteUpload eager none none []) oneByteUpload =
      .ret (.inr ⟨str "x", 80, oneByteBody⟩) := by decide +kernel
  have hbody : (⟨str "x", 80, oneByteBody⟩ : Announced).body = 45 :: oneByteBody.tail := by
    decide +kernel
  obtain ⟨r, he⟩ := enters_of_announced slow_positive hw
  obtain ⟨r', he'⟩ := enters_of_announced eager_full.positive hw
  obtain ⟨res, h1, h2, -⟩ := (hall slow eager slow_positive eager_full.positive .readErr [] 0).1
    ⟨_, he.unreadable_slow hbody (by decide), rfl, rfl, rfl⟩
  have hline := he'.line_eq_none h1 h2
  rw [hbody] at hline
  revert hline
  decide +kernel

end ZRouter.Upgrade
