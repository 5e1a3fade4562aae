import ZRouter.Upgrade.Outcome

/-!
# When `http_input` returns

Every loop and the recursion of `test_part_header` end on every finite request, with one exception:
the loop that empties the socket waits for `counter_value` to reach `len`, so it goes on for ever
when the delimiter has been found and less was sent than `Content-Length` announced.  Two more
requests have no defined outcome: a boundary of more than 70 bytes and a file name that is not
closed.

* `Undefined`, `ReachesDelimiter`: the two conditions, as `http_input` comes to them;
* `returns_iff_body_sent`: with them, when `http_input` returns;
* `undefined_iff`, `reachesDelimiter_iff`, `returns_iff_unbroken`: what they say about the bytes of the
  request, when no call of `local_read` comes back empty before the end of the body.
-/

namespace ZRouter.Upgrade

/-- The request has no defined outcome: a boundary does not fit its buffer, or the file name of a
part is not closed. -/
def Undefined (env : Env) (a : Args) (xs : Bytes) : Prop :=
  announced env a xs = .undefined ∨
    ∃ b r, Exec.Eventually (fun f => accept env f a) (.ret (.inr (b, r))) ∧
      Exec.Eventually (fun f => locate env f a b r) .undefined

/-- The body loop reaches the delimiter of a request with the boundary `b`. -/
def ReachesDelimiter (env : Env) (a : Args) (b : Bytes) : Prop :=
  ∃ r r₁ rb r₂, Exec.Eventually (fun f => accept env f a) (.ret (.inr (b, r))) ∧
    Exec.Eventually (fun f => locate env f a b r) (.ret (.inr r₁)) ∧
    Exec.Eventually (fun f => search f b r₁) (.ret (true, rb, r₂))

section Enters

variable {env : Env} {a : Args} {s : Schedule} {xs : Bytes} {w : Announced} {r : Reader}

theorem Enters.accept_unique (h : Enters env a s xs w r) {b : Bytes} {r' : Reader}
    (h' : Exec.Eventually (fun f => accept env f a) (.ret (.inr (b, r')))) :
    b = w.boundary ∧ r' = r := by
  have := Exec.Eventually.unique h' h.run
  simpa using this

theorem Enters.defined (h : Enters env a s xs w r) {x : Exec (Result ⊕ Reader)}
    (hx : x ≠ .undefined)
    (hl : Exec.Eventually (fun f => locate env f a w.boundary r) x) : ¬ Undefined env a xs := by
  rintro (h1 | ⟨b, r', h1, h2⟩)
  · rw [h.header] at h1
    cases h1
  · obtain ⟨rfl, rfl⟩ := h.accept_unique h1
    exact hx (hl.unique h2)

theorem Enters.announced_eq (h : Enters env a s xs w r) {w' : Announced}
    (h' : announced env a xs = .ret (.inr w')) : w' = w := by
  rw [h.header] at h'
  cases h'
  rfl

/-- A request that is not located does not reach the delimiter. -/
theorem Enters.not_reaches (h : Enters env a s xs w r) {res : Result}
    (hl : Exec.Eventually (fun f => locate env f a w.boundary r) (.ret (.inl res))) :
    ¬ ReachesDelimiter env a w.boundary := by
  rintro ⟨r', r₁, -, -, h1, h2, -⟩
  obtain ⟨-, rfl⟩ := h.accept_unique h1
  cases hl.unique h2

theorem Enters.not_reaches_of_missed (h : Enters env a s xs w r) {r₁ r₂ : Reader} {rb : Ring}
    (hl : Exec.Eventually (fun f => locate env f a w.boundary r) (.ret (.inr r₁)))
    (hs : Exec.Eventually (fun f => search f w.boundary r₁) (.ret (false, rb, r₂))) :
    ¬ ReachesDelimiter env a w.boundary := by
  rintro ⟨r', r₁', rb', r₂', h1, h2, h3⟩
  obtain ⟨-, rfl⟩ := h.accept_unique h1
  cases hl.unique h2
  cases hs.unique h3

end Enters

/-- `http_input` returns exactly when the outcome is defined and, if the delimiter is reached, all of the
announced body was sent. -/
theorem returns_iff {env : Env} {a : Args} {s : Schedule} {xs : Bytes} (hs : Positive s)
    (hr : InHeader 0 s xs.length a.reader xs) :
    (∃ res, Returns env a res) ↔
      ¬ Undefined env a xs ∧
      ∀ w, announced env a xs = .ret (.inr w) → ReachesDelimiter env a w.boundary →
        w.len ≤ w.rest.length := by
  have never : ∀ {x : Exec Result}, Exec.Eventually (fun f => httpInput env f a) x →
      (∀ res, x ≠ .ret res) → ¬ ∃ res, Returns env a res := by
    rintro x hx hne ⟨res, hres⟩
    exact hne res (hx.unique hres)
  cases course env hs hr with
  | badHeader h run =>
    exact iff_of_false (never run (by simp)) fun hc => hc.1 (Or.inl h)
  | answered h run =>
    refine iff_of_true ⟨_, run⟩ ⟨?_, fun w hw => ?_⟩
    · rintro (h1 | ⟨b, r, h1, -⟩)
      · rw [h] at h1
        cases h1
      · rcases accept_eventually env hr with
          ⟨res, -, h2⟩ | ⟨w, r', h2, -⟩ | ⟨h2, -⟩
        · cases h1.unique h2
        · rw [h] at h2
          cases h2
        · rw [h] at h2
          cases h2
    · rw [h] at hw
      cases hw
  | badPart enters hl run =>
    exact iff_of_false (never run (by simp)) fun hc => hc.1 (Or.inr ⟨_, _, enters.run, hl⟩)
  | refused enters hl _ run =>
    refine iff_of_true ⟨_, run⟩ ⟨enters.defined (by simp) hl, fun w hw hd => ?_⟩
    rw [enters.announced_eq hw] at hd
    exact absurd hd (enters.not_reaches hl)
  | missed enters hl _ _ _ misses run =>
    refine iff_of_true ⟨_, run⟩ ⟨enters.defined (by simp) hl, fun w hw hd => ?_⟩
    rw [enters.announced_eq hw] at hd
    exact absurd hd (enters.not_reaches_of_missed hl misses.run)
  | ready enters hl _ _ _ _ sent run =>
    refine iff_of_true ⟨_, run⟩ ⟨enters.defined (by simp) hl, fun w hw _ => ?_⟩
    rw [enters.announced_eq hw]
    exact sent
  | hangs enters hl finds sent run =>
    refine iff_of_false (never run (by simp)) fun hc => ?_
    have := hc.2 _ enters.header ⟨_, _, _, _, enters.run, hl, finds.run⟩
    omega

/-- **`http_input` returns exactly when the outcome is defined and, if the delimiter is reached, all
of the announced body was sent.** -/
theorem returns_iff_body_sent (env : Env) (xs : Bytes) (s : Schedule) (key realm : Option Bytes)
    (outfile : Bytes) (hs : Positive s) :
    (∃ res, Returns env (Args.start xs s key realm outfile) res) ↔
      ¬ Undefined env (Args.start xs s key realm outfile) xs ∧
      ∀ w, announced env (Args.start xs s key realm outfile) xs = .ret (.inr w) →
        ReachesDelimiter env (Args.start xs s key realm outfile) w.boundary →
        w.len ≤ w.rest.length :=
  returns_iff hs (inHeader_zero hs xs)

/-- An upload of one byte, all of which is sent. -/
theorem returns_iff_body_sent_oneByte :
    ∃ res, Returns lp64 (Args.start oneByteUpload eager none none (str "/dev/md0")) res := by
  have hw : announced lp64 (Args.start oneByteUpload eager none none (str "/dev/md0")) oneByteUpload =
      .ret (.inr ⟨str "x", 80, oneByteBody⟩) := by decide +kernel
  have hbody : (⟨str "x", 80, oneByteBody⟩ : Announced).body = oneByteBody := by decide +kernel
  obtain ⟨hl, hf⟩ := oneByteBody_part
  obtain ⟨r, he⟩ := enters_of_announced eager_full.positive hw
  obtain ⟨r₁, rb, r₂, h1, -, h2⟩ := he.finds (eager_full.deliversTo _ _ _ _) (hbody ▸ hl)
    (by decide) hf (notYet_of_absent (by decide) (by decide)) (by decide) rfl
  refine (returns_iff_body_sent lp64 oneByteUpload eager none none _ eager_full.positive).2
    ⟨he.defined (by simp) h1, fun w hw' _ => ?_⟩
  rw [he.announced_eq hw']
  decide +kernel

/-! ### On the bytes of the request -/

section Unbroken

variable {env : Env} {a : Args} {s : Schedule} {xs : Bytes} {w : Announced} {r : Reader}

theorem eq_nil_of_short (zs : Bytes) (h : zs.length ≤ 0) : zs = [] :=
  List.length_eq_zero_iff.1 (Nat.le_zero.1 h)

/-- The outcome is undefined for a file name that is not closed. -/
theorem Enters.undefined_iff (he : Enters env a s xs w r)
    (hd : DeliversTo 0 xs.length s w.rest w.len) :
    Undefined env a xs ↔ UnclosedName w.boundary w.body := by
  have hbody := he.starts.unbroken he.sane hd
  constructor
  · rintro (h1 | ⟨b, r', h1, h2⟩)
    · rw [he.header] at h1
      cases h1
    obtain ⟨rfl, rfl⟩ := he.accept_unique h1
    rcases locate_eventually env a (reads_unbroken 0) w.boundary hbody with
      ⟨res, -, h3⟩ | ⟨r₁, ws, -, -, -, -, h3⟩ | ⟨h | ⟨zs, hne, hz⟩, -⟩
    · cases h2.unique h3
    · cases h2.unique h3
    · exact h
    · exact absurd (eq_nil_of_short zs hz) hne
  · intro h
    exact Or.inr ⟨_, r, he.run, h.run env a (reads_unbroken 0) eq_nil_of_short hbody⟩

/-- The delimiter is reached when the output file can be opened and it is found behind the place where the
body loop starts. -/
theorem Enters.reachesDelimiter_iff (he : Enters env a s xs w r)
    (hd : DeliversTo 0 xs.length s w.rest w.len) :
    ReachesDelimiter env a w.boundary ↔
      env.opens a.outfile = true ∧ ∃ ws, Located w.boundary w.body ws ∧ ¬ NotYet w.delimiter ws := by
  have hbody := he.starts.unbroken he.sane hd
  constructor
  · rintro ⟨r', r₁, rb, r₂, h1, h2, h3⟩
    obtain ⟨-, rfl⟩ := he.accept_unique h1
    rcases locate_eventually env a (reads_unbroken 0) w.boundary hbody with
      ⟨res, -, h4⟩ | ⟨r₁', ws, hr₁, -, hloc, ho, h4⟩ | ⟨-, h4⟩
    · cases h2.unique h4
    swap
    · cases h2.unique h4
    obtain rfl := Sum.inr.inj (Exec.ret.inj (h2.unique h4))
    rcases search_eventually (reads_unbroken 0) (fun _ _ h => h.toAtBody) w.boundary hr₁ with
      ⟨ys, c, xs', -, -, rfl, -, hhit, -⟩ | ⟨ys, xs', rb', r', -, -, -, -, -, h5⟩
    swap
    · cases h3.unique h5
    refine ⟨ho, ys ++ c :: xs', ?_, fun hy => hy (ys ++ [c]) ⟨xs', by simp⟩ hhit⟩
    rcases hloc with hloc | ⟨zs, hz, hsuf⟩
    · exact hloc
    · rw [eq_nil_of_short zs hz, List.suffix_nil] at hsuf
      simp at hsuf
  · rintro ⟨ho, ws, hloc, hfound⟩
    obtain ⟨r₁, hr₁, h1⟩ := hloc.run env a (reads_unbroken 0) hbody
      (fun zs hz => hz.trans (Nat.zero_le _)) ho
    rcases search_eventually (reads_unbroken 0) (fun _ _ h => h.toAtBody) w.boundary hr₁ with
      ⟨ys, c, xs', rb, r₂, -, -, -, -, -, -, h2⟩ | ⟨ys, xs', rb, r₂, rfl, hy, -, -, hend, -⟩
    · exact ⟨r, r₁, rb, r₂, he.run, h1, h2⟩
    · obtain rfl : xs' = [] := hend.elim id (eq_nil_of_short xs')
      rw [List.append_nil] at hfound
      exact absurd hy hfound

/-- No call of `local_read` comes back empty before the end of the body. -/
def UnbrokenBody (env : Env) (a : Args) (s : Schedule) (xs : Bytes) : Prop :=
  ∀ w, announced env a xs = .ret (.inr w) → DeliversTo 0 xs.length s w.rest w.len

theorem Full.unbrokenBody (hs : Full s) : UnbrokenBody env a s xs := fun _ _ => hs.deliversTo _ _ _ _

/-- **When `http_input` returns, on the bytes of the request.**  No boundary of the header is too long, no
file name is met that is not closed, and where the delimiter is found behind the place where the body loop
starts, all of the announced body was sent. -/
theorem returns_iff_unbroken (env : Env) (xs : Bytes) (s : Schedule) (key realm : Option Bytes)
    (outfile : Bytes) (hs : Positive s)
    (hunbroken : UnbrokenBody env (Args.start xs s key realm outfile) s xs) :
    (∃ res, Returns env (Args.start xs s key realm outfile) res) ↔
      announced env (Args.start xs s key realm outfile) xs ≠ .undefined ∧
      ∀ w, announced env (Args.start xs s key realm outfile) xs = .ret (.inr w) →
        ¬ UnclosedName w.boundary w.body ∧
        (env.opens outfile = true → ∀ ws, Located w.boundary w.body ws → ¬ NotYet w.delimiter ws →
          w.len ≤ w.rest.length) := by
  rw [returns_iff hs (inHeader_zero hs xs)]
  constructor
  · rintro ⟨hdef, hsent⟩
    refine ⟨fun h => hdef (Or.inl h), fun w hw => ?_⟩
    obtain ⟨r, he⟩ := enters_of_announced hs hw
    have hd := hunbroken w hw
    exact ⟨fun h => hdef ((he.undefined_iff hd).2 h), fun ho ws hloc hfound =>
      hsent w hw ((he.reachesDelimiter_iff hd).2 ⟨ho, ws, hloc, hfound⟩)⟩
  · rintro ⟨hdef, hbody⟩
    refine ⟨?_, fun w hw hreach => ?_⟩
    · rintro (h | ⟨b, r', h1, h2⟩)
      · exact hdef h
      rcases accept_eventually env (a := Args.start xs s key realm outfile) (inHeader_zero hs xs) with
        ⟨res, -, h3⟩ | ⟨w, r, hw, -, -⟩ | ⟨h3, -⟩
      · cases h1.unique h3
      · obtain ⟨r, he⟩ := enters_of_announced hs hw
        exact (hbody w hw).1 ((he.undefined_iff (hunbroken w hw)).1 (Or.inr ⟨b, r', h1, h2⟩))
      · exact hdef h3
    · obtain ⟨r, he⟩ := enters_of_announced hs hw
      obtain ⟨ho, ws, hloc, hfound⟩ := (he.reachesDelimiter_iff (hunbroken w hw)).1 hreach
      exact (hbody w hw).2 ho ws hloc hfound

end Unbroken

/-- The upload of one byte with a `Content-Length` of 200, more than is sent. -/
def overstated : Bytes :=
  str "POST / HTTP/1.1\r\nContent-Type: multipart/form-data; boundary=x\r\n" ++
    str "Content-Length: 200\r\n\r\n" ++ oneByteBody

/-- `http_input` does not return when less is sent than `Content-Length` announces. -/
theorem overstated_not_returns :
    ¬ ∃ res, Returns lp64 (Args.start overstated eager none none []) res := by
  have hw : announced lp64 (Args.start overstated eager none none []) overstated =
      .ret (.inr ⟨str "x", 200, oneByteBody⟩) := by decide +kernel
  have hbody : (⟨str "x", 200, oneByteBody⟩ : Announced).body = oneByteBody := by decide +kernel
  obtain ⟨hl, hf⟩ := oneByteBody_part
  rw [returns_iff_unbroken lp64 overstated eager none none [] eager_full.positive eager_full.unbrokenBody]
  rintro ⟨-, hall⟩
  have hsent := (hall _ hw).2 rfl _ (.part (hbody ▸ hl) (by decide) hf) fun hy =>
    hy (str "A\r\n--x") ⟨str "--\r\n", by decide⟩ (by decide)
  exact absurd hsent (by decide +kernel)

end ZRouter.Upgrade
