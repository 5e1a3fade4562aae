import ZRouter.Upgrade.Reads

/-!
# What the header of a request says

In the header phase the schedule of `read()` makes no difference, so what `accept` does is a
function of the bytes of the request:

* `headerFrom`: the header loop on byte strings; `announced`: the whole of `accept`;
* `Announced`: boundary, length and the bytes after the header, for a request that goes on to the
  body, and `Announced.Sane`, what the header loop makes sure of;
* `accept_eventually`: `accept` computes `announced`.
-/

namespace ZRouter.Upgrade

/-- What a request announces when it is accepted, with the bytes that follow the header. -/
structure Announced where
  boundary : Bytes
  len : ℕ
  rest : Bytes
  deriving DecidableEq

/-- The bytes sent that belong to the body. -/
def Announced.body (w : Announced) : Bytes := w.rest.take w.len

/-- The delimiter: the boundary after two dashes. -/
def Announced.delimiter (w : Announced) : Bytes := 45 :: 45 :: w.boundary

/-- The header loop on a byte string, with a bound on the number of lines. -/
def headerFrom (ulongMax : ℕ) : ℕ → Headers → ℕ → Bytes → Exec (Option (Headers × ℕ × Bytes))
  | 0, _, _, _ => .stuck
  | f + 1, h, n, xs =>
      match line xs with
      | none => .ret none
      | some (buf, ys) =>
          h.takeBoundary buf >>= fun b =>
            if buf = [] then .ret (some (⟨b, h.takeHash buf⟩, takeLen ulongMax n buf, ys))
            else headerFrom ulongMax f ⟨b, h.takeHash buf⟩ (takeLen ulongMax n buf) ys

/-- What a request amounts to before its body is looked at. -/
def announced (env : Env) (a : Args) (xs : Bytes) : Exec (Result ⊕ Announced) :=
  match line xs with
  | none =>
      .ret (.inl (a.answer .readErr (some (.error "Can't accept methods other than GET or POST"))))
  | some (buf, ys) =>
      if ¬ (str "GET").isPrefixOf buf ∧ ¬ (str "POST").isPrefixOf buf then
        .ret (.inl (a.answer .methodErr
          (some (.error "Can't accept methods other than GET or POST"))))
      else
        headerFrom env.ulongMax (ys.length + 1) ⟨[], []⟩ 0 ys >>= fun s =>
          match s with
          | none => .ret (.inl (a.answer .readErr none))
          | some (h, n, zs) =>
              match a.refuse (!(str "GET").isPrefixOf buf) h n with
              | some res => .ret (.inl res)
              | none => .ret (.inr ⟨h.boundary, n, zs⟩)

/-! ### What the header makes sure of -/

/-- A boundary that fits its buffer and has no white space. -/
structure FitBoundary (b : Bytes) : Prop where
  short : b.length ≤ 70
  blank : ∀ c ∈ b, isBlank c = false

theorem fitBoundary_singleton {c : UInt8} (h : isBlank c = false) : FitBoundary [c] :=
  ⟨by simp, by simpa using h⟩

/-- What holds of every request that goes on to the body. -/
structure Announced.Sane (w : Announced) : Prop where
  fit : FitBoundary w.boundary
  ne : w.boundary ≠ []
  pos : 0 < w.len
  word : w.len < 4294967296

theorem parseBoundary_blank {buf b : Bytes} (h : parseBoundary buf = some b) :
    ∀ c ∈ b, isBlank c = false := by
  unfold parseBoundary at h
  split at h
  · cases h
  · dsimp only at h
    split_ifs at h
    obtain rfl := Option.some.inj h
    intro c hc
    simpa using List.mem_takeWhile_imp hc

theorem Headers.takeBoundary_fit {h : Headers} {buf b : Bytes} (hh : FitBoundary h.boundary)
    (hb : h.takeBoundary buf = .ret b) : FitBoundary b := by
  unfold Headers.takeBoundary at hb
  split at hb
  · split at hb
    · rename_i b' hp
      split_ifs at hb with hlen
      cases hb
      exact ⟨hlen, parseBoundary_blank hp⟩
    · cases hb
      exact hh
  · cases hb
    exact hh

theorem Headers.takeBoundary_ne_stuck (h : Headers) (buf : Bytes) :
    h.takeBoundary buf ≠ .stuck := by
  unfold Headers.takeBoundary
  split
  · split
    · split_ifs <;> simp
    · simp
  · simp

theorem takeLen_lt (ulongMax : ℕ) {n : ℕ} (buf : Bytes) (hn : n < 4294967296) :
    takeLen ulongMax n buf < 4294967296 := by
  unfold takeLen
  split_ifs
  · unfold parseLen
    dsimp only
    split_ifs
    · exact hn
    · exact Nat.succ_pos _
    · exact Nat.mod_lt _ (by norm_num)
  · exact hn

theorem headerFrom_post {ulongMax f n n' : ℕ} {h h' : Headers} {xs ys : Bytes}
    (hh : FitBoundary h.boundary) (hn : n < 4294967296)
    (hf : headerFrom ulongMax f h n xs = .ret (some (h', n', ys))) :
    FitBoundary h'.boundary ∧ n' < 4294967296 := by
  induction f generalizing h n xs with
  | zero => cases hf
  | succ f ih =>
    rw [headerFrom] at hf
    rcases hl : line xs with _ | ⟨buf, zs⟩ <;> rw [hl] at hf
    · cases hf
    · obtain ⟨b, hb, hf⟩ := Exec.bind_eq_ret hf
      have hfit := Headers.takeBoundary_fit hh hb
      split_ifs at hf
      · cases hf
        exact ⟨hfit, takeLen_lt ulongMax buf hn⟩
      · exact ih hfit (takeLen_lt ulongMax buf hn) hf

theorem Args.refuse_eq_none {a : Args} {post : Bool} {h : Headers} {n : ℕ}
    (hr : a.refuse post h n = none) :
    a.authOk h.hash = true ∧ post = true ∧ h.boundary ≠ [] ∧ n ≠ 0 := by
  unfold Args.refuse at hr
  split_ifs at hr with h1 h2 h3
  rw [not_or] at h3
  exact ⟨by simpa using h1, by simpa using h2, h3⟩

/-- A request that goes on to the body is a `POST` with an acceptable header. -/
theorem announced_upload {env : Env} {a : Args} {xs : Bytes} {w : Announced}
    (h : announced env a xs = .ret (.inr w)) :
    ∃ buf ys hd n zs, line xs = some (buf, ys) ∧ (str "POST").isPrefixOf buf ∧
      headerFrom env.ulongMax (ys.length + 1) ⟨[], []⟩ 0 ys = .ret (some (hd, n, zs)) ∧
      a.authOk hd.hash = true ∧ w = ⟨hd.boundary, n, zs⟩ ∧ w.Sane := by
  unfold announced at h
  rcases hl : line xs with _ | ⟨buf, ys⟩ <;> rw [hl] at h
  · cases h
  · dsimp only at h
    split_ifs at h with hm
    · cases h
    obtain ⟨o, ho, h⟩ := Exec.bind_eq_ret h
    rcases o with _ | ⟨hd, n, zs⟩
    · cases h
    dsimp only at h
    split at h
    · cases h
    · rename_i href
      obtain ⟨h1, h2, h3, h4⟩ := Args.refuse_eq_none href
      obtain ⟨h5, h6⟩ := headerFrom_post ⟨by simp, by simp⟩ (by norm_num) ho
      cases h
      refine ⟨buf, ys, hd, n, zs, rfl, ?_, ho, h1, rfl, h5, h3, Nat.pos_of_ne_zero h4, h6⟩
      have hget : (str "GET").isPrefixOf buf = false := by simpa using h2
      by_contra hpost
      exact hm ⟨by simp [hget], hpost⟩

/-! ### The header loop -/

section Loop

variable {ulongMax n k : ℕ} {s : Schedule} {r : Reader} {h : Headers} {xs : Bytes}

theorem InHeader.setLen (hr : InHeader n s k r xs) (n' : ℕ) :
    InHeader n' s k { r with len := n' } xs :=
  ⟨⟨hr.off, hr.positive, hr.stream, hr.counter, hr.inbufP, hr.inbufL, hr.size⟩, rfl, hr.sched,
    hr.calls⟩

theorem headerPass_none (ulongMax : ℕ) (h : Headers) (hr : InHeader n s k r xs)
    (hl : line xs = none) :
    ∃ r', headerPass ulongMax (h, r) = .ret (.inr (none, r')) := by
  obtain ⟨-, r', h1, -, -⟩ := readLine_of_none (reads_header n s k) hr hl
  exact ⟨r', by simp only [headerPass, h1]⟩

/-- A pass of the header loop that reads the line `buf`. -/
theorem headerPass_some (ulongMax : ℕ) (h : Headers) {buf ys : Bytes} (hr : InHeader n s k r xs)
    (hl : line xs = some (buf, ys)) :
    ∃ r', InHeader (takeLen ulongMax n buf) s k r' ys ∧ headerPass ulongMax (h, r) =
      (h.takeBoundary buf >>= fun b =>
        if buf = [] then .ret (.inr (some ⟨b, h.takeHash buf⟩, r'))
        else .ret (.inl (⟨b, h.takeHash buf⟩, r'))) := by
  obtain ⟨r', h1, h2⟩ := readLine_of_line (reads_header n s k) hr hl (by simp)
  exact ⟨_, h2.setLen _, by simp only [headerPass, h1, h2.len]⟩

/-- The header loop computes `headerFrom`. -/
theorem readHeaders_eventually (ulongMax f : ℕ) (hf : xs.length < f)
    (hr : InHeader n s k r xs) :
    (headerFrom ulongMax f h n xs = .ret none ∧ ∃ r',
      Exec.Eventually (fun m => Exec.loop (headerPass ulongMax) m (h, r)) (.ret (none, r'))) ∨
    (∃ h' n' ys r', headerFrom ulongMax f h n xs = .ret (some (h', n', ys)) ∧
      InHeader n' s k r' ys ∧
      Exec.Eventually (fun m => Exec.loop (headerPass ulongMax) m (h, r)) (.ret (some h', r'))) ∨
    (headerFrom ulongMax f h n xs = .undefined ∧
      Exec.Eventually (fun m => Exec.loop (headerPass ulongMax) m (h, r)) .undefined) := by
  induction f generalizing h n r xs with
  | zero => omega
  | succ f ih =>
    rcases hl : line xs with _ | ⟨buf, ys⟩
    · obtain ⟨r', h1⟩ := headerPass_none ulongMax h hr hl
      exact Or.inl ⟨by simp only [headerFrom, hl], r', Exec.Eventually.loop_done h1⟩
    · obtain ⟨r', hr', h1⟩ := headerPass_some ulongMax h hr hl
      have hlt := (line_suffix hl).2
      rcases hb : h.takeBoundary buf with b | - | -
      · rw [hb, Exec.ret_bind] at h1
        by_cases hbuf : buf = []
        · rw [if_pos hbuf] at h1
          refine Or.inr (Or.inl ⟨_, _, ys, r', ?_, hr', Exec.Eventually.loop_done h1⟩)
          simp only [headerFrom, hl, hb, Exec.ret_bind, if_pos hbuf]
        · rw [if_neg hbuf] at h1
          have hfrom : headerFrom ulongMax (f + 1) h n xs =
              headerFrom ulongMax f ⟨b, h.takeHash buf⟩ (takeLen ulongMax n buf) ys := by
            simp only [headerFrom, hl, hb, Exec.ret_bind, if_neg hbuf]
          rw [hfrom]
          rcases ih (h := ⟨b, h.takeHash buf⟩) (by omega) hr' with ⟨h2, r₂, h3⟩ |
            ⟨h', n', zs, r₂, h2, h3, h4⟩ | ⟨h2, h3⟩
          · exact Or.inl ⟨h2, r₂, h3.loop_next h1⟩
          · exact Or.inr (Or.inl ⟨h', n', zs, r₂, h2, h3, h4.loop_next h1⟩)
          · exact Or.inr (Or.inr ⟨h2, h3.loop_next h1⟩)
      · rw [hb, Exec.undefined_bind] at h1
        refine Or.inr (Or.inr ⟨by simp only [headerFrom, hl, hb, Exec.undefined_bind], 1, ?_⟩)
        intro m hm
        obtain ⟨m, rfl⟩ : ∃ j, m = j + 1 := ⟨m - 1, by omega⟩
        simp [Exec.loop, h1]
      · exact absurd hb (h.takeBoundary_ne_stuck buf)

end Loop

/-- The reader at the start of the body that a request announces. -/
def Announced.Starts (w : Announced) (s : Schedule) (k : ℕ) (r : Reader) : Prop :=
  ∃ r₀, InHeader w.len s k r₀ w.rest ∧ r = { r₀ with enableCounter := true }

/-- `accept` computes `announced`. -/
theorem accept_eventually (env : Env) {a : Args} {s : Schedule} {k : ℕ} {xs : Bytes}
    (hr : InHeader 0 s k a.reader xs) :
    (∃ res, announced env a xs = .ret (.inl res) ∧
      Exec.Eventually (fun f => accept env f a) (.ret (.inl res))) ∨
    (∃ w r, announced env a xs = .ret (.inr w) ∧ w.Starts s k r ∧
      Exec.Eventually (fun f => accept env f a) (.ret (.inr (w.boundary, r)))) ∨
    (announced env a xs = .undefined ∧ Exec.Eventually (fun f => accept env f a) .undefined) := by
  unfold announced
  rcases hl : line xs with _ | ⟨buf, ys⟩
  · obtain ⟨-, r', h1, -, -⟩ := readLine_of_none (reads_header 0 s k) hr hl
    exact Or.inl ⟨_, rfl, .of_eq fun f => by simp only [accept, h1]⟩
  · obtain ⟨r₁, h1, hr₁⟩ := readLine_of_line (reads_header 0 s k) hr hl (by simp)
    by_cases hm : ¬ (str "GET").isPrefixOf buf ∧ ¬ (str "POST").isPrefixOf buf
    · refine Or.inl ⟨_, if_pos hm, .of_eq fun f => ?_⟩
      rw [accept, h1]
      exact if_pos hm
    · have haccept : ∀ f, accept env f a = (readHeaders env.ulongMax f r₁ >>= fun s =>
          .ret (a.afterHeaders (!(str "GET").isPrefixOf buf) s)) := by
        intro f
        rw [accept, h1]
        exact if_neg hm
      simp only [haccept, if_neg hm]
      rcases readHeaders_eventually env.ulongMax (h := ⟨[], []⟩) (ys.length + 1)
        (Nat.lt_succ_self _) hr₁ with ⟨h2, r₂, h3⟩ | ⟨hd, n, zs, r₂, h2, hr₂, h3⟩ | ⟨h2, h3⟩
      · exact Or.inl ⟨_, by rw [h2]; rfl, h3.bind (.of_eq fun _ => rfl)⟩
      · rw [h2]
        cases href : a.refuse (!(str "GET").isPrefixOf buf) hd n with
        | some res =>
          refine Or.inl ⟨res, by simp only [Exec.ret_bind, href], h3.bind (.of_eq fun _ => ?_)⟩
          simp only [Args.afterHeaders, hr₂.len, href]
        | none =>
          refine Or.inr (Or.inl ⟨⟨hd.boundary, n, zs⟩, _, by simp only [Exec.ret_bind, href],
            ⟨r₂, hr₂, rfl⟩, h3.bind (.of_eq fun _ => ?_)⟩)
          simp only [Args.afterHeaders, hr₂.len, href]
      · exact Or.inr (Or.inr ⟨by rw [h2]; rfl, h3.bind_undefined _⟩)

theorem Announced.Starts.atBody {w : Announced} {s : Schedule} {k : ℕ} {r : Reader}
    (h : w.Starts s k r) (hw : w.Sane) : AtBody r w.body := by
  obtain ⟨r₀, hr₀, rfl⟩ := h
  exact hr₀.atBody hw.word

theorem Announced.Starts.unbroken {w : Announced} {s : Schedule} {k : ℕ} {r : Reader}
    (h : w.Starts s k r) (hw : w.Sane) {m : ℕ} (hs : DeliversTo m k s w.rest w.len) :
    Unbroken m r w.body := by
  obtain ⟨r₀, hr₀, rfl⟩ := h
  exact (hr₀.unbroken_iff hw.word m).2 hs

end ZRouter.Upgrade
