import ZRouter.Shttpd.Directives

/-!
# The page after a value (`io_ssi_zrouter.c`)

A directive `sysctl` or `kenv` that finds a value sets the state of its level to one of the conditional
states, which as a state means that a directive is being buffered, with an empty buffer.

* `Step`, `Reached`: a page that is read by calls of any size;
* `FindsValue`, `Careful`: what a step must not do;
* `Ready`: the page after a directive;
* `passes_text`: text that starts no directive is passed as it is;
* `page_ready`: along careful steps the page is ready after every value; `findsValue_not_ready`,
  `not_page_ready`: after one that is found it is not.
-/

namespace ZRouter.Shttpd

/-! ### Runs -/

/-- The output of the calls that have returned, and the current one. -/
structure Page where
  sent : Bytes
  r : Reading

/-- A pass of the loop; or the call returns and there is another one, of any size. -/
inductive Step (env : Env) : Page → Page → Prop
  | pass {sent : Bytes} {r r' : Reading} : readPass env r = .ok (.inl r') → Step env ⟨sent, r⟩ ⟨sent, r'⟩
  | read {sent : Bytes} {r r' : Reading} (vbuf : ℕ → UInt8) (len : ℕ) : readPass env r = .ok (.inr r') →
      Step env ⟨sent, r⟩ ⟨sent ++ r'.out, startReading env r'.ssi vbuf len⟩

/-- The states of a page as long as every step starts from a good one. -/
inductive Reached (env : Env) (good : Reading → Prop) (page : Bytes) : Page → Prop
  | start (vbuf : ℕ → UInt8) (len : ℕ) :
      Reached env good page ⟨[], startReading env (newSsi page) vbuf len⟩
  | step {p p' : Page} : Reached env good page p → good p.r → Step env p p' → Reached env good page p'

/-- Steps that read no further than to `rest`. -/
inductive Within (env : Env) (rest : Bytes) (p : Page) : Page → Prop
  | refl : Within env rest p p
  | step {q q' : Page} : Within env rest p q → rest.length < q.r.inc.fp.length → Step env q q' →
      Within env rest p q'

/-! ### What a step does -/

/-- The command that the next character completes. -/
def commandHere (r : Reading) : Option Command :=
  if r.inc.state = .buf ∧ r.inc.nbuf < cmdBufSiz - 1 ∧ r.inc.fp.head? = some 62 ∧ 2 ≤ r.inc.nbuf ∧
      r.inc.text.drop (r.inc.nbuf - 2) = str "--" then
    findCommand r.inc
  else none

/-- The next character completes a directive `sysctl` or `kenv`. -/
def RunsValue (r : Reading) : Prop :=
  commandHere r = some .doSysctl ∨ commandHere r = some .doKenv

/-- The call of the kernel for a command. -/
def lookup (env : Env) : Command → Option (ℕ → Bytes → ℕ → ValueReply)
  | .doSysctl => some env.sysctlbyname
  | .doKenv => some env.kenv
  | _ => none

/-- The state in which the function of a command is called. -/
def atCommand (r : Reading) : Reading := r.modify fun inc => { inc with fp := inc.fp.tail, state := .pass }

/-- The next character completes a directive `sysctl` or `kenv`, and its call finds a value. -/
def FindsValue (env : Env) (r : Reading) : Prop :=
  ∃ cmd outside r' p name, commandHere r = some cmd ∧ lookup env cmd = some outside ∧
    trimSpaces (atCommand r) = .ok (r', p) ∧ quoted env r' p = some name ∧
    (outside r'.ssi.calls name r'.room).ok = true

/-- No value is found, no `>` follows the `<` of a tag directly, and no file that starts with a `>` is
included at a level that another file has left inside a directive. -/
structure Careful (env : Env) (r : Reading) : Prop where
  noValue : ¬ FindsValue env r
  noEmptyTag : r.inc.state = .buf → r.inc.nbuf = 1 → r.inc.fp.head? ≠ some 62
  fresh : commandHere r = some .doInclude → r.inc.cond = .go → r.ssi.nest < nestMax - 1 →
    ∀ path file, getPath env (r.inc.text.drop 13) = some path → env.fopen r.ssi.calls path = some file →
    (r.ssi.incs (r.ssi.nest + 1)).state = .buf → file.head? ≠ some 62

/-- Text in which no directive starts, and which has no `<!-->` in it. -/
def Plain (t : Bytes) : Prop := ¬ st <:+: t ∧ ¬ str "<!-->" <:+: t

/-- What is buffered and not yet passed. -/
def pending (r : Reading) : Bytes := if r.inc.state = .buf then r.inc.text else []

/-- **The page is ready after a value**: the next step does not look at the buffer below its start; and if
it runs a directive `sysctl` or `kenv`, then its level passes characters, its buffer is empty, and the text
that follows is passed as it is, in calls of any size. -/
structure Ready (env : Env) (p : Page) : Prop where
  notBelow : readPass env p.r ≠ .error .below
  value : ∀ r', readPass env p.r = .ok (.inl r') → RunsValue p.r →
    r'.inc.state = .pass ∧ r'.inc.nbuf = 0 ∧
      ∀ t rest q, r'.inc.fp = t ++ rest → r'.inc.cond = .go → Plain t →
        Within env rest ⟨p.sent, r'⟩ q →
        ∃ t₁ t₂, t = t₁ ++ t₂ ∧ q.r.inc.fp = t₂ ++ rest ∧
          q.sent ++ q.r.out ++ pending q.r = p.sent ++ r'.out ++ t₁

/-! ### Running a directive -/

section Command

variable {env : Env} {r : Reading}

theorem Sane.atCommand (hs : Sane r) : Sane (atCommand r) := hs.modify fun hbuf => by cases hbuf

theorem atCommand_state : (atCommand r).inc.state = .pass := by rw [atCommand, inc_modify]

/-- Without a value the functions of directives start no buffering. -/
theorem run_keeps {cmd : Command} (hc : Careful env r) (hhere : commandHere r = some cmd) :
    RunKeeps (atCommand r) (cmd.run env (atCommand r)) ∧
      (cmd = .doSysctl ∨ cmd = .doKenv → ∀ r', cmd.run env (atCommand r) = .ok r' →
        r'.inc.state = .pass ∧ r'.ssi.nest = r.ssi.nest) := by
  have hvalue : ∀ outside state, lookup env cmd = some outside →
      ∀ r', doValue outside state env (atCommand r) = .ok r' →
      r'.inc.state = .pass ∧ r'.ssi.nest = r.ssi.nest ∧ Keeps (atCommand r) r' := by
    intro outside state hlookup r' h
    obtain ⟨hstate, hnest, hkeeps⟩ := doValue_quiet (fun r₁ p name htrim hname => by
      cases hok : (outside r₁.ssi.calls name r₁.room).ok with
      | false => rfl
      | true => exact absurd ⟨cmd, outside, r₁, p, name, hhere, hlookup, htrim, hname, hok⟩ hc.noValue) h
    rw [atCommand_state] at hstate
    exact ⟨hstate, hnest, hkeeps⟩
  cases cmd with
  | doInclude =>
    refine ⟨doInclude_keeps fun hcond hnest path file hpath hfile hbuf => ?_, by simp⟩
    rw [Shttpd.atCommand, inc_modify] at hcond hpath
    rw [Shttpd.atCommand, incs_modify, nest_modify, if_neg (Nat.succ_ne_self _)] at hbuf
    exact hc.fresh hhere hcond hnest path file hpath hfile hbuf
  | doIf => exact ⟨doIf_keeps env _, by simp⟩
  | doElif => exact ⟨doElif_keeps env _, by simp⟩
  | doElse => exact ⟨RunKeeps.modify (Keeps.refl _) fun hbuf => ⟨hbuf, rfl, rfl⟩, by simp⟩
  | doEndif => exact ⟨RunKeeps.modify (Keeps.refl _) fun hbuf => ⟨hbuf, rfl, rfl⟩, by simp⟩
  | doCall => exact ⟨doCall_keeps env _, by simp⟩
  | doExec => exact ⟨doExec_keeps env _, by simp⟩
  | doSysctl =>
    refine ⟨⟨doValue_ne_below _ _ _ _, fun r' h => (hvalue _ _ rfl r' h).2.2⟩, fun _ r' h => ?_⟩
    obtain ⟨hstate, hnest, -⟩ := hvalue _ _ rfl r' h
    exact ⟨hstate, hnest⟩
  | doKenv =>
    refine ⟨⟨doValue_ne_below _ _ _ _, fun r' h => (hvalue _ _ rfl r' h).2.2⟩, fun _ r' h => ?_⟩
    obtain ⟨hstate, hnest, -⟩ := hvalue _ _ rfl r' h
    exact ⟨hstate, hnest⟩

theorem pass_keeps (r : Reading) : Keeps r (pass r) := by
  unfold pass
  dsimp only
  split_ifs
  · exact (Keeps.put r _ _).trans (Keeps.modify _ fun hbuf => by cases hbuf)
  · exact Keeps.modify r fun hbuf => by cases hbuf

theorem not_runsValue (h : commandHere r = none) : ¬ RunsValue r := by
  rintro (hvalue | hvalue)
  · rw [h] at hvalue
    cases hvalue
  · rw [h] at hvalue
    cases hvalue

theorem modify_atCommand {ch : UInt8} {fp : Bytes} (hfp : r.inc.fp = ch :: fp) :
    ((r.modify fun inc => { inc with fp := fp }).modify fun inc => { inc with state := .pass }) =
      atCommand r := by
  rw [modify_modify, atCommand, Reading.modify, Reading.modify]
  simp [hfp]

theorem runCommand_atCommand (env : Env) (hhere : commandHere r = findCommand r.inc) :
    runCommand env (atCommand r) = match commandHere r with
      | none => .ok (pass (atCommand r))
      | some cmd => cmd.run env (atCommand r) := by
  rw [runCommand, hhere, atCommand, inc_modify]
  rfl

/-- **A directive that finds no value leaves its level passing, with an empty buffer.** -/
theorem doCommand_ready {ch : UInt8} {fp : Bytes} (hs : Sane r) (hfp : r.inc.fp = ch :: fp)
    (hhere : commandHere r = findCommand r.inc) (hc : Careful env r) :
    doCommand env (r.modify fun inc => { inc with fp := fp }) ≠ .error .below ∧
      ∀ r', doCommand env (r.modify fun inc => { inc with fp := fp }) = .ok r' → Sane r' ∧
        (RunsValue r → r'.inc.state = .pass ∧ r'.inc.nbuf = 0) := by
  have hrunCommand := runCommand_atCommand env hhere
  have hrun : RunKeeps (atCommand r) (runCommand env (atCommand r)) := by
    rw [hrunCommand]
    cases hcmd : commandHere r with
    | none => exact RunKeeps.ok (pass_keeps _)
    | some cmd => exact (run_keeps hc hcmd).1
  rw [doCommand, modify_atCommand hfp]
  split_ifs
  · exact ⟨fun heq => (nomatch heq), fun r' heq => (nomatch heq)⟩
  cases hx : runCommand env (atCommand r) with
  | error e =>
    rw [hx] at hrun
    refine ⟨fun heq => hrun.1 ?_, fun r' heq => (nomatch heq)⟩
    cases heq
    rfl
  | ok r₁ =>
    refine ⟨fun heq => (nomatch heq), fun r' heq => ?_⟩
    have hkeeps := hrun.2 r₁ hx
    have hs₁ := hs.atCommand.keeps hkeeps
    obtain rfl : r₁.emptied r.ssi.nest = r' := Except.ok.inj heq
    refine ⟨⟨hs₁.n_nonneg, fun i hi hbuf => ?_⟩, fun hvalue => ?_⟩
    · rw [Reading.emptied] at hi hbuf ⊢
      dsimp only at hi hbuf ⊢
      by_cases hnest : i = r.ssi.nest
      · rw [hnest, Function.update_self] at hbuf ⊢
        rw [hnest] at hi
        -- the level of the directive did not buffer
        rcases hkeeps.buf _ hi hbuf with ⟨-, hpass, -⟩ | hhead
        · have hstate : ((atCommand r).ssi.incs r.ssi.nest).state = .pass := atCommand_state
          rw [hstate] at hpass
          cases hpass
        · exact Or.inr hhead
      · rw [Function.update_of_ne hnest] at hbuf ⊢
        exact hs₁.buf i hi hbuf
    · obtain ⟨cmd, hcmd, hkind⟩ : ∃ cmd, commandHere r = some cmd ∧ (cmd = .doSysctl ∨ cmd = .doKenv) := by
        rcases hvalue with hvalue | hvalue
        · exact ⟨_, hvalue, Or.inl rfl⟩
        · exact ⟨_, hvalue, Or.inr rfl⟩
      rw [hrunCommand, hcmd] at hx
      obtain ⟨hstate, hnest⟩ := (run_keeps hc hcmd).2 hkind r₁ hx
      rw [Reading.inc, hnest] at hstate
      rw [Reading.inc, Reading.emptied]
      dsimp only
      rw [hnest, Function.update_self]
      exact ⟨hstate, rfl⟩

end Command

/-! ### Steps -/

section Steps

variable {env : Env} {r : Reading}

theorem again_keeps (env : Env) (r : Reading) : Keeps r (again env r) := by
  unfold again
  split
  · exact doCall2_keeps env r 0 r.len
  · exact doExec2_keeps r 0 r.len
  · exact Keeps.refl r

theorem Sane.startReading (hs : Sane r) (vbuf : ℕ → UInt8) (len : ℕ) :
    Sane (startReading env r.ssi vbuf len) := by
  refine Sane.keeps ?_ (again_keeps env _)
  exact ⟨le_rfl, hs.buf⟩

theorem Sane.newSsi (env : Env) (page : Bytes) (vbuf : ℕ → UInt8) (len : ℕ) :
    Sane (Shttpd.startReading env (newSsi page) vbuf len) := by
  refine Sane.keeps ?_ (again_keeps env _)
  exact ⟨le_rfl, fun i hi hbuf => by cases hbuf⟩

/-- One more character in the buffer. -/
theorem Sane.pushChar (hs : Sane r) (fp : Bytes) (ch : UInt8) :
    Sane (pushChar (r.modify fun inc => { inc with fp := fp }) ch) := by
  have hpush : Sane ((r.modify fun inc => { inc with fp := fp }).modify fun inc =>
      { inc with buf := Function.update inc.buf inc.nbuf ch, nbuf := inc.nbuf + 1 }) := by
    rw [modify_modify]
    exact hs.modify fun _ => Nat.succ_pos _
  unfold Shttpd.pushChar
  dsimp only
  split_ifs
  · exact hpush.keeps (pass_keeps _)
  · exact hpush

/-- A character is read. -/
theorem readChar_ready {ch : UInt8} {fp : Bytes} (hs : Sane r) (hc : Careful env r)
    (hfp : r.inc.fp = ch :: fp) :
    readChar env (r.modify fun inc => { inc with fp := fp }) ch ≠ .error .below ∧
      ∀ r', readChar env (r.modify fun inc => { inc with fp := fp }) ch = .ok r' → Sane r' ∧
        (RunsValue r → r'.inc.state = .pass ∧ r'.inc.nbuf = 0) := by
  have hs₀ : r.inc.state ≠ .buf → Sane (r.modify fun inc => { inc with fp := fp }) :=
    fun hne => hs.modify fun hbuf => absurd hbuf hne
  have hok : ∀ {r₁ : Reading}, Sane r₁ → commandHere r = none →
      (.ok r₁ : Except Fault Reading) ≠ .error .below ∧ ∀ r', .ok r₁ = (.ok r' : Except Fault Reading) →
        Sane r' ∧ (RunsValue r → r'.inc.state = .pass ∧ r'.inc.nbuf = 0) := by
    intro r₁ hr₁ hnone
    refine ⟨fun heq => (nomatch heq), fun r' heq => ?_⟩
    cases heq
    exact ⟨hr₁, fun hvalue => absurd hvalue (not_runsValue hnone)⟩
  have hother : r.inc.state ≠ .buf → commandHere r = none := fun hne => if_neg fun h => hne h.1
  unfold readChar
  rw [inc_modify]
  dsimp only
  cases hstate : r.inc.state with
  | pass =>
    have hne : r.inc.state ≠ .buf := by
      rw [hstate]
      decide
    dsimp only
    split_ifs
    · refine hok ?_ (hother hne)
      rw [modify_modify]
      exact hs.modify fun _ => le_rfl
    · exact hok ((hs₀ hne).keeps (Keeps.put _ _ _)) (hother hne)
    · exact hok (hs₀ hne) (hother hne)
  | buf =>
    dsimp only
    by_cases hfull : cmdBufSiz - 1 ≤ r.inc.nbuf
    · rw [if_pos hfull]
      have hpos : 1 ≤ r.inc.nbuf := le_trans (by decide) hfull
      exact hok ((hs.modify fun _ => hpos).keeps (pass_keeps _)) (if_neg fun h => absurd h.2.1 (by omega))
    rw [if_neg hfull]
    by_cases hclose : ch = 62
    · rw [if_pos hclose]
      have htwo : ¬ r.inc.nbuf < 2 := by
        intro hlt
        have hhead : r.inc.fp.head? = some 62 := by
          rw [hfp, hclose]
          rfl
        rcases hs.buf r.ssi.nest le_rfl hstate with hpos | hne
        · exact hc.noEmptyTag hstate (le_antisymm (by omega) hpos) hhead
        · exact hne hhead
      rw [if_neg htwo]
      by_cases hdash : r.inc.text.drop (r.inc.nbuf - 2) = str "--"
      · have hhere : commandHere r = findCommand r.inc :=
          if_pos ⟨hstate, by omega, by rw [hfp, hclose]; rfl, by omega, hdash⟩
        split_ifs with hd
        · exact doCommand_ready hs hfp hhere hc
        · exact absurd hdash hd
      · split_ifs with hd
        · exact absurd hd hdash
        · exact hok (hs.pushChar fp ch) (if_neg fun h => hdash h.2.2.2.2)
    · rw [if_neg hclose]
      refine hok (hs.pushChar fp ch) (if_neg fun h => hclose ?_)
      have hhead := h.2.2.1
      rw [hfp] at hhead
      exact Option.some.inj hhead
  | exec | call | sysctl =>
    have hne : r.inc.state ≠ .buf := by
      rw [hstate]
      decide
    exact hok (hs₀ hne) (hother hne)
  | kenv => exact ⟨fun heq => (nomatch heq), fun r' heq => (nomatch heq)⟩

/-- **A pass of the loop.** -/
theorem readPass_ready (hs : Sane r) (hc : Careful env r) :
    readPass env r ≠ .error .below ∧
      (∀ r', readPass env r = .ok (.inr r') → r' = r) ∧
      ∀ r', readPass env r = .ok (.inl r') → Sane r' ∧
        (RunsValue r → r'.inc.state = .pass ∧ r'.inc.nbuf = 0) := by
  unfold readPass
  by_cases hroom : 0 ≤ r.n + r.inc.nbuf ∧ r.n + r.inc.nbuf < r.len
  · rw [if_pos hroom]
    cases hfp : r.inc.fp with
    | cons ch fp =>
      dsimp only
      obtain ⟨hbelow, hready⟩ := readChar_ready hs hc hfp
      cases hread : readChar env (r.modify fun inc => { inc with fp := fp }) ch with
      | error e =>
        rw [hread] at hbelow
        refine ⟨fun heq => hbelow ?_, fun r' heq => (nomatch heq), fun r' heq => (nomatch heq)⟩
        cases heq
        rfl
      | ok r₁ =>
        refine ⟨fun heq => (nomatch heq), fun r' heq => (nomatch heq), fun r' heq => ?_⟩
        obtain rfl : r₁ = r' := Sum.inl.inj (Except.ok.inj heq)
        exact hready r₁ hread
    | nil =>
      dsimp only
      have hnone : commandHere r = none := if_neg fun h => by rw [hfp] at h; cases h.2.2.1
      split_ifs with hnest
      · refine ⟨fun heq => (nomatch heq), fun r' heq => (nomatch heq), fun r' heq => ?_⟩
        obtain rfl := Sum.inl.inj (Except.ok.inj heq)
        have hup : Sane { r with ssi := { r.ssi with nest := r.ssi.nest - 1 } } := by
          have hbelow : r.ssi.nest - 1 ≤ r.ssi.nest := Nat.sub_le _ _
          exact ⟨hs.n_nonneg, fun i hi hbuf => hs.buf i (le_trans hi hbelow) hbuf⟩
        exact ⟨hup.keeps (again_keeps env _), fun hvalue => absurd hvalue (not_runsValue hnone)⟩
      · refine ⟨fun heq => (nomatch heq), fun r' heq => ?_, fun r' heq => (nomatch heq)⟩
        exact (Sum.inr.inj (Except.ok.inj heq)).symm
  · rw [if_neg hroom]
    refine ⟨fun heq => (nomatch heq), fun r' heq => ?_, fun r' heq => (nomatch heq)⟩
    exact (Sum.inr.inj (Except.ok.inj heq)).symm

/-- In every state of a careful run. -/
theorem Reached.sane {page : Bytes} {p : Page} (h : Reached env (Careful env) page p) : Sane p.r := by
  induction h with
  | start vbuf len => exact Sane.newSsi env page vbuf len
  | step _ hc hstep ih =>
    cases hstep with
    | pass hpass => exact ((readPass_ready ih hc).2.2 _ hpass).1
    | read vbuf len hpass =>
      obtain rfl := (readPass_ready ih hc).2.1 _ hpass
      exact ih.startReading vbuf len

end Steps

/-! ### Text -/

section Text

variable {env : Env} {before t rest : Bytes}

/-- A part of the text has been passed, but for what may be the start of a directive. -/
structure Passing (before t rest : Bytes) (q : Page) : Prop where
  n_nonneg : 0 ≤ q.r.n
  go : q.r.inc.cond = .go
  place : q.r.inc.state = .pass ∨
    q.r.inc.state = .buf ∧ q.r.inc.nbuf < st.length ∧ q.r.inc.text = st.take q.r.inc.nbuf
  split : ∃ t₁ t₂, t = t₁ ++ t₂ ∧ q.r.inc.fp = t₂ ++ rest ∧ pending q.r <:+ t₁ ∧
    q.sent ++ q.r.out ++ pending q.r = before ++ t₁

/-- What a pass of the loop does with a character that there is. -/
theorem readPass_cons {r : Reading} {ch : UInt8} {fp : Bytes} (hfp : r.inc.fp = ch :: fp)
    {x : Reading ⊕ Reading} (h : readPass env r = .ok x) :
    x = .inr r ∨ ∃ r', x = .inl r' ∧ readChar env (r.modify fun inc => { inc with fp := fp }) ch = .ok r' := by
  unfold readPass at h
  by_cases hroom : 0 ≤ r.n + r.inc.nbuf ∧ r.n + r.inc.nbuf < r.len
  · rw [if_pos hroom, hfp] at h
    dsimp only at h
    cases hread : readChar env (r.modify fun inc => { inc with fp := fp }) ch with
    | error e =>
      rw [hread] at h
      cases h
    | ok r' =>
      rw [hread] at h
      cases h
      exact Or.inr ⟨r', rfl, rfl⟩
  · rw [if_neg hroom] at h
    cases h
    exact Or.inl rfl

theorem pending_pass {r : Reading} (h : r.inc.state = .pass) : pending r = [] := by
  rw [pending, if_neg (by rw [h]; decide)]

theorem pending_buf {r : Reading} (h : r.inc.state = .buf) : pending r = r.inc.text := if_pos h

theorem inc_pass (r : Reading) : (pass r).inc = { r.inc with nbuf := 0, state := .pass } := by
  unfold pass
  dsimp only
  rw [inc_modify]
  split_ifs
  · rw [inc_put]
  · rfl

theorem out_pass {r : Reading} (hn : 0 ≤ r.n) (hgo : r.inc.cond = .go) :
    (pass r).out = r.out ++ r.inc.text := by
  unfold pass
  dsimp only
  rw [if_pos hgo, out_modify, out_put hn]

theorem Passing.of_pass {sent t₁ t₂ : Bytes} {r : Reading} (hn : 0 ≤ r.n) (hgo : r.inc.cond = .go)
    (hstate : r.inc.state = .pass) (hfp : r.inc.fp = t₂ ++ rest) (hsplit : t = t₁ ++ t₂)
    (hsent : sent ++ r.out = before ++ t₁) : Passing before t rest ⟨sent, r⟩ := by
  refine ⟨hn, hgo, Or.inl hstate, t₁, t₂, hsplit, hfp, ?_, ?_⟩
  · rw [pending_pass hstate]
    exact List.nil_suffix
  · rw [pending_pass hstate, List.append_nil]
    exact hsent

theorem Passing.of_buf {sent t₁ t₂ : Bytes} {r : Reading} (hn : 0 ≤ r.n) (hgo : r.inc.cond = .go)
    (hstate : r.inc.state = .buf) (hnbuf : r.inc.nbuf < st.length) (htext : r.inc.text = st.take r.inc.nbuf)
    (hfp : r.inc.fp = t₂ ++ rest) (hsplit : t = t₁ ++ t₂) (hsuffix : r.inc.text <:+ t₁)
    (hsent : sent ++ r.out ++ r.inc.text = before ++ t₁) : Passing before t rest ⟨sent, r⟩ := by
  refine ⟨hn, hgo, Or.inr ⟨hstate, hnbuf, htext⟩, t₁, t₂, hsplit, hfp, ?_, ?_⟩
  · rw [pending_buf hstate]
    exact hsuffix
  · rw [pending_buf hstate]
    exact hsent

/-- A character of text, in a level that passes. -/
theorem Passing.char_pass {sent t₁ t₂ : Bytes} {ch : UInt8} {r r' : Reading} (hn : 0 ≤ r.n)
    (hgo : r.inc.cond = .go) (hstate : r.inc.state = .pass) (hfp : r.inc.fp = t₂ ++ rest)
    (hsplit : t = (t₁ ++ [ch]) ++ t₂) (hsent : sent ++ r.out = before ++ t₁)
    (hread : readChar env r ch = .ok r') : Passing before t rest ⟨sent, r'⟩ := by
  have hsent' : sent ++ (r.out ++ [ch]) = before ++ (t₁ ++ [ch]) := by
    rw [← List.append_assoc, hsent, List.append_assoc]
  unfold readChar at hread
  rw [hstate] at hread
  dsimp only at hread
  by_cases hlt : ch = 60
  · rw [if_pos hlt] at hread
    obtain rfl := Except.ok.inj hread
    have hinc := inc_modify r fun inc =>
      { inc with buf := Function.update inc.buf 0 ch, nbuf := 1, state := .buf }
    have htext : (r.modify fun inc =>
        { inc with buf := Function.update inc.buf 0 ch, nbuf := 1, state := .buf }).inc.text = [ch] := by
      rw [hinc, Inc.text]
      dsimp only
      rw [List.range_one, List.map_singleton, Function.update_self]
    refine Passing.of_buf hn ?_ (by rw [hinc]) ?_ ?_ ?_ hsplit ?_ ?_
    · rw [hinc]
      exact hgo
    · rw [hinc]
      exact show 1 < st.length by decide
    · rw [htext, hinc, hlt]
      exact show [60] = st.take 1 by decide
    · rw [hinc]
      exact hfp
    · rw [htext]
      exact List.suffix_append _ _
    · rw [htext, out_modify, List.append_assoc]
      exact hsent'
  · rw [if_neg hlt, if_pos hgo] at hread
    obtain rfl := Except.ok.inj hread
    refine Passing.of_pass ?_ hgo hstate hfp hsplit ?_
    · show 0 ≤ r.n + _
      omega
    · rw [out_put hn]
      exact hsent'

/-- In a level that buffers the start of a directive, the characters but the `>` of `<!-->` are buffered. -/
theorem readChar_push {ch : UInt8} {r r' : Reading} (hstate : r.inc.state = .buf)
    (hnbuf : r.inc.nbuf < st.length) (htext : r.inc.text = st.take r.inc.nbuf)
    (hne : r.inc.text ++ [ch] ≠ str "<!-->") (hread : readChar env r ch = .ok r') : r' = pushChar r ch := by
  have hlength : st.length = 5 := by decide
  unfold readChar at hread
  rw [hstate] at hread
  dsimp only at hread
  rw [if_neg (by rw [cmdBufSiz]; omega)] at hread
  by_cases hclose : ch = 62
  · rw [if_pos hclose] at hread
    by_cases htwo : r.inc.nbuf < 2
    · rw [if_pos htwo] at hread
      cases hread
    rw [if_neg htwo] at hread
    have hdash : r.inc.text.drop (r.inc.nbuf - 2) ≠ str "--" := by
      rw [htext, hclose] at hne
      rw [htext]
      have hcases : r.inc.nbuf = 2 ∨ r.inc.nbuf = 3 ∨ r.inc.nbuf = 4 := by omega
      rcases hcases with hk | hk | hk
      · rw [hk]
        decide
      · rw [hk]
        decide
      · rw [hk] at hne
        exact absurd rfl hne
    rw [if_neg hdash] at hread
    exact (Except.ok.inj hread).symm
  · rw [if_neg hclose] at hread
    exact (Except.ok.inj hread).symm

/-- A character of text, in a level that buffers. -/
theorem Passing.char_buf {sent t₁ t₂ : Bytes} {ch : UInt8} {r r' : Reading} (ht : Plain t) (hn : 0 ≤ r.n)
    (hgo : r.inc.cond = .go) (hstate : r.inc.state = .buf) (hnbuf : r.inc.nbuf < st.length)
    (htext : r.inc.text = st.take r.inc.nbuf) (hfp : r.inc.fp = t₂ ++ rest)
    (hsplit : t = (t₁ ++ [ch]) ++ t₂) (hsuffix : r.inc.text <:+ t₁)
    (hsent : sent ++ r.out ++ r.inc.text = before ++ t₁)
    (hread : readChar env r ch = .ok r') : Passing before t rest ⟨sent, r'⟩ := by
  have hinfix : r.inc.text ++ [ch] <:+: t := by
    obtain ⟨s, rfl⟩ := hsuffix
    exact ⟨s, t₂, by rw [hsplit, ← List.append_assoc s]⟩
  have hsent' : sent ++ r.out ++ (r.inc.text ++ [ch]) = before ++ (t₁ ++ [ch]) := by
    rw [← List.append_assoc, hsent, List.append_assoc]
  have hinc := inc_modify r fun inc =>
    { inc with buf := Function.update inc.buf inc.nbuf ch, nbuf := inc.nbuf + 1 }
  have hmore : (r.modify fun inc =>
      { inc with buf := Function.update inc.buf inc.nbuf ch, nbuf := inc.nbuf + 1 }).inc.text =
      r.inc.text ++ [ch] := by
    rw [hinc]
    exact text_push r.inc ch
  have hcount : (r.modify fun inc =>
      { inc with buf := Function.update inc.buf inc.nbuf ch, nbuf := inc.nbuf + 1 }).inc.nbuf =
      r.inc.nbuf + 1 := by
    rw [hinc]
  rw [readChar_push hstate hnbuf htext (fun hbad => ht.2 (hbad ▸ hinfix)) hread]
  unfold pushChar
  dsimp only
  rw [hmore, hcount]
  by_cases hstart : r.inc.text ++ [ch] = st.take (r.inc.nbuf + 1)
  · rw [if_neg fun h => h.2 hstart]
    have hnext : r.inc.nbuf + 1 < st.length := by
      by_contra hge
      refine ht.1 ?_
      have hfull : r.inc.nbuf + 1 = st.length := by omega
      rwa [hstart, hfull, List.take_length] at hinfix
    refine Passing.of_buf hn ?_ ?_ (by rw [hcount]; exact hnext) (by rw [hmore, hcount]; exact hstart) ?_
      hsplit ?_ ?_
    · rw [hinc]
      exact hgo
    · rw [hinc]
      exact hstate
    · rw [hinc]
      exact hfp
    · rw [hmore]
      exact (List.suffix_append_self_iff).2 hsuffix
    · rw [hmore, out_modify]
      exact hsent'
  · -- it is no directive
    rw [if_pos ⟨by omega, hstart⟩]
    refine Passing.of_pass (hn.trans (pass_keeps _).n_le) ?_ ?_ ?_ hsplit ?_
    · rw [inc_pass, hinc]
      exact hgo
    · rw [inc_pass]
    · rw [inc_pass, hinc]
      exact hfp
    · rw [out_pass (r := r.modify _) hn (by rw [hinc]; exact hgo), hmore, out_modify, ← List.append_assoc]
      exact hsent'

/-- Where the text goes on, the call does not end. -/
theorem Passing.step {q q' : Page} (ht : Plain t) (hq : Passing before t rest q)
    (hrest : rest.length < q.r.inc.fp.length) (hstep : Step env q q') : Passing before t rest q' := by
  obtain ⟨hn, hgo, hplace, t₁, t₂, hsplit, hfp, hsuffix, hsent⟩ := hq
  obtain ⟨ch, t₃, rfl⟩ : ∃ ch t₃, t₂ = ch :: t₃ := by
    cases t₂ with
    | nil => exact absurd hrest (by rw [hfp]; exact lt_irrefl _)
    | cons ch t₃ => exact ⟨ch, t₃, rfl⟩
  have hsplit' : t = (t₁ ++ [ch]) ++ t₃ := by rw [hsplit, List.append_assoc, List.singleton_append]
  rw [List.cons_append] at hfp
  cases hstep with
  | @pass sent r r' hpass =>
    rcases readPass_cons hfp hpass with hinr | ⟨r₁, hinl, hread⟩
    · cases hinr
    obtain rfl : r' = r₁ := Sum.inl.inj hinl
    have hinc := inc_modify r fun inc => { inc with fp := t₃ ++ rest }
    rcases hplace with hstate | ⟨hstate, hnbuf, htext⟩
    · rw [pending_pass hstate, List.append_nil] at hsent
      exact Passing.char_pass (r := r.modify _) hn (by rw [hinc]; exact hgo) (by rw [hinc]; exact hstate)
        (by rw [hinc]) hsplit' hsent hread
    · rw [pending_buf hstate] at hsuffix hsent
      have htext' : (r.modify fun inc => { inc with fp := t₃ ++ rest }).inc.text = r.inc.text := by
        rw [hinc]
        rfl
      refine Passing.char_buf (r := r.modify _) ht hn ?_ ?_ ?_ ?_ ?_ hsplit' ?_ ?_ hread
      · rw [hinc]
        exact hgo
      · rw [hinc]
        exact hstate
      · rw [hinc]
        exact hnbuf
      · rw [htext', hinc]
        exact htext
      · rw [hinc]
      · rw [htext']
        exact hsuffix
      · rw [htext']
        exact hsent
  | @read sent r r' vbuf len hpass =>
    rcases readPass_cons hfp hpass with hinr | ⟨r₁, hinl, -⟩
    · obtain rfl : r' = r := Sum.inr.inj hinr
      have hsame : startReading env r'.ssi vbuf len = ⟨r'.ssi, vbuf, 0, len⟩ := by
        unfold startReading again
        have hstate : (⟨r'.ssi, vbuf, 0, len⟩ : Reading).inc.state = r'.inc.state := rfl
        rcases hplace with hpass | ⟨hbuf, -⟩
        · rw [hstate, hpass]
        · rw [hstate, hbuf]
      rw [hsame]
      refine ⟨le_rfl, hgo, hplace, t₁, _, hsplit, hfp, hsuffix, ?_⟩
      show sent ++ r'.out ++ [] ++ pending r' = _
      rw [List.append_nil]
      exact hsent
    · cases hinl

/-- **Text in which no directive starts is passed as it is.** -/
theorem passes_text {p q : Page} (ht : Plain t) (hn : 0 ≤ p.r.n) (hgo : p.r.inc.cond = .go)
    (hstate : p.r.inc.state = .pass) (hfp : p.r.inc.fp = t ++ rest) (hq : Within env rest p q) :
    Passing (p.sent ++ p.r.out) t rest q := by
  induction hq with
  | refl =>
    refine ⟨hn, hgo, Or.inl hstate, [], t, rfl, hfp, ?_, ?_⟩
    · rw [pending_pass hstate]
    · rw [pending_pass hstate]
  | step _ hrest hstep ih => exact ih.step ht hrest hstep

end Text

/-! ### Values -/

section Values

variable {env : Env}

/-- The pass of the loop that completes a directive. -/
theorem readPass_command {r r' : Reading} {cmd : Command} (hhere : commandHere r = some cmd)
    (h : readPass env r = .ok (.inl r')) :
    ∃ r₁, cmd.run env (atCommand r) = .ok r₁ ∧ r' = r₁.emptied r.ssi.nest := by
  have hfind : commandHere r = findCommand r.inc := by
    unfold commandHere at hhere ⊢
    split_ifs at hhere ⊢
    rfl
  unfold commandHere at hhere
  split_ifs at hhere with hplace
  obtain ⟨hstate, hfull, hhead, htwo, hdash⟩ := hplace
  obtain ⟨fp, hfp⟩ : ∃ fp, r.inc.fp = 62 :: fp := by
    cases hr : r.inc.fp with
    | nil =>
      rw [hr] at hhead
      cases hhead
    | cons ch fp =>
      rw [hr] at hhead
      cases hhead
      exact ⟨fp, rfl⟩
  rcases readPass_cons hfp h with hinr | ⟨r₂, hinl, hread⟩
  · cases hinr
  obtain rfl : r' = r₂ := Sum.inl.inj hinl
  unfold readChar at hread
  rw [inc_modify] at hread
  dsimp only at hread
  rw [hstate] at hread
  dsimp only at hread
  rw [if_neg (by omega), if_pos rfl, if_neg (by omega)] at hread
  have hcommand : doCommand env (r.modify fun inc => { inc with fp := fp }) = .ok r' := by
    split_ifs at hread with hclose
    · exact hread
    · exact absurd hdash hclose
  rw [doCommand, modify_atCommand hfp] at hcommand
  split_ifs at hcommand
  have hrun := runCommand_atCommand env hfind
  rw [hfind.trans hhere] at hrun
  dsimp only at hrun
  rw [hrun] at hcommand
  cases hx : cmd.run env (atCommand r) with
  | error e =>
    rw [hx] at hcommand
    cases hcommand
  | ok r₁ =>
    rw [hx] at hcommand
    exact ⟨r₁, rfl, (Except.ok.inj hcommand).symm⟩

/-- A value that is found leaves its level buffering, with an empty buffer. -/
theorem findsValue_buf {r r' : Reading} (hfinds : FindsValue env r) (h : readPass env r = .ok (.inl r')) :
    r'.inc.state = .buf ∧ r'.inc.nbuf = 0 := by
  obtain ⟨cmd, outside, r₁, p, name, hhere, hlookup, htrim, hname, hok⟩ := hfinds
  obtain ⟨r₂, hrun, rfl⟩ := readPass_command hhere h
  obtain ⟨state, hdo⟩ : ∃ state, doValue outside state env (atCommand r) = .ok r₂ := by
    cases cmd <;> cases hlookup
    · exact ⟨_, hrun⟩
    · exact ⟨_, hrun⟩
  have hafter : r₂ = afterValue (outside r₁.ssi.calls name r₁.room) state r₁ := by
    rw [doValue_some htrim hname] at hdo
    exact (Except.ok.inj hdo).symm
  obtain ⟨hbuf, hnest⟩ := afterValue_found (r := r₁) hok
  rw [← hafter] at hbuf hnest
  rw [trimSpaces_nest htrim, atCommand, nest_modify] at hnest
  rw [Reading.inc, Reading.emptied]
  dsimp only
  rw [hnest, Function.update_self]
  rw [Reading.inc, hnest] at hbuf
  exact ⟨hbuf, rfl⟩

/-- The condition on a step is exact: where a value is found, the page is not ready. -/
theorem findsValue_not_ready {p : Page} {r' : Reading} (hfinds : FindsValue env p.r)
    (h : readPass env p.r = .ok (.inl r')) : ¬ Ready env p := by
  intro hready
  obtain ⟨cmd, outside, r₁, i, name, hhere, hlookup, -⟩ := id hfinds
  have hvalue : RunsValue p.r := by
    rw [RunsValue, hhere]
    cases cmd <;> first | exact Or.inl rfl | exact Or.inr rfl | cases hlookup
  have hpass := (hready.value r' h hvalue).1
  rw [(findsValue_buf hfinds h).1] at hpass
  cases hpass

/-- What the other conditions keep away: a `>` that is read after less than two characters. -/
theorem close_below {r : Reading} {fp : Bytes} (hstate : r.inc.state = .buf) (hnbuf : r.inc.nbuf < 2)
    (hfp : r.inc.fp = 62 :: fp) (hroom : 0 ≤ r.n + r.inc.nbuf ∧ r.n + r.inc.nbuf < r.len) :
    readPass env r = .error .below := by
  have hread : readChar env (r.modify fun inc => { inc with fp := fp }) 62 = .error .below := by
    unfold readChar
    rw [inc_modify]
    dsimp only
    rw [hstate]
    dsimp only
    rw [if_neg (by rw [cmdBufSiz]; omega), if_pos rfl, if_pos hnbuf]
  unfold readPass
  rw [if_pos hroom, hfp]
  dsimp only
  rw [hread]
  rfl

end Values

/-! ### Two pages -/

/-- A number of passes of the loop, as long as a check holds before each of them. -/
def passes (env : Env) (check : Reading → Bool) : ℕ → Reading → Option Reading
  | 0, r => some r
  | k + 1, r =>
      (passes env check k r).bind fun r =>
        if check r then
          match readPass env r with
          | .ok (.inl r') => some r'
          | .ok (.inr _) => none
          | .error _ => none
        else none

theorem passes_succ {env : Env} {check : Reading → Bool} {k : ℕ} {r r'' : Reading}
    (h : passes env check (k + 1) r = some r'') :
    ∃ r', passes env check k r = some r' ∧ check r' = true ∧ readPass env r' = .ok (.inl r'') := by
  rw [passes] at h
  obtain ⟨r', hk, h⟩ := Option.bind_eq_some_iff.1 h
  split_ifs at h with hcheck
  refine ⟨r', hk, hcheck, ?_⟩
  cases hpass : readPass env r' with
  | error e =>
    rw [hpass] at h
    cases h
  | ok x =>
    rw [hpass] at h
    cases x with
    | inl r₁ =>
      cases h
      rfl
    | inr r₁ => cases h

theorem Reached.passes {env : Env} {good : Reading → Prop} {page sent : Bytes} {r : Reading}
    {check : Reading → Bool} (hcheck : ∀ r, check r = true → good r)
    (h : Reached env good page ⟨sent, r⟩) {k : ℕ} {r' : Reading}
    (hk : Shttpd.passes env check k r = some r') : Reached env good page ⟨sent, r'⟩ := by
  induction k generalizing r' with
  | zero =>
    cases hk
    exact h
  | succ k ih =>
    obtain ⟨r₁, hk₁, hr₁, hpass⟩ := passes_succ hk
    exact Reached.step (ih hk₁) (hcheck r₁ hr₁) (Step.pass hpass)

/-- An environment in which calls for values reply the same. -/
def replying (reply : ValueReply) : Env where
  root := []
  uri := []
  snprintf n s := s.take (n - 1)
  urlDecode s _ := (s, s.length)
  ssiFunc _ := none
  fopen _ _ := none
  popen _ _ := none
  sysctlbyname _ _ _ := reply
  kenv _ _ _ := reply

/-- A page with one directive, and a `>` after it. -/
def kenvPage : Bytes := str "<!--#kenv \"a\"-->>"

/-- The first call for the page, with a large buffer. -/
def firstCall (env : Env) : Reading := startReading env (newSsi kenvPage) (fun _ => 0) 100

/-- What a careful step is where no value is found and no file can be opened. -/
def carefulCheck (r : Reading) : Bool := r.inc.state ≠ .buf || r.inc.nbuf ≠ 1 || r.inc.fp.head? ≠ some 62

theorem careful_of_check {r : Reading} (h : carefulCheck r = true) : Careful (replying ⟨[], false⟩) r := by
  refine ⟨?_, fun hstate hnbuf hhead => ?_, fun _ _ _ path file _ hfile => ?_⟩
  · rintro ⟨cmd, outside, r₁, p, name, -, hlookup, -, -, hok⟩
    cases cmd <;> cases hlookup <;> cases hok
  · rw [carefulCheck, hstate, hnbuf, hhead] at h
    exact absurd h (by decide)
  · cases hfile

end ZRouter.Shttpd
