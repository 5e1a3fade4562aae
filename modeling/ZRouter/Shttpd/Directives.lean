import ZRouter.Shttpd.Ssi

/-!
# What the directives leave (`io_ssi_zrouter.c`)

A directive writes to the output behind what is there and to its level.  None of them but `do_sysctl` and
`do_kenv` makes a level buffer that has not buffered before; `do_include` may open a level that was left
so.

* `inc_modify`, `out_put`, `text_push`: the fields after writing;
* `Sane`: a level in use that buffers has buffered something, or is not about to read a `>`;
* `Keeps`: what a directive keeps of this; `doInclude_keeps`, …, `doExec_keeps`;
* `doValue_none`, `doValue_some`, `afterValue_failed`, `afterValue_found`: the directives with a value.
-/

namespace ZRouter.Shttpd

/-! ### Writing -/

section Fields

variable (r : Reading) (f : Inc → Inc)

@[simp] theorem inc_modify : (r.modify f).inc = f r.inc := Function.update_self ..
@[simp] theorem n_modify : (r.modify f).n = r.n := rfl
@[simp] theorem len_modify : (r.modify f).len = r.len := rfl
@[simp] theorem vbuf_modify : (r.modify f).vbuf = r.vbuf := rfl
@[simp] theorem nest_modify : (r.modify f).ssi.nest = r.ssi.nest := rfl
@[simp] theorem calls_modify : (r.modify f).ssi.calls = r.ssi.calls := rfl
@[simp] theorem out_modify : (r.modify f).out = r.out := rfl
@[simp] theorem room_modify : (r.modify f).room = r.room := rfl
@[simp] theorem inc_put (off : ℕ) (bs : Bytes) : (r.put off bs).inc = r.inc := rfl

theorem incs_modify (i : ℕ) : (r.modify f).ssi.incs i =
    if i = r.ssi.nest then f r.inc else r.ssi.incs i := by
  rw [Reading.modify]
  exact Function.update_apply ..

theorem modify_modify (g : Inc → Inc) : (r.modify f).modify g = r.modify (g ∘ f) := by
  rw [Reading.modify, inc_modify]
  simp [Reading.modify]

end Fields

theorem out_length (r : Reading) : r.out.length = r.n.toNat := by
  rw [Reading.out, List.length_map, List.length_range]

/-- Bytes behind what has been written. -/
theorem out_put {r : Reading} (hn : 0 ≤ r.n) (bs : Bytes) : (r.put r.n.toNat bs).out = r.out ++ bs := by
  obtain ⟨k, hk⟩ := Int.eq_ofNat_of_zero_le hn
  have hn' : (r.put r.n.toNat bs).n.toNat = k + bs.length := by
    show (r.n + bs.length).toNat = _
    omega
  have hkn : r.n.toNat = k := by omega
  refine List.ext_getElem? fun i => ?_
  rw [Reading.out, hn', List.getElem?_map, List.getElem?_append, out_length, hkn]
  show Option.map (store r.vbuf k bs) _ = _
  by_cases hi : i < k
  · rw [if_pos hi, List.getElem?_range (by omega), Reading.out, List.getElem?_map, hkn,
      List.getElem?_range hi]
    simp [store, hi]
  · rw [if_neg hi]
    by_cases hlt : i < k + bs.length
    · have hidx : i - k < bs.length := by omega
      rw [List.getElem?_range hlt]
      simp [store, hi, List.getElem?_eq_getElem hidx]
    · rw [List.getElem?_eq_none (by rw [List.length_range]; omega), List.getElem?_eq_none (by omega)]
      rfl

/-- One more character in the buffer. -/
theorem text_push (inc : Inc) (ch : UInt8) :
    ({ inc with buf := Function.update inc.buf inc.nbuf ch, nbuf := inc.nbuf + 1 } : Inc).text =
      inc.text ++ [ch] := by
  rw [Inc.text, Inc.text, List.range_succ, List.map_append, List.map_singleton]
  dsimp only
  rw [Function.update_self]
  congr 1
  refine List.map_congr_left fun i hi => ?_
  rw [Function.update_of_ne (List.mem_range.1 hi).ne]

/-! ### Directives -/

/-- A level in use that buffers has buffered something, or is not about to read a `>`. -/
structure Sane (r : Reading) : Prop where
  n_nonneg : 0 ≤ r.n
  buf : ∀ i, i ≤ r.ssi.nest → (r.ssi.incs i).state = .buf →
    1 ≤ (r.ssi.incs i).nbuf ∨ (r.ssi.incs i).fp.head? ≠ some 62

/-- No level starts to buffer a `>`, and the output is not taken back. -/
structure Keeps (r r' : Reading) : Prop where
  n_le : r.n ≤ r'.n
  buf : ∀ i, i ≤ r'.ssi.nest → (r'.ssi.incs i).state = .buf →
    (i ≤ r.ssi.nest ∧ (r.ssi.incs i).state = .buf ∧ (r'.ssi.incs i).nbuf = (r.ssi.incs i).nbuf ∧
      (r'.ssi.incs i).fp = (r.ssi.incs i).fp) ∨ (r'.ssi.incs i).fp.head? ≠ some 62

theorem Keeps.of_incs {r r' : Reading} (hn : r.n ≤ r'.n) (hnest : r'.ssi.nest ≤ r.ssi.nest)
    (hincs : r'.ssi.incs = r.ssi.incs) : Keeps r r' := by
  refine ⟨hn, fun i hi hbuf => Or.inl ?_⟩
  rw [hincs] at hbuf ⊢
  exact ⟨hi.trans hnest, hbuf, rfl, rfl⟩

theorem Keeps.refl (r : Reading) : Keeps r r := Keeps.of_incs le_rfl le_rfl rfl

theorem Keeps.trans {r r' r'' : Reading} (h : Keeps r r') (h' : Keeps r' r'') : Keeps r r'' := by
  refine ⟨h.n_le.trans h'.n_le, fun i hi hbuf => ?_⟩
  rcases h'.buf i hi hbuf with ⟨hi', hbuf', hnbuf', hfp'⟩ | hhead
  · rw [hnbuf', hfp']
    exact h.buf i hi' hbuf'
  · exact Or.inr hhead

theorem Sane.keeps {r r' : Reading} (hs : Sane r) (h : Keeps r r') : Sane r' := by
  refine ⟨hs.n_nonneg.trans h.n_le, fun i hi hbuf => ?_⟩
  rcases h.buf i hi hbuf with ⟨hi', hbuf', hnbuf, hfp⟩ | hhead
  · rw [hnbuf, hfp]
    exact hs.buf i hi' hbuf'
  · exact Or.inr hhead

/-- Writing to the current level, which does not buffer afterwards or is as before. -/
theorem Keeps.modify (r : Reading) {f : Inc → Inc}
    (hf : (f r.inc).state = .buf → r.inc.state = .buf ∧ (f r.inc).nbuf = r.inc.nbuf ∧
      (f r.inc).fp = r.inc.fp) : Keeps r (r.modify f) := by
  refine ⟨le_rfl, fun i hi hbuf => Or.inl ⟨hi, ?_⟩⟩
  rw [incs_modify] at hbuf ⊢
  split_ifs at hbuf ⊢ with hnest
  · rw [hnest]
    exact hf hbuf
  · exact ⟨hbuf, rfl, rfl⟩

/-- The same for a level that has buffered something. -/
theorem Sane.modify {r : Reading} (hs : Sane r) {f : Inc → Inc}
    (hf : (f r.inc).state = .buf → 1 ≤ (f r.inc).nbuf) : Sane (r.modify f) := by
  refine ⟨hs.n_nonneg, fun i hi hbuf => ?_⟩
  rw [incs_modify] at hbuf ⊢
  split_ifs at hbuf ⊢ with hnest
  · exact Or.inl (hf hbuf)
  · exact hs.buf i hi hbuf

theorem Keeps.put (r : Reading) (off : ℕ) (bs : Bytes) : Keeps r (r.put off bs) := by
  refine Keeps.of_incs ?_ le_rfl rfl
  show r.n ≤ r.n + bs.length
  omega

/-- What a function of a directive leaves alone. -/
structure Quiet (r r' : Reading) : Prop where
  n : r'.n = r.n
  vbuf : r'.vbuf = r.vbuf
  nest : r'.ssi.nest = r.ssi.nest
  state : r'.inc.state = r.inc.state
  nbuf : r'.inc.nbuf = r.inc.nbuf
  fp : r'.inc.fp = r.inc.fp
  cond : r'.inc.cond = r.inc.cond
  keeps : Keeps r r'

theorem Quiet.buffer (r : Reading) (buf : ℕ → UInt8) :
    Quiet r (r.modify fun inc => { inc with buf := buf }) := by
  refine ⟨rfl, rfl, rfl, ?_, ?_, ?_, ?_, Keeps.modify r fun hbuf => ⟨hbuf, rfl, rfl⟩⟩ <;> rw [inc_modify]

theorem trimSpaces_cases (r : Reading) : trimSpaces r = .error .overrun ∨
    ∃ r' p, trimSpaces r = .ok (r', p) ∧ Quiet r r' := by
  unfold trimSpaces
  dsimp only
  rcases hblank : firstBlank (trimmed r.inc) with _ | i
  · exact Or.inl rfl
  · dsimp only
    rcases htext : firstText (trimmed r.inc) i with _ | p
    · exact Or.inl rfl
    · exact Or.inr ⟨_, p, rfl, Quiet.buffer r _⟩

theorem trimSpaces_nest {r r' : Reading} {p : ℕ} (h : trimSpaces r = .ok (r', p)) :
    r'.ssi.nest = r.ssi.nest := by
  rcases trimSpaces_cases r with herror | ⟨r₁, p₁, htrim, hquiet⟩
  · rw [herror] at h
    cases h
  · rw [htrim] at h
    cases h
    exact hquiet.nest

theorem call_keeps (env : Env) (r : Reading) (name len : ℕ) : Keeps r (call env r name len).1 := by
  have hcut : ∀ buf, Keeps r (r.modify fun inc => { inc with buf := buf }) :=
    fun buf => Keeps.modify r fun hbuf => ⟨hbuf, rfl, rfl⟩
  rw [call]
  dsimp only
  split_ifs
  · split
    · exact hcut _
    · exact (hcut _).trans (Keeps.of_incs le_rfl le_rfl rfl)
  · split
    · exact Keeps.refl r
    · exact Keeps.of_incs le_rfl le_rfl rfl

theorem doCall2_keeps (env : Env) (r : Reading) (off len : ℕ) : Keeps r (doCall2 env r off len) := by
  have hcall := call_keeps env r 0 len
  rw [doCall2]
  dsimp only
  have hput := hcall.trans (Keeps.put (call env r 0 len).1 off ((call env r 0 len).2.out.take len))
  split_ifs
  · exact hput.trans (Keeps.modify _ fun hbuf => by cases hbuf)
  · exact hput

theorem doExec2_keeps (r : Reading) (off len : ℕ) : Keeps r (doExec2 r off len) := by
  have hput := Keeps.put r off (r.inc.pipe.take len)
  rw [doExec2]
  split_ifs
  · exact hput.trans (Keeps.modify _ fun hbuf => by cases hbuf)
  · exact hput.trans (Keeps.modify _ fun hbuf => ⟨hbuf, rfl, rfl⟩)

/-- What the functions of directives have in common: no new buffering. -/
def RunKeeps (r : Reading) (x : Except Fault Reading) : Prop :=
  x ≠ .error .below ∧ ∀ r', x = .ok r' → Keeps r r'

theorem RunKeeps.ok {r r' : Reading} (h : Keeps r r') : RunKeeps r (.ok r') := by
  refine ⟨fun heq => (nomatch heq), fun r'' heq => ?_⟩
  cases heq
  exact h

theorem RunKeeps.trim {r : Reading} {f : Reading × ℕ → Except Fault Reading}
    (hf : ∀ r' p, Quiet r r' → RunKeeps r (f (r', p))) : RunKeeps r (trimSpaces r >>= f) := by
  rcases trimSpaces_cases r with htrim | ⟨r', p, htrim, hquiet⟩
  · rw [htrim]
    exact ⟨fun heq => (nomatch heq), fun r' heq => (nomatch heq)⟩
  · rw [htrim]
    exact hf r' p hquiet

/-- Writing to a level that does not buffer. -/
theorem RunKeeps.modify {r r' : Reading} (h : Keeps r r') {f : Inc → Inc}
    (hf : (f r'.inc).state = .buf → r'.inc.state = .buf ∧ (f r'.inc).nbuf = r'.inc.nbuf ∧
      (f r'.inc).fp = r'.inc.fp) : RunKeeps r (.ok (r'.modify f)) := RunKeeps.ok (h.trans (Keeps.modify r' hf))

theorem evaluate_keeps (env : Env) (r : Reading) (name : ℕ) : Keeps r (evaluate env r name).1 :=
  call_keeps env r name 0

theorem doInclude_keeps {env : Env} {r : Reading}
    (hfresh : r.inc.cond = .go → r.ssi.nest < nestMax - 1 →
      ∀ path file, getPath env (r.inc.text.drop 13) = some path → env.fopen r.ssi.calls path = some file →
      (r.ssi.incs (r.ssi.nest + 1)).state = .buf → file.head? ≠ some 62) :
    RunKeeps r (doInclude env r) := by
  unfold doInclude
  split_ifs with _ hcond hroom
  · exact ⟨fun heq => (nomatch heq), fun r' heq => (nomatch heq)⟩
  · exact RunKeeps.ok (Keeps.refl r)
  · exact RunKeeps.ok (Keeps.refl r)
  · have hgo : r.inc.cond = .go := by
      cases hc : r.inc.cond with
      | go => rfl
      | stop => exact absurd hc hcond
    split
    · exact RunKeeps.ok (Keeps.refl r)
    · rename_i path hpath
      split
      · exact RunKeeps.ok (Keeps.of_incs le_rfl le_rfl rfl)
      · rename_i file hfile
        refine RunKeeps.ok ⟨le_rfl, fun i hi hbuf => ?_⟩
        rw [incs_modify] at hbuf ⊢
        dsimp only at hbuf ⊢
        split_ifs at hbuf ⊢ with hnest
        · -- the level of the file, in the state that it was left in
          exact Or.inr (hfresh hgo (Nat.lt_of_not_le hroom) path file hpath hfile hbuf)
        · have hle : i ≤ r.ssi.nest + 1 := hi
          exact Or.inl ⟨by omega, hbuf, rfl, rfl⟩

theorem doIf_keeps (env : Env) (r : Reading) : RunKeeps r (doIf env r) :=
  RunKeeps.trim fun r' p hquiet =>
    RunKeeps.modify (hquiet.keeps.trans (evaluate_keeps env r' p)) fun hbuf => ⟨hbuf, rfl, rfl⟩

theorem doElif_keeps (env : Env) (r : Reading) : RunKeeps r (doElif env r) := by
  refine RunKeeps.trim fun r' p hquiet => ?_
  dsimp only
  by_cases hstop : r'.inc.cond = .stop
  · rw [if_pos hstop]
    have hevaluate := hquiet.keeps.trans (evaluate_keeps env r' p)
    exact RunKeeps.modify hevaluate fun hbuf => ⟨hbuf, rfl, rfl⟩
  · rw [if_neg hstop]
    exact RunKeeps.modify hquiet.keeps fun hbuf => ⟨hbuf, rfl, rfl⟩

theorem doCall_keeps (env : Env) (r : Reading) : RunKeeps r (doCall env r) := by
  refine RunKeeps.trim fun r' p hquiet => ?_
  dsimp only
  split_ifs
  · refine RunKeeps.ok (hquiet.keeps.trans ((Keeps.modify r' ?_).trans (doCall2_keeps env _ _ _)))
    intro hbuf
    cases hbuf
  · exact RunKeeps.ok hquiet.keeps

theorem doExec_keeps (env : Env) (r : Reading) : RunKeeps r (doExec env r) := by
  refine RunKeeps.trim fun r' p hquiet => ?_
  dsimp only
  split
  · exact RunKeeps.ok hquiet.keeps
  · have hcalls : Keeps r { r' with ssi := { r'.ssi with calls := r'.ssi.calls + 1 } } :=
      ⟨hquiet.keeps.n_le, hquiet.keeps.buf⟩
    split
    · exact RunKeeps.ok hcalls
    · refine RunKeeps.ok (hcalls.trans ((Keeps.modify _ ?_).trans (doExec2_keeps _ _ _)))
      intro hbuf
      cases hbuf

section Value

variable {env : Env} {r r₁ : Reading} {p : ℕ} {outside : ℕ → Bytes → ℕ → ValueReply} {state : State}

theorem doValue_none (htrim : trimSpaces r = .ok (r₁, p)) (hname : quoted env r₁ p = none) :
    doValue outside state env r = .ok r₁ := by
  unfold doValue
  rw [htrim]
  simp only [bind, Except.bind, hname]
  rfl

theorem doValue_some {name : Bytes} (htrim : trimSpaces r = .ok (r₁, p))
    (hname : quoted env r₁ p = some name) :
    doValue outside state env r = .ok (afterValue (outside r₁.ssi.calls name r₁.room) state r₁) := by
  unfold doValue
  rw [htrim]
  simp only [bind, Except.bind, hname]
  rfl

theorem afterValue_failed {reply : ValueReply} (hreply : reply.ok = false) :
    (afterValue reply state r).inc.state = r.inc.state ∧ (afterValue reply state r).ssi.nest = r.ssi.nest ∧
      Keeps r (afterValue reply state r) := by
  rw [afterValue, if_neg (by rw [hreply]; decide)]
  exact ⟨rfl, rfl, Keeps.of_incs le_rfl le_rfl rfl⟩

theorem afterValue_found {reply : ValueReply} (hreply : reply.ok = true) :
    (afterValue reply state r).inc.state = .buf ∧ (afterValue reply state r).ssi.nest = r.ssi.nest := by
  rw [afterValue, if_pos hreply]
  exact ⟨by rw [inc_modify]; rfl, rfl⟩

/-- A directive that finds no value leaves the page ready. -/
theorem doValue_quiet {r' : Reading}
    (hfail : ∀ r₁ p name, trimSpaces r = .ok (r₁, p) → quoted env r₁ p = some name →
      (outside r₁.ssi.calls name r₁.room).ok = false)
    (h : doValue outside state env r = .ok r') :
    r'.inc.state = r.inc.state ∧ r'.ssi.nest = r.ssi.nest ∧ Keeps r r' := by
  rcases trimSpaces_cases r with htrim | ⟨r₁, p, htrim, hquiet⟩
  · unfold doValue at h
    rw [htrim] at h
    cases h
  · cases hname : quoted env r₁ p with
    | none =>
      rw [doValue_none htrim hname] at h
      cases h
      exact ⟨hquiet.state, hquiet.nest, hquiet.keeps⟩
    | some name =>
      rw [doValue_some htrim hname] at h
      cases h
      obtain ⟨hstate, hnest, hkeeps⟩ := afterValue_failed (r := r₁) (hfail r₁ p name htrim hname)
      exact ⟨hstate.trans hquiet.state, hnest.trans hquiet.nest, hquiet.keeps.trans hkeeps⟩

theorem doValue_ne_below (outside : ℕ → Bytes → ℕ → ValueReply) (state : State) (env : Env) (r : Reading) :
    doValue outside state env r ≠ .error .below := by
  rcases trimSpaces_cases r with htrim | ⟨r₁, p, htrim, -⟩
  · unfold doValue
    rw [htrim]
    exact fun heq => (nomatch heq)
  · cases hname : quoted env r₁ p with
    | none =>
      rw [doValue_none htrim hname]
      exact fun heq => (nomatch heq)
    | some name =>
      rw [doValue_some htrim hname]
      exact fun heq => (nomatch heq)

end Value

end ZRouter.Shttpd
