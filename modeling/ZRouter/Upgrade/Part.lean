import ZRouter.Upgrade.Request

/-!
# The search for the firmware part

What `test_part_header` looks for, as relations on the bytes of the body:

* `SkipsTo xs ws`: the lines of a part header up to the empty one, with the content `ws` behind it;
* `SeeksTo b xs ys`: the content of a part up to the next boundary line, with `ys` behind it;
* `FindsPart b xs disp ws`: the part that is accepted, its `Content-Disposition` line and its
  content;
* `MeetsUnclosed b xs`: a file name that is not closed is met before.

`FindsPart.run` and `MeetsUnclosed.run` say that `test_part_header` follows them as long as no call of
`local_read` comes back empty before.  Whatever the calls return, it ends, and it has found such a part
or met such a file name unless a call came back empty (`partPass_settles`, `testPartHeader_eventually`).
-/

namespace ZRouter.Upgrade

/-- The content behind a part header. -/
inductive SkipsTo : Bytes → Bytes → Prop
  | empty {xs ws} (hl : line xs = some ([], ws)) : SkipsTo xs ws
  | line {xs ys ws c l} (hl : line xs = some (c :: l, ys)) (h : SkipsTo ys ws) : SkipsTo xs ws

/-- The bytes behind the next boundary line that does not end the form data. -/
inductive SeeksTo (b : Bytes) : Bytes → Bytes → Prop
  | byte {c xs ws} (hc : c ≠ lf) (h : SeeksTo b xs ws) : SeeksTo b (c :: xs) ws
  | noDash {c xs ws} (hc : c ≠ 45) (h : SeeksTo b xs ws) : SeeksTo b (lf :: c :: xs) ws
  | oneDash {c xs ws} (hc : c ≠ 45) (h : SeeksTo b xs ws) : SeeksTo b (lf :: 45 :: c :: xs) ws
  | other {xs l ys ws} (hl : line xs = some (l, ys)) (hb : b.isPrefixOf l = false)
      (h : SeeksTo b ys ws) : SeeksTo b (lf :: 45 :: 45 :: xs) ws
  | boundary {xs l ws} (hl : line xs = some (l, ws)) (hb : b.isPrefixOf l = true)
      (he : (str "--").isPrefixOf (l.drop b.length) = false) : SeeksTo b (lf :: 45 :: 45 :: xs) ws

/-- The part that is accepted: its `Content-Disposition` line and its content. -/
inductive FindsPart (b : Bytes) : Bytes → Bytes → Bytes → Prop
  | here {xs disp ys ws} (hl : line xs = some (disp, ys)) (hd : testDisposition disp = .matched 2)
      (h : SkipsTo ys ws) : FindsPart b xs disp ws
  | next {xs l ys zs xs' disp ws m} (hl : line xs = some (l, ys))
      (hd : testDisposition l = .matched m) (hm : m ≠ 2) (h : SkipsTo ys zs)
      (hs : SeeksTo b zs xs') (hp : FindsPart b xs' disp ws) : FindsPart b xs disp ws

/-- A part that is not accepted, with `xs'` behind the boundary line that ends it. -/
inductive PassesPart (b : Bytes) : Bytes → Bytes → Prop
  | pass {xs l ys zs xs' m} (hl : line xs = some (l, ys)) (hd : testDisposition l = .matched m)
      (hm : m ≠ 2) (h : SkipsTo ys zs) (hs : SeeksTo b zs xs') : PassesPart b xs xs'

/-- A file name that is not closed stands in the header of a part behind parts that are not accepted. -/
inductive MeetsUnclosed (b : Bytes) : Bytes → Prop
  | here {xs l ys} (hl : line xs = some (l, ys)) (hd : testDisposition l = .unclosed) :
      MeetsUnclosed b xs
  | next {xs xs'} (hp : PassesPart b xs xs') (h : MeetsUnclosed b xs') : MeetsUnclosed b xs

theorem SkipsTo.suffix {xs ws : Bytes} (h : SkipsTo xs ws) : ws <:+ xs := by
  induction h with
  | empty hl => exact (line_suffix hl).1
  | line hl _ ih => exact ih.trans (line_suffix hl).1

theorem SeeksTo.suffix {b xs ws : Bytes} (h : SeeksTo b xs ws) : ws <:+ xs := by
  have cons : ∀ {c ys}, ws <:+ ys → ws <:+ c :: ys := fun h => h.trans (List.suffix_cons _ _)
  induction h with
  | byte _ _ ih => exact cons (ih cons)
  | noDash _ _ ih => exact cons (cons (ih cons))
  | oneDash _ _ ih => exact cons (cons (cons (ih cons)))
  | other hl _ _ ih => exact cons (cons (cons ((ih cons).trans (line_suffix hl).1)))
  | boundary hl => exact cons (cons (cons (line_suffix hl).1))

theorem FindsPart.suffix {b xs disp ws : Bytes} (h : FindsPart b xs disp ws) : ws <:+ xs := by
  induction h with
  | here hl _ h => exact h.suffix.trans (line_suffix hl).1
  | next hl _ _ h hs _ ih =>
    exact ((ih.trans hs.suffix).trans h.suffix).trans (line_suffix hl).1

theorem PassesPart.finds {b xs xs' disp ws : Bytes} (hp : PassesPart b xs xs')
    (h : FindsPart b xs' disp ws) : FindsPart b xs disp ws := by
  obtain ⟨hl, hd, hm, hskip, hseek⟩ := hp
  exact .next hl hd hm hskip hseek h

theorem MeetsUnclosed.ne_nil {b xs : Bytes} (h : MeetsUnclosed b xs) : xs ≠ [] := by
  rintro rfl
  rcases h with ⟨hl, -⟩ | ⟨⟨hl, -⟩, -⟩
  · exact absurd (line_suffix hl).2 (Nat.not_lt_zero _)
  · exact absurd (line_suffix hl).2 (Nat.not_lt_zero _)

theorem FindsPart.disposition {b xs disp ws : Bytes} (h : FindsPart b xs disp ws) :
    testDisposition disp = .matched 2 := by
  induction h with
  | here _ hd _ => exact hd
  | next _ _ _ _ _ _ ih => exact ih

/-! ### One reading -/

section Seeks

variable {b xs ys ws : Bytes} {c : UInt8}

theorem seeksTo_byte (hc : c ≠ lf) : SeeksTo b (c :: xs) ws ↔ SeeksTo b xs ws := by
  constructor
  · intro h
    cases h with
    | byte _ h => exact h
    | noDash => exact absurd rfl hc
    | oneDash => exact absurd rfl hc
    | other => exact absurd rfl hc
    | boundary => exact absurd rfl hc
  · exact .byte hc

theorem seeksTo_noDash (hc : c ≠ 45) : SeeksTo b (lf :: c :: xs) ws ↔ SeeksTo b xs ws := by
  constructor
  · intro h
    cases h with
    | byte hlf => exact absurd rfl hlf
    | noDash _ h => exact h
    | oneDash => exact absurd rfl hc
    | other => exact absurd rfl hc
    | boundary => exact absurd rfl hc
  · exact .noDash hc

theorem seeksTo_oneDash (hc : c ≠ 45) : SeeksTo b (lf :: 45 :: c :: xs) ws ↔ SeeksTo b xs ws := by
  constructor
  · intro h
    cases h with
    | byte hlf => exact absurd rfl hlf
    | noDash h45 => exact absurd rfl h45
    | oneDash _ h => exact h
    | other => exact absurd rfl hc
    | boundary => exact absurd rfl hc
  · exact .oneDash hc

/-- A line behind two dashes. -/
theorem seeksTo_line {l : Bytes} (hl : line xs = some (l, ys)) :
    SeeksTo b (lf :: 45 :: 45 :: xs) ws ↔
      if b.isPrefixOf l = true then (str "--").isPrefixOf (l.drop b.length) = false ∧ ws = ys
      else SeeksTo b ys ws := by
  constructor
  · intro h
    cases h with
    | byte hlf => exact absurd rfl hlf
    | noDash h45 => exact absurd rfl h45
    | oneDash h45 => exact absurd rfl h45
    | other hl' hb h =>
      obtain ⟨rfl, rfl⟩ := Prod.mk.inj (Option.some.inj (hl.symm.trans hl'))
      rw [if_neg (by simp [hb])]
      exact h
    | boundary hl' hb he =>
      obtain ⟨rfl, rfl⟩ := Prod.mk.inj (Option.some.inj (hl.symm.trans hl'))
      rw [if_pos hb]
      exact ⟨he, rfl⟩
  · split_ifs with hb
    · rintro ⟨he, rfl⟩
      exact .boundary hl hb he
    · exact .other hl (Bool.eq_false_iff.2 hb)

end Seeks

theorem SkipsTo.unique {xs ws ws' : Bytes} (h : SkipsTo xs ws) (h' : SkipsTo xs ws') : ws = ws' := by
  induction h with
  | empty hl =>
    cases h' with
    | empty hl' => exact (Prod.mk.inj (Option.some.inj (hl.symm.trans hl'))).2
    | line hl' => cases hl.symm.trans hl'
  | line hl h ih =>
    cases h' with
    | empty hl' => cases hl.symm.trans hl'
    | line hl' h' => exact ih ((Prod.mk.inj (Option.some.inj (hl.symm.trans hl'))).2 ▸ h')

theorem SeeksTo.unique {b xs ws ws' : Bytes} (h : SeeksTo b xs ws) (h' : SeeksTo b xs ws') :
    ws = ws' := by
  induction h with
  | byte hc _ ih => exact ih ((seeksTo_byte hc).1 h')
  | noDash hc _ ih => exact ih ((seeksTo_noDash hc).1 h')
  | oneDash hc _ ih => exact ih ((seeksTo_oneDash hc).1 h')
  | other hl hb _ ih =>
    rw [seeksTo_line hl, if_neg (by simp [hb])] at h'
    exact ih h'
  | boundary hl hb _ =>
    rw [seeksTo_line hl, if_pos hb] at h'
    exact h'.2.symm

/-- At most one part is accepted. -/
theorem FindsPart.unique {b xs disp disp' ws ws' : Bytes} (h : FindsPart b xs disp ws)
    (h' : FindsPart b xs disp' ws') : disp = disp' ∧ ws = ws' := by
  induction h with
  | here hl hd h =>
    cases h' with
    | here hl' _ h' =>
      obtain ⟨rfl, rfl⟩ := Prod.mk.inj (Option.some.inj (hl.symm.trans hl'))
      exact ⟨rfl, h.unique h'⟩
    | next hl' hd' hm =>
      obtain ⟨rfl, rfl⟩ := Prod.mk.inj (Option.some.inj (hl.symm.trans hl'))
      exact absurd (Disposition.matched.inj (hd'.symm.trans hd)) hm
  | next hl hd hm h hs _ ih =>
    cases h' with
    | here hl' hd' =>
      obtain ⟨rfl, rfl⟩ := Prod.mk.inj (Option.some.inj (hl.symm.trans hl'))
      exact absurd (Disposition.matched.inj (hd.symm.trans hd')) hm
    | next hl' _ _ h' hs' hp' =>
      obtain ⟨rfl, rfl⟩ := Prod.mk.inj (Option.some.inj (hl.symm.trans hl'))
      obtain rfl := h.unique h'
      obtain rfl := hs.unique hs'
      exact ih hp'

/-! ### Finding it -/

section Run

variable {P : Reader → Bytes → Prop} {stop : Bytes → Prop} {b ws : Bytes}

theorem localRead_of_cons (hP : Reads P stop) {r : Reader} {c : UInt8} {xs : Bytes}
    (hr : P r (c :: xs)) (hlt : ¬ stop (c :: xs)) : ∃ r', localRead r = (some c, r') ∧ P r' xs := by
  rcases hP r _ hr with ⟨c', xs', r', hx, h1, h2⟩ | ⟨hs, -⟩
  · obtain ⟨rfl, rfl⟩ := List.cons_eq_cons.1 hx
    exact ⟨r', h1, h2⟩
  · exact absurd hs hlt

theorem SkipsTo.run (hP : Reads P stop) {xs : Bytes} (h : SkipsTo xs ws)
    (hstop : ∀ zs, stop zs → zs.length ≤ ws.length) {r : Reader} (hr : P r xs) :
    ∃ r', P r' ws ∧ Exec.Eventually (fun n => Exec.loop skipPass n r) (.ret r') := by
  induction h generalizing r with
  | empty hl =>
    obtain ⟨r', h1, h2⟩ := readLine_of_line hP hr hl hstop
    exact ⟨r', h2, .loop_done (by rw [skipPass, h1])⟩
  | line hl h ih =>
    have hle := h.suffix.length_le
    obtain ⟨r₁, h1, h2⟩ := readLine_of_line hP hr hl fun zs hz => (hstop zs hz).trans hle
    obtain ⟨r', h3, h4⟩ := ih hstop h2
    exact ⟨r', h3, h4.loop_next (by rw [skipPass, h1])⟩

theorem SeeksTo.run (hP : Reads P stop) {xs : Bytes} (h : SeeksTo b xs ws)
    (hstop : ∀ zs, stop zs → zs.length ≤ ws.length) {r : Reader} (hr : P r xs) :
    ∃ r', P r' ws ∧ Exec.Eventually (fun n => Exec.loop (seekPass b) n r) (.ret (some r')) := by
  -- no byte up to the boundary line can be missed
  have byte : ∀ {r c xs}, P r (c :: xs) → ws <:+ xs → ∃ r', localRead r = (some c, r') ∧ P r' xs := by
    intro r c xs hr hsuf
    refine localRead_of_cons hP hr fun hs => ?_
    have h1 := hstop _ hs
    have h2 := hsuf.length_le
    rw [List.length_cons] at h1
    omega
  have suf3 : ∀ {c₁ c₂ xs}, ws <:+ xs → ws <:+ c₁ :: c₂ :: xs := fun h =>
    (h.trans (List.suffix_cons _ _)).trans (List.suffix_cons _ _)
  induction h generalizing r with
  | byte hc h ih =>
    obtain ⟨r₁, h1, h2⟩ := byte hr h.suffix
    obtain ⟨r', h3, h4⟩ := ih hstop h2 byte suf3
    exact ⟨r', h3, h4.loop_next (by simp only [seekPass, h1, if_pos hc])⟩
  | noDash hc h ih =>
    obtain ⟨r₁, h1, h2⟩ := byte hr (h.suffix.trans (List.suffix_cons _ _))
    obtain ⟨r₂, h3, h4⟩ := byte h2 h.suffix
    obtain ⟨r', h5, h6⟩ := ih hstop h4 byte suf3
    exact ⟨r', h5, h6.loop_next (by simp [seekPass, h1, h3, hc])⟩
  | oneDash hc h ih =>
    obtain ⟨r₁, h1, h2⟩ := byte hr (suf3 h.suffix)
    obtain ⟨r₂, h3, h4⟩ := byte h2 (h.suffix.trans (List.suffix_cons _ _))
    obtain ⟨r₃, h5, h6⟩ := byte h4 h.suffix
    obtain ⟨r', h7, h8⟩ := ih hstop h6 byte suf3
    exact ⟨r', h7, h8.loop_next (by simp [seekPass, h1, h3, h5, hc])⟩
  | other hl hb h ih =>
    have hsuf := h.suffix.trans (line_suffix hl).1
    have hle := h.suffix.length_le
    obtain ⟨r₁, h1, h2⟩ := byte hr (suf3 hsuf)
    obtain ⟨r₂, h3, h4⟩ := byte h2 (hsuf.trans (List.suffix_cons _ _))
    obtain ⟨r₃, h5, h6⟩ := byte h4 hsuf
    obtain ⟨r₄, h7, h8⟩ := readLine_of_line hP h6 hl fun zs hz => (hstop zs hz).trans hle
    obtain ⟨r', h9, h10⟩ := ih hstop h8 byte suf3
    exact ⟨r', h9, h10.loop_next (by simp [seekPass, h1, h3, h5, h7, hb])⟩
  | boundary hl hb he =>
    have hsuf := (line_suffix hl).1
    obtain ⟨r₁, h1, h2⟩ := byte hr (suf3 hsuf)
    obtain ⟨r₂, h3, h4⟩ := byte h2 (hsuf.trans (List.suffix_cons _ _))
    obtain ⟨r₃, h5, h6⟩ := byte h4 hsuf
    obtain ⟨r₄, h7, h8⟩ := readLine_of_line hP h6 hl hstop
    exact ⟨r₄, h8, .loop_done (by simp [seekPass, h1, h3, h5, h7, hb, he])⟩

/-- One activation of `test_part_header` that gets as far as the content behind the part header. -/
theorem partPass_matched (hP : Reads P stop) {xs l ys : Bytes} {m : ℕ} (hl : line xs = some (l, ys))
    (hd : testDisposition l = .matched m) (h : SkipsTo ys ws)
    (hstop : ∀ zs, stop zs → zs.length ≤ ws.length) {r : Reader} (hr : P r xs) :
    ∃ r', P r' ws ∧ ∀ x, Exec.Eventually (fun f => partContent f b m r') x →
      Exec.Eventually (fun f => partPass f b r) x := by
  obtain ⟨r₁, h1, h2⟩ := readLine_of_line hP hr hl fun zs hz =>
    (hstop zs hz).trans h.suffix.length_le
  obtain ⟨r', h3, h4⟩ := h.run hP hstop h2
  refine ⟨r', h3, fun x hx => ?_⟩
  simp only [partPass, h1, hd]
  exact h4.bind hx

/-- The part is found as long as no call comes back empty before its content. -/
theorem FindsPart.run (hP : Reads P stop) {xs disp : Bytes} (h : FindsPart b xs disp ws)
    (hstop : ∀ zs, stop zs → zs.length ≤ ws.length) {r : Reader} (hr : P r xs) :
    ∃ r', P r' ws ∧ Exec.Settles (fun f => partPass f b) r (.ret (.ready r')) := by
  induction h generalizing r with
  | here hl hd h =>
    obtain ⟨r', h1, h2⟩ := partPass_matched (b := b) hP hl hd h hstop hr
    exact ⟨r', h1, .done (h2 _ (.of_eq fun _ => if_pos rfl))⟩
  | next hl hd hm h hs hp ih =>
    have hle := hp.suffix.length_le
    have hle' := hle.trans hs.suffix.length_le
    obtain ⟨r₁, h1, h2⟩ := partPass_matched (b := b) hP hl hd h
      (fun zs hz => (hstop zs hz).trans hle') hr
    obtain ⟨r₂, h3, h4⟩ := hs.run hP (fun zs hz => (hstop zs hz).trans hle) h1
    obtain ⟨r', h5, h6⟩ := ih hstop h3
    refine ⟨r', h5, .next (h2 _ ?_) h6⟩
    simp only [partContent, if_neg hm]
    exact h4.bind (.of_eq fun _ => rfl)

/-- The file name is met as long as no call comes back empty. -/
theorem MeetsUnclosed.run (hP : Reads P stop) (hstop : ∀ zs, stop zs → zs = []) {xs : Bytes}
    (h : MeetsUnclosed b xs) {r : Reader} (hr : P r xs) :
    Exec.Settles (fun f => partPass f b) r .undefined := by
  have hle : ∀ ws zs : Bytes, stop zs → zs.length ≤ ws.length := fun ws zs hz => by
    rw [hstop zs hz]
    exact Nat.zero_le _
  induction h generalizing r with
  | here hl hd =>
    obtain ⟨r₁, h1, -⟩ := readLine_of_line hP hr hl (hle _)
    exact .undefined (.of_eq fun _ => by simp only [partPass, h1, hd])
  | next hp _ ih =>
    obtain ⟨hl, hd, hm, hskip, hseek⟩ := hp
    obtain ⟨r₁, h1, h2⟩ := partPass_matched (b := b) hP hl hd hskip (hle _) hr
    obtain ⟨r₂, h3, h4⟩ := hseek.run hP (hle _) h1
    refine .next (h2 _ ?_) (ih h3)
    simp only [partContent, if_neg hm]
    exact h4.bind (.of_eq fun _ => rfl)

end Run

/-! ### Coming to an end -/

section Ends

variable {P : Reader → Bytes → Prop} {stop : Bytes → Prop}

/-- A call of `local_read` came back empty before `xs`. -/
def Broken (stop : Bytes → Prop) (xs : Bytes) : Prop := ∃ zs, stop zs ∧ xs <:+ zs

theorem Broken.of_stop {xs : Bytes} (h : stop xs) : Broken stop xs := ⟨xs, h, List.suffix_rfl⟩

theorem Broken.suffix {xs ys : Bytes} (h : Broken stop xs) (hy : ys <:+ xs) : Broken stop ys := by
  obtain ⟨zs, hz, hx⟩ := h
  exact ⟨zs, hz, hy.trans hx⟩

/-- The loop over the lines of a part header ends. -/
theorem skip_eventually (hP : Reads P stop) {r : Reader} {xs : Bytes} (hr : P r xs) :
    ∃ r' xs', P r' xs' ∧ xs' <:+ xs ∧ (SkipsTo xs xs' ∨ Broken stop xs') ∧
      Exec.Eventually (fun n => Exec.loop skipPass n r) (.ret r') := by
  induction hn : xs.length using Nat.strong_induction_on generalizing r xs with
  | _ n ih =>
    rcases readLine_reads hP hr with ⟨l, ys, r₁, hl, h1, h2⟩ | ⟨xs', r₁, h1, h2, h3, h4, -⟩
    · obtain ⟨hsuf, hlt⟩ := line_suffix hl
      cases l with
      | nil => exact ⟨r₁, ys, h2, hsuf, Or.inl (.empty hl), .loop_done (by rw [skipPass, h1])⟩
      | cons c l =>
        obtain ⟨r', xs', h3, h4, h5, h6⟩ := ih ys.length (hn ▸ hlt) h2 rfl
        exact ⟨r', xs', h3, h4.trans hsuf, h5.imp_left (.line hl),
          h6.loop_next (by rw [skipPass, h1])⟩
    · exact ⟨r₁, xs', h2, h3, Or.inr (.of_stop h4), .loop_done (by rw [skipPass, h1])⟩

/-- One pass over the content of an unwanted part: it goes on behind the bytes it has used, or it
ends. -/
theorem seekPass_cases (hP : Reads P stop) (b : Bytes) {r : Reader} {xs : Bytes} (hr : P r xs) :
    (∃ r' xs', P r' xs' ∧ xs' <:+ xs ∧ xs'.length < xs.length ∧
      ((∀ ws, SeeksTo b xs' ws → SeeksTo b xs ws) ∨ Broken stop xs') ∧
      seekPass b r = .ret (.inl r')) ∨
    (∃ r' xs', P r' xs' ∧ xs' <:+ xs ∧ (SeeksTo b xs xs' ∨ Broken stop xs') ∧
      seekPass b r = .ret (.inr (some r'))) ∨
    seekPass b r = .ret (.inr none) := by
  rcases hP r xs hr with ⟨c₁, xs₁, r₁, rfl, h1, hr₁⟩ | ⟨hs, r₁, h1, hr₁⟩
  swap
  · exact Or.inr (Or.inl ⟨r₁, xs, hr₁, List.suffix_rfl, Or.inr (.of_stop hs),
      by simp only [seekPass, h1]⟩)
  -- a byte has been used, so that the pass may go on from here
  have goOn : ∀ r' xs', P r' xs' → xs' <:+ xs₁ →
      ((∀ ws, SeeksTo b xs' ws → SeeksTo b (c₁ :: xs₁) ws) ∨ Broken stop xs') →
      seekPass b r = .ret (.inl r') →
      ∃ r' xs', P r' xs' ∧ xs' <:+ c₁ :: xs₁ ∧ xs'.length < (c₁ :: xs₁).length ∧
        ((∀ ws, SeeksTo b xs' ws → SeeksTo b (c₁ :: xs₁) ws) ∨ Broken stop xs') ∧
        seekPass b r = .ret (.inl r') := fun r' xs' h2 h3 h4 h5 =>
    ⟨r', xs', h2, h3.trans (List.suffix_cons _ _), Nat.lt_succ_of_le h3.length_le, h4, h5⟩
  by_cases hc₁ : c₁ ≠ lf
  · exact Or.inl (goOn r₁ xs₁ hr₁ List.suffix_rfl (Or.inl fun _ => .byte hc₁)
      (by simp only [seekPass, h1, if_pos hc₁]))
  obtain rfl := not_not.1 hc₁
  rcases hP r₁ xs₁ hr₁ with ⟨c₂, xs₂, r₂, rfl, h2, hr₂⟩ | ⟨hs, r₂, h2, hr₂⟩
  swap
  · exact Or.inl (goOn r₂ xs₁ hr₂ List.suffix_rfl (Or.inr (.of_stop hs))
      (by simp only [seekPass, h1, if_neg hc₁, h2]))
  by_cases hc₂ : c₂ ≠ 45
  · exact Or.inl (goOn r₂ xs₂ hr₂ (List.suffix_cons _ _) (Or.inl fun _ => .noDash hc₂)
      (by simp only [seekPass, h1, if_neg hc₁, h2, if_pos hc₂]))
  obtain rfl := not_not.1 hc₂
  rcases hP r₂ xs₂ hr₂ with ⟨c₃, xs₃, r₃, rfl, h3, hr₃⟩ | ⟨hs, r₃, h3, hr₃⟩
  swap
  · exact Or.inl (goOn r₃ xs₂ hr₃ (List.suffix_cons _ _) (Or.inr (.of_stop hs))
      (by simp only [seekPass, h1, if_neg hc₁, h2, if_neg hc₂, h3]))
  have hsuf : xs₃ <:+ 45 :: c₃ :: xs₃ := (List.suffix_cons _ _).trans (List.suffix_cons _ _)
  by_cases hc₃ : c₃ ≠ 45
  · exact Or.inl (goOn r₃ xs₃ hr₃ hsuf (Or.inl fun _ => .oneDash hc₃)
      (by simp only [seekPass, h1, if_neg hc₁, h2, if_neg hc₂, h3, if_pos hc₃]))
  obtain rfl := not_not.1 hc₃
  rcases readLine_reads hP hr₃ with ⟨l, ys, r₄, hl, h4, hr₄⟩ | ⟨xs', r₄, h4, -⟩
  swap
  · exact Or.inr (Or.inr
      (by simp only [seekPass, h1, if_neg hc₁, h2, if_neg hc₂, h3, h4]))
  have hys := (line_suffix hl).1.trans hsuf
  have heq : seekPass b r = if b.isPrefixOf l then
      if (str "--").isPrefixOf (l.drop b.length) then .ret (.inr none) else .ret (.inr (some r₄))
      else .ret (.inl r₄) := by
    simp only [seekPass, h1, if_neg hc₁, h2, if_neg hc₂, h3, h4]
  split_ifs at heq with hb he
  · exact Or.inr (Or.inr heq)
  · exact Or.inr (Or.inl ⟨r₄, ys, hr₄, hys.trans (List.suffix_cons _ _),
      Or.inl (.boundary hl hb (Bool.eq_false_iff.2 he)), heq⟩)
  · exact Or.inl (goOn r₄ ys hr₄ hys (Or.inl fun _ => .other hl (Bool.eq_false_iff.2 hb)) heq)

/-- The loop over the content of an unwanted part ends. -/
theorem seek_eventually (hP : Reads P stop) (b : Bytes) {r : Reader} {xs : Bytes} (hr : P r xs) :
    (∃ r' xs', P r' xs' ∧ xs' <:+ xs ∧ (SeeksTo b xs xs' ∨ Broken stop xs') ∧
      Exec.Eventually (fun n => Exec.loop (seekPass b) n r) (.ret (some r'))) ∨
    Exec.Eventually (fun n => Exec.loop (seekPass b) n r) (.ret none) := by
  induction hn : xs.length using Nat.strong_induction_on generalizing r xs with
  | _ n ih =>
    rcases seekPass_cases hP b hr with
      ⟨r₁, ys, h1, hsuf, hlt, hys, h2⟩ | ⟨r₁, ys, h1, hsuf, hys, h2⟩ | h2
    · rcases ih ys.length (hn ▸ hlt) h1 rfl with ⟨r', xs', h3, h4, h5, h6⟩ | h5
      · refine Or.inl ⟨r', xs', h3, h4.trans hsuf, ?_, h6.loop_next h2⟩
        rcases hys with hys | hys
        · exact h5.imp_left (hys xs')
        · exact Or.inr (hys.suffix h4)
      · exact Or.inr (h5.loop_next h2)
    · exact Or.inl ⟨r₁, ys, h1, hsuf, hys, .loop_done h2⟩
    · exact Or.inr (.loop_done h2)

/-- What one activation of `test_part_header` can do: call itself with fewer bytes left, return, or
fail on a file name that is not closed. -/
theorem partPass_cases (hP : Reads P stop) (b : Bytes) {r : Reader} {xs : Bytes} (hr : P r xs) :
    (∃ r' xs', P r' xs' ∧ xs' <:+ xs ∧ xs'.length < xs.length ∧
      (PassesPart b xs xs' ∨ Broken stop xs') ∧
      Exec.Eventually (fun f => partPass f b r) (.ret (.inl r'))) ∨
    (∃ r' xs', P r' xs' ∧ xs' <:+ xs ∧ ((∃ disp, FindsPart b xs disp xs') ∨ Broken stop xs') ∧
      Exec.Eventually (fun f => partPass f b r) (.ret (.inr (.ready r')))) ∨
    (∃ t, (t = .notFormData ∨ t = .rejected) ∧
      Exec.Eventually (fun f => partPass f b r) (.ret (.inr t))) ∨
    (MeetsUnclosed b xs ∧ Exec.Eventually (fun f => partPass f b r) .undefined) := by
  rcases readLine_reads hP hr with ⟨l, ys, r₁, hl, h1, hr₁⟩ | ⟨xs', r₁, h1, -⟩
  swap
  · refine Or.inr (Or.inr (Or.inl ⟨.rejected, Or.inr rfl, .of_eq fun f => ?_⟩))
    simp only [partPass, h1]
  obtain ⟨hsuf, hlt⟩ := line_suffix hl
  cases hd : testDisposition l with
  | notFormData =>
    refine Or.inr (Or.inr (Or.inl ⟨.notFormData, Or.inl rfl, .of_eq fun f => ?_⟩))
    simp only [partPass, h1, hd]
  | emptyName =>
    refine Or.inr (Or.inr (Or.inl ⟨.rejected, Or.inr rfl, .of_eq fun f => ?_⟩))
    simp only [partPass, h1, hd]
  | unclosed =>
    exact Or.inr (Or.inr (Or.inr ⟨.here hl hd, .of_eq fun f => by simp only [partPass, h1, hd]⟩))
  | matched m =>
    simp only [partPass, h1, hd]
    obtain ⟨r₂, zs, hr₂, hsuf₂, hskip, h2⟩ := skip_eventually hP hr₁
    by_cases hm : m = 2
    · refine Or.inr (Or.inl ⟨r₂, zs, hr₂, hsuf₂.trans hsuf, ?_, h2.bind (.of_eq fun _ => if_pos hm)⟩)
      exact hskip.imp_left fun h => ⟨l, .here hl (hm ▸ hd) h⟩
    · rcases seek_eventually hP b hr₂ with ⟨r₃, xs', hr₃, hsuf₃, hseek, h3⟩ | h3
      · refine Or.inl ⟨r₃, xs', hr₃, (hsuf₃.trans hsuf₂).trans hsuf,
          (hsuf₃.trans hsuf₂).length_le.trans_lt hlt, ?_, h2.bind ?_⟩
        · rcases hskip with hskip | hskip
          · exact hseek.imp_left (.pass hl hd hm hskip)
          · exact Or.inr (hskip.suffix hsuf₃)
        · simp only [partContent, if_neg hm]
          exact h3.bind (.of_eq fun _ => rfl)
      · refine Or.inr (Or.inr (Or.inl ⟨.rejected, Or.inr rfl, h2.bind ?_⟩))
        simp only [partContent, if_neg hm]
        exact h3.bind (.of_eq fun _ => rfl)

/-- The activations of `test_part_header` come to an end.  Where they do so without a defined meaning, they
have met a file name that is not closed, or a call came back empty before. -/
theorem partPass_settles (hP : Reads P stop) (b : Bytes) {r : Reader} {xs : Bytes} (hr : P r xs) :
    (∃ r' xs', P r' xs' ∧ xs' <:+ xs ∧ ((∃ disp, FindsPart b xs disp xs') ∨ Broken stop xs') ∧
      Exec.Settles (fun f => partPass f b) r (.ret (.ready r'))) ∨
    (∃ t, (t = .notFormData ∨ t = .rejected) ∧ Exec.Settles (fun f => partPass f b) r (.ret t)) ∨
    ((MeetsUnclosed b xs ∨ ∃ zs, zs ≠ [] ∧ stop zs) ∧
      Exec.Settles (fun f => partPass f b) r .undefined) := by
  induction hn : xs.length using Nat.strong_induction_on generalizing r xs with
  | _ n ih =>
    rcases partPass_cases hP b hr with ⟨r₁, ys, h1, hsuf, hlt, hys, h2⟩ |
      ⟨r₁, ys, h1, hsuf, hys, h2⟩ | ⟨t, ht, h2⟩ | ⟨hmeets, h2⟩
    · rcases ih ys.length (hn ▸ hlt) h1 rfl with ⟨r', xs', h3, h4, h5, h6⟩ | ⟨t, ht, h5⟩ | ⟨h5, h6⟩
      · refine Or.inl ⟨r', xs', h3, h4.trans hsuf, ?_, .next h2 h6⟩
        rcases hys with hpass | hys
        · exact h5.imp_left fun ⟨disp, hf⟩ => ⟨disp, hpass.finds hf⟩
        · exact Or.inr (hys.suffix h4)
      · exact Or.inr (Or.inl ⟨t, ht, .next h2 h5⟩)
      · refine Or.inr (Or.inr ⟨?_, .next h2 h6⟩)
        rcases h5 with h5 | h5
        swap
        · exact Or.inr h5
        rcases hys with hpass | ⟨zs, hz, hsuf'⟩
        · exact Or.inl (.next hpass h5)
        · exact Or.inr ⟨zs, fun h => h5.ne_nil (List.suffix_nil.1 (h ▸ hsuf')), hz⟩
    · exact Or.inl ⟨r₁, ys, h1, hsuf, hys, .done h2⟩
    · exact Or.inr (Or.inl ⟨t, ht, .done h2⟩)
    · exact Or.inr (Or.inr ⟨Or.inl hmeets, .undefined h2⟩)

/-- `test_part_header` ends, whatever the calls of `local_read` return. -/
theorem testPartHeader_eventually (hP : Reads P stop) (b : Bytes) {r : Reader} {xs : Bytes}
    (hr : P r xs) :
    (∃ r' xs', P r' xs' ∧ xs' <:+ xs ∧ ((∃ disp, FindsPart b xs disp xs') ∨ Broken stop xs') ∧
      Exec.Eventually (fun f => testPartHeader f b r) (.ret (.ready r'))) ∨
    (∃ t, (t = .notFormData ∨ t = .rejected) ∧
      Exec.Eventually (fun f => testPartHeader f b r) (.ret t)) ∨
    ((MeetsUnclosed b xs ∨ ∃ zs, zs ≠ [] ∧ stop zs) ∧
      Exec.Eventually (fun f => testPartHeader f b r) .undefined) := by
  rcases partPass_settles hP b hr with ⟨r', xs', h1, h2, h3, h4⟩ | ⟨t, ht, h3⟩ | ⟨h3, h4⟩
  · exact Or.inl ⟨r', xs', h1, h2, h3, h4.eventually⟩
  · exact Or.inr (Or.inl ⟨t, ht, h3.eventually⟩)
  · exact Or.inr (Or.inr ⟨h3, h4.eventually⟩)

end Ends

end ZRouter.Upgrade
