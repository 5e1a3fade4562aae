import ZRouter.Upgrade.Outcome

/-!
# What holds for every schedule of `read()`

`Course` is about requests that are read without failures.  The results here do not depend on the
reader at all, so they hold for failing calls as well: a request that comes back as
`HTTP_INPUT_READY` opened the output file and left at least three bytes in it, as many as the file
size says (`httpInput_ready`).
-/

namespace ZRouter.Upgrade

/-! ### The header -/

/-- What the header loop keeps: a boundary that fits its buffer, and a length that is a word. -/
def HeaderState (h : Headers) (r : Reader) : Prop :=
  FitBoundary h.boundary ∧ r.len < 4294967296

theorem headerPass_state {ulongMax : ℕ} {h : Headers} {r : Reader}
    {x : (Headers × Reader) ⊕ (Option Headers × Reader)} (hs : HeaderState h r)
    (hx : headerPass ulongMax (h, r) = .ret x) :
    match x with
    | .inl (h', r') => HeaderState h' r'
    | .inr (o, r') => ∀ h' ∈ o, HeaderState h' r' := by
  have hlen := (readLine_same r).len
  unfold headerPass at hx
  rcases hr : readLine r with ⟨_ | buf, r'⟩ <;> simp only [hr] at hx hlen
  · cases hx
    simp
  · obtain ⟨b, hb, hx⟩ := Exec.bind_eq_ret hx
    have hfit := Headers.takeBoundary_fit hs.1 hb
    have hlt := takeLen_lt ulongMax buf (hlen ▸ hs.2)
    split_ifs at hx
    · cases hx
      intro h' hh
      cases hh
      exact ⟨hfit, hlt⟩
    · cases hx
      exact ⟨hfit, hlt⟩

/-- A request that goes on to the body has a boundary, and its length is a word. -/
theorem accept_state {env : Env} {f : ℕ} {a : Args} {b : Bytes} {r : Reader}
    (h0 : a.reader.len < 4294967296) (h : accept env f a = .ret (.inr (b, r))) :
    b ≠ [] ∧ FitBoundary b ∧ r.len < 4294967296 := by
  have hlen := (readLine_same a.reader).len
  unfold accept at h
  rcases hr : readLine a.reader with ⟨_ | buf, r₁⟩ <;> simp only [hr] at h hlen
  · cases h
  · split_ifs at h
    · cases h
    obtain ⟨s, hs, h⟩ := Exec.bind_eq_ret h
    have hstate := @Exec.loop_post _ _ (headerPass env.ulongMax) (fun s => HeaderState s.1 s.2)
      (fun s => ∀ h' ∈ s.1, HeaderState h' s.2)
      (fun s s' hI hx => headerPass_state (h := s.1) (r := s.2) hI hx)
      (fun s s' hI hx => headerPass_state (h := s.1) (r := s.2) hI hx) f (⟨[], []⟩, r₁) s
      ⟨⟨by simp, by simp⟩, hlen.symm ▸ h0⟩ hs
    obtain ⟨_ | hd, r₂⟩ := s
    · cases h
    · simp only [Args.afterHeaders] at h
      split at h
      · cases h
      · rename_i href
        cases h
        exact ⟨(Args.refuse_eq_none href).2.2.1, hstate hd rfl⟩

theorem Args.refuse_ne_ready {a : Args} {post : Bool} {h : Headers} {n : ℕ} {res : Result}
    (hr : a.refuse post h n = some res) : res.status ≠ .ready := by
  unfold Args.refuse at hr
  split_ifs at hr <;> cases hr <;> simp [Args.answer, Args.badMultipart]

theorem accept_ne_ready {env : Env} {f : ℕ} {a : Args} {res : Result}
    (h : accept env f a = .ret (.inl res)) : res.status ≠ .ready := by
  unfold accept at h
  rcases hr : readLine a.reader with ⟨_ | buf, r₁⟩ <;> simp only [hr] at h
  · cases h
    simp [Args.answer]
  · split_ifs at h
    · cases h
      simp [Args.answer]
    obtain ⟨⟨_ | hd, r₂⟩, -, h⟩ := Exec.bind_eq_ret h
    · cases h
      simp [Args.answer]
    · simp only [Args.afterHeaders] at h
      split at h
      · rename_i href
        cases h
        exact Args.refuse_ne_ready href
      · cases h

/-! ### The part header -/

theorem skipPass_same {r r' : Reader} {x : Reader ⊕ Reader} (hx : skipPass r = .ret x)
    (h : x = .inl r' ∨ x = .inr r') : r.Same r' := by
  have hsame := readLine_same r
  unfold skipPass at hx
  rcases hr : readLine r with ⟨_ | _ | _, r₁⟩ <;> simp only [hr] at hx hsame <;> cases hx <;>
    rcases h with h | h <;> cases h <;> exact hsame

theorem seekPass_same {b : Bytes} {r r' : Reader} {x : Reader ⊕ Option Reader}
    (hx : seekPass b r = .ret x) (h : x = .inl r' ∨ x = .inr (some r')) : r.Same r' := by
  have hdone : ∀ {r₁}, r.Same r₁ → ∀ {y : Reader ⊕ Option Reader},
      (Exec.ret y = Exec.ret x) → (y = .inl r₁ ∨ y = .inr (some r₁) ∨ y = .inr none) →
      r.Same r' := by
    intro r₁ h1 y hy hc
    cases hy
    rcases h with rfl | rfl <;> simp at hc <;> exact hc ▸ h1
  unfold seekPass at hx
  have h1 := localRead_same r
  rcases e1 : localRead r with ⟨_ | c₁, r₁⟩ <;> simp only [e1] at hx h1
  · exact hdone h1 hx (by simp)
  split_ifs at hx
  · exact hdone h1 hx (by simp)
  have h2 := h1.trans (localRead_same r₁)
  rcases e2 : localRead r₁ with ⟨_ | c₂, r₂⟩ <;> simp only [e2] at hx h2
  · exact hdone h2 hx (by simp)
  split_ifs at hx
  · exact hdone h2 hx (by simp)
  have h3 := h2.trans (localRead_same r₂)
  rcases e3 : localRead r₂ with ⟨_ | c₃, r₃⟩ <;> simp only [e3] at hx h3
  · exact hdone h3 hx (by simp)
  split_ifs at hx
  · exact hdone h3 hx (by simp)
  have h4 := h3.trans (readLine_same r₃)
  rcases e4 : readLine r₃ with ⟨_ | buf, r₄⟩ <;> simp only [e4] at hx h4
  · exact hdone h4 hx (by simp)
  split_ifs at hx
  · exact hdone h4 hx (by simp)
  · exact hdone h4 hx (by simp)
  · exact hdone h4 hx (by simp)

theorem skipLoop_same {n : ℕ} {r r' : Reader} (h : Exec.loop skipPass n r = .ret r') : r.Same r' :=
  Exec.loop_post (fun s => r.Same s) (fun s => r.Same s)
    (fun _ _ hI hx => hI.trans (skipPass_same hx (Or.inl rfl)))
    (fun _ _ hI hx => hI.trans (skipPass_same hx (Or.inr rfl))) n r r' (Reader.Same.refl r) h

theorem seekLoop_same {b : Bytes} {n : ℕ} {r r' : Reader}
    (h : Exec.loop (seekPass b) n r = .ret (some r')) : r.Same r' :=
  Exec.loop_post (fun s => r.Same s) (fun o => ∀ s, o = some s → r.Same s)
    (fun _ _ hI hx => hI.trans (seekPass_same hx (Or.inl rfl)))
    (fun _ _ hI hx _ ho => hI.trans (seekPass_same hx (Or.inr (by rw [ho])))) n r (some r')
    (Reader.Same.refl r) h r' rfl

theorem partPass_same {f : ℕ} {b : Bytes} {r r' : Reader} {x : Reader ⊕ PartTest}
    (hx : partPass f b r = .ret x) (h : x = .inl r' ∨ x = .inr (.ready r')) : r.Same r' := by
  have h1 := readLine_same r
  unfold partPass at hx
  rcases e1 : readLine r with ⟨_ | buf, r₁⟩ <;> simp only [e1] at hx h1
  · cases hx
    simp at h
  cases hd : testDisposition buf with
  | notFormData =>
    simp only [hd] at hx
    cases hx
    simp at h
  | emptyName =>
    simp only [hd] at hx
    cases hx
    simp at h
  | unclosed =>
    simp only [hd] at hx
    cases hx
  | matched m =>
    simp only [hd] at hx
    obtain ⟨r₂, h2, hx⟩ := Exec.bind_eq_ret hx
    have h12 := h1.trans (skipLoop_same h2)
    unfold partContent at hx
    split_ifs at hx
    · cases hx
      simp at h
      exact h ▸ h12
    · obtain ⟨o, h3, hx⟩ := Exec.bind_eq_ret hx
      cases o with
      | none =>
        cases hx
        simp at h
      | some r₃ =>
        cases hx
        simp at h
        exact h ▸ h12.trans (seekLoop_same h3)

/-- Phase two opens the output file and leaves the length alone. -/
theorem locate_same {env : Env} {f : ℕ} {a : Args} {b : Bytes} {r r' : Reader}
    (h : locate env f a b r = .ret (.inr r')) : env.opens a.outfile = true ∧ r.Same r' := by
  have hopen : ∀ {r₁}, (Exec.ret (if env.opens a.outfile = true then .inr r₁
      else .inl (a.answer .cantOpenOfile none)) : Exec (Result ⊕ Reader)) = .ret (.inr r') →
      env.opens a.outfile = true ∧ r₁ = r' := by
    intro r₁ h1
    split_ifs at h1 with ho
    · cases h1
      exact ⟨ho, rfl⟩
    · cases h1
  have h1 := readLine_same r
  unfold locate at h
  rcases e1 : readLine r with ⟨_ | buf, r₁⟩ <;> simp only [e1] at h h1
  · cases h
  by_cases hm : isMarker b buf = true
  · rw [if_pos hm] at h
    obtain ⟨t, h2, h⟩ := Exec.bind_eq_ret h
    cases t with
    | ready r₂ =>
      obtain ⟨ho, rfl⟩ := hopen h
      refine ⟨ho, h1.trans ?_⟩
      exact Exec.loop_post (fun s => r₁.Same s) (fun t => ∀ s, t = .ready s → r₁.Same s)
        (fun _ _ hI hx => hI.trans (partPass_same hx (Or.inl rfl)))
        (fun _ _ hI hx _ ht => hI.trans (partPass_same hx (Or.inr (by rw [ht])))) f r₁ _
        (Reader.Same.refl r₁) h2 r₂ rfl
    | notFormData => cases h
    | rejected => cases h
  · rw [if_neg hm] at h
    obtain ⟨ho, rfl⟩ := hopen h
    exact ⟨ho, h1⟩

theorem locate_ne_ready {env : Env} {f : ℕ} {a : Args} {b : Bytes} {r : Reader} {res : Result}
    (h : locate env f a b r = .ret (.inl res)) : res.status ≠ .ready := by
  rcases locate_inl h with ⟨rfl, -⟩ | rfl | rfl <;>
    simp [Args.unreadable, Args.noFirmware, Args.answer]

/-! ### The body -/

/-- The ring and the counter of the body loop after the bytes `ys`, whatever was read. -/
structure RingState (d : Bytes) (len : ℕ) (s : ℕ × Ring × Reader) (ys : Bytes) : Prop where
  ring : RingHolds s.2.1 ys
  boundary : s.2.1.boundary = d
  matched : s.2.1.matched = matchAfter d ys
  notYet : NotYet d ys
  len : s.2.2.len = len
  index : ys.length ≤ s.1

theorem searchPass_state {d : Bytes} {len : ℕ} (hlen : len < 4294967296) {s : ℕ × Ring × Reader}
    {ys : Bytes} (h : RingState d len s ys) :
    (∃ c s', searchPass s = .ret (.inl s') ∧ RingState d len s' (ys ++ [c])) ∨
    (∃ c rb r, searchPass s = .ret (.inr (true, rb, r)) ∧ RingHolds rb (ys ++ [c]) ∧
      rb.boundary = d ∧ matchAfter d (ys ++ [c]) = d.length ∧ (ys ++ [c]).length < 4294967296) ∨
    (∃ rb r, searchPass s = .ret (.inr (false, rb, r))) := by
  obtain ⟨i, rb, r⟩ := s
  by_cases hi : i < r.len
  · have hsame := (localRead_same r).len
    rcases e1 : localRead r with ⟨_ | c, r'⟩
    · exact Or.inr (Or.inr ⟨rb, r', by simp only [searchPass, if_pos hi, e1]⟩)
    rw [e1] at hsame
    have hr : r.len = len := h.len
    have hidx : ys.length ≤ i := h.index
    have hring := h.ring.append c (by omega)
    have hmatch : (ringBufferAppend rb c).2.matched = matchAfter d (ys ++ [c]) := by
      rw [matchAfter_append, ← h.matched, ← h.boundary]
      rfl
    have hhit : (ringBufferAppend rb c).1 = decide (matchAfter d (ys ++ [c]) = d.length) := by
      rw [ringBufferAppend_hit, matchAfter_append, ← h.matched, ← h.boundary]
    by_cases hd : matchAfter d (ys ++ [c]) = d.length
    · refine Or.inr (Or.inl ⟨c, _, r', ?_, hring, h.boundary, hd, ?_⟩)
      · simp only [searchPass, if_pos hi, e1, hhit, hd, decide_true, if_true]
      · simp only [List.length_append, List.length_cons, List.length_nil]
        omega
    · refine Or.inl ⟨c, (u32 (i + 1), (ringBufferAppend rb c).2, r'), ?_, ⟨hring, h.boundary, hmatch,
        notYet_append_singleton h.notYet hd, hsame.trans h.len, ?_⟩⟩
      · simp only [searchPass, if_pos hi, e1, hhit, hd, decide_false, Bool.false_eq_true, if_false]
      · simp only [List.length_append, List.length_cons, List.length_nil, u32]
        omega
  · exact Or.inr (Or.inr ⟨rb, r, by simp only [searchPass, if_neg hi]⟩)

/-- When the body loop finds the delimiter, the ring holds what was read, the delimiter last. -/
theorem search_state {b : Bytes} {f : ℕ} {r r' : Reader} {rb : Ring} (hlen : r.len < 4294967296)
    (h : search f b r = .ret (true, rb, r')) :
    ∃ xs, RingHolds rb xs ∧ rb.boundary = 45 :: 45 :: b ∧ 45 :: 45 :: b <:+ xs ∧
      xs.length < 4294967296 := by
  have hinit : ∃ ys, RingState (45 :: 45 :: b) r.len (r.counterValue, ringBufferInit b, r) ys := by
    have hs := searching_init b r
    exact ⟨[], hs.ring, hs.boundary, hs.matched, hs.notYet, rfl, Nat.zero_le _⟩
  refine Exec.loop_post (fun s => ∃ ys, RingState (45 :: 45 :: b) r.len s ys)
    (fun x => x.1 = true → ∃ xs, RingHolds x.2.1 xs ∧ x.2.1.boundary = 45 :: 45 :: b ∧
      45 :: 45 :: b <:+ xs ∧ xs.length < 4294967296) ?_ ?_ f _ _ hinit h rfl
  · rintro s s' ⟨ys, hI⟩ hx
    rcases searchPass_state hlen hI with ⟨c, s₁, h1, h2⟩ | ⟨c, rb', r₁, h1, -⟩ | ⟨rb', r₁, h1⟩ <;>
      cases h1.symm.trans hx
    exact ⟨_, h2⟩
  · rintro s x ⟨ys, hI⟩ hx htrue
    rcases searchPass_state hlen hI with ⟨c, s₁, h1, h2⟩ | ⟨c, rb', r₁, h1, h2, h3, h4, h5⟩ |
      ⟨rb', r₁, h1⟩ <;> cases h1.symm.trans hx
    · exact ⟨_, h2, h3, matchAfter_found (by simp) hI.notYet h4, h5⟩
    · cases htrue

theorem extracted_length {d : ℕ} {xs : Bytes} (h3 : 3 ≤ d) (hd : d < 200) (hx : d ≤ xs.length) :
    3 ≤ (extracted d xs).length := by
  unfold extracted cutLength
  split_ifs
  · omega
  · rw [List.length_take]
    omega
  · rw [List.length_take]
    omega

/-- **`HTTP_INPUT_READY` is only returned with the output file open and something written to it**,
whatever the calls of `read()` return. -/
theorem httpInput_ready {env : Env} {f : ℕ} {a : Args} {res : Result}
    (h0 : a.reader.len < 4294967296) (h : httpInput env f a = .ret res)
    (hready : res.status = .ready) :
    env.opens a.outfile = true ∧ res.filesize = res.written.length ∧ 3 ≤ res.written.length := by
  obtain ⟨x, hx, h⟩ := Exec.bind_eq_ret h
  rcases x with res' | ⟨b, r⟩
  · cases h
    exact absurd hready (accept_ne_ready hx)
  obtain ⟨hne, hfit, hlen⟩ := accept_state h0 hx
  obtain ⟨y, hy, h⟩ := Exec.bind_eq_ret h
  rcases y with res' | r₁
  · cases h
    exact absurd hready (locate_ne_ready hy)
  obtain ⟨ho, hsame⟩ := locate_same hy
  obtain ⟨⟨found, rb, r₂⟩, hz, h⟩ := Exec.bind_eq_ret h
  cases found with
  | false =>
    cases h
    cases hready
  | true =>
    obtain ⟨xs, hring, hb, hsuf, hxs⟩ := search_state (hsame.len ▸ hlen) hz
    obtain ⟨-, -, h⟩ := Exec.bind_eq_ret h
    cases h
    have hd : 3 ≤ rb.boundary.length ∧ rb.boundary.length + 2 < 200 := by
      have h1 := hfit.short
      have h2 := List.length_pos_iff.2 hne
      rw [hb]
      simp only [List.length_cons]
      omega
    have hle := hsuf.length_le
    rw [← hb] at hle
    obtain ⟨hsize, hwr⟩ := hring.drain (by omega) hxs (by omega)
    refine ⟨ho, ?_, ?_⟩
    · simp only [hsize, hwr]
    · simp only [hwr]
      exact extracted_length hd.1 (by omega) hle

end ZRouter.Upgrade
