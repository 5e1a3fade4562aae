import ZRouter.Upgrade.Part

/-!
# The body loop and the end of `http_input`

* `search_eventually`: the body loop ends, either with the delimiter just read or with an empty
  result of `local_read`, and the ring holds what was read;
* `extracted`: what `ring_buffer_drain` and `local_close` leave in the output file;
* `socket_eventually`, `socket_stuck`: the loop that empties the socket ends exactly when all of
  the announced body was sent.
-/

namespace ZRouter.Upgrade

/-! ### The body loop -/

/-- The state of the body loop after the bytes `ys`. -/
structure Searching (d ys : Bytes) (i : ℕ) (rb : Ring) (r : Reader) : Prop where
  index : i = r.counterValue
  ring : RingHolds rb ys
  boundary : rb.boundary = d
  matched : rb.matched = matchAfter d ys
  notYet : NotYet d ys

theorem searching_init (b : Bytes) (r : Reader) :
    Searching (45 :: 45 :: b) [] r.counterValue (ringBufferInit b) r where
  index := rfl
  ring := ringHolds_init b
  boundary := rfl
  matched := rfl
  notYet := by
    intro ys hy
    rw [List.prefix_nil.1 hy]
    simp [matchAfter]

theorem localRead_count {r r' : Reader} {c : UInt8} (h : BodyReader r)
    (hr : localRead r = (some c, r')) : r'.counterValue = r.counterValue + 1 := by
  rcases localRead_body h with ⟨c', r₁, h1, -, -, hc⟩ | ⟨r₁, h1, -⟩
  · obtain ⟨-, rfl⟩ := Prod.mk.inj (hr.symm.trans h1)
    exact hc
  · cases hr.symm.trans h1

theorem ringBufferAppend_hit (rb : Ring) (c : UInt8) :
    (ringBufferAppend rb c).1 = decide (matchStep rb.boundary rb.matched c = rb.boundary.length) :=
  rfl

section Search

variable {P : Reader → Bytes → Prop} {stop : Bytes → Prop}

/-- One pass of the body loop that reads a byte. -/
theorem searchPass_byte {d ys : Bytes} {i : ℕ} {rb : Ring} {r r' : Reader} {c : UInt8} {xs : Bytes}
    (hs : Searching d ys i rb r) (hb : AtBody r (c :: xs)) (hr : localRead r = (some c, r'))
    (hlen : ys.length + 1 < 4294967296) :
    RingHolds (ringBufferAppend rb c).2 (ys ++ [c]) ∧ (ringBufferAppend rb c).2.boundary = d ∧
    ((matchAfter d (ys ++ [c]) = d.length ∧
        searchPass (i, rb, r) = .ret (.inr (true, (ringBufferAppend rb c).2, r'))) ∨
      (Searching d (ys ++ [c]) (i + 1) (ringBufferAppend rb c).2 r' ∧
        searchPass (i, rb, r) = .ret (.inl (i + 1, (ringBufferAppend rb c).2, r')))) := by
  have hring := hs.ring.append c hlen
  have hmatch : (ringBufferAppend rb c).2.matched = matchAfter d (ys ++ [c]) := by
    rw [matchAfter_append, ← hs.matched, ← hs.boundary]
    rfl
  have hlt : i < r.len := by
    have := hb.length_le
    rw [List.length_cons] at this
    rw [hs.index]
    omega
  have hu : u32 (i + 1) = i + 1 := by
    have := hb.body.word
    unfold u32
    omega
  have hpass : searchPass (i, rb, r) = if matchAfter d (ys ++ [c]) = d.length then
      .ret (.inr (true, (ringBufferAppend rb c).2, r'))
      else .ret (.inl (i + 1, (ringBufferAppend rb c).2, r')) := by
    simp only [searchPass, if_pos hlt, hr, hu, ringBufferAppend_hit, hs.boundary, hs.matched,
      ← matchAfter_append, decide_eq_true_eq]
  refine ⟨hring, hs.boundary, ?_⟩
  split_ifs at hpass with hfound
  · exact Or.inl ⟨hfound, hpass⟩
  · refine Or.inr ⟨⟨?_, hring, hs.boundary, hmatch, notYet_append_singleton hs.notYet hfound⟩,
      hpass⟩
    rw [localRead_count hb.body hr, hs.index]

theorem searchLoop_eventually (hP : Reads P stop) (hB : ∀ r xs, P r xs → AtBody r xs) {d : Bytes} :
    ∀ xs ys i rb r, P r xs → Searching d ys i rb r → ys.length + xs.length < 4294967296 →
    (∃ zs c xs' rb' r', xs = zs ++ c :: xs' ∧ NotYet d (ys ++ zs) ∧
      matchAfter d (ys ++ zs ++ [c]) = d.length ∧ RingHolds rb' (ys ++ zs ++ [c]) ∧
      rb'.boundary = d ∧ P r' xs' ∧
      Exec.Eventually (fun n => Exec.loop searchPass n (i, rb, r)) (.ret (true, rb', r'))) ∨
    (∃ zs xs' rb' r', xs = zs ++ xs' ∧ NotYet d (ys ++ zs) ∧ RingHolds rb' (ys ++ zs) ∧
      P r' xs' ∧ (xs' = [] ∨ stop xs') ∧
      Exec.Eventually (fun n => Exec.loop searchPass n (i, rb, r)) (.ret (false, rb', r'))) := by
  intro xs
  induction xs with
  | nil =>
    intro ys i rb r hr hs _
    by_cases hlt : i < r.len
    · rcases hP r [] hr with ⟨c, xs', r', hx, -⟩ | ⟨hstop, r', h1, h2⟩
      · cases hx
      · refine Or.inr ⟨[], [], rb, r', rfl, by simpa using hs.notYet, by simpa using hs.ring, h2,
          Or.inl rfl, .loop_done ?_⟩
        simp only [searchPass, if_pos hlt, h1]
    · refine Or.inr ⟨[], [], rb, r, rfl, by simpa using hs.notYet, by simpa using hs.ring, hr,
        Or.inl rfl, .loop_done ?_⟩
      simp only [searchPass, if_neg hlt]
  | cons c xs ih =>
    intro ys i rb r hr hs hlen
    rw [List.length_cons] at hlen
    have hb := hB r _ hr
    rcases hP r _ hr with ⟨c', xs', r', hx, h1, h2⟩ | ⟨hstop, r', h1, h2⟩
    · obtain ⟨rfl, rfl⟩ := List.cons_eq_cons.1 hx
      obtain ⟨hring, hbd, ⟨hfound, hpass⟩ | ⟨hs', hpass⟩⟩ := searchPass_byte hs hb h1 (by omega)
      · exact Or.inl ⟨[], c, xs, _, r', rfl, by simpa using hs.notYet, by simpa using hfound,
          by simpa using hring, hbd, h2, .loop_done hpass⟩
      · have hassoc : ∀ zs, ys ++ [c] ++ zs = ys ++ c :: zs := fun zs => by simp
        rcases ih (ys ++ [c]) (i + 1) _ r' h2 hs' (by simp; omega) with
          ⟨zs, e, xs', rb', r₂, hx, h3, h4, h5, h6, h7, h8⟩ | ⟨zs, xs', rb', r₂, hx, h3, h4, h5, h6, h7⟩
        · rw [hassoc] at h3 h4 h5
          exact Or.inl ⟨c :: zs, e, xs', rb', r₂, by rw [hx, List.cons_append], h3, h4, h5, h6, h7,
            h8.loop_next hpass⟩
        · rw [hassoc] at h3 h4
          exact Or.inr ⟨c :: zs, xs', rb', r₂, by rw [hx, List.cons_append], h3, h4, h5, h6,
            h7.loop_next hpass⟩
    · have hlt : i < r.len := by
        have := hb.length_le
        rw [List.length_cons] at this
        rw [hs.index]
        omega
      refine Or.inr ⟨[], c :: xs, rb, r', rfl, by simpa using hs.notYet, by simpa using hs.ring, h2,
        Or.inr hstop, .loop_done ?_⟩
      simp only [searchPass, if_pos hlt, h1]

/-- **The body loop ends**, with the delimiter just read or with nothing more to read. -/
theorem search_eventually (hP : Reads P stop) (hB : ∀ r xs, P r xs → AtBody r xs) (b : Bytes)
    {r : Reader} {xs : Bytes} (hr : P r xs) :
    (∃ ys c xs' rb r', xs = ys ++ c :: xs' ∧ NotYet (45 :: 45 :: b) ys ∧
      matchAfter (45 :: 45 :: b) (ys ++ [c]) = (45 :: 45 :: b).length ∧
      RingHolds rb (ys ++ [c]) ∧ rb.boundary = 45 :: 45 :: b ∧ P r' xs' ∧
      Exec.Eventually (fun n => search n b r) (.ret (true, rb, r'))) ∨
    (∃ ys xs' rb r', xs = ys ++ xs' ∧ NotYet (45 :: 45 :: b) ys ∧ RingHolds rb ys ∧ P r' xs' ∧
      (xs' = [] ∨ stop xs') ∧ Exec.Eventually (fun n => search n b r) (.ret (false, rb, r'))) := by
  have hb := hB r xs hr
  have hlen : ([] : Bytes).length + xs.length < 4294967296 := by
    have h1 := hb.length_le
    have h2 := hb.body.word
    simp only [List.length_nil]
    omega
  exact searchLoop_eventually hP hB xs [] _ _ r hr (searching_init b r) hlen

end Search

/-! ### What is written -/

/-- What is left in the output file when the delimiter, of length `d`, has just been read: everything
when the ring has not wrapped, else all but the delimiter and the end of line before it. -/
def extracted (d : ℕ) (xs : Bytes) : Bytes :=
  if xs.length < 256 then xs else xs.take (xs.length - cutLength xs d)

theorem RingHolds.drain {rb : Ring} {xs : Bytes} (h : RingHolds rb xs) (h0 : 0 < xs.length)
    (hx : xs.length < 4294967296) (hb : rb.boundary.length + 2 < 256) :
    (ringBufferDrain rb).filesize = (extracted rb.boundary.length xs).length ∧
      (localClose (ringBufferDrain rb).out).written = extracted rb.boundary.length xs := by
  rw [localClose_written, extracted]
  split_ifs with hlt
  · exact h.drain_short h0 hlt
  · obtain ⟨h1, h2⟩ := h.drain_long (Nat.not_lt.1 hlt) hx hb
    refine ⟨?_, h2⟩
    rw [h1, List.length_take]
    omega

/-! ### Emptying the socket -/

/-- A refill brings bytes as long as there are any. -/
theorem localRead_positive {r : Reader} {xs : Bytes} (h : AtBody r xs) (hs : Positive r.fd.sched)
    (hp : r.inbufP % 1024 = 0) (hx : xs ≠ []) : ∃ c r', localRead r = (some c, r') := by
  obtain ⟨n, hn, ⟨hnil, -⟩ | ⟨c, cs, -, hr⟩⟩ := localRead_body_refill h.body hp
  · obtain ⟨n', hn', hpos⟩ := hs r.fd.calls r.ask
    obtain rfl : n' = n := Option.some.inj (hn'.symm.trans hn)
    rw [List.take_eq_nil_iff, h.body.ask_eq] at hnil
    have hbytes := h.bytes
    rw [Reader.rest, Reader.unread_nil hp, List.nil_append] at hbytes
    rcases hnil with hnil | hnil
    · rw [h.body.ask_eq] at hpos
      exact absurd (by rw [hbytes, show r.len - r.counterValue = 0 by omega, List.take_zero]) hx
    · exact absurd (by rw [hbytes, hnil, List.take_nil]) hx
  · exact ⟨c, _, hr⟩

/-- The loop that empties the socket ends when all of the body was sent. -/
theorem socket_eventually {r : Reader} {xs : Bytes} (h : AtBody r xs) (hs : Positive r.fd.sched)
    (hall : r.counterValue + xs.length = r.len) :
    Exec.Eventually (fun n => Exec.loop socketPass n r) (.ret ()) := by
  -- two empty results in a row cannot happen, since the first one forces a refill
  let μ : Reader → ℕ := fun r => 2 * (r.len - r.counterValue) + if r.inbufP % 1024 = 0 then 0 else 1
  let I : Reader → Prop := fun r => ∃ xs, AtBody r xs ∧ Positive r.fd.sched ∧
    r.counterValue + xs.length = r.len
  have pass : ∀ r, I r → (∃ b, socketPass r = .ret (.inr b)) ∨
      ∃ r', socketPass r = .ret (.inl r') ∧ I r' ∧ μ r' < μ r := by
    rintro r ⟨xs, h, hs, hall⟩
    by_cases hne : r.counterValue ≠ r.len
    · refine Or.inr ⟨_, by rw [socketPass, if_pos hne], ?_⟩
      have hsame := localRead_same r
      rcases localRead_body h.body with ⟨c, r', h1, hb, hrest, hc⟩ | ⟨r', h1, hb, hrest, hc, hp'⟩
      · rw [h1] at hsame ⊢
        obtain ⟨xs', hx, h2⟩ := h.cons hsame.len hb hrest hc
        have hl := congrArg List.length hx
        have hlen : r'.len = r.len := hsame.len
        rw [List.length_cons] at hl
        refine ⟨⟨xs', h2, hsame.sched ▸ hs, by rw [hc, hlen]; omega⟩, ?_⟩
        simp only [μ, hc, hlen]
        split_ifs <;> omega
      · rw [h1] at hsame ⊢
        have hpos : r.inbufP % 1024 ≠ 0 := by
          intro hp
          obtain ⟨c, r₂, h2⟩ := localRead_positive h hs hp (by rintro rfl; simp at hall; omega)
          cases h1.symm.trans h2
        have hlen : r'.len = r.len := hsame.len
        have hbytes : xs = r'.rest.take (r'.len - r'.counterValue) := by
          rw [h.bytes, hrest, hc, hlen]
        refine ⟨⟨xs, ⟨hb, hbytes⟩, hsame.sched ▸ hs, by rw [hc, hlen]; exact hall⟩, ?_⟩
        simp [μ, hc, hlen, hp', hpos]
    · exact Or.inl ⟨(), by rw [socketPass, if_neg hne]⟩
  refine ⟨μ r + 1, fun n hn => ?_⟩
  obtain ⟨u, hu⟩ := Exec.loop_returns I μ pass n r ⟨xs, h, hs, hall⟩ (by omega)
  exact hu

/-- It never ends when some of the body was not sent. -/
theorem socket_stuck {r : Reader} {xs : Bytes} (h : AtBody r xs)
    (hall : r.counterValue + xs.length < r.len) (n : ℕ) : Exec.loop socketPass n r = .stuck := by
  refine Exec.loop_stuck (fun r => ∃ xs, AtBody r xs ∧ r.counterValue + xs.length < r.len)
    (fun r hI => ?_) n r ⟨xs, h, hall⟩
  obtain ⟨xs, h, hall⟩ := hI
  refine ⟨_, by rw [socketPass, if_pos (by omega)], ?_⟩
  have hsame := localRead_same r
  rcases reads_body r xs h with ⟨c, xs', r', rfl, h1, h2⟩ | ⟨-, r', h1, h2⟩
  · have hc := localRead_count h.body h1
    rw [h1] at hsame ⊢
    rw [List.length_cons] at hall
    have hlen : r'.len = r.len := hsame.len
    exact ⟨xs', h2, by rw [hc, hlen]; omega⟩
  · rw [h1] at hsame ⊢
    refine ⟨xs, h2, ?_⟩
    rcases localRead_body h.body with ⟨c, r₂, h3, -⟩ | ⟨r₂, h3, -, -, hc, -⟩
    · cases h1.symm.trans h3
    · obtain ⟨-, rfl⟩ := Prod.mk.inj (h1.symm.trans h3)
      have hlen : r'.len = r.len := hsame.len
      rw [hc, hlen]
      exact hall

end ZRouter.Upgrade
