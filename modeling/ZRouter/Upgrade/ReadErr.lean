import ZRouter.Upgrade.Outcome

/-!
# A failing `read()` in the body

`local_read` stores the result of `read()` in `inbuf_l`, which is unsigned.  After a failure it is
`4294967295`, and the bytes that were in the buffer before are handed out again.

* `after`, `handedOut`: the reader after `n` calls of `local_read`, and the bytes of these calls;
* `ReadFails`: the next call refills the buffer and `read()` fails;
* `Honest`: what is handed out was delivered, and a failing call hands out nothing;
* `quiet`: a schedule in which failures come back empty instead; a run without failures cannot tell
  (`after_quiet`);
* `honest_iff`: a run is honest exactly when no `read()` in it fails;
* `body_accounts`: the counter of a run in which none fails, and what it took from the descriptor.
-/

namespace ZRouter.Upgrade

/-- The reader after `n` calls of `local_read`. -/
def after (r : Reader) : ℕ → Reader
  | 0 => r
  | n + 1 => (localRead (after r n)).2

/-- The bytes that `n` calls of `local_read` hand out. -/
def handedOut (r : Reader) : ℕ → Bytes
  | 0 => []
  | n + 1 => handedOut r n ++ (localRead (after r n)).1.toList

/-- The next call refills the buffer, and `read()` returns `-1`. -/
def ReadFails (r : Reader) : Prop := r.inbufP % 1024 = 0 ∧ r.fd.sched r.fd.calls r.ask = none

/-- The reader at the start of the body, whatever `read()` is going to return. -/
structure BodyStart (r : Reader) : Prop where
  on : r.enableCounter = true
  counter : r.counterValue = 0
  inbufP : r.inbufP = 0
  inbufL : r.inbufL = 0
  size : r.inbuf.length = 1024
  word : r.len < 4294967296

/-- In `n` calls, the bytes handed out are the first of those that `read()` delivered, each of them
once, and a call whose `read()` fails hands out nothing and counts nothing. -/
structure Honest (r : Reader) (n : ℕ) : Prop where
  delivered : ∀ k ≤ n, ∃ d, r.fd.stream = d ++ (after r k).fd.stream ∧ handedOut r k <+: d
  failed : ∀ k < n, ReadFails (after r k) → (localRead (after r k)).1 = none ∧
    (localRead (after r k)).2.counterValue = (after r k).counterValue

@[simp] theorem after_zero (r : Reader) : after r 0 = r := rfl

theorem after_succ (r : Reader) (n : ℕ) : after r (n + 1) = (localRead (after r n)).2 := rfl

theorem handedOut_succ (r : Reader) (n : ℕ) :
    handedOut r (n + 1) = handedOut r n ++ (localRead (after r n)).1.toList := rfl

theorem after_same (r : Reader) (n : ℕ) : r.Same (after r n) := by
  induction n with
  | zero => exact Reader.Same.refl r
  | succ n ih => exact ih.trans (localRead_same _)

/-! ### A call that fails -/

/-- A failing refill hands out the first byte of the buffer as it was. -/
theorem localRead_fails {r : Reader} (hon : r.enableCounter = true) (hf : ReadFails r) :
    localRead r = (some (r.inbuf.getD 0 0), ⟨⟨r.fd.stream, r.fd.sched, r.fd.calls + 1⟩, r.len,
      u32 (r.counterValue + 1), r.enableCounter, 1, 4294967295, r.inbuf⟩) := by
  obtain ⟨hp, hs⟩ := hf
  have hread : r.fd.read r.ask = (none, ⟨r.fd.stream, r.fd.sched, r.fd.calls + 1⟩) := by
    rw [Fd.read, hs]
  have hfill : r.fetch = ⟨⟨r.fd.stream, r.fd.sched, r.fd.calls + 1⟩, r.len, r.counterValue,
      r.enableCounter, 0, 4294967295, r.inbuf⟩ := by
    have hread' : ({ r with inbufP := 0 } : Reader).fd.read ({ r with inbufP := 0 } : Reader).ask =
        (none, ⟨r.fd.stream, r.fd.sched, r.fd.calls + 1⟩) := hread
    simp only [Reader.fetch, hp, ↓reduceIte]
    unfold Reader.refill
    rw [hread']
  rw [localRead, if_pos hon, hfill]
  rfl

/-! ### Failures that come back empty -/

/-- The schedule in which a call that fails delivers nothing. -/
def quiet (s : Schedule) : Schedule := fun i c => some ((s i c).getD 0)

theorem quiet_noErr (s : Schedule) : NoErr (quiet s) := fun _ _ => rfl

/-- The reader with another schedule. -/
def Reader.withSched (r : Reader) (s : Schedule) : Reader :=
  { r with fd := ⟨r.fd.stream, s, r.fd.calls⟩ }

/-- A call that does not fail is the same in the quiet schedule. -/
theorem localRead_quiet {r : Reader} (hon : r.enableCounter = true) (hf : ¬ ReadFails r) :
    localRead (r.withSched (quiet r.fd.sched)) =
      ((localRead r).1, (localRead r).2.withSched (quiet r.fd.sched)) := by
  have hfetch : (r.withSched (quiet r.fd.sched)).fetch = r.fetch.withSched (quiet r.fd.sched) := by
    by_cases hp : r.inbufP % 1024 = 0
    · obtain ⟨n, hn⟩ := Option.ne_none_iff_exists'.1 fun h => hf ⟨hp, h⟩
      have hn' : r.fd.sched r.fd.calls ({ r with inbufP := 0 } : Reader).ask = some n := hn
      have hq : quiet r.fd.sched r.fd.calls ({ r with inbufP := 0 } : Reader).ask = some n := by
        rw [quiet, hn']
        rfl
      have hread : ∀ s : Schedule, s r.fd.calls ({ r with inbufP := 0 } : Reader).ask = some n →
          (⟨r.fd.stream, s, r.fd.calls⟩ : Fd).read ({ r with inbufP := 0 } : Reader).ask =
            (some (r.fd.stream.take (min n ({ r with inbufP := 0 } : Reader).ask)),
              ⟨r.fd.stream.drop (min n ({ r with inbufP := 0 } : Reader).ask), s,
                r.fd.calls + 1⟩) := by
        intro s hs
        rw [Fd.read]
        simp only [hs]
      have h1 : ({ r.withSched (quiet r.fd.sched) with inbufP := 0 } : Reader).fd.read
          ({ r.withSched (quiet r.fd.sched) with inbufP := 0 } : Reader).ask = _ := hread _ hq
      have h2 : ({ r with inbufP := 0 } : Reader).fd.read ({ r with inbufP := 0 } : Reader).ask = _ :=
        hread _ hn'
      have hp' : (r.withSched (quiet r.fd.sched)).inbufP % 1024 = 0 := hp
      simp only [Reader.fetch, hp, hp', ↓reduceIte]
      unfold Reader.refill
      rw [h1, h2]
      rfl
    · have hp' : (r.withSched (quiet r.fd.sched)).inbufP % 1024 ≠ 0 := hp
      simp only [Reader.fetch, if_neg hp, if_neg hp']
      rfl
  have hon' : (r.withSched (quiet r.fd.sched)).enableCounter = true := hon
  rw [localRead, localRead, if_pos hon, if_pos hon', hfetch, Reader.next, Reader.next]
  by_cases hl : r.fetch.inbufP < r.fetch.inbufL
  · have hl' : (r.fetch.withSched (quiet r.fd.sched)).inbufP <
        (r.fetch.withSched (quiet r.fd.sched)).inbufL := hl
    rw [if_pos hl, if_pos hl']
    rfl
  · have hl' : ¬ (r.fetch.withSched (quiet r.fd.sched)).inbufP <
        (r.fetch.withSched (quiet r.fd.sched)).inbufL := hl
    rw [if_neg hl, if_neg hl']
    rfl

/-- A run without failures is the same in the quiet schedule. -/
theorem after_quiet {r : Reader} (hon : r.enableCounter = true) {n : ℕ}
    (hf : ∀ k < n, ¬ ReadFails (after r k)) :
    after (r.withSched (quiet r.fd.sched)) n = (after r n).withSched (quiet r.fd.sched) ∧
      handedOut (r.withSched (quiet r.fd.sched)) n = handedOut r n := by
  induction n with
  | zero => exact ⟨rfl, rfl⟩
  | succ n ih =>
    obtain ⟨h1, h2⟩ := ih fun k hk => hf k (Nat.lt_succ_of_lt hk)
    have hsame := after_same r n
    have hstep := localRead_quiet (hsame.enable.trans hon) (hf n (Nat.lt_succ_self n))
    rw [hsame.sched] at hstep
    rw [after_succ, after_succ, handedOut_succ, handedOut_succ, h1, h2, hstep]
    exact ⟨rfl, rfl⟩

/-! ### Runs without failures -/

theorem BodyStart.bodyReader {r : Reader} (h : BodyStart r) (hs : NoErr r.fd.sched) :
    BodyReader r where
  on := h.on
  noErr := hs
  size := h.size
  pos := by rw [h.inbufP, h.inbufL]
  lim := by rw [h.inbufL]; exact Nat.zero_le _
  count := by
    rw [h.counter, Reader.unread_nil (by rw [h.inbufP])]
    exact Nat.zero_le _
  word := h.word

/-- What is handed out and what is still to come make up the request. -/
theorem handedOut_rest {r : Reader} (h : BodyReader r) (n : ℕ) :
    BodyReader (after r n) ∧ r.rest = handedOut r n ++ (after r n).rest := by
  induction n with
  | zero => exact ⟨h, rfl⟩
  | succ n ih =>
    obtain ⟨hb, hrest⟩ := ih
    rw [after_succ, handedOut_succ]
    rcases localRead_body hb with ⟨c, r', hr, hb', hc, -⟩ | ⟨r', hr, hb', hc, -, -⟩
    · rw [hr]
      refine ⟨hb', ?_⟩
      rw [hrest, hc]
      simp
    · rw [hr]
      refine ⟨hb', ?_⟩
      rw [hrest, ← hc]
      simp

/-- **A run of `local_read` through the body is honest exactly when no `read()` in it fails.** -/
theorem honest_iff {r : Reader} (h : BodyStart r) (n : ℕ) :
    Honest r n ↔ ∀ k < n, ¬ ReadFails (after r k) := by
  constructor
  · intro hh k hk hf
    have hnone := (hh.failed k hk hf).1
    rw [localRead_fails ((after_same r k).enable.trans h.on) hf] at hnone
    cases hnone
  · intro hf
    refine ⟨fun k hk => ?_, fun k hk hfail => absurd hfail (hf k hk)⟩
    obtain ⟨h1, h2⟩ := after_quiet h.on (n := k) fun j hj => hf j (by omega)
    have hq : BodyStart (r.withSched (quiet r.fd.sched)) :=
      ⟨h.on, h.counter, h.inbufP, h.inbufL, h.size, h.word⟩
    obtain ⟨-, hrest⟩ := handedOut_rest (hq.bodyReader (quiet_noErr _)) k
    rw [h1, h2, Reader.rest, Reader.unread_nil (by rw [hq.inbufP]), List.nil_append] at hrest
    refine ⟨handedOut r k ++ ((after r k).withSched (quiet r.fd.sched)).unread, ?_,
      List.prefix_append _ _⟩
    rw [List.append_assoc]
    exact hrest

/-- The reader at the start of the body `xs`. -/
def bodyAt (s : Schedule) (xs : Bytes) : Reader :=
  ⟨⟨xs, s, 0⟩, xs.length, 0, true, 0, 0, List.replicate 1024 0⟩

theorem bodyAt_start (s : Schedule) {xs : Bytes} (h : xs.length < 4294967296) :
    BodyStart (bodyAt s xs) :=
  ⟨rfl, rfl, rfl, rfl, List.length_replicate, h⟩

theorem honest_iff_eager : Honest (bodyAt eager [65]) 2 :=
  (honest_iff (bodyAt_start eager (by decide)) 2).2 fun k _ hf => by
    have hnone := hf.2
    rw [(after_same (bodyAt eager [65]) k).sched] at hnone
    cases hnone

/-- A first `read()` that fails hands out the NUL that the buffer was filled with. -/
theorem not_honest_failing : ¬ ∀ (r : Reader) (n : ℕ), BodyStart r → Honest r n := by
  intro h
  have hfails : ReadFails (bodyAt (fun _ _ => none) [65]) := ⟨rfl, rfl⟩
  have hstart : BodyStart (bodyAt (fun _ _ => none) [65]) := bodyAt_start _ (by decide)
  have hnone := ((h _ 1 hstart).failed 0 Nat.one_pos hfails).1
  rw [after_zero, localRead_fails rfl hfails] at hnone
  cases hnone

/-! ### The accounts of a run -/

/-- The number of those of the first `n` calls of `local_read` that return `1`. -/
def callsWithByte (r : Reader) : ℕ → ℕ
  | 0 => 0
  | n + 1 => callsWithByte r n + if (localRead (after r n)).1.isSome then 1 else 0

theorem callsWithByte_succ (r : Reader) (n : ℕ) :
    callsWithByte r (n + 1) =
      callsWithByte r n + if (localRead (after r n)).1.isSome then 1 else 0 := rfl

/-- Without failures the counter counts the calls that return `1`. -/
theorem counterValue_after {r : Reader} (h : BodyReader r) (n : ℕ) :
    (after r n).counterValue = r.counterValue + callsWithByte r n := by
  induction n with
  | zero => rfl
  | succ n ih =>
    obtain ⟨hb, -⟩ := handedOut_rest h n
    rw [after_succ, callsWithByte_succ]
    rcases localRead_body hb with ⟨c, r', hr, -, -, hcount⟩ | ⟨r', hr, -, -, hcount, -⟩
    · rw [hr]
      show r'.counterValue = r.counterValue + (callsWithByte r n + 1)
      omega
    · rw [hr]
      show r'.counterValue = r.counterValue + (callsWithByte r n + 0)
      omega

/-- What was taken from the descriptor, without failures: what was handed out, and then what waits in
the buffer. -/
theorem taken_after {r : Reader} (h : BodyReader r) (hempty : r.unread = []) (n : ℕ) :
    r.fd.stream = handedOut r n ++ (after r n).unread ++ (after r n).fd.stream := by
  obtain ⟨-, hrest⟩ := handedOut_rest h n
  rw [Reader.rest, hempty, List.nil_append] at hrest
  rw [hrest, List.append_assoc]
  rfl

/-- Every call that returns `1` hands out one byte. -/
theorem length_handedOut (r : Reader) (n : ℕ) : (handedOut r n).length = callsWithByte r n := by
  induction n with
  | zero => rfl
  | succ n ih =>
    rw [handedOut_succ, callsWithByte_succ, List.length_append, ih]
    cases (localRead (after r n)).1 <;> rfl

/-- **The accounts of the body reader.**  When no `read()` fails, then after any number of calls the
counter is the number of those that returned `1`, and no more than the length of the body.  What was
taken from the descriptor is what was handed out and then what waits in the buffer, and it is not
longer than the body either. -/
theorem body_accounts {r : Reader} (h : BodyStart r) (hs : NoErr r.fd.sched) (n : ℕ) :
    (after r n).counterValue = callsWithByte r n ∧ (after r n).counterValue ≤ r.len ∧
      ∃ taken, r.fd.stream = taken ++ (after r n).fd.stream ∧
        taken = handedOut r n ++ (after r n).unread ∧ taken.length ≤ r.len := by
  have hbody := h.bodyReader hs
  have hcount := counterValue_after hbody n
  rw [h.counter, Nat.zero_add] at hcount
  -- the invariant leaves room for what waits in the buffer
  have hroom := (handedOut_rest hbody n).1.count
  rw [(after_same r n).len] at hroom
  have hempty : r.unread = [] := Reader.unread_nil (by rw [h.inbufP])
  refine ⟨hcount, by omega, _, taken_after hbody hempty n, rfl, ?_⟩
  rw [List.length_append, length_handedOut, ← hcount]
  exact hroom

/-- Three calls on a body of two bytes, which come one by one. -/
theorem body_accounts_two :
    (after (bodyAt (fun _ _ => some 1) [65, 66]) 3).counterValue =
        callsWithByte (bodyAt (fun _ _ => some 1) [65, 66]) 3 ∧
      (after (bodyAt (fun _ _ => some 1) [65, 66]) 3).counterValue ≤ 2 := by
  obtain ⟨hcount, hle, -⟩ :=
    body_accounts (bodyAt_start (fun _ _ => some 1) (show ([65, 66] : Bytes).length < 4294967296 by decide))
      (fun _ _ => rfl) 3
  exact ⟨hcount, hle⟩

end ZRouter.Upgrade
