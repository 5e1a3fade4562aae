import ZRouter.Upgrade.HttpInput

/-!
# Readers and the bytes they stand for

`Reads P stop` says that a reader `r` with `P r xs` hands out the bytes `xs` one after the other,
except that a call may come back empty where `stop` allows it.  There are three such predicates:

* `AtHeader r xs`: the header phase, where the schedule of `read()` makes no difference;
* `AtBody r xs`: the body phase, where a call may come back empty anywhere; `xs` is what is left of
  the announced body;
* `Unbroken m r xs`: the body phase when no call comes back empty as long as more than `m` bytes are
  left; `InHeader.unbroken_iff` says for which schedules of `read()` this holds at the start.

`line` is `read_line` on byte strings, and `readLine_reads` says what `readLine` makes of it.
-/

namespace ZRouter.Upgrade

/-- `read_line` on a byte string: the bytes stored, and what comes after them. -/
def lineFrom : ℕ → Bytes → Bytes → Option (Bytes × Bytes)
  | 0, xs, acc => some (acc.take 255, xs)
  | _ + 1, [], _ => none
  | n + 1, c :: xs, acc =>
      if c = cr then lineFrom n xs (acc ++ [0])
      else if c = lf then some (acc, xs)
      else lineFrom n xs (acc ++ [c])

/-- The first line of a byte string, and what comes after it. -/
def line (xs : Bytes) : Option (Bytes × Bytes) :=
  (lineFrom 256 xs []).map fun p => (cstr p.1, p.2)

/-- A reader with `P r xs` hands out the next byte of `xs`, or nothing where `stop` allows it. -/
def Reads (P : Reader → Bytes → Prop) (stop : Bytes → Prop) : Prop :=
  ∀ r xs, P r xs → (∃ c xs' r', xs = c :: xs' ∧ localRead r = (some c, r') ∧ P r' xs') ∨
    (stop xs ∧ ∃ r', localRead r = (none, r') ∧ P r' xs)

/-! ### Lines of byte strings -/

theorem lineFrom_suffix {n : ℕ} {xs acc l ys : Bytes} (h : lineFrom n xs acc = some (l, ys)) :
    ys <:+ xs ∧ (0 < n → ys.length < xs.length) := by
  induction n generalizing xs acc with
  | zero =>
    obtain ⟨-, rfl⟩ := Prod.mk.inj (Option.some.inj h)
    exact ⟨List.suffix_rfl, fun h0 => absurd h0 (lt_irrefl 0)⟩
  | succ n ih =>
    cases xs with
    | nil => cases h
    | cons c xs =>
      have step : ∀ acc', lineFrom n xs acc' = some (l, ys) →
          ys <:+ c :: xs ∧ (0 < n + 1 → ys.length < (c :: xs).length) := by
        intro acc' h'
        obtain ⟨h1, -⟩ := ih h'
        exact ⟨h1.trans (List.suffix_cons c xs), fun _ => Nat.lt_succ_of_le h1.length_le⟩
      rw [lineFrom] at h
      split_ifs at h
      · exact step _ h
      · obtain ⟨-, rfl⟩ := Prod.mk.inj (Option.some.inj h)
        exact ⟨List.suffix_cons c xs, fun _ => Nat.lt_succ_self _⟩
      · exact step _ h

theorem line_eq_some {xs l ys : Bytes} (h : line xs = some (l, ys)) :
    ∃ l', lineFrom 256 xs [] = some (l', ys) ∧ l = cstr l' := by
  obtain ⟨⟨l', ys'⟩, h1, h2⟩ := Option.map_eq_some_iff.1 h
  obtain ⟨rfl, rfl⟩ := Prod.mk.inj h2
  exact ⟨l', h1, rfl⟩

theorem line_suffix {xs l ys : Bytes} (h : line xs = some (l, ys)) :
    ys <:+ xs ∧ ys.length < xs.length := by
  obtain ⟨l', h1, -⟩ := line_eq_some h
  obtain ⟨h2, h3⟩ := lineFrom_suffix h1
  exact ⟨h2, h3 (by norm_num)⟩

theorem lineFrom_crlf {l : Bytes} (hcr : cr ∉ l) (hlf : lf ∉ l) :
    ∀ n acc xs, l.length + 2 ≤ n → lineFrom n (l ++ crlf ++ xs) acc = some (acc ++ l ++ [0], xs) := by
  induction l with
  | nil =>
    intro n acc xs hn
    obtain ⟨n, rfl⟩ : ∃ m, n = m + 2 := ⟨n - 2, by simp at hn; omega⟩
    simp [crlf, lineFrom, show lf ≠ cr by decide]
  | cons c l ih =>
    intro n acc xs hn
    obtain ⟨n, rfl⟩ : ∃ m, n = m + 1 := ⟨n - 1, by simp at hn; omega⟩
    simp only [List.mem_cons, not_or] at hcr hlf
    have h := ih hcr.2 hlf.2 n (acc ++ [c]) xs (by simp at hn ⊢; omega)
    rw [List.cons_append, List.cons_append, lineFrom, if_neg (Ne.symm hcr.1),
      if_neg (Ne.symm hlf.1), h]
    simp

/-- Text that `read_line` returns as it stands: without NUL, CR and LF, and short enough for the
buffer. -/
structure LineText (l : Bytes) : Prop where
  nul : (0 : UInt8) ∉ l
  cr : cr ∉ l
  lf : lf ∉ l
  short : l.length < 255

/-- A line that fits is read up to its first NUL. -/
theorem line_short {l : Bytes} (hcr : cr ∉ l) (hlf : lf ∉ l) (h : l.length < 255) (xs : Bytes) :
    line (l ++ crlf ++ xs) = some (cstr l, xs) := by
  rw [line, lineFrom_crlf hcr hlf 256 [] xs (by omega)]
  simp [cstr_append_nul]

/-- A complete line is read as it stands. -/
theorem LineText.line {l : Bytes} (h : LineText l) (xs : Bytes) :
    line (l ++ crlf ++ xs) = some (l, xs) := by
  rw [line_short h.cr h.lf h.short, cstr_eq_self h.nul]

theorem lineText_nil : LineText [] := ⟨by simp, by simp, by simp, by simp⟩

theorem line_empty (xs : Bytes) : line (crlf ++ xs) = some ([], xs) := lineText_nil.line xs

theorem lineFrom_eq_none {n : ℕ} {xs acc : Bytes} :
    lineFrom n xs acc = none ↔ lf ∉ xs ∧ xs.length < n := by
  induction n generalizing xs acc with
  | zero => simp [lineFrom]
  | succ n ih =>
    cases xs with
    | nil => simp [lineFrom]
    | cons c xs =>
      rw [lineFrom]
      split_ifs with h1 h2
      · simp [ih, h1, show lf ≠ cr by decide]
      · simp [h2]
      · simp [ih, Ne.symm h2]

/-- There is no first line when no end of line comes before the bytes run out. -/
theorem line_eq_none {xs : Bytes} : line xs = none ↔ lf ∉ xs ∧ xs.length < 256 := by
  rw [line, Option.map_eq_none_iff, lineFrom_eq_none]

/-! ### Lines of readers -/

section Lines

variable {P : Reader → Bytes → Prop} {stop : Bytes → Prop}

theorem readLineFrom_reads (hP : Reads P stop) : ∀ n r acc xs, P r xs →
    (∃ l ys r', lineFrom n xs acc = some (l, ys) ∧ readLineFrom n r acc = (some l, r') ∧ P r' ys) ∨
    (∃ xs' r', readLineFrom n r acc = (none, r') ∧ P r' xs' ∧ xs' <:+ xs ∧ stop xs' ∧
      ∀ l ys, lineFrom n xs acc = some (l, ys) → ys.length < xs'.length) := by
  intro n
  induction n with
  | zero =>
    intro r acc xs hr
    exact Or.inl ⟨_, _, r, rfl, rfl, hr⟩
  | succ n ih =>
    intro r acc xs hr
    rcases hP r xs hr with ⟨c, xs, r₁, rfl, h₁, hr₁⟩ | ⟨hstop, r₁, h₁, hr₁⟩
    · have step : ∀ acc', (∃ l ys r', lineFrom n xs acc' = some (l, ys) ∧
          readLineFrom n r₁ acc' = (some l, r') ∧ P r' ys) ∨
          (∃ xs' r', readLineFrom n r₁ acc' = (none, r') ∧ P r' xs' ∧ xs' <:+ c :: xs ∧ stop xs' ∧
            ∀ l ys, lineFrom n xs acc' = some (l, ys) → ys.length < xs'.length) := by
        intro acc'
        rcases ih r₁ acc' xs hr₁ with h | ⟨xs', r', h2, h3, h4, h5⟩
        · exact Or.inl h
        · exact Or.inr ⟨xs', r', h2, h3, h4.trans (List.suffix_cons c xs), h5⟩
      rw [lineFrom, readLineFrom, h₁]
      dsimp only
      split_ifs
      · exact step _
      · exact Or.inl ⟨acc, xs, r₁, rfl, rfl, hr₁⟩
      · exact step _
    · refine Or.inr ⟨xs, r₁, by rw [readLineFrom, h₁], hr₁, List.suffix_rfl, hstop, ?_⟩
      intro l ys h
      exact (lineFrom_suffix h).2 (Nat.succ_pos n)

/-- A call of `read_line` returns the first line, or it runs into an empty result on the way. -/
theorem readLine_reads (hP : Reads P stop) {r : Reader} {xs : Bytes} (hr : P r xs) :
    (∃ l ys r', line xs = some (l, ys) ∧ readLine r = (some l, r') ∧ P r' ys) ∨
    (∃ xs' r', readLine r = (none, r') ∧ P r' xs' ∧ xs' <:+ xs ∧ stop xs' ∧
      ∀ l ys, line xs = some (l, ys) → ys.length < xs'.length) := by
  rcases readLineFrom_reads hP 256 r [] xs hr with ⟨l, ys, r', h1, h2, h3⟩ |
    ⟨xs', r', h1, h2, h3, h4, h5⟩
  · exact Or.inl ⟨cstr l, ys, r', by simp [line, h1], by simp [readLine, h2], h3⟩
  · refine Or.inr ⟨xs', r', by simp [readLine, h1], h2, h3, h4, fun l ys h => ?_⟩
    obtain ⟨l', h6, -⟩ := line_eq_some h
    exact h5 l' ys h6

/-- The first line is read when no empty result can come before its end. -/
theorem readLine_of_line (hP : Reads P stop) {r : Reader} {xs l ys : Bytes} (hr : P r xs)
    (hl : line xs = some (l, ys)) (hstop : ∀ zs, stop zs → zs.length ≤ ys.length) :
    ∃ r', readLine r = (some l, r') ∧ P r' ys := by
  rcases readLine_reads hP hr with ⟨l', ys', r', h1, h2, h3⟩ | ⟨xs', r', h1, h2, h3, h4, h5⟩
  · obtain ⟨rfl, rfl⟩ := Prod.mk.inj (Option.some.inj (hl.symm.trans h1))
    exact ⟨r', h2, h3⟩
  · exact absurd (h5 l ys hl) (Nat.not_lt.2 (hstop xs' h4))

/-- Without a first line there is nothing to read. -/
theorem readLine_of_none (hP : Reads P stop) {r : Reader} {xs : Bytes} (hr : P r xs)
    (hl : line xs = none) : ∃ xs' r', readLine r = (none, r') ∧ P r' xs' ∧ stop xs' := by
  rcases readLine_reads hP hr with ⟨l, ys, r', h1, -, -⟩ | ⟨xs', r', h1, h2, -, h4, -⟩
  · rw [hl] at h1
    cases h1
  · exact ⟨xs', r', h1, h2, h4⟩

end Lines

/-! ### The header phase -/

/-- The reader in the header phase, with `xs` to come. -/
structure AtHeader (r : Reader) (xs : Bytes) : Prop where
  off : r.enableCounter = false
  positive : Positive r.fd.sched
  stream : r.fd.stream = xs
  counter : r.counterValue = 0
  inbufP : r.inbufP = 0
  inbufL : r.inbufL = 0
  size : r.inbuf.length = 1024

/-- A call in the header phase takes the first byte of the stream, if there is one. -/
theorem localRead_header {r : Reader} {xs : Bytes} (h : AtHeader r xs) :
    localRead r = (xs.head?, { r with fd := ⟨xs.tail, r.fd.sched, r.fd.calls + 1⟩ }) := by
  obtain ⟨n, hn, hpos⟩ := h.positive r.fd.calls 1
  have hmin : min n 1 = 1 := by have := hpos Nat.one_pos; omega
  have hread : r.fd.read 1 = (some (xs.take 1), ⟨xs.drop 1, r.fd.sched, r.fd.calls + 1⟩) := by
    simp [Fd.read, hn, hmin, h.stream]
  rw [localRead, h.off, hread]
  cases xs <;> rfl

/-- The header phase with what it leaves alone: `n` is the length announced so far and `s` the
schedule.  Every byte takes one call of `read()`, so `k` is the length of the whole request. -/
structure InHeader (n : ℕ) (s : Schedule) (k : ℕ) (r : Reader) (xs : Bytes) : Prop
    extends AtHeader r xs where
  len : r.len = n
  sched : r.fd.sched = s
  calls : xs = [] ∨ r.fd.calls + xs.length = k

theorem inHeader_zero {s : Schedule} (hs : Positive s) (xs : Bytes) :
    InHeader 0 s xs.length (Reader.zero ⟨xs, s, 0⟩) xs :=
  ⟨⟨rfl, hs, rfl, rfl, rfl, rfl, List.length_replicate⟩, rfl, rfl, Or.inr (Nat.zero_add _)⟩

theorem reads_header (n : ℕ) (s : Schedule) (k : ℕ) : Reads (InHeader n s k) (· = []) := by
  intro r xs h
  have h1 := localRead_header h.toAtHeader
  cases xs with
  | nil =>
    exact Or.inr ⟨rfl, _, h1, ⟨h.off, h.positive, rfl, h.counter, h.inbufP, h.inbufL, h.size⟩,
      h.len, h.sched, Or.inl rfl⟩
  | cons c xs =>
    refine Or.inl ⟨c, xs, _, rfl, h1, ⟨h.off, h.positive, rfl, h.counter, h.inbufP, h.inbufL, h.size⟩,
      h.len, h.sched, Or.inr ?_⟩
    have := h.calls.resolve_left (List.cons_ne_nil c xs)
    rw [List.length_cons] at this
    simp only
    omega

/-! ### The body phase -/

/-- The reader in the body phase, with `xs` left of the announced body. -/
structure AtBody (r : Reader) (xs : Bytes) : Prop where
  body : BodyReader r
  bytes : xs = r.rest.take (r.len - r.counterValue)

theorem AtBody.length_le {r : Reader} {xs : Bytes} (h : AtBody r xs) :
    r.counterValue + xs.length ≤ r.len := by
  have h1 := h.body.count
  rw [h.bytes, List.length_take]
  omega

/-- A byte handed out is the first one left. -/
theorem AtBody.cons {r r' : Reader} {xs : Bytes} {c : UInt8} (h : AtBody r xs)
    (hlen : r'.len = r.len) (hb : BodyReader r') (hrest : r.rest = c :: r'.rest)
    (hcount : r'.counterValue = r.counterValue + 1) :
    ∃ xs', xs = c :: xs' ∧ AtBody r' xs' := by
  refine ⟨_, ?_, hb, rfl⟩
  have hle := hb.count
  rw [h.bytes, hrest, hlen, hcount,
    show r.len - r.counterValue = r.len - (r.counterValue + 1) + 1 by omega, List.take_succ_cons]

theorem reads_body : Reads AtBody fun _ => True := by
  intro r xs h
  have hlen := (localRead_same r).len
  rcases localRead_body h.body with ⟨c, r', hr, hb, hrest, hcount⟩ | ⟨r', hr, hb, hrest, hcount, -⟩
  · rw [hr] at hlen
    obtain ⟨xs', hx, h'⟩ := h.cons hlen hb hrest hcount
    exact Or.inl ⟨c, xs', r', hx, hr, h'⟩
  · rw [hr] at hlen
    exact Or.inr ⟨trivial, r', hr, hb, by rw [h.bytes, hrest, hcount, hlen]⟩

/-! ### Calls that hand out a byte -/

/-- The next `n` calls of `local_read` each hand out a byte. -/
def HandsOut : ℕ → Reader → Prop
  | 0, _ => True
  | n + 1, r => ∃ c r', localRead r = (some c, r') ∧ HandsOut n r'

theorem handsOut_succ {n : ℕ} {r r' : Reader} {c : UInt8} (h : localRead r = (some c, r')) :
    HandsOut (n + 1) r ↔ HandsOut n r' := by
  refine ⟨fun hr => ?_, fun hr => ⟨c, r', h, hr⟩⟩
  obtain ⟨c₁, r₁, h1, h2⟩ := hr
  rwa [(Prod.mk.inj (h.symm.trans h1)).2]

theorem handsOut_of_le {n m : ℕ} {r : Reader} (h : m ≤ n) (hr : HandsOut n r) : HandsOut m r := by
  induction m generalizing n r with
  | zero => trivial
  | succ m ih =>
    obtain ⟨n, rfl⟩ : ∃ i, n = i + 1 := ⟨n - 1, by omega⟩
    obtain ⟨c, r', h1, h2⟩ := hr
    exact ⟨c, r', h1, ih (Nat.le_of_succ_le_succ h) h2⟩

theorem not_handsOut {n : ℕ} {r r' : Reader} (h : localRead r = (none, r')) :
    ¬ HandsOut (n + 1) r := by
  rintro ⟨c, r₁, h1, -⟩
  cases h.symm.trans h1

/-- The reader when all bytes of the buffer have been handed out. -/
def Reader.used (r : Reader) : Reader :=
  { r with inbufP := r.inbufL, counterValue := r.counterValue + (r.inbufL - r.inbufP) }

/-- The bytes of the buffer are handed out one after the other. -/
theorem handsOut_buffered {r : Reader} (h : BodyReader r) (h0 : 0 < r.inbufP) :
    BodyReader r.used ∧ ∀ e, HandsOut (r.inbufL - r.inbufP + e) r ↔ HandsOut e r.used := by
  induction hd : r.inbufL - r.inbufP generalizing r with
  | zero =>
    have heq : r.used = r := by
      have hle := h.pos
      obtain ⟨fd, len, counter, on, p, l, buf⟩ := r
      simp only [Reader.used, Reader.mk.injEq, true_and, and_true] at hd hle ⊢
      omega
    rw [heq]
    exact ⟨h, fun e => by rw [Nat.zero_add]⟩
  | succ d ih =>
    have hlim := h.lim
    have hlt : r.inbufP < r.inbufL := by omega
    have hr := localRead_buffered h.on h0 (by omega) hlt
    rcases localRead_body h with ⟨c, r', hr', hb, -, hcount⟩ | ⟨r', hr', -⟩
    swap
    · cases hr.symm.trans hr'
    obtain rfl := (Prod.mk.inj (hr.symm.trans hr')).2
    have hused : ({ r with inbufP := r.inbufP + 1, counterValue := u32 (r.counterValue + 1) } :
        Reader).used = r.used := by
      simp only [Reader.used, Reader.mk.injEq, true_and, and_true] at hcount ⊢
      omega
    obtain ⟨h1, h2⟩ := ih hb (Nat.succ_pos _) (by simp only; omega)
    rw [hused] at h1 h2
    exact ⟨h1, fun e => by rw [Nat.succ_add, handsOut_succ hr, h2]⟩

/-- **When the next calls all hand out a byte**: a `read()` that refills the buffer delivers 1024 bytes,
or all that these calls still need. -/
theorem handsOut_iff {r : Reader} (h : BodyReader r) (hp : r.inbufP % 1024 = 0) {j : ℕ}
    (hj : j ≤ r.fd.stream.length) (hlen : j ≤ r.len - r.counterValue) :
    HandsOut j r ↔ ∀ i, 1024 * i < j → ∃ c,
      r.fd.sched (r.fd.calls + i) (min 1024 (r.len - r.counterValue - 1024 * i)) = some c ∧
        min 1024 (j - 1024 * i) ≤ c := by
  induction j using Nat.strong_induction_on generalizing r with
  | _ j ih =>
    rcases Nat.eq_zero_or_pos j with rfl | hpos
    · exact iff_of_true trivial fun i hi => absurd hi (Nat.not_lt_zero _)
    obtain ⟨n, hn, hcase⟩ := localRead_body_refill h hp
    have hask := h.ask_eq
    -- the first of the reads is the one that this call makes
    have first : (∀ i, 1024 * i < j → ∃ c,
        r.fd.sched (r.fd.calls + i) (min 1024 (r.len - r.counterValue - 1024 * i)) = some c ∧
          min 1024 (j - 1024 * i) ≤ c) → min 1024 j ≤ n := by
      intro hall
      obtain ⟨c, h1, h2⟩ := hall 0 hpos
      rw [Nat.mul_zero, Nat.sub_zero, Nat.add_zero, ← hask, hn] at h1
      rwa [Option.some.inj h1]
    obtain ⟨hnil, hr⟩ | ⟨c, cs, hcons, hr⟩ := hcase
    · obtain ⟨j, rfl⟩ : ∃ i, j = i + 1 := ⟨j - 1, by omega⟩
      refine iff_of_false (not_handsOut hr) fun hall => ?_
      have h1 := first hall
      have h2 := congrArg List.length hnil
      rw [List.length_take, List.length_nil] at h2
      omega
    have ht := congrArg List.length hcons
    rw [List.length_take, List.length_cons] at ht
    obtain ⟨d, hd⟩ : ∃ d, j = d + 1 := ⟨j - 1, by omega⟩
    rcases localRead_body h with ⟨c₁, r₁, hr₁, hb₁, -⟩ | ⟨r₁, hr₁, -⟩
    swap
    · cases hr.symm.trans hr₁
    obtain rfl := (Prod.mk.inj (hr.symm.trans hr₁)).2
    obtain ⟨hb₂, hused⟩ := handsOut_buffered hb₁ Nat.one_pos
    simp only [Reader.used, Nat.add_sub_cancel] at hb₂ hused
    rw [hd, handsOut_succ hr, ← hd]
    rcases Nat.lt_or_ge cs.length d with hlong | hshort
    · obtain ⟨e, rfl⟩ : ∃ e, d = cs.length + (e + 1) := ⟨d - cs.length - 1, by omega⟩
      rw [hused]
      rcases Nat.lt_or_ge (cs.length + 1) 1024 with hpart | hfull
      · -- the buffer is not full, and the call behind its bytes comes back empty
        refine iff_of_false (not_handsOut (localRead_used_up hb₂.on (Nat.succ_pos _) hpart le_rfl))
          fun hall => ?_
        have := first hall
        omega
      · have hmin : min n r.ask = 1024 := by omega
        have shift : ∀ i, r.fd.sched (r.fd.calls + 1 + i)
            (min 1024 (r.len - (r.counterValue + 1 + cs.length) - 1024 * i)) =
            r.fd.sched (r.fd.calls + (i + 1))
              (min 1024 (r.len - r.counterValue - 1024 * (i + 1))) := by
          intro i
          rw [show r.fd.calls + 1 + i = r.fd.calls + (i + 1) by omega,
            show r.len - (r.counterValue + 1 + cs.length) - 1024 * i =
              r.len - r.counterValue - 1024 * (i + 1) by omega]
        rw [ih (e + 1) (by omega) hb₂ (by simp only; omega)
          (by simp only [Fd.past, List.length_drop]; omega) (by simp only; omega)]
        simp only [Fd.past, shift]
        constructor
        · intro hall i hi
          cases i with
          | zero => exact ⟨n, by rw [Nat.mul_zero, Nat.sub_zero, Nat.add_zero, ← hask, hn], by omega⟩
          | succ i =>
            obtain ⟨c', h1, h2⟩ := hall i (by omega)
            exact ⟨c', h1, by omega⟩
        · intro hall i hi
          obtain ⟨c', h1, h2⟩ := hall (i + 1) (by omega)
          exact ⟨c', h1, by omega⟩
    · refine iff_of_true ?_ fun i hi => ?_
      · exact handsOut_of_le hshort ((hused 0).2 trivial)
      · obtain rfl : i = 0 := by omega
        exact ⟨n, by rw [Nat.mul_zero, Nat.sub_zero, Nat.add_zero, ← hask, hn], by omega⟩

/-- The reader in the body phase when no call of `local_read` comes back empty as long as more than
`m` bytes are left. -/
structure Unbroken (m : ℕ) (r : Reader) (xs : Bytes) : Prop extends AtBody r xs where
  hands : HandsOut (xs.length - m) r

theorem reads_unbroken (m : ℕ) : Reads (Unbroken m) (·.length ≤ m) := by
  intro r xs h
  rcases reads_body r xs h.toAtBody with ⟨c, xs', r', rfl, hr, h'⟩ | ⟨-, r', hr, h'⟩
  · refine Or.inl ⟨c, xs', r', rfl, hr, h', ?_⟩
    have hands := h.hands
    rw [List.length_cons] at hands
    rcases Nat.lt_or_ge m (xs'.length + 1) with hlt | hge
    · rwa [Nat.succ_sub (Nat.le_of_lt_succ hlt), handsOut_succ hr] at hands
    · rw [Nat.sub_eq_zero_of_le (by omega)]
      trivial
  · have hm : xs.length ≤ m := by
      by_contra hlt
      have hands := h.hands
      rw [show xs.length - m = xs.length - m - 1 + 1 by omega] at hands
      exact not_handsOut hr hands
    refine Or.inr ⟨hm, r', hr, h', ?_⟩
    rw [Nat.sub_eq_zero_of_le hm]
    trivial

/-! ### From the header to the body -/

section Start

variable {n k : ℕ} {s : Schedule} {r : Reader} {ys : Bytes}

/-- Setting `enable_counter` starts the body phase. -/
theorem InHeader.atBody (h : InHeader n s k r ys) (hn : n < 4294967296) :
    AtBody { r with enableCounter := true } (ys.take n) := by
  have hun : ({ r with enableCounter := true } : Reader).unread = [] :=
    Reader.unread_nil (by simp [h.inbufP])
  refine ⟨⟨rfl, h.positive.noErr, h.size, ?_, ?_, ?_, ?_⟩, ?_⟩
  · simp [h.inbufP]
  · simp [h.inbufL]
  · rw [hun]
    simp [h.counter]
  · simpa [h.len] using hn
  · rw [Reader.rest, hun]
    simp [h.counter, h.len, h.stream]

/-- Each `read()` that starts while more than `m` bytes of the announced body are left delivers 1024
bytes, or all but the last `m`; `k` is the length of the whole request and `ys` what follows the
header. -/
def DeliversTo (m k : ℕ) (s : Schedule) (ys : Bytes) (n : ℕ) : Prop :=
  ∀ i, 1024 * i < (ys.take n).length - m → ∃ c,
    s (k - ys.length + i) (min 1024 (n - 1024 * i)) = some c ∧
      min 1024 ((ys.take n).length - m - 1024 * i) ≤ c

/-- These are the schedules for which no call of `local_read` comes back empty up to there. -/
theorem InHeader.unbroken_iff (h : InHeader n s k r ys) (hn : n < 4294967296) (m : ℕ) :
    Unbroken m { r with enableCounter := true } (ys.take n) ↔ DeliversTo m k s ys n := by
  have hb := h.atBody hn
  have hle : (ys.take n).length - m ≤ ys.length := by
    rw [List.length_take]
    omega
  have hiff := handsOut_iff (j := (ys.take n).length - m) hb.body (by simp [h.inbufP])
    (by simpa only [h.stream] using hle) (by simp [h.counter, h.len])
  have hread : ∀ i, 1024 * i < (ys.take n).length - m →
      r.fd.sched (r.fd.calls + i) (min 1024 (r.len - r.counterValue - 1024 * i)) =
        s (k - ys.length + i) (min 1024 (n - 1024 * i)) := by
    intro i hi
    have hk := h.calls.resolve_left (by rintro rfl; simp at hi)
    rw [h.counter, h.len, h.sched, Nat.sub_zero, show r.fd.calls = k - ys.length by omega]
  constructor
  · intro hu i hi
    obtain ⟨c, h1, h2⟩ := hiff.1 hu.hands i hi
    exact ⟨c, (hread i hi).symm.trans h1, h2⟩
  · intro hd
    refine ⟨hb, hiff.2 fun i hi => ?_⟩
    obtain ⟨c, h1, h2⟩ := hd i hi
    exact ⟨c, (hread i hi).trans h1, h2⟩

theorem Full.deliversTo (hs : Full s) (m k : ℕ) (ys : Bytes) (n : ℕ) : DeliversTo m k s ys n := by
  intro i hi
  refine ⟨_, hs _ _, ?_⟩
  rw [List.length_take] at hi ⊢
  omega

end Start

end ZRouter.Upgrade
