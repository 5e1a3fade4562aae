import ZRouter.Lib.CString

/-!
# The request reader of `upgrade` (`http_input.c`, `http_input.h`)

`local_read` hands out the request one byte at a time.  While the header is read it asks the
descriptor for single bytes; once the body counter runs it goes through the 1024-byte buffer
`inbuf`, refilled whenever the read position is back at the start of the buffer.  `read_line`
collects a line into a buffer of `LINE_BUFFER_LEN` bytes.  The two sizes, `INPUT_BUFFER_SIZE` and
`LINE_BUFFER_LEN`, are written as 1024 and 256.

* `Fd`: the descriptor, with the bytes still to come and a schedule of the results of `read()`;
* `Reader`: the fields of `struct args` that belong to the reader; `localRead`, `readLine`;
* `Reader.rest`: the bytes of the request not yet handed out;
* `localRead_body`: in the body phase a call hands out the next byte of `rest` or nothing.
-/

namespace ZRouter.Upgrade

/-- Arithmetic of `unsigned int`; an `int` counter is kept by its two's complement image, which
is what its comparisons with an `unsigned int` see. -/
abbrev u32 (n : ℕ) : ℕ := n % 4294967296

/-- The results of `read()`: for the number of the call and the size asked for, at most so many
bytes, or `none` for `-1`. -/
abbrev Schedule := ℕ → ℕ → Option ℕ

/-- A descriptor: the bytes that have not been delivered, the schedule of `read()` and the number
of calls so far. -/
structure Fd where
  stream : Bytes
  sched : Schedule
  calls : ℕ

/-- `read(fd, _, count)`: the bytes delivered, `none` for `-1`. -/
def Fd.read (fd : Fd) (count : ℕ) : Option Bytes × Fd :=
  match fd.sched fd.calls count with
  | some n =>
      (some (fd.stream.take (min n count)), ⟨fd.stream.drop (min n count), fd.sched, fd.calls + 1⟩)
  | none => (none, ⟨fd.stream, fd.sched, fd.calls + 1⟩)

/-- The reader's part of `struct args`. -/
structure Reader where
  fd : Fd
  len : ℕ
  counterValue : ℕ
  enableCounter : Bool
  inbufP : ℕ
  inbufL : ℕ
  inbuf : Bytes

/-- The reader after `bzero`, with the descriptor set. -/
def Reader.zero (fd : Fd) : Reader := ⟨fd, 0, 0, false, 0, 0, List.replicate 1024 0⟩

/-- The size `local_read` asks for: no more than what is left of the body. -/
def Reader.ask (r : Reader) : ℕ := min 1024 (u32 (r.len + 4294967296 - r.counterValue))

/-- The refill of `local_read`; the result of `read()` is stored in the unsigned `inbuf_l`. -/
def Reader.refill (r : Reader) : Reader :=
  match r.fd.read r.ask with
  | (some bs, fd) => { r with fd := fd, inbuf := bs ++ r.inbuf.drop bs.length, inbufL := bs.length }
  | (none, fd) => { r with fd := fd, inbufL := 4294967295 }

/-- The reduction of the read position, with the refill when it is at the start. -/
def Reader.fetch (r : Reader) : Reader :=
  let r := { r with inbufP := r.inbufP % 1024 }
  if r.inbufP = 0 then r.refill else r

/-- The byte at the read position, if the last refill reached that far. -/
def Reader.next (r : Reader) : Option UInt8 × Reader :=
  if r.inbufP < r.inbufL then
    (some (r.inbuf.getD r.inbufP 0),
      { r with inbufP := r.inbufP + 1, counterValue := u32 (r.counterValue + 1) })
  else (none, { r with inbufP := 0 })

/-- `local_read` for one byte, the only size it is called with: the byte when it returns `1`. -/
def localRead (r : Reader) : Option UInt8 × Reader :=
  if r.enableCounter then r.fetch.next
  else
    match r.fd.read 1 with
    | (some (c :: _), fd) => (some c, { r with fd := fd })
    | (_, fd) => (none, { r with fd := fd })

/-- The passes of `read_line`: `n` bytes of the buffer are free, `acc` is what was stored. -/
def readLineFrom : ℕ → Reader → Bytes → Option Bytes × Reader
  | 0, r, acc => (some (acc.take (255)), r)
  | n + 1, r, acc =>
      match localRead r with
      | (none, r') => (none, r')
      | (some c, r') =>
          if c = cr then readLineFrom n r' (acc ++ [0])
          else if c = lf then (some acc, r')
          else readLineFrom n r' (acc ++ [c])

/-- `read_line(args, buf, LINE_BUFFER_LEN)`: the C string left in the buffer, `none` when it
returns `1`. -/
def readLine (r : Reader) : Option Bytes × Reader :=
  match readLineFrom 256 r [] with
  | (some l, r') => (some (cstr l), r')
  | (none, r') => (none, r')

/-! ### What the reader leaves alone -/

/-- The fields that reading does not change. -/
structure Reader.Same (r r' : Reader) : Prop where
  len : r'.len = r.len
  enable : r'.enableCounter = r.enableCounter
  sched : r'.fd.sched = r.fd.sched

theorem Reader.Same.refl (r : Reader) : r.Same r := ⟨rfl, rfl, rfl⟩

theorem Reader.Same.trans {r s t : Reader} (h : r.Same s) (k : s.Same t) : r.Same t :=
  ⟨k.len.trans h.len, k.enable.trans h.enable, k.sched.trans h.sched⟩

theorem Fd.read_sched (fd : Fd) (n : ℕ) : (fd.read n).2.sched = fd.sched := by
  unfold Fd.read
  cases fd.sched fd.calls n <;> rfl

theorem Reader.refill_same (r : Reader) : r.Same r.refill := by
  have h := r.fd.read_sched r.ask
  unfold Reader.refill
  split <;> rename_i hr <;> rw [hr] at h <;> exact ⟨rfl, rfl, h⟩

theorem Reader.fetch_same (r : Reader) : r.Same r.fetch := by
  have h : r.Same { r with inbufP := r.inbufP % 1024 } := ⟨rfl, rfl, rfl⟩
  unfold Reader.fetch
  dsimp only
  split_ifs
  · exact h.trans (Reader.refill_same _)
  · exact h

theorem Reader.next_same (r : Reader) : r.Same r.next.2 := by
  unfold Reader.next
  split_ifs <;> exact ⟨rfl, rfl, rfl⟩

theorem localRead_same (r : Reader) : r.Same (localRead r).2 := by
  unfold localRead
  split
  · exact r.fetch_same.trans r.fetch.next_same
  · have h := r.fd.read_sched 1
    split <;> rename_i hr <;> rw [hr] at h <;> exact ⟨rfl, rfl, h⟩

theorem readLineFrom_same (n : ℕ) (r : Reader) (acc : Bytes) :
    r.Same (readLineFrom n r acc).2 := by
  induction n generalizing r acc with
  | zero => exact Reader.Same.refl r
  | succ n ih =>
    have h := localRead_same r
    unfold readLineFrom
    split <;> rename_i hr <;> rw [hr] at h
    · exact h
    · split_ifs
      · exact h.trans (ih _ _)
      · exact h
      · exact h.trans (ih _ _)

theorem readLine_same (r : Reader) : r.Same (readLine r).2 := by
  have h := readLineFrom_same 256 r []
  unfold readLine
  split <;> rename_i hr <;> rw [hr] at h <;> exact h

/-! ### The body phase -/

/-- The bytes in the buffer that have not been handed out.  A read position at the start of the
buffer means that the next call refills it. -/
def Reader.unread (r : Reader) : Bytes :=
  if r.inbufP % 1024 = 0 then [] else (r.inbuf.take r.inbufL).drop r.inbufP

/-- The bytes of the request not yet handed out. -/
def Reader.rest (r : Reader) : Bytes := r.unread ++ r.fd.stream

/-- No call of `read()` fails. -/
def NoErr (sched : Schedule) : Prop := ∀ i c, (sched i c).isSome

/-- Every call of `read()` before the end of the stream delivers something, if anything is asked
for. -/
def Positive (sched : Schedule) : Prop := ∀ i c, ∃ n, sched i c = some n ∧ (0 < c → 0 < n)

/-- Every call of `read()` delivers what was asked for, or all that remains. -/
def Full (sched : Schedule) : Prop := ∀ i c, sched i c = some c

theorem Full.positive {sched : Schedule} (h : Full sched) : Positive sched :=
  fun i c => ⟨c, h i c, id⟩

theorem Positive.noErr {sched : Schedule} (h : Positive sched) : NoErr sched := by
  intro i c
  obtain ⟨n, hn, -⟩ := h i c
  simp [hn]

/-- The state of the reader in the body phase. -/
structure BodyReader (r : Reader) : Prop where
  on : r.enableCounter = true
  noErr : NoErr r.fd.sched
  size : r.inbuf.length = 1024
  pos : r.inbufP ≤ r.inbufL
  lim : r.inbufL ≤ 1024
  count : r.counterValue + r.unread.length ≤ r.len
  word : r.len < 4294967296

theorem Fd.read_of_noErr {fd : Fd} (h : NoErr fd.sched) (count : ℕ) :
    ∃ n, fd.sched fd.calls count = some n ∧ fd.read count =
      (some (fd.stream.take (min n count)),
        ⟨fd.stream.drop (min n count), fd.sched, fd.calls + 1⟩) := by
  obtain ⟨n, hn⟩ := Option.isSome_iff_exists.1 (h fd.calls count)
  exact ⟨n, hn, by simp [Fd.read, hn]⟩

theorem BodyReader.ask_eq {r : Reader} (h : BodyReader r) :
    r.ask = min 1024 (r.len - r.counterValue) := by
  have h1 := h.count
  have h2 := h.word
  unfold Reader.ask u32
  congr 1
  omega

/-- A call that refills the buffer and gets nothing. -/
theorem localRead_refill_nil {r : Reader} {fd : Fd} (hon : r.enableCounter = true)
    (hp : r.inbufP % 1024 = 0) (hr : r.fd.read r.ask = (some [], fd)) :
    localRead r = (none, { r with fd := fd, inbufL := 0, inbufP := 0 }) := by
  have hfill : r.fetch = { r with fd := fd, inbufL := 0, inbufP := 0 } := by
    have hr' : ({ r with inbufP := 0 } : Reader).fd.read ({ r with inbufP := 0 } : Reader).ask =
        (some [], fd) := hr
    simp only [Reader.fetch, hp, ↓reduceIte]
    unfold Reader.refill
    rw [hr']
    rfl
  rw [localRead, if_pos hon, hfill]
  rfl

/-- A call that refills the buffer and gets some bytes. -/
theorem localRead_refill_cons {r : Reader} {fd : Fd} {c : UInt8} {cs : Bytes}
    (hon : r.enableCounter = true) (hp : r.inbufP % 1024 = 0)
    (hr : r.fd.read r.ask = (some (c :: cs), fd)) :
    localRead r = (some c, ⟨fd, r.len, u32 (r.counterValue + 1), r.enableCounter, 1,
      cs.length + 1, c :: cs ++ r.inbuf.drop (cs.length + 1)⟩) := by
  have hfill : r.fetch = ⟨fd, r.len, r.counterValue, r.enableCounter, 0, cs.length + 1,
      c :: cs ++ r.inbuf.drop (cs.length + 1)⟩ := by
    have hr' : ({ r with inbufP := 0 } : Reader).fd.read ({ r with inbufP := 0 } : Reader).ask =
        (some (c :: cs), fd) := hr
    simp only [Reader.fetch, hp, ↓reduceIte]
    unfold Reader.refill
    rw [hr']
    rfl
  rw [localRead, if_pos hon, hfill]
  simp [Reader.next]

/-- Inside the buffer nothing is read from the descriptor. -/
theorem Reader.fetch_inside {r : Reader} (h0 : 0 < r.inbufP) (hlt : r.inbufP < 1024) :
    r.fetch = r := by
  simp only [Reader.fetch, Nat.mod_eq_of_lt hlt, h0.ne', ↓reduceIte]

/-- A call that finds the buffer used up. -/
theorem localRead_used_up {r : Reader} (hon : r.enableCounter = true) (h0 : 0 < r.inbufP)
    (hlt : r.inbufP < 1024) (hl : r.inbufL ≤ r.inbufP) :
    localRead r = (none, { r with inbufP := 0 }) := by
  rw [localRead, if_pos hon, Reader.fetch_inside h0 hlt, Reader.next, if_neg (Nat.not_lt.2 hl)]

/-- A call that takes its byte from the buffer. -/
theorem localRead_buffered {r : Reader} (hon : r.enableCounter = true) (h0 : 0 < r.inbufP)
    (hlt : r.inbufP < 1024) (hl : r.inbufP < r.inbufL) :
    localRead r = (some (r.inbuf.getD r.inbufP 0),
      { r with inbufP := r.inbufP + 1, counterValue := u32 (r.counterValue + 1) }) := by
  rw [localRead, if_pos hon, Reader.fetch_inside h0 hlt, Reader.next, if_pos hl]

theorem Reader.unread_nil {r : Reader} (hp : r.inbufP % 1024 = 0) : r.unread = [] :=
  if_pos hp

theorem Reader.unread_drop {r : Reader} (hl : r.inbufL ≤ 1024) (hp : 0 < r.inbufP) :
    r.unread = (r.inbuf.take r.inbufL).drop r.inbufP := by
  unfold Reader.unread
  split_ifs with h
  · symm
    rw [List.drop_eq_nil_iff, List.length_take]
    have := Nat.le_of_dvd hp (Nat.dvd_of_mod_eq_zero h)
    omega
  · rfl

/-- A read position inside the buffer. -/
theorem BodyReader.pos_lt {r : Reader} (h : BodyReader r) (hp : r.inbufP % 1024 ≠ 0) :
    0 < r.inbufP ∧ r.inbufP < 1024 := by
  have h1 := h.pos
  have h2 := h.lim
  refine ⟨Nat.pos_of_ne_zero fun h0 => hp (by simp [h0]), ?_⟩
  rcases Nat.lt_or_ge r.inbufP 1024 with hlt | hge
  · exact hlt
  · exact absurd (by rw [show r.inbufP = 1024 by omega, Nat.mod_self]) hp

/-- The descriptor after a call of `read()` that could deliver `n` bytes. -/
def Fd.past (fd : Fd) (n : ℕ) : Fd := ⟨fd.stream.drop n, fd.sched, fd.calls + 1⟩

/-- A refilling call: the first of the bytes that the descriptor delivers is handed out at once. -/
theorem localRead_body_refill {r : Reader} (h : BodyReader r) (hp : r.inbufP % 1024 = 0) :
    ∃ n, r.fd.sched r.fd.calls r.ask = some n ∧
      ((r.fd.stream.take (min n r.ask) = [] ∧
          localRead r = (none, { r with fd := r.fd.past (min n r.ask), inbufL := 0, inbufP := 0 })) ∨
        ∃ c cs, r.fd.stream.take (min n r.ask) = c :: cs ∧ localRead r =
          (some c, ⟨r.fd.past (min n r.ask), r.len, r.counterValue + 1, r.enableCounter, 1,
            cs.length + 1, c :: cs ++ r.inbuf.drop (cs.length + 1)⟩)) := by
  obtain ⟨n, hn, hr⟩ := Fd.read_of_noErr h.noErr r.ask
  refine ⟨n, hn, ?_⟩
  cases hbs : r.fd.stream.take (min n r.ask) with
  | nil =>
    rw [hbs] at hr
    exact Or.inl ⟨rfl, localRead_refill_nil h.on hp hr⟩
  | cons c cs =>
    rw [hbs] at hr
    have hlen := congrArg List.length hbs
    rw [List.length_take, List.length_cons, h.ask_eq] at hlen
    have hc : u32 (r.counterValue + 1) = r.counterValue + 1 := by
      have := h.word
      unfold u32
      omega
    exact Or.inr ⟨c, cs, rfl, hc ▸ localRead_refill_cons h.on hp hr⟩

/-- The buffer after a refill. -/
theorem Reader.unread_refill {fd : Fd} {len n : ℕ} {on : Bool} {c : UInt8} {cs zs : Bytes}
    (h : cs.length < 1024) :
    (⟨fd, len, n, on, 1, cs.length + 1, c :: cs ++ zs⟩ : Reader).unread = cs := by
  rw [Reader.unread_drop (by simpa using h) Nat.one_pos]
  simp

/-- What a call does in the body phase: it hands out the next byte of the request and counts it,
or it hands out nothing and leaves the buffer to be refilled. -/
theorem localRead_body {r : Reader} (h : BodyReader r) :
    (∃ c r', localRead r = (some c, r') ∧ BodyReader r' ∧ r.rest = c :: r'.rest ∧
      r'.counterValue = r.counterValue + 1) ∨
    (∃ r', localRead r = (none, r') ∧ BodyReader r' ∧ r'.rest = r.rest ∧
      r'.counterValue = r.counterValue ∧ r'.inbufP = 0) := by
  obtain ⟨hon, hne, hsize, hpos, hlim, hcount, hword⟩ := id h
  by_cases hp : r.inbufP % 1024 = 0
  · obtain ⟨n, -, ⟨hbs, hr⟩ | ⟨c, cs, hbs, hr⟩⟩ := localRead_body_refill h hp
    · have hsplit := List.take_append_drop (min n r.ask) r.fd.stream
      rw [hbs] at hsplit
      rw [Reader.unread_nil hp] at hcount
      refine Or.inr ⟨_, hr, ⟨hon, hne, hsize, le_rfl, Nat.zero_le _, ?_, hword⟩, ?_, rfl, rfl⟩
      · rwa [Reader.unread_nil rfl]
      · rw [Reader.rest, Reader.rest, Reader.unread_nil hp, Reader.unread_nil rfl]
        exact hsplit
    · have hsplit := List.take_append_drop (min n r.ask) r.fd.stream
      have hlen := congrArg List.length hbs
      rw [hbs] at hsplit
      rw [List.length_take, List.length_cons, h.ask_eq] at hlen
      have hcs : cs.length < 1024 := by omega
      refine Or.inl ⟨c, _, hr, ⟨hon, hne, ?_, ?_, ?_, ?_, hword⟩, ?_, rfl⟩
      · simp [hsize]
        omega
      · simp
      · simp only
        omega
      · rw [Reader.unread_refill hcs]
        simp only
        omega
      · rw [Reader.rest, Reader.rest, Reader.unread_nil hp, Reader.unread_refill hcs]
        exact hsplit.symm
  · obtain ⟨h0, hlt⟩ := h.pos_lt hp
    have hun := Reader.unread_drop hlim h0
    by_cases hl : r.inbufP < r.inbufL
    · have hlen : r.inbufP < (r.inbuf.take r.inbufL).length := by
        rw [List.length_take]
        omega
      have hget : (r.inbuf.take r.inbufL)[r.inbufP] = r.inbuf.getD r.inbufP 0 := by
        rw [List.getElem_take, List.getD_eq_getElem?_getD, List.getElem?_eq_getElem (by omega)]
        rfl
      have hcons := List.drop_eq_getElem_cons hlen
      rw [hget, ← hun] at hcons
      rw [hcons, List.length_cons] at hcount
      have hc : u32 (r.counterValue + 1) = r.counterValue + 1 := by
        unfold u32
        omega
      have hr := localRead_buffered hon h0 hlt hl
      rw [hc] at hr
      have hun' : ({ r with inbufP := r.inbufP + 1, counterValue := r.counterValue + 1 } :
          Reader).unread = (r.inbuf.take r.inbufL).drop (r.inbufP + 1) :=
        Reader.unread_drop hlim (Nat.succ_pos _)
      refine Or.inl ⟨_, _, hr, ⟨hon, hne, hsize, hl, hlim, ?_, hword⟩, ?_, rfl⟩
      · rw [hun']
        simp only
        omega
      · rw [Reader.rest, Reader.rest, hcons, hun']
        rfl
    · have hr := localRead_used_up hon h0 hlt (Nat.not_lt.1 hl)
      refine Or.inr ⟨_, hr, ⟨hon, hne, hsize, Nat.zero_le _, hlim, ?_, hword⟩, ?_, rfl, rfl⟩
      · rw [Reader.unread_nil rfl]
        simp only [List.length_nil]
        omega
      · have hnil : r.unread = [] := by
          rw [hun, List.drop_eq_nil_iff, List.length_take]
          omega
        rw [Reader.rest, Reader.rest, hnil, Reader.unread_nil rfl]

end ZRouter.Upgrade
