import ZRouter.Upgrade.Payload

/-!
# What goes through the ring

The ring holds back the last 256 bytes of a stream and hands the others on; beside that it looks for
the delimiter, with a counter that starts again from zero at a byte that does not fit.

* `handedOn`: the bytes that the calls of `ring_buffer_append` hand to `local_write`;
* `Ring.lastBytes`: the ring, read from the oldest slot on;
* `ring_streams`: the ring after any stream;
* `delimiter_detected`: what the counter finds, and that it finds a delimiter at the start of a line.
-/

namespace ZRouter.Upgrade

/-! ### The bytes -/

/-- What a call of `ring_buffer_append` hands to `local_write`. -/
def Ring.handsOn (rb : Ring) : Bytes :=
  if 256 ≤ rb.total then [rb.buf.getD ((rb.curr + 1) % 256) 0] else []

/-- What the calls for the bytes `xs` hand to `local_write`. -/
def handedOn : Ring → Bytes → Bytes
  | _, [] => []
  | rb, c :: xs => rb.handsOn ++ handedOn (ringBufferAppend rb c).2 xs

/-- The last `k` slots up to `curr`, the oldest first. -/
def Ring.lastBytes (rb : Ring) (k : ℕ) : Bytes :=
  (List.range k).map fun j => rb.buf.getD ((rb.curr + 256 + 1 - k + j) % 256) 0

theorem handedOn_append (rb : Ring) (xs ys : Bytes) :
    handedOn rb (xs ++ ys) = handedOn rb xs ++ handedOn (feed rb xs) ys := by
  induction xs generalizing rb with
  | nil => rfl
  | cons c xs ih =>
    rw [List.cons_append, handedOn, ih, handedOn, List.append_assoc]
    rfl

theorem handedOn_singleton (rb : Ring) (c : UInt8) : handedOn rb [c] = rb.handsOn :=
  List.append_nil _

/-- The next byte handed on is the oldest one. -/
theorem RingHolds.handsOn {rb : Ring} {xs : Bytes} (h : RingHolds rb xs) :
    xs.take (xs.length - 256) ++ rb.handsOn = xs.take (xs.length + 1 - 256) := by
  rw [Ring.handsOn, h.total]
  split_ifs with hx
  · have hold := h.oldest hx 0 (by norm_num)
    simp only [Nat.add_zero] at hold
    have hnext : xs.length + 1 - 256 = xs.length - 256 + 1 := by omega
    rw [hold]
    conv_rhs => rw [hnext, List.take_add_one, List.getElem?_eq_getElem (by omega)]
    rfl
  · have hnone : xs.length + 1 - 256 = xs.length - 256 := by omega
    rw [List.append_nil]
    conv_rhs => rw [hnone]

/-- The run: all but the last 256 bytes are handed on. -/
theorem handedOn_feed (b xs : Bytes) (hx : xs.length < 4294967296) :
    handedOn (ringBufferInit b) xs = xs.take (xs.length - 256) := by
  induction xs using List.reverseRecOn with
  | nil => rfl
  | append_singleton xs c ih =>
    rw [List.length_append, List.length_singleton] at hx
    have hholds := feed_holds b xs (by omega)
    rw [handedOn_append, handedOn_singleton, ih (by omega), hholds.handsOn, List.length_append,
      List.length_singleton, List.take_append_of_le_length (by omega)]

/-- The slots up to `curr` hold the last bytes. -/
theorem RingHolds.lastBytes {rb : Ring} {xs : Bytes} (h : RingHolds rb xs) :
    rb.lastBytes (min xs.length 256) = xs.drop (xs.length - 256) := by
  apply List.ext_getElem
  · rw [Ring.lastBytes, List.length_map, List.length_range, List.length_drop]
    omega
  · intro j hj hj'
    rw [List.length_drop] at hj'
    simp only [Ring.lastBytes, List.getElem_map, List.getElem_range]
    have hmod : (rb.curr + 256 + 1 - min xs.length 256 + j) % 256 =
        (xs.length - 256 + j + 1) % 256 := by
      rw [h.curr]
      omega
    rw [hmod, h.slot (xs.length - 256 + j) (by omega) (by omega), List.getElem_drop]

/-- **The ring after any stream.**  All but the last 256 bytes have been handed to `local_write`, in
their order, and are counted in `filesize`; the ring, read from its oldest slot up to `curr`, holds the
others, and `total` counts them all. -/
theorem ring_streams (b : Bytes) {xs : Bytes} (hx : xs.length < 2 ^ 32) :
    handedOn (ringBufferInit b) xs = xs.take (xs.length - 256) ∧
      (feed (ringBufferInit b) xs).out.bytes = xs.take (xs.length - 256) ∧
      (feed (ringBufferInit b) xs).filesize = xs.length - 256 ∧
      (feed (ringBufferInit b) xs).lastBytes (min xs.length 256) = xs.drop (xs.length - 256) ∧
      (feed (ringBufferInit b) xs).total = xs.length := by
  have hholds := feed_holds b xs hx
  exact ⟨handedOn_feed b xs hx, hholds.out, hholds.filesize, hholds.lastBytes, hholds.total⟩

/-- The bytes 0, 1, …, 255, 0, …, 43. -/
def countUp : Bytes := (List.range 300).map UInt8.ofNat

/-- The ring has gone around once, and 44 bytes have left it. -/
theorem ring_streams_countUp :
    handedOn (ringBufferInit (str "x")) countUp = (List.range 44).map UInt8.ofNat ∧
      (feed (ringBufferInit (str "x")) countUp).lastBytes 256 = countUp.drop 44 := by
  have hlen : countUp.length = 300 := by simp [countUp]
  obtain ⟨hhanded, -, -, hlast, -⟩ := ring_streams (str "x") (show countUp.length < 2 ^ 32 by rw [hlen]; norm_num)
  rw [hlen] at hhanded hlast
  refine ⟨?_, hlast⟩
  rw [hhanded, countUp, ← List.map_take, List.take_range]
  rfl

/-! ### The delimiter -/

/-- The calls of `ring_buffer_append` for the bytes `xs` all return `0`. -/
def NoHit (b xs : Bytes) : Prop :=
  ∀ ys c, ys ++ [c] <+: xs → (ringBufferAppend (feed (ringBufferInit b) ys) c).1 = false

/-- The delimiter stands at the start of a line: at the start of the stream, or behind a line feed. -/
def AtLineStart (pre : Bytes) : Prop := pre = [] ∨ ∃ line, pre = line ++ [lf]

/-- As long as all calls return `0`, the counter has not reached its end. -/
theorem NoHit.notYet {b xs : Bytes} (h : NoHit b xs) : NotYet (45 :: 45 :: b) xs := by
  intro ys hy
  rcases List.eq_nil_or_concat ys with rfl | ⟨zs, c, rfl⟩
  · exact (Nat.succ_ne_zero _).symm
  · rw [List.concat_eq_append] at hy ⊢
    intro hc
    have hhit := (feed_hit b zs c).2 hc
    rw [h zs c hy] at hhit
    cases hhit

/-- At the start of a line the counter is zero. -/
theorem matchAfter_lineStart {b pre : Bytes} (hlf : lf ∉ b) (hpre : AtLineStart pre) :
    matchAfter (45 :: 45 :: b) pre = 0 := by
  rcases hpre with rfl | ⟨line, rfl⟩
  · rfl
  · have hd : lf ∉ 45 :: 45 :: b := by simpa [show lf ≠ 45 by decide] using hlf
    exact matchAfter_reset hd (by decide)

/-- **The counter finds the delimiter.**  As long as the calls return `0` the counter stays below the
length of the delimiter; the first call that returns `1` does so behind the delimiter; and the calls
do not all return `0` on a stream that ends with a delimiter at the start of a line. -/
theorem delimiter_detected {b : Bytes} (hlf : lf ∉ b) (xs : Bytes) :
    (NoHit b xs → (feed (ringBufferInit b) xs).matched < (45 :: 45 :: b).length) ∧
      (∀ ys c, xs = ys ++ [c] → NoHit b ys →
        (ringBufferAppend (feed (ringBufferInit b) ys) c).1 = true → 45 :: 45 :: b <:+ xs) ∧
      ∀ pre, xs = pre ++ 45 :: 45 :: b → AtLineStart pre → ¬ NoHit b xs := by
  have hd : (45 :: 45 :: b : Bytes) ≠ [] := List.cons_ne_nil _ _
  refine ⟨fun h => ?_, fun ys c hxs h hhit => ?_, fun pre hxs hpre h => ?_⟩
  · rw [feed_matched]
    exact (matchAfter_suffix hd h.notYet).1
  · rw [hxs]
    exact matchAfter_found hd h.notYet ((feed_hit b ys c).1 hhit)
  · -- behind the start of a line the counter goes through the delimiter without a mismatch
    refine h.notYet xs List.prefix_rfl ?_
    rw [hxs]
    exact matchAfter_delimiter (matchAfter_lineStart hlf hpre)

/-- A boundary that starts with a dash, behind a line that ends in dashes. -/
theorem delimiter_detected_dash : ¬ NoHit (str "-a") (str "--\n---a") :=
  (delimiter_detected (by decide) (str "--\n---a")).2.2 (str "--\n") (by decide)
    (Or.inr ⟨str "--", by decide⟩)

end ZRouter.Upgrade
