import ZRouter.Upgrade.Extraction

/-!
# What the ring makes of a payload

The ring gets the payload of a part, the end of line and the delimiter, byte by byte, and is then
drained.  `Extracts F b` says that this works out: the delimiter is seen at the last byte and not
before, and what comes out is the payload.

* `feed`: the ring after a byte string;
* `feed_matched`, `feed_holds`: the delimiter counter and the contents of the ring;
* `feed_count`: the two counters past the point where `total` starts again from zero;
* `extracts_iff`: it works out when ring and counters are neither too large nor too small.

A ring that has not wrapped is drained by the branch of `ring_buffer_drain` that does not look at
`last`, so that the delimiter is written with the payload.
-/

namespace ZRouter.Upgrade

/-- The ring after the bytes `xs`. -/
def feed (rb : Ring) (xs : Bytes) : Ring := xs.foldl (fun rb c => (ringBufferAppend rb c).2) rb

/-- The bytes of a part that the body loop hands to the ring. -/
def partBytes (F b : Bytes) : Bytes := F ++ crlf ++ 45 :: 45 :: b

/-- The payload `F` of a part is extracted: `ring_buffer_append` returns `1` at the last byte of the
delimiter only, and draining the ring leaves `F` behind `local_write` and its length in
`filesize`. -/
structure Extracts (F b : Bytes) : Prop where
  hit : ∀ ys c, ys ++ [c] <+: partBytes F b →
    ((ringBufferAppend (feed (ringBufferInit b) ys) c).1 = true ↔ ys ++ [c] = partBytes F b)
  bytes : (ringBufferDrain (feed (ringBufferInit b) (partBytes F b))).out.bytes = F
  filesize : (ringBufferDrain (feed (ringBufferInit b) (partBytes F b))).filesize = F.length

/-! ### Feeding the ring -/

@[simp] theorem feed_nil (rb : Ring) : feed rb [] = rb := rfl

theorem feed_append_singleton (rb : Ring) (xs : Bytes) (c : UInt8) :
    feed rb (xs ++ [c]) = (ringBufferAppend (feed rb xs) c).2 := by
  simp [feed]

theorem feed_boundary (b xs : Bytes) : (feed (ringBufferInit b) xs).boundary = 45 :: 45 :: b := by
  induction xs using List.reverseRecOn with
  | nil => rfl
  | append_singleton xs c ih =>
    rw [feed_append_singleton]
    exact ih

/-- The delimiter counter is that of the byte string, however long it is. -/
theorem feed_matched (b xs : Bytes) :
    (feed (ringBufferInit b) xs).matched = matchAfter (45 :: 45 :: b) xs := by
  induction xs using List.reverseRecOn with
  | nil => rfl
  | append_singleton xs c ih =>
    rw [feed_append_singleton, matchAfter_append, ← ih]
    show matchStep (feed (ringBufferInit b) xs).boundary (feed (ringBufferInit b) xs).matched c = _
    rw [feed_boundary]

theorem feed_hit (b ys : Bytes) (c : UInt8) :
    (ringBufferAppend (feed (ringBufferInit b) ys) c).1 = true ↔
      matchAfter (45 :: 45 :: b) (ys ++ [c]) = (45 :: 45 :: b).length := by
  rw [ringBufferAppend_hit, feed_boundary, feed_matched, ← matchAfter_append]
  exact decide_eq_true_iff

theorem feed_holds (b xs : Bytes) (hx : xs.length < 4294967296) :
    RingHolds (feed (ringBufferInit b) xs) xs := by
  induction xs using List.reverseRecOn with
  | nil => exact ringHolds_init b
  | append_singleton xs c ih =>
    rw [List.length_append, List.length_singleton] at hx
    rw [feed_append_singleton]
    exact (ih (by omega)).append c hx

/-! ### Counters that overflow -/

/-- The counters of a ring while `total` counts up to `2 ^ 32` and starts again from zero: nothing
falls out of the ring until it holds 256 again. -/
structure Overflows (rb : Ring) (n : ℕ) : Prop where
  total : rb.total = u32 n
  before : n ≤ 4294967296 → rb.filesize = n - 256
  after : 4294967296 ≤ n → n ≤ 4294967552 → rb.filesize = 4294967040

theorem Overflows.append {rb : Ring} {n : ℕ} (h : Overflows rb n) (c : UInt8) :
    Overflows (ringBufferAppend rb c).2 (n + 1) := by
  obtain ⟨ht, hb, ha⟩ := h
  have hfs : (ringBufferAppend rb c).2.filesize =
      if 256 ≤ rb.total then u32 (rb.filesize + 1) else rb.filesize := by
    show (rb.spill ((rb.curr + 1) % 256)).filesize = _
    unfold Ring.spill
    split_ifs <;> rfl
  have htot : (ringBufferAppend rb c).2.total = u32 (rb.total + 1) := rfl
  refine ⟨?_, fun hn => ?_, fun hn hn' => ?_⟩
  · rw [htot, ht]
    unfold u32
    omega
  · rw [hfs, ht, hb (by omega), u32, Nat.mod_eq_of_lt (by omega)]
    split_ifs
    · unfold u32
      omega
    · omega
  · rcases Nat.lt_or_ge n 4294967296 with hlt | hge
    · rw [hfs, ht, hb hlt.le, u32, Nat.mod_eq_of_lt hlt, if_pos (by omega), u32]
      omega
    · rw [hfs, ht, ha hge (by omega), u32, if_neg (by omega)]

theorem feed_count (b xs : Bytes) : Overflows (feed (ringBufferInit b) xs) xs.length := by
  induction xs using List.reverseRecOn with
  | nil => exact ⟨rfl, fun _ => rfl, fun h => absurd h (by norm_num)⟩
  | append_singleton xs c ih =>
    rw [feed_append_singleton, List.length_append]
    exact ih.append c

theorem drainFrom_filesize_lt (last : ℕ) : ∀ n i (rb : Ring), rb.filesize < 4294967296 →
    (drainFrom last n i rb).filesize < 4294967296 := by
  intro n
  induction n with
  | zero => exact fun i rb h => h
  | succ n ih =>
    intro i rb h
    unfold drainFrom
    split_ifs
    · exact h
    · exact ih _ _ (Nat.mod_lt _ (by norm_num))

theorem feed_filesize_lt (b xs : Bytes) :
    (feed (ringBufferInit b) xs).filesize < 4294967296 := by
  induction xs using List.reverseRecOn with
  | nil => exact Nat.succ_pos _
  | append_singleton xs c ih =>
    rw [feed_append_singleton]
    show ((feed (ringBufferInit b) xs).spill _).filesize < _
    unfold Ring.spill
    split_ifs
    · exact Nat.mod_lt _ (by norm_num)
    · exact ih

theorem drain_filesize_lt (b xs : Bytes) :
    (ringBufferDrain (feed (ringBufferInit b) xs)).filesize < 4294967296 := by
  unfold ringBufferDrain
  split_ifs
  · exact Nat.mod_lt _ (by norm_num)
  · exact drainFrom_filesize_lt _ _ _ _ (feed_filesize_lt b xs)

/-! ### When the payload is extracted -/

section Payload

variable {F b : Bytes}

theorem partBytes_length (F b : Bytes) : (partBytes F b).length = F.length + 4 + b.length := by
  simp [partBytes, crlf]
  omega

/-- The delimiter is seen at its last byte and not before, for every length. -/
theorem hit_iff (hcr : cr ∉ b) (hlf : lf ∉ b) (hF : ¬ 45 :: 45 :: b <:+: F) {ys : Bytes} {c : UInt8}
    (hy : ys ++ [c] <+: partBytes F b) :
    (ringBufferAppend (feed (ringBufferInit b) ys) c).1 = true ↔ ys ++ [c] = partBytes F b := by
  have hcr' : cr ∉ 45 :: 45 :: b := by simpa [show cr ≠ 45 by decide] using hcr
  have hlf' : lf ∉ 45 :: 45 :: b := by simpa [show lf ≠ 45 by decide] using hlf
  obtain ⟨hny, hend⟩ := delimiter_found_at_end (by simp) hcr' hlf' hF
  rw [feed_hit]
  constructor
  · intro hc
    by_contra hne
    refine hny _ ?_ hc
    -- a proper prefix is a prefix of all but the last byte
    have hsplit : partBytes F b = F ++ crlf ++ (45 :: 45 :: b).dropLast ++
        [(45 :: 45 :: b).getLast (by simp)] := by
      rw [partBytes, List.append_assoc _ (List.dropLast _), List.dropLast_append_getLast]
    rw [hsplit] at hy hne
    exact (List.prefix_concat_iff.1 hy).resolve_left hne
  · intro heq
    rw [heq]
    exact hend

/-- The counters of a stream that makes `total` start again are too small by what is left in the
ring. -/
theorem drain_overflow (b : Bytes) {xs : Bytes} (h1 : 4294967296 ≤ xs.length) (h2 : xs.length < 4294967552) :
    (ringBufferDrain (feed (ringBufferInit b) xs)).filesize = xs.length - 256 := by
  obtain ⟨ht, -, ha⟩ := feed_count b xs
  have htot : (feed (ringBufferInit b) xs).total = xs.length - 4294967296 := by
    rw [ht]
    unfold u32
    omega
  rw [ringBufferDrain, if_pos (by omega)]
  show u32 ((feed (ringBufferInit b) xs).filesize + (feed (ringBufferInit b) xs).total) = _
  rw [htot, ha h1 h2.le]
  unfold u32
  omega

/-- **A payload is extracted exactly when, with the delimiter, it fills the ring and does not make
the counter of the ring overflow.** -/
theorem extracts_iff (h70 : b.length ≤ 70) (hcr : cr ∉ b) (hlf : lf ∉ b)
    (hF : ¬ 45 :: 45 :: b <:+: F) :
    Extracts F b ↔ 256 ≤ F.length + 4 + b.length ∧ F.length + 4 + b.length < 4294967296 := by
  have hlen := partBytes_length F b
  constructor
  · rintro ⟨-, hbytes, hfs⟩
    constructor
    · by_contra hlt
      obtain ⟨-, hshort⟩ := (feed_holds b (partBytes F b) (by omega)).drain_short (by omega)
        (by omega)
      have := congrArg List.length (hshort.symm.trans hbytes)
      omega
    · by_contra hge
      have hlt := drain_filesize_lt b (partBytes F b)
      have := drain_overflow b (hlen ▸ Nat.not_lt.1 hge) (by omega)
      omega
  · rintro ⟨hlo, hhi⟩
    have hholds := feed_holds b (partBytes F b) (by omega)
    have hd := feed_boundary b (partBytes F b)
    obtain ⟨hfs, hout⟩ := hholds.drain (by omega) (by omega) (by rw [hd]; simp; omega)
    have hex : extracted (45 :: 45 :: b).length (partBytes F b) = F :=
      extracted_payload (by simp; omega)
    rw [hd, hex] at hfs hout
    exact ⟨fun ys c hy => hit_iff hcr hlf hF hy, hout, hfs⟩

/-- A payload of 300 bytes. -/
theorem extracts_iff_long : Extracts (List.replicate 300 65) (str "x") :=
  (extracts_iff (by decide) (by decide) (by decide) (by decide +kernel)).2
    ⟨by decide +kernel, by decide +kernel⟩

/-- The empty payload comes out as the end of line and the delimiter. -/
theorem not_extracts_nil :
    ¬ ∀ F b : Bytes, 1 ≤ b.length → b.length ≤ 70 → cr ∉ b → lf ∉ b →
      ¬ 45 :: 45 :: b <:+: F → Extracts F b := by
  intro h
  have hbytes := (h [] (str "x") (by decide) (by decide) (by decide) (by decide) (by decide)).bytes
  revert hbytes
  decide +kernel

end Payload

end ZRouter.Upgrade
