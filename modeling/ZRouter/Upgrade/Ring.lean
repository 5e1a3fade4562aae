import ZRouter.Upgrade.Reader

/-!
# The ring buffer and the output buffer of `upgrade` (`http_input.c`)

The bytes of the uploaded part go through a ring of 256 bytes, so that the delimiter that ends the
part can be cut off once it is seen; what falls out of the ring is collected in the 1024-byte
write buffer (`RING_BUFFER_SIZE` and `WRB_SIZE`).  The delimiter is looked for by counting matched
bytes, from zero again at the first byte that does not fit.

* `Out`, `localWrite`, `localClose`;
* `Ring`, `ringBufferInit`, `ringBufferAppend`, `ringBufferDrain`;
* `RingHolds rb xs`: the state of the ring after the bytes `xs`, with one step lemma
  (`RingHolds.append`) and the two results of draining (`RingHolds.drain_short`,
  `RingHolds.drain_long`);
* `matchStep`, `matchAfter`: the delimiter counter, which always counts a suffix of what was read
  (`matchAfter_suffix`).
-/

namespace ZRouter.Upgrade

/-- The output file: what `write()` was given, and `wrbuf` with its first `wrb_p` bytes. -/
structure Out where
  written : Bytes
  wrbuf : Bytes
  deriving DecidableEq

/-- `local_write`. -/
def localWrite (o : Out) (buf : Bytes) (count : ℕ) : Out :=
  if 1 < count then ⟨o.written ++ o.wrbuf ++ buf.take count, []⟩
  else
    let o := if o.wrbuf.length = 1024 then ⟨o.written ++ o.wrbuf, []⟩ else o
    ⟨o.written, o.wrbuf ++ [buf.getD 0 0]⟩

/-- `local_close`. -/
def localClose (o : Out) : Out := ⟨o.written ++ o.wrbuf, []⟩

/-- `struct rbuffer`; `boundary` is the delimiter with its two dashes. -/
structure Ring where
  curr : ℕ
  total : ℕ
  matched : ℕ
  filesize : ℕ
  buf : Bytes
  boundary : Bytes
  out : Out

/-- `ring_buffer_init`; its two allocations are taken to succeed. -/
def ringBufferInit (boundary : Bytes) : Ring :=
  ⟨0, 0, 0, 0, List.replicate 256 0, 45 :: 45 :: boundary, ⟨[], []⟩⟩

/-- One step of the delimiter counter. -/
def matchStep (d : Bytes) (m : ℕ) (c : UInt8) : ℕ := if c = d.getD m 0 then m + 1 else 0

/-- What falls out of the ring when the slot `curr` is about to be used again. -/
def Ring.spill (rb : Ring) (curr : ℕ) : Ring :=
  if 256 ≤ rb.total then
    { rb with
      filesize := u32 (rb.filesize + 1)
      out := localWrite rb.out [rb.buf.getD curr 0] 1 }
  else rb

/-- `ring_buffer_append`: `true` when it returns `1`. -/
def ringBufferAppend (rb : Ring) (ch : UInt8) : Bool × Ring :=
  let curr := (rb.curr + 1) % 256
  let matched := matchStep rb.boundary rb.matched ch
  let s := rb.spill curr
  (matched = rb.boundary.length,
    ⟨curr, u32 (rb.total + 1), matched, s.filesize, rb.buf.set curr ch, rb.boundary, s.out⟩)

/-- The loop of `ring_buffer_drain`: from slot `i` up to slot `last`. -/
def drainFrom (last : ℕ) : ℕ → ℕ → Ring → Ring
  | 0, _, rb => rb
  | n + 1, i, rb =>
      if i = last then rb
      else drainFrom last n ((i + 1) % 256)
        { rb with
          filesize := u32 (rb.filesize + 1)
          out := localWrite rb.out [rb.buf.getD i 0] 1 }

/-- The slot before slot `i`. -/
def prevSlot (i : ℕ) : ℕ := (i + 256 - 1) % 256

/-- The slot at which `ring_buffer_drain` stops: that of the last byte before the delimiter, or the
one before it when that holds a carriage return. -/
def Ring.lastSlot (rb : Ring) : ℕ :=
  let last := (rb.curr + 256 - rb.boundary.length) % 256
  if rb.buf.getD (prevSlot last) 0 = cr then prevSlot last else last

/-- `ring_buffer_drain`. -/
def ringBufferDrain (rb : Ring) : Ring :=
  if rb.total < 256 then
    { rb with
      filesize := u32 (rb.filesize + rb.total)
      out := localWrite rb.out (rb.buf.drop 1) rb.total }
  else drainFrom rb.lastSlot 256 ((rb.curr + 1) % 256) rb

/-! ### The write buffer -/

/-- Everything handed to `local_write` so far. -/
def Out.bytes (o : Out) : Bytes := o.written ++ o.wrbuf

theorem localWrite_one (o : Out) (c : UInt8) : (localWrite o [c] 1).bytes = o.bytes ++ [c] := by
  unfold localWrite Out.bytes
  simp only [lt_self_iff_false, ↓reduceIte, List.getD_cons_zero]
  split_ifs <;> simp

theorem localWrite_bytes (o : Out) (buf : Bytes) {n : ℕ} (hn : 0 < n) (hlen : n ≤ buf.length) :
    (localWrite o buf n).bytes = o.bytes ++ buf.take n := by
  by_cases h : 1 < n
  · simp [localWrite, Out.bytes, h]
  · obtain rfl : n = 1 := by omega
    obtain ⟨c, cs, rfl⟩ := List.exists_cons_of_length_pos (by omega : 0 < buf.length)
    simpa [localWrite, Out.bytes] using localWrite_one o c

theorem localClose_written (o : Out) : (localClose o).written = o.bytes := rfl

/-! ### The state of the ring -/

/-- The ring after the bytes `xs`. -/
structure RingHolds (rb : Ring) (xs : Bytes) : Prop where
  curr : rb.curr = xs.length % 256
  total : rb.total = xs.length
  filesize : rb.filesize = xs.length - 256
  size : rb.buf.length = 256
  slot : ∀ i, (h : i < xs.length) → xs.length ≤ i + 256 →
    rb.buf.getD ((i + 1) % 256) 0 = xs[i]
  out : rb.out.bytes = xs.take (xs.length - 256)

theorem ringHolds_init (boundary : Bytes) : RingHolds (ringBufferInit boundary) [] where
  curr := rfl
  total := rfl
  filesize := rfl
  size := List.length_replicate
  slot := by simp
  out := rfl

/-- The slot about to be used again holds the oldest byte. -/
theorem RingHolds.oldest {rb : Ring} {xs : Bytes} (h : RingHolds rb xs)
    (hx : 256 ≤ xs.length) (j : ℕ) (hj : j < 256) :
    rb.buf.getD ((rb.curr + 1 + j) % 256) 0 =
      xs[xs.length - 256 + j] := by
  have hmod : (xs.length % 256 + 1 + j) % 256 = (xs.length - 256 + j + 1) % 256 := by omega
  rw [h.curr, hmod]
  exact h.slot (xs.length - 256 + j) (by omega) (by omega)

theorem RingHolds.spill {rb : Ring} {xs : Bytes} (h : RingHolds rb xs)
    (hx : xs.length < 4294967296) :
    (rb.spill ((rb.curr + 1) % 256)).filesize = xs.length + 1 - 256 ∧
      (rb.spill ((rb.curr + 1) % 256)).out.bytes =
        xs.take (xs.length + 1 - 256) := by
  have hf := h.filesize
  unfold Ring.spill
  rw [h.total]
  split_ifs with hle
  · have hold := h.oldest hle 0 (by norm_num)
    simp only [add_zero] at hold
    refine ⟨?_, ?_⟩
    · simp only [hf, u32]
      omega
    · rw [localWrite_one, h.out, hold,
        show xs.length + 1 - 256 = xs.length - 256 + 1 by omega,
        List.take_add_one, List.getElem?_eq_getElem (by omega)]
      rfl
  · refine ⟨by rw [hf]; omega, ?_⟩
    rw [h.out, show xs.length - 256 = 0 by omega,
      show xs.length + 1 - 256 = 0 by omega]

/-- **One step of the ring.** -/
theorem RingHolds.append {rb : Ring} {xs : Bytes} (h : RingHolds rb xs) (ch : UInt8)
    (hx : xs.length + 1 < 4294967296) : RingHolds (ringBufferAppend rb ch).2 (xs ++ [ch]) := by
  obtain ⟨hf, ho⟩ := h.spill (by omega)
  have hlen : (xs ++ [ch]).length = xs.length + 1 := by simp
  have hcurr : (rb.curr + 1) % 256 = (xs.length + 1) % 256 := by
    rw [h.curr]
    omega
  refine ⟨?_, ?_, ?_, ?_, ?_, ?_⟩
  · rw [hlen]
    exact hcurr
  · rw [hlen]
    simp only [ringBufferAppend, h.total, u32]
    omega
  · rw [hlen]
    exact hf
  · simp [ringBufferAppend, h.size]
  · intro i hi hi'
    rw [hlen] at hi hi'
    simp only [ringBufferAppend, hcurr, List.getD_eq_getElem?_getD]
    rw [List.getElem?_set]
    by_cases hlast : i = xs.length
    · subst hlast
      simp [h.size, Nat.mod_lt]
    · have hne : (xs.length + 1) % 256 ≠ (i + 1) % 256 := by omega
      rw [if_neg hne, ← List.getD_eq_getElem?_getD, h.slot i (by omega) (by omega)]
      simp [show i < xs.length by omega]
  · rw [hlen, List.take_append_of_le_length (by omega)]
    exact ho

/-! ### Draining -/

/-- The drain loop writes the slots from `i` to the one before `last`. -/
theorem drainFrom_spec {last : ℕ} (hlast : last < 256) :
    ∀ (k n i : ℕ) (rb : Ring), k < n → (i + k) % 256 = last → i < 256 →
      (∀ j < k, (i + j) % 256 ≠ last) → rb.filesize + k < 4294967296 →
      (drainFrom last n i rb).filesize = rb.filesize + k ∧
        (drainFrom last n i rb).out.bytes = rb.out.bytes ++
          (List.range k).map fun j => rb.buf.getD ((i + j) % 256) 0 := by
  intro k
  induction k with
  | zero =>
    intro n i rb hn hk hi _ _
    obtain ⟨n, rfl⟩ : ∃ m, n = m + 1 := ⟨n - 1, by omega⟩
    have : i = last := by rw [← hk]; omega
    simp [drainFrom, this]
  | succ k ih =>
    intro n i rb hn hk hi hne hf
    obtain ⟨n, rfl⟩ : ∃ m, n = m + 1 := ⟨n - 1, by omega⟩
    have hi' : i ≠ last := by
      have := hne 0 (by omega)
      rwa [Nat.add_zero, Nat.mod_eq_of_lt hi] at this
    have hmod : ∀ j, ((i + 1) % 256 + j) % 256 =
        (i + (j + 1)) % 256 := by
      intro j
      omega
    have h1 : u32 (rb.filesize + 1) = rb.filesize + 1 := by
      unfold u32
      omega
    rw [drainFrom, if_neg hi', h1]
    obtain ⟨h2, h3⟩ := ih n ((i + 1) % 256)
      { rb with
        filesize := rb.filesize + 1
        out := localWrite rb.out [rb.buf.getD i 0] 1 }
      (by omega) (by rw [hmod]; exact hk) (Nat.mod_lt _ (by norm_num))
      (fun j hj => by rw [hmod]; exact hne (j + 1) (by omega)) (by simp only; omega)
    refine ⟨by rw [h2]; simp only; omega, ?_⟩
    rw [h3, localWrite_one, List.range_succ_eq_map]
    simp only [List.map_cons, List.map_map, Nat.add_zero, Nat.mod_eq_of_lt hi, List.append_assoc,
      List.singleton_append]
    congr 2
    apply List.map_congr_left
    intro j _
    simp only [Function.comp, hmod]

/-- A ring that never wrapped is written out whole, delimiter included. -/
theorem RingHolds.drain_short {rb : Ring} {xs : Bytes} (h : RingHolds rb xs) (h0 : 0 < xs.length)
    (hx : xs.length < 256) :
    (ringBufferDrain rb).filesize = xs.length ∧ (ringBufferDrain rb).out.bytes = xs := by
  have hout : rb.out.bytes = [] := by
    rw [h.out, show xs.length - 256 = 0 by omega, List.take_zero]
  have hf : rb.filesize = 0 := by
    rw [h.filesize]
    omega
  have htake : (rb.buf.drop 1).take xs.length = xs := by
    apply List.ext_getElem
    · rw [List.length_take, List.length_drop, h.size]
      omega
    · intro i h1 h2
      have hs := h.slot i h2 (by omega)
      rw [List.getElem_take, List.getElem_drop, ← hs, Nat.mod_eq_of_lt (by omega),
        List.getD_eq_getElem?_getD, List.getElem?_eq_getElem (by rw [h.size]; omega),
        Option.getD_some]
      simp only [Nat.add_comm]
  rw [ringBufferDrain, h.total, if_pos hx]
  refine ⟨?_, ?_⟩
  · simp only [hf, u32]
    omega
  · simp only
    rw [localWrite_bytes _ _ h0 (by rw [List.length_drop, h.size]; omega), hout, htake]
    rfl

/-- The number of bytes cut off a ring that wrapped: the delimiter, one more byte, and another one
when that is a carriage return. -/
def cutLength (xs : Bytes) (d : ℕ) : ℕ :=
  if xs.getD (xs.length - d - 2) 0 = cr then d + 2 else d + 1

/-- A ring that wrapped is written out up to the end of line before the delimiter. -/
theorem RingHolds.drain_long {rb : Ring} {xs : Bytes} (h : RingHolds rb xs)
    (hx : 256 ≤ xs.length) (hx' : xs.length < 4294967296)
    (hb : rb.boundary.length + 2 < 256) :
    (ringBufferDrain rb).filesize = xs.length - cutLength xs rb.boundary.length ∧
      (ringBufferDrain rb).out.bytes = xs.take (xs.length - cutLength xs rb.boundary.length) := by
  set d := rb.boundary.length with hd
  have hcurr : rb.curr < 256 := by rw [h.curr]; exact Nat.mod_lt _ (by norm_num)
  have hprev : rb.buf.getD (prevSlot ((rb.curr + 256 - d) % 256)) 0 =
      xs.getD (xs.length - d - 2) 0 := by
    have := h.oldest hx (256 - d - 2) (by omega)
    rw [show (rb.curr + 1 + (256 - d - 2)) % 256 =
      prevSlot ((rb.curr + 256 - d) % 256) by unfold prevSlot; omega] at this
    rw [this, List.getD_eq_getElem?_getD, List.getElem?_eq_getElem (by omega), Option.getD_some]
    simp only [show xs.length - 256 + (256 - d - 2) = xs.length - d - 2 by omega]
  have hlast : rb.lastSlot = (rb.curr + 1 + (256 - cutLength xs d)) % 256 ∧
      cutLength xs d < 256 ∧ 0 < cutLength xs d := by
    unfold Ring.lastSlot cutLength
    simp only [← hd, hprev]
    split_ifs
    · refine ⟨?_, by omega, by omega⟩
      unfold prevSlot
      omega
    · refine ⟨?_, by omega, by omega⟩
      omega
  obtain ⟨hslot, hcut, hcut0⟩ := hlast
  have hlt : rb.lastSlot < 256 := hslot ▸ Nat.mod_lt _ (by norm_num)
  obtain ⟨hf, ho⟩ := drainFrom_spec hlt (256 - cutLength xs d) 256
    ((rb.curr + 1) % 256) rb (by omega) (by rw [hslot]; omega)
    (Nat.mod_lt _ (by norm_num)) (fun j hj => by rw [hslot]; omega)
    (by rw [h.filesize]; omega)
  rw [ringBufferDrain, h.total, if_neg (by omega)]
  refine ⟨by rw [hf, h.filesize]; omega, ?_⟩
  rw [ho, h.out, show xs.length - cutLength xs d = xs.length - 256 +
    (256 - cutLength xs d) by omega, List.take_add]
  congr 1
  apply List.ext_getElem
  · simp
    omega
  · intro i h1 h2
    rw [List.length_map, List.length_range] at h1
    rw [List.getElem_map, List.getElem_range, List.getElem_take, List.getElem_drop,
      ← h.oldest hx i (by omega)]
    congr 1
    omega

/-! ### The delimiter counter -/

/-- The delimiter counter after the bytes `xs`. -/
def matchAfter (d xs : Bytes) : ℕ := xs.foldl (matchStep d) 0

theorem matchAfter_append (d xs : Bytes) (c : UInt8) :
    matchAfter d (xs ++ [c]) = matchStep d (matchAfter d xs) c := by
  simp [matchAfter]

/-- The delimiter has not been found in `xs`, at any of its prefixes. -/
def NotYet (d xs : Bytes) : Prop := ∀ ys, ys <+: xs → matchAfter d ys ≠ d.length

theorem NotYet.of_append {d xs ys : Bytes} (h : NotYet d (xs ++ ys)) : NotYet d xs :=
  fun zs hz => h zs (hz.trans (List.prefix_append xs ys))

theorem notYet_append_singleton {d xs : Bytes} {c : UInt8} (h : NotYet d xs)
    (hc : matchAfter d (xs ++ [c]) ≠ d.length) : NotYet d (xs ++ [c]) := by
  intro ys hy
  rcases List.prefix_concat_iff.1 hy with rfl | hy
  · exact hc
  · exact h ys hy

/-- Until the delimiter is found, the counter counts a suffix of what was read. -/
theorem matchAfter_suffix {d xs : Bytes} (hd : d ≠ []) (h : NotYet d xs) :
    matchAfter d xs < d.length ∧ d.take (matchAfter d xs) <:+ xs := by
  induction xs using List.reverseRecOn with
  | nil => exact ⟨List.length_pos_iff.2 hd, by simp [matchAfter]⟩
  | append_singleton xs c ih =>
    obtain ⟨hlt, hsuf⟩ := ih h.of_append
    have hne := h _ List.prefix_rfl
    rw [matchAfter_append] at hne ⊢
    unfold matchStep at hne ⊢
    split_ifs at hne ⊢ with hc
    · refine ⟨by omega, ?_⟩
      rw [List.take_add_one, List.getElem?_eq_getElem hlt]
      rw [List.getD_eq_getElem?_getD, List.getElem?_eq_getElem hlt, Option.getD_some] at hc
      rw [Option.toList_some, ← hc]
      exact List.suffix_append_self_iff.2 hsuf
    · exact ⟨List.length_pos_iff.2 hd, by simp⟩

/-- Where the counter reaches its end, the delimiter has just been read. -/
theorem matchAfter_found {d xs : Bytes} {c : UInt8} (hd : d ≠ []) (h : NotYet d xs)
    (hc : matchAfter d (xs ++ [c]) = d.length) : d <:+ xs ++ [c] := by
  obtain ⟨hlt, hsuf⟩ := matchAfter_suffix hd h
  rw [matchAfter_append, matchStep] at hc
  split_ifs at hc with heq
  · rw [List.getD_eq_getElem?_getD, List.getElem?_eq_getElem hlt, Option.getD_some] at heq
    have hlen : d.length = matchAfter d xs + 1 := hc.symm
    have hd' : d = d.take (matchAfter d xs) ++ [c] := by
      conv_lhs => rw [← List.take_length (l := d), hlen, List.take_add_one,
        List.getElem?_eq_getElem hlt, Option.toList_some, ← heq]
    rw [hd']
    exact List.suffix_append_self_iff.2 hsuf
  · exact absurd hc.symm (List.length_pos_iff.2 hd).ne'

/-- The delimiter is found only where it stands. -/
theorem notYet_of_absent {d xs : Bytes} (hd : d ≠ []) (h : ¬ d <:+: xs) : NotYet d xs := by
  induction xs using List.reverseRecOn with
  | nil =>
    intro ys hy
    rw [List.prefix_nil.1 hy]
    exact (List.length_pos_iff.2 hd).ne
  | append_singleton xs c ih =>
    have hxs := ih fun hi => h (hi.trans (List.prefix_append xs [c]).isInfix)
    exact notYet_append_singleton hxs fun hc => h (matchAfter_found hd hxs hc).isInfix

/-- A byte that is not in the delimiter sets the counter back. -/
theorem matchAfter_reset {d xs : Bytes} {c : UInt8} (hc : c ∉ d) (h0 : c ≠ 0) :
    matchAfter d (xs ++ [c]) = 0 := by
  rw [matchAfter_append, matchStep, if_neg]
  rw [List.getD_eq_getElem?_getD]
  cases hget : d[matchAfter d xs]? with
  | none => simpa using h0
  | some e =>
    rintro rfl
    exact hc (List.mem_of_getElem? hget)

/-- From a counter at zero the delimiter is counted to its end. -/
theorem matchAfter_delimiter {d xs : Bytes} (h : matchAfter d xs = 0) :
    matchAfter d (xs ++ d) = d.length := by
  have key : ∀ k ≤ d.length, matchAfter d (xs ++ d.take k) = k := by
    intro k
    induction k with
    | zero => simpa using h
    | succ k ih =>
      intro hk
      rw [List.take_add_one, List.getElem?_eq_getElem (by omega), Option.toList_some,
        ← List.append_assoc, matchAfter_append, ih (by omega), matchStep, if_pos]
      rw [List.getD_eq_getElem?_getD, List.getElem?_eq_getElem (by omega), Option.getD_some]
  simpa using key d.length le_rfl

/-- In a part that does not hold the delimiter, the delimiter is found exactly at its place after
the end of line that closes the part. -/
theorem delimiter_found_at_end {d F : Bytes} (hd : d ≠ []) (hcr : cr ∉ d) (hlf : lf ∉ d)
    (hF : ¬ d <:+: F) :
    NotYet d (F ++ crlf ++ d.dropLast) ∧ matchAfter d (F ++ crlf ++ d) = d.length := by
  refine ⟨notYet_of_absent hd fun h => ?_, matchAfter_delimiter ?_⟩
  · rw [crlf, List.append_assoc] at h
    rcases infix_split hcr h with h | h
    · exact hF h
    · rcases @infix_split d [] _ lf hlf h with h | h
      · exact hd (List.infix_nil.1 h)
      · have hle : d.length ≤ d.dropLast.length := h.length_le
        have := List.length_pos_iff.2 hd
        rw [List.length_dropLast] at hle
        omega
  · rw [crlf, show F ++ [cr, lf] = (F ++ [cr]) ++ [lf] by simp]
    exact matchAfter_reset hlf (by decide)

end ZRouter.Upgrade
