import Mathlib

/-!
# Cyclic redundancy checks

The register of a check is shifted towards its low end, one bit of the message at a time; where the bit that
leaves it is set, the polynomial is added.  Programs take a byte at a time, with a table.

* `shift`, `feed`: the register after one step, and after a message;
* `feed_window`: a message that is no longer than the register acts like a single addition to it;
* `burst_detected`: two messages that differ only inside a window of that length leave different registers;
* `IsTable`, `step_eq_feed`: the table of a polynomial, and a step with it.
-/

namespace ZRouter.Crc

variable {w : ℕ} {p c c' : BitVec w}

/-! ### One bit -/

/-- A step of the register, with the polynomial `p`. -/
def shift (p c : BitVec w) : BitVec w := (c >>> 1) ^^^ (if c.getLsbD 0 then p else 0#w)

theorem shift_xor (p c c' : BitVec w) : shift p (c ^^^ c') = shift p c ^^^ shift p c' := by
  have hpair : ∀ a b : Bool, (if (a ^^ b) = true then p else 0#w) =
      (if a = true then p else 0#w) ^^^ (if b = true then p else 0#w) := by
    intro a b
    cases a <;> cases b <;> simp
  rw [shift, shift, shift, BitVec.getLsbD_xor, BitVec.ushiftRight_xor_distrib, hpair]
  ac_rfl

/-- Without a low bit, the register only moves. -/
theorem shift_even (h : c.getLsbD 0 = false) : shift p c = c >>> 1 := by
  rw [shift, h]
  simp

/-- The polynomial has its highest bit, the one that a shift leaves free. -/
def Top (p : BitVec w) : Prop := p.getLsbD (w - 1) = true

theorem shift_eq_zero (hp : Top p) (h : shift p c = 0#w) : c = 0#w := by
  cases hlow : c.getLsbD 0 with
  | false =>
    rw [shift_even hlow] at h
    refine BitVec.eq_of_getLsbD_eq fun i hi => ?_
    cases i with
    | zero => simpa using hlow
    | succ i =>
      have hi := congrArg (BitVec.getLsbD · i) h
      simpa [BitVec.getLsbD_ushiftRight, Nat.add_comm 1] using hi
  | true =>
    -- the highest bit of the sum is that of the polynomial
    have hbit := congrArg (BitVec.getLsbD · (w - 1)) h
    have hpos : 0 < w := by
      rcases Nat.eq_zero_or_pos w with rfl | h0
      · simp at hlow
      · exact h0
    have hout : c.getLsbD (1 + (w - 1)) = false := BitVec.getLsbD_of_ge c _ (by omega)
    rw [Top] at hp
    simp only [shift, hlow, if_true, BitVec.getLsbD_xor, BitVec.getLsbD_ushiftRight, hout, hp,
      Bool.false_xor, BitVec.getLsbD_zero] at hbit
    cases hbit

theorem shift_injective (hp : Top p) : Function.Injective (shift p) := by
  intro c c' h
  have hzero : shift p (c ^^^ c') = 0#w := by rw [shift_xor, h, BitVec.xor_self]
  exact BitVec.xor_eq_zero_iff.1 (shift_eq_zero hp hzero)

theorem iterate_shift_xor (p : BitVec w) (n : ℕ) (c c' : BitVec w) :
    (shift p)^[n] (c ^^^ c') = (shift p)^[n] c ^^^ (shift p)^[n] c' := by
  induction n generalizing c c' with
  | zero => rfl
  | succ n ih => rw [Function.iterate_succ_apply, Function.iterate_succ_apply, Function.iterate_succ_apply,
      shift_xor, ih]

/-- A register whose low bits are clear is moved by as many steps. -/
theorem iterate_shift_shiftLeft (p : BitVec w) {n : ℕ} (hn : ∀ i, w ≤ i + n → c.getLsbD i = false) :
    (shift p)^[n] (c <<< n) = c := by
  induction n generalizing c with
  | zero => simp
  | succ n ih =>
    have hodd : (c <<< (n + 1)).getLsbD 0 = false := by simp [BitVec.getLsbD_shiftLeft]
    have hmove : (c <<< (n + 1)) >>> 1 = c <<< n := by
      refine BitVec.eq_of_getLsbD_eq fun i hi => ?_
      rw [BitVec.getLsbD_ushiftRight, BitVec.getLsbD_shiftLeft, BitVec.getLsbD_shiftLeft,
        show 1 + i - (n + 1) = i - n by omega]
      by_cases hlt : i < n
      · simp [hlt, show 1 + i < n + 1 by omega]
      · by_cases htop : 1 + i < w
        · simp [hlt, htop, hi, show ¬ 1 + i < n + 1 by omega]
        · simp [hn (i - n) (by omega)]
    rw [Function.iterate_succ_apply, shift_even hodd, hmove, ih fun i hi => hn i (by omega)]

/-! ### Messages -/

/-- A bit, at the low end. -/
def bit (b : Bool) : BitVec w := if b then 1#w else 0#w

/-- The register after a message. -/
def feed (p : BitVec w) (c : BitVec w) (bits : List Bool) : BitVec w :=
  bits.foldl (fun c b => shift p (c ^^^ bit b)) c

@[simp] theorem feed_nil (p c : BitVec w) : feed p c [] = c := rfl

@[simp] theorem feed_cons (p c : BitVec w) (b : Bool) (bits : List Bool) :
    feed p c (b :: bits) = feed p (shift p (c ^^^ bit b)) bits := rfl

theorem feed_append (p c : BitVec w) (bits bits' : List Bool) :
    feed p c (bits ++ bits') = feed p (feed p c bits) bits' := List.foldl_append

/-- A message as a register, its first bit at the low end. -/
def packed : List Bool → BitVec w
  | [] => 0#w
  | b :: bits => bit b ^^^ (packed bits <<< 1)

theorem getLsbD_bit (b : Bool) (i : ℕ) :
    (bit b : BitVec w).getLsbD i = (decide (i < w) && decide (i = 0) && b) := by
  cases b with
  | false => simp [bit]
  | true =>
    rw [bit, if_pos rfl, BitVec.getLsbD_one, Bool.and_true]
    by_cases hi : i = 0
    · simp [hi]
    · simp [hi]

theorem getLsbD_packed (bits : List Bool) (i : ℕ) :
    (packed bits : BitVec w).getLsbD i = (decide (i < w) && bits.getD i false) := by
  induction bits generalizing i with
  | nil => simp [packed]
  | cons b bits ih =>
    rw [packed, BitVec.getLsbD_xor, BitVec.getLsbD_shiftLeft, getLsbD_bit]
    cases i with
    | zero => simp
    | succ i =>
      rw [ih]
      by_cases hi : i + 1 < w
      · simp [hi, show i < w by omega]
      · simp [hi]

/-- A message that fits into the register. -/
theorem feed_window (p c : BitVec w) {bits : List Bool} (hbits : bits.length ≤ w) :
    feed p c bits = (shift p)^[bits.length] (c ^^^ packed bits) := by
  induction bits generalizing c with
  | nil => simp [packed]
  | cons b bits ih =>
    rw [List.length_cons] at hbits
    have hmove : shift p (packed bits <<< 1) = packed bits :=
      iterate_shift_shiftLeft p (n := 1) fun i hi => by
        rw [getLsbD_packed, List.getD_eq_default _ _ (by omega), Bool.and_false]
    rw [feed_cons, ih _ (by omega), List.length_cons, Function.iterate_succ_apply, packed,
      ← BitVec.xor_assoc, shift_xor p (c ^^^ bit b), hmove]

theorem packed_injective {bits bits' : List Bool} (hlen : bits.length = bits'.length)
    (hbits : bits.length ≤ w) (h : (packed bits : BitVec w) = packed bits') : bits = bits' := by
  refine List.ext_getElem hlen fun i hi hi' => ?_
  have hget : (packed bits : BitVec w).getLsbD i = (packed bits' : BitVec w).getLsbD i := by rw [h]
  rw [getLsbD_packed, getLsbD_packed, List.getD_eq_getElem _ _ hi, List.getD_eq_getElem _ _ hi'] at hget
  simpa [show i < w by omega] using hget

theorem feed_injective (hp : Top p) (bits : List Bool) : Function.Injective (feed p · bits) := by
  induction bits with
  | nil => exact fun c c' h => h
  | cons b bits ih =>
    intro c c' h
    exact (BitVec.xor_left_inj _).1 (shift_injective hp (ih h))

/-- **Errors in a window are seen**: two messages that are the same but for some bits next to each other, no
more than the register has, leave different registers. -/
theorem burst_detected (hp : Top p) (c : BitVec w) (pre post : List Bool) {u v : List Bool}
    (hlen : u.length = v.length) (hu : u.length ≤ w) (hne : u ≠ v) :
    feed p c (pre ++ u ++ post) ≠ feed p c (pre ++ v ++ post) := by
  intro h
  rw [feed_append, feed_append, feed_append p c (pre ++ v), feed_append] at h
  have hmid := feed_injective hp post h
  have hv : v.length ≤ w := hlen ▸ hu
  have hmid' : (shift p)^[u.length] (feed p c pre ^^^ packed u) =
      (shift p)^[u.length] (feed p c pre ^^^ packed v) := by
    rw [← feed_window p _ hu, hlen, ← feed_window p _ hv]
    exact hmid
  have hpacked := (shift_injective hp).iterate u.length hmid'
  exact hne (packed_injective hlen hu ((BitVec.xor_right_inj _).1 hpacked))

/-! ### Bytes -/

/-- The bits of a byte, the low one first. -/
def bitsOf (b : UInt8) : List Bool := (List.range 8).map b.toNat.testBit

@[simp] theorem length_bitsOf (b : UInt8) : (bitsOf b).length = 8 := by simp [bitsOf]

theorem bitsOf_injective : Function.Injective bitsOf := by
  intro b b' h
  refine UInt8.toNat_inj.1 (Nat.eq_of_testBit_eq fun i => ?_)
  by_cases hi : i < 8
  · have hget := congrArg (fun bits => bits.getD i false) h
    simpa [bitsOf, hi] using hget
  · have hlarge : ∀ x : UInt8, x.toNat.testBit i = false := fun x => by
      refine Nat.testBit_lt_two_pow (x.toNat_lt.trans_le ?_)
      exact Nat.pow_le_pow_right (by norm_num) (by omega)
    rw [hlarge, hlarge]

/-- A step of a whole byte, with a table. -/
def step (table : ℕ → BitVec w) (c : BitVec w) (b : UInt8) : BitVec w :=
  table ((c.toNat ^^^ b.toNat) % 256) ^^^ (c >>> 8)

/-- The table of a polynomial: what becomes of each low byte in eight steps. -/
def IsTable (p : BitVec w) (table : ℕ → BitVec w) : Prop :=
  ∀ i < 256, table i = (shift p)^[8] (BitVec.ofNat w i)

theorem packed_bitsOf (b : UInt8) : (packed (bitsOf b) : BitVec w) = BitVec.ofNat w b.toNat := by
  refine BitVec.eq_of_getLsbD_eq fun i hi => ?_
  rw [getLsbD_packed, BitVec.getLsbD_ofNat]
  by_cases h8 : i < 8
  · simp [bitsOf, hi, h8]
  · have hlarge : b.toNat.testBit i = false := by
      refine Nat.testBit_lt_two_pow (b.toNat_lt.trans_le ?_)
      exact Nat.pow_le_pow_right (by norm_num) (by omega)
    simp [bitsOf, hlarge, show 8 ≤ i by omega]

/-- Eight steps: those of the low byte, and the rest of the register moved. -/
theorem iterate_shift_eight (p c : BitVec w) :
    (shift p)^[8] c = (shift p)^[8] (BitVec.ofNat w (c.toNat % 256)) ^^^ (c >>> 8) := by
  have hsplit : c = BitVec.ofNat w (c.toNat % 256) ^^^ ((c >>> 8) <<< 8) := by
    refine BitVec.eq_of_getLsbD_eq fun i hi => ?_
    rw [BitVec.getLsbD_xor, BitVec.getLsbD_ofNat, BitVec.getLsbD_shiftLeft, BitVec.getLsbD_ushiftRight,
      show 256 = 2 ^ 8 by norm_num, Nat.testBit_mod_two_pow]
    by_cases h8 : i < 8
    · simp [hi, h8, BitVec.getLsbD]
    · simp [hi, h8, show 8 + (i - 8) = i by omega]
  have hmove : (shift p)^[8] ((c >>> 8) <<< 8) = c >>> 8 :=
    iterate_shift_shiftLeft p fun i hi => by
      rw [BitVec.getLsbD_ushiftRight, BitVec.getLsbD_of_ge c _ (by omega)]
  conv_lhs => rw [hsplit]
  rw [iterate_shift_xor, hmove]

/-- **A step with the table is eight steps of the register.** -/
theorem step_eq_feed {table : ℕ → BitVec w} (htable : IsTable p table) (hw : 8 ≤ w) (c : BitVec w)
    (b : UInt8) : step table c b = feed p c (bitsOf b) := by
  have hb : b.toNat < 2 ^ w := b.toNat_lt.trans_le (Nat.pow_le_pow_right (by norm_num) hw)
  have hxor : (c ^^^ packed (bitsOf b)).toNat = c.toNat ^^^ b.toNat := by
    rw [packed_bitsOf, BitVec.toNat_xor, BitVec.toNat_ofNat, Nat.mod_eq_of_lt hb]
  have hmove : (c ^^^ packed (bitsOf b)) >>> 8 = c >>> 8 := by
    refine BitVec.eq_of_getLsbD_eq fun i _ => ?_
    rw [BitVec.getLsbD_ushiftRight, BitVec.getLsbD_ushiftRight, BitVec.getLsbD_xor, getLsbD_packed,
      List.getD_eq_default _ _ (by rw [length_bitsOf]; omega), Bool.and_false, Bool.xor_false]
  rw [feed_window p c (by rw [length_bitsOf]; exact hw), length_bitsOf, iterate_shift_eight, hxor, hmove,
    step, htable _ (Nat.mod_lt _ (by norm_num))]

/-- The message that some bytes make. -/
def bitsOfBytes (bytes : List UInt8) : List Bool := (bytes.map bitsOf).flatten

theorem foldl_step_eq_feed {table : ℕ → BitVec w} (htable : IsTable p table) (hw : 8 ≤ w) (c : BitVec w)
    (bytes : List UInt8) : bytes.foldl (step table) c = feed p c (bitsOfBytes bytes) := by
  induction bytes generalizing c with
  | nil => rfl
  | cons b bytes ih =>
    rw [List.foldl_cons, ih, step_eq_feed htable hw, bitsOfBytes, bitsOfBytes, List.map_cons,
      List.flatten_cons, feed_append]

theorem length_bitsOfBytes (bytes : List UInt8) : (bitsOfBytes bytes).length = 8 * bytes.length := by
  induction bytes with
  | nil => rfl
  | cons b bytes ih =>
    rw [bitsOfBytes] at ih ⊢
    rw [List.map_cons, List.flatten_cons, List.length_append, ih, length_bitsOf, List.length_cons]
    omega

theorem bitsOfBytes_injective {bytes bytes' : List UInt8} (h : bitsOfBytes bytes = bitsOfBytes bytes') :
    bytes = bytes' := by
  induction bytes generalizing bytes' with
  | nil =>
    have hlen := congrArg List.length h
    rw [length_bitsOfBytes, length_bitsOfBytes, List.length_nil] at hlen
    exact (List.length_eq_zero_iff.1 (by omega)).symm
  | cons b bytes ih =>
    cases bytes' with
    | nil =>
      have hlen := congrArg List.length h
      rw [length_bitsOfBytes, length_bitsOfBytes, List.length_cons, List.length_nil] at hlen
      omega
    | cons b' bytes' =>
      rw [bitsOfBytes, bitsOfBytes, List.map_cons, List.map_cons, List.flatten_cons, List.flatten_cons] at h
      obtain ⟨hb, hrest⟩ := List.append_inj h (by rw [length_bitsOf, length_bitsOf])
      rw [bitsOf_injective hb, ih hrest]

end ZRouter.Crc
