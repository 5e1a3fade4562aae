import Mathlib

/-!
# Structures in memory and block-wise input

A C structure is the list of its bytes; a field is an offset and a length.  A file that is read
block by block into a buffer is a list of which `fread` takes one block after the other.

* `peek`, `poke`: a part of a structure, and an assignment to it; `getElem?_peek`, `getElem?_poke`
  give the rules for fields that are apart and for a structure at the front of a file;
* `leBytes`, `leVal`: unsigned integers as a little-endian host stores them; `beBytes`, `beVal`: with
  the high byte first;
* `leWords`: an array of such integers, with the rules for its elements;
* `blockLoop bs body n s xs`: the loop `while ((i = fread(buf, 1, bs, fh)))` over a file with the
  content `xs`, and its invariant rule `blockLoop_rule`;
* `padded bs xs`: `xs` with zeros up to a multiple of `bs`;
* `IncrementalHash`: a hash whose updates may be cut anywhere.
-/

namespace ZRouter

variable {α σ : Type}

/-! ### Fields -/

/-- The `n` bytes at the offset `off`. -/
def peek (m : List α) (off n : ℕ) : List α := (m.drop off).take n

/-- `m` after `xs` was stored at the offset `off`. -/
def poke (m : List α) (off : ℕ) (xs : List α) : List α :=
  m.take off ++ xs ++ m.drop (off + xs.length)

theorem length_poke {m xs : List α} {off : ℕ} (h : off + xs.length ≤ m.length) :
    (poke m off xs).length = m.length := by
  simp only [poke, List.length_append, List.length_take, List.length_drop]
  omega

theorem poke_append {a b c xs : List α} {off : ℕ} (ha : a.length = off)
    (hb : b.length = xs.length) : poke (a ++ (b ++ c)) off xs = a ++ (xs ++ c) := by
  subst ha
  have h : (a ++ (b ++ c)).drop (a.length + xs.length) = c := by
    rw [← List.drop_drop, List.drop_left, ← hb, List.drop_left]
  simp only [poke, List.take_left, h, List.append_assoc]

theorem peek_append {a b c : List α} {off n : ℕ} (ha : a.length = off) (hb : b.length = n) :
    peek (a ++ (b ++ c)) off n = b := by
  subst ha hb
  rw [peek, List.drop_left, List.take_left]

theorem getElem?_peek (m : List α) (off n i : ℕ) :
    (peek m off n)[i]? = if i < n then m[off + i]? else none := by
  rw [peek, List.getElem?_take, List.getElem?_drop]

theorem getElem?_poke {m xs : List α} {off : ℕ} (h : off + xs.length ≤ m.length) (i : ℕ) :
    (poke m off xs)[i]? =
      if i < off then m[i]? else if i < off + xs.length then xs[i - off]? else m[i]? := by
  have hoff : (m.take off).length = off := List.length_take_of_le (by omega)
  rw [poke, List.append_assoc, List.getElem?_append, hoff]
  split_ifs with h1 h2
  · rw [List.getElem?_take, if_pos h1]
  · rw [List.getElem?_append_left (by omega)]
  · rw [List.getElem?_append_right (by omega), List.getElem?_drop]
    congr 1
    omega

/-- A field reads back what was assigned to it. -/
theorem peek_poke_self {m xs : List α} {off n : ℕ} (h : off + xs.length ≤ m.length)
    (hn : xs.length = n) : peek (poke m off xs) off n = xs := by
  apply List.ext_getElem?
  intro i
  rw [getElem?_peek, getElem?_poke h]
  split_ifs with h1 h2 h3
  · omega
  · rw [Nat.add_sub_cancel_left]
  · omega
  · rw [List.getElem?_eq_none (by omega)]

/-- An assignment leaves the fields apart from it. -/
theorem peek_poke_of_disjoint {m xs : List α} {off off' n : ℕ} (h : off + xs.length ≤ m.length)
    (hd : off' + n ≤ off ∨ off + xs.length ≤ off') : peek (poke m off xs) off' n = peek m off' n := by
  apply List.ext_getElem?
  intro i
  rw [getElem?_peek, getElem?_peek, getElem?_poke h]
  split_ifs with h1 h2 h3
  · rfl
  · omega
  · rfl
  · rfl

/-- The second of two assignments to a field wins. -/
theorem poke_poke_self {m xs ys : List α} {off : ℕ} (h : off + xs.length ≤ m.length)
    (hlen : ys.length = xs.length) : poke (poke m off xs) off ys = poke m off ys := by
  have h' : off + ys.length ≤ (poke m off xs).length := by
    rw [length_poke h, hlen]
    exact h
  apply List.ext_getElem?
  intro i
  rw [getElem?_poke h', getElem?_poke h, getElem?_poke (by omega), hlen]
  split_ifs <;> rfl

/-- Assigning to a field what it holds. -/
theorem poke_peek_self {m : List α} {off n : ℕ} (h : off + n ≤ m.length) :
    poke m off (peek m off n) = m := by
  have hlen : (peek m off n).length = n := by
    rw [peek, List.length_take, List.length_drop]
    omega
  apply List.ext_getElem?
  intro i
  rw [getElem?_poke (by omega), getElem?_peek, hlen]
  split_ifs with h1 h2 h3
  · rfl
  · congr 1
    omega
  · omega
  · rfl

/-- A structure at the front of a file. -/
theorem peek_append_left {m : List α} {off n : ℕ} (h : off + n ≤ m.length) (file : List α) :
    peek (m ++ file) off n = peek m off n := by
  apply List.ext_getElem?
  intro i
  rw [getElem?_peek, getElem?_peek]
  split_ifs with h1
  · exact List.getElem?_append_left (by omega)
  · rfl

theorem poke_append_left {m xs : List α} {off : ℕ} (h : off + xs.length ≤ m.length)
    (file : List α) : poke (m ++ file) off xs = poke m off xs ++ file := by
  rw [poke, poke, List.take_append_of_le_length (by omega), List.drop_append_of_le_length h,
    List.append_assoc, List.append_assoc, List.append_assoc]

/-! ### Integers -/

/-- The `k` low bytes of `n`, the lowest first. -/
def leBytes : ℕ → ℕ → List UInt8
  | 0, _ => []
  | k + 1, n => UInt8.ofNat n :: leBytes k (n / 256)

/-- The integer stored in some bytes, the lowest first. -/
def leVal : List UInt8 → ℕ
  | [] => 0
  | b :: bs => b.toNat + 256 * leVal bs

@[simp] theorem length_leBytes (k n : ℕ) : (leBytes k n).length = k := by
  induction k generalizing n with
  | zero => rfl
  | succ k ih => rw [leBytes, List.length_cons, ih]

theorem leVal_leBytes {k n : ℕ} (h : n < 256 ^ k) : leVal (leBytes k n) = n := by
  induction k generalizing n with
  | zero =>
    rw [pow_zero] at h
    rw [leBytes, leVal]
    omega
  | succ k ih =>
    have hn : n / 256 < 256 ^ k := by
      apply Nat.div_lt_of_lt_mul
      rwa [← pow_succ']
    rw [leBytes, leVal, ih hn, UInt8.toNat_ofNat']
    omega

/-- The low bytes and the high bytes are stored one after the other. -/
theorem leBytes_add (j k n : ℕ) : leBytes (j + k) n = leBytes j n ++ leBytes k (n / 256 ^ j) := by
  induction j generalizing n with
  | zero => simp [leBytes]
  | succ j ih =>
    rw [Nat.succ_add, leBytes, leBytes, ih, List.cons_append, Nat.div_div_eq_div_mul,
      ← pow_succ']

theorem leBytes_zero (k : ℕ) : leBytes k 0 = List.replicate k 0 := by
  induction k with
  | zero => rfl
  | succ k ih =>
    rw [leBytes, List.replicate_succ, Nat.zero_div, ih]
    rfl

/-- The `k` low bytes of `n`, the highest first. -/
def beBytes (k n : ℕ) : List UInt8 := (leBytes k n).reverse

/-- The integer stored in some bytes, the highest first. -/
def beVal (bs : List UInt8) : ℕ := leVal bs.reverse

@[simp] theorem length_beBytes (k n : ℕ) : (beBytes k n).length = k := by
  rw [beBytes, List.length_reverse, length_leBytes]

theorem beVal_beBytes {k n : ℕ} (h : n < 256 ^ k) : beVal (beBytes k n) = n := by
  rw [beVal, beBytes, List.reverse_reverse, leVal_leBytes h]

/-! ### Arrays -/

/-- An array of integers of `k` bytes each. -/
def leWords (k : ℕ) (vs : List ℕ) : List UInt8 := (vs.map (leBytes k)).flatten

@[simp] theorem length_leWords (k : ℕ) (vs : List ℕ) : (leWords k vs).length = k * vs.length := by
  induction vs with
  | nil => rfl
  | cons v vs ih =>
    rw [leWords] at ih ⊢
    rw [List.map_cons, List.flatten_cons, List.length_append, ih, length_leBytes, List.length_cons]
    ring

/-- An element in front of its neighbours. -/
theorem leWords_split {k i v : ℕ} {vs : List ℕ} (h : vs[i]? = some v) :
    leWords k vs = leWords k (vs.take i) ++ (leBytes k v ++ leWords k (vs.drop (i + 1))) := by
  obtain ⟨hi, hv⟩ := List.getElem?_eq_some_iff.1 h
  conv_lhs => rw [← List.take_append_drop i vs, List.drop_eq_getElem_cons hi, hv]
  simp [leWords]

/-- An element of an array that lies behind `pre`. -/
theorem peek_leWords {k i v off : ℕ} {vs : List ℕ} (pre rest : List UInt8) (h : vs[i]? = some v)
    (hoff : off = pre.length + k * i) :
    peek (pre ++ (leWords k vs ++ rest)) off k = leBytes k v := by
  have hi := (List.getElem?_eq_some_iff.1 h).1
  have hlen : (pre ++ leWords k (vs.take i)).length = off := by
    rw [List.length_append, length_leWords, List.length_take_of_le hi.le, hoff]
  rw [leWords_split h, List.append_assoc, List.append_assoc, ← List.append_assoc pre]
  exact peek_append hlen (length_leBytes k v)

/-- An assignment to an element. -/
theorem poke_leWords {k i off : ℕ} {vs : List ℕ} (pre rest : List UInt8) (hi : i < vs.length) (v : ℕ)
    (hoff : off = pre.length + k * i) :
    poke (pre ++ (leWords k vs ++ rest)) off (leBytes k v) = pre ++ (leWords k (vs.set i v) ++ rest) := by
  have hlen : (pre ++ leWords k (vs.take i)).length = off := by
    rw [List.length_append, length_leWords, List.length_take_of_le hi.le, hoff]
  have hset : (vs.set i v)[i]? = some v := List.getElem?_set_self hi
  rw [leWords_split (List.getElem?_eq_getElem hi), leWords_split hset, List.take_set_of_le le_rfl,
    List.drop_set_of_lt (Nat.lt_succ_self i)]
  simp only [List.append_assoc]
  rw [← List.append_assoc pre, poke_append hlen (by simp), List.append_assoc]

/-! ### Block-wise input -/

/-- The loop that reads blocks of `bs` bytes until there is nothing left. -/
def blockLoop (bs : ℕ) (body : σ → List α → σ) : ℕ → σ → List α → σ
  | 0, s, _ => s
  | n + 1, s, xs =>
      match xs.take bs with
      | [] => s
      | block => blockLoop bs body n (body s block) (xs.drop bs)

/-- A property of the state and of what was read so far, kept by every pass, holds at the end for
the whole file.  Only the last block may be short. -/
theorem blockLoop_rule {bs : ℕ} (hbs : 0 < bs) {body : σ → List α → σ} (I : σ → List α → Prop)
    (step : ∀ s done block, I s done → bs ∣ done.length → block ≠ [] → block.length ≤ bs →
      I (body s block) (done ++ block)) :
    ∀ n s done xs, I s done → bs ∣ done.length → xs.length < n →
      I (blockLoop bs body n s xs) (done ++ xs) := by
  intro n
  induction n with
  | zero => intro s done xs _ _ h; omega
  | succ n ih =>
    intro s done xs hI hdvd hlen
    rw [blockLoop]
    cases hb : xs.take bs with
    | nil =>
      have hxs : xs = [] := by
        rcases List.take_eq_nil_iff.1 hb with h | h
        · omega
        · exact h
      subst hxs
      simpa using hI
    | cons b block =>
      have hne : xs.take bs ≠ [] := by simp [hb]
      have hI' := step s done (xs.take bs) hI hdvd hne (List.length_take_le _ _)
      have hxs : done ++ xs = done ++ xs.take bs ++ xs.drop bs := by
        rw [List.append_assoc, List.take_append_drop]
      simp only [← hb]
      by_cases hshort : xs.length < bs
      · -- the short block is the last one
        have htake : xs.take bs = xs := List.take_of_length_le hshort.le
        have hdrop : xs.drop bs = [] := List.drop_of_length_le hshort.le
        rw [htake] at hI'
        rw [htake, hdrop]
        cases n with
        | zero => exact hI'
        | succ n => simpa [blockLoop] using hI'
      · rw [hxs]
        have hfull : (xs.take bs).length = bs := by
          rw [List.length_take]
          omega
        apply ih _ _ _ hI'
        · rw [List.length_append, hfull]
          exact Dvd.dvd.add hdvd (dvd_refl bs)
        · rw [List.length_drop]
          omega

/-- The same for a loop over a whole file. -/
theorem blockLoop_file {bs : ℕ} (hbs : 0 < bs) (body : σ → List α → σ) (I : σ → List α → Prop)
    {s : σ} (start : I s [])
    (step : ∀ s done block, I s done → bs ∣ done.length → block ≠ [] → block.length ≤ bs →
      I (body s block) (done ++ block)) (xs : List α) :
    I (blockLoop bs body (xs.length + 1) s xs) xs :=
  blockLoop_rule hbs I step _ s [] xs start (dvd_zero bs) (Nat.lt_succ_self _)

/-- The least multiple of `bs` that is not below `n`. -/
def roundUp (bs n : ℕ) : ℕ := (n + bs - 1) / bs * bs

theorem le_roundUp {bs : ℕ} (hbs : 0 < bs) (n : ℕ) : n ≤ roundUp bs n := by
  have h := Nat.div_add_mod (n + bs - 1) bs
  have h' := Nat.mod_lt (n + bs - 1) hbs
  rw [roundUp, mul_comm]
  omega

theorem roundUp_of_dvd {bs n : ℕ} (hbs : 0 < bs) (h : bs ∣ n) : roundUp bs n = n := by
  obtain ⟨k, rfl⟩ := h
  have hk : (bs * k + bs - 1) / bs = k := by
    rw [Nat.add_sub_assoc hbs, Nat.mul_add_div hbs, Nat.div_eq_of_lt (by omega), Nat.add_zero]
  rw [roundUp, hk, mul_comm]

/-- After full blocks, a last block of any length makes up one block more. -/
theorem roundUp_add {bs n k : ℕ} (hbs : 0 < bs) (h : bs ∣ n) (hk : 0 < k) (hk' : k ≤ bs) :
    roundUp bs (n + k) = n + bs := by
  obtain ⟨j, rfl⟩ := h
  have hj : (bs * j + k + bs - 1) / bs = j + 1 := by
    rw [show bs * j + k + bs - 1 = bs * (j + 1) + (k - 1) by rw [Nat.mul_succ]; omega,
      Nat.mul_add_div hbs, Nat.div_eq_of_lt (by omega), Nat.add_zero]
  rw [roundUp, hj]
  ring

/-- `xs` and the zeros up to the next multiple of `bs`. -/
def padded (bs : ℕ) (xs : List UInt8) : List UInt8 :=
  xs ++ List.replicate (roundUp bs xs.length - xs.length) 0

theorem length_padded {bs : ℕ} (hbs : 0 < bs) (xs : List UInt8) :
    (padded bs xs).length = roundUp bs xs.length := by
  have := le_roundUp hbs xs.length
  rw [padded, List.length_append, List.length_replicate]
  omega

theorem padded_of_dvd {bs : ℕ} (hbs : 0 < bs) {xs : List UInt8} (h : bs ∣ xs.length) :
    padded bs xs = xs := by
  rw [padded, roundUp_of_dvd hbs h, Nat.sub_self, List.replicate_zero, List.append_nil]

/-- One padded block after full blocks. -/
theorem padded_append {bs : ℕ} (hbs : 0 < bs) {done block : List UInt8} (h : bs ∣ done.length)
    (hne : block ≠ []) (hle : block.length ≤ bs) :
    padded bs (done ++ block) = done ++ (block ++ List.replicate (bs - block.length) 0) := by
  have hpos : 0 < block.length := List.length_pos_of_ne_nil hne
  rw [padded, List.length_append, roundUp_add hbs h hpos hle, List.append_assoc,
    Nat.add_sub_add_left]

/-! ### Hashes -/

/-- A hash that is fed piece by piece. -/
structure IncrementalHash (Ctx : Type) where
  init : Ctx
  update : Ctx → List UInt8 → Ctx
  final : Ctx → List UInt8
  update_append : ∀ c xs ys, update (update c xs) ys = update c (xs ++ ys)
  length_final : ∀ c, (final c).length = 16

/-- However a file is cut into blocks, the hash is that of the whole. -/
theorem IncrementalHash.blockLoop_update {Ctx : Type} (h : IncrementalHash Ctx) {bs : ℕ}
    (hbs : 0 < bs) {n : ℕ} {xs : List UInt8} (hn : xs.length < n) (c : Ctx) (ys : List UInt8) :
    blockLoop bs h.update n (h.update c ys) xs = h.update c (ys ++ xs) := by
  have step : ∀ s done block, s = h.update c (ys ++ done) → bs ∣ done.length → block ≠ [] →
      block.length ≤ bs → h.update s block = h.update c (ys ++ (done ++ block)) := by
    intro s done block hs _ _ _
    rw [hs, h.update_append, List.append_assoc]
  have key := blockLoop_rule hbs (fun s done => s = h.update c (ys ++ done)) step
    n (h.update c ys) [] xs (by rw [List.append_nil]) (by simp) hn
  simpa using key

end ZRouter
