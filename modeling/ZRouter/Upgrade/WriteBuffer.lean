import ZRouter.Lib.Exec
import ZRouter.Upgrade.Ring

/-!
# The write buffer in memory (`http_input.c`)

`wrbuf` is an array of 1024 bytes and `wrb_p` the number of bytes that wait in it.  A call of
`local_write` for one byte stores it there, a longer one is handed to `write()` at once, behind what
waits.

* `WriteBuf`, with `WriteBuf.store`, `WriteBuf.flush`, `WriteBuf.localWrite`, `WriteBuf.localClose`: the
  two globals and what `write()` was given; a store behind the array is undefined;
* `WriteBuf.Shows`: the array shows the buffer of `Out`; `localWrite_shows`: one call keeps this;
* `writes_transparent`: a sequence of calls, and the close behind it.
-/

namespace ZRouter.Upgrade

/-- The globals `wrb_p` and `wrbuf`, and the bytes that `write()` has accepted. -/
structure WriteBuf where
  wrbP : ℕ
  wrbuf : Bytes
  written : Bytes

/-- The globals at the start of the program. -/
def WriteBuf.start : WriteBuf := ⟨0, List.replicate 1024 0, []⟩

/-- `wrbuf[wrb_p++] = c`. -/
def WriteBuf.store (w : WriteBuf) (c : UInt8) : Exec WriteBuf :=
  if w.wrbP < 1024 then .ret { w with wrbP := w.wrbP + 1, wrbuf := w.wrbuf.set w.wrbP c }
  else .undefined

/-- `write(fd, wrbuf, wrb_p)`, then `wrb_p = 0`. -/
def WriteBuf.flush (w : WriteBuf) : WriteBuf :=
  { w with wrbP := 0, written := w.written ++ w.wrbuf.take w.wrbP }

/-- `write(fd, buf, count)` of bytes that are not in `wrbuf`. -/
def WriteBuf.write (w : WriteBuf) (buf : Bytes) (count : ℕ) : WriteBuf :=
  { w with written := w.written ++ buf.take count }

/-- `local_write`. -/
def WriteBuf.localWrite (w : WriteBuf) (buf : Bytes) (count : ℕ) : Exec WriteBuf :=
  if 1 < count then .ret ((if 0 < w.wrbP then w.flush else w).write buf count)
  else (if w.wrbP = 1024 then w.flush else w).store (buf.getD 0 0)

/-- `local_close`. -/
def WriteBuf.localClose (w : WriteBuf) : WriteBuf := w.flush

/-- A sequence of calls of `local_write`, each with its buffer and its count. -/
def WriteBuf.localWrites (w : WriteBuf) (calls : List (Bytes × ℕ)) : Exec WriteBuf :=
  calls.foldlM (fun w call => w.localWrite call.1 call.2) w

@[simp] theorem WriteBuf.flush_wrbP (w : WriteBuf) : w.flush.wrbP = 0 := rfl

@[simp] theorem WriteBuf.flush_wrbuf (w : WriteBuf) : w.flush.wrbuf = w.wrbuf := rfl

/-! ### One call -/

/-- The array shows the buffer `o`: its first `wrb_p` bytes are the ones that wait. -/
structure WriteBuf.Shows (w : WriteBuf) (o : Out) : Prop where
  size : w.wrbuf.length = 1024
  le : w.wrbP ≤ 1024
  waiting : w.wrbuf.take w.wrbP = o.wrbuf
  written : w.written = o.written

section Shows

variable {w : WriteBuf} {o : Out}

theorem WriteBuf.shows_start : WriteBuf.start.Shows ⟨[], []⟩ :=
  ⟨List.length_replicate, Nat.zero_le _, rfl, rfl⟩

/-- `wrb_p` is the number of bytes that wait. -/
theorem WriteBuf.Shows.wrbP_eq (h : w.Shows o) : w.wrbP = o.wrbuf.length := by
  rw [← h.waiting, List.length_take, h.size, Nat.min_eq_left h.le]

theorem WriteBuf.Shows.flush (h : w.Shows o) : w.flush.Shows ⟨o.written ++ o.wrbuf, []⟩ where
  size := h.size
  le := Nat.zero_le _
  waiting := rfl
  written := by
    show w.written ++ w.wrbuf.take w.wrbP = _
    rw [h.waiting, h.written]

/-- The flush before a long write does nothing when nothing waits. -/
theorem WriteBuf.Shows.flush_pending (h : w.Shows o) :
    (if 0 < w.wrbP then w.flush else w).Shows ⟨o.written ++ o.wrbuf, []⟩ := by
  by_cases hp : 0 < w.wrbP
  · rw [if_pos hp]
    exact h.flush
  · have hnil : o.wrbuf = [] := by
      rw [← List.length_eq_zero_iff, ← h.wrbP_eq]
      omega
    rw [if_neg hp, hnil, List.append_nil]
    exact ⟨h.size, h.le, by rw [h.waiting, hnil], h.written⟩

theorem WriteBuf.Shows.write (h : w.Shows o) (buf : Bytes) (count : ℕ) :
    (w.write buf count).Shows ⟨o.written ++ buf.take count, o.wrbuf⟩ where
  size := h.size
  le := h.le
  waiting := h.waiting
  written := by
    show w.written ++ buf.take count = _
    rw [h.written]

/-- A store inside the array. -/
theorem WriteBuf.Shows.store (h : w.Shows o) (hlt : w.wrbP < 1024) (c : UInt8) :
    ∃ w', w.store c = .ret w' ∧ w'.Shows ⟨o.written, o.wrbuf ++ [c]⟩ := by
  refine ⟨_, if_pos hlt, ?_, hlt, ?_, h.written⟩
  · show (w.wrbuf.set w.wrbP c).length = 1024
    rw [List.length_set, h.size]
  · show (w.wrbuf.set w.wrbP c).take (w.wrbP + 1) = o.wrbuf ++ [c]
    have hlen : w.wrbP < (w.wrbuf.set w.wrbP c).length := by
      rw [List.length_set, h.size]
      exact hlt
    rw [List.take_add_one, List.getElem?_eq_getElem hlen, List.getElem_set_self,
      List.take_set_of_le le_rfl, h.waiting]
    rfl

/-- **One call of `local_write`** stores inside the array, and does to it what the call does to the
buffer that it shows. -/
theorem WriteBuf.Shows.localWrite (h : w.Shows o) (buf : Bytes) (count : ℕ) :
    ∃ w', w.localWrite buf count = .ret w' ∧ w'.Shows (Upgrade.localWrite o buf count) := by
  unfold WriteBuf.localWrite Upgrade.localWrite
  by_cases hcount : 1 < count
  · rw [if_pos hcount, if_pos hcount]
    exact ⟨_, rfl, h.flush_pending.write buf count⟩
  · rw [if_neg hcount, if_neg hcount, h.wrbP_eq]
    by_cases hfull : o.wrbuf.length = 1024
    · rw [if_pos hfull, if_pos hfull]
      exact h.flush.store (by rw [WriteBuf.flush_wrbP]; norm_num) _
    · rw [if_neg hfull, if_neg hfull]
      refine h.store ?_ _
      have hle := h.le
      have heq := h.wrbP_eq
      omega

end Shows

/-! ### A sequence of calls -/

/-- The run: the calls return, and the buffer shows what has been handed over. -/
theorem WriteBuf.Shows.localWrites {w : WriteBuf} {o : Out} (h : w.Shows o)
    {calls : List (Bytes × ℕ)} (hcalls : ∀ call ∈ calls, 1 ≤ call.2 ∧ call.2 ≤ call.1.length) :
    ∃ w' o', w.localWrites calls = .ret w' ∧ w'.Shows o' ∧
      o'.bytes = o.bytes ++ calls.flatMap fun call => call.1.take call.2 := by
  induction calls generalizing w o with
  | nil => exact ⟨w, o, rfl, h, by simp⟩
  | cons call calls ih =>
    obtain ⟨hfirst, hrest⟩ := List.forall_mem_cons.1 hcalls
    obtain ⟨w₁, hw₁, h₁⟩ := h.localWrite call.1 call.2
    obtain ⟨w', o', hw', h', hbytes⟩ := ih h₁ hrest
    refine ⟨w', o', ?_, h', ?_⟩
    · rw [WriteBuf.localWrites, List.foldlM_cons, hw₁]
      exact hw'
    · rw [hbytes, localWrite_bytes o call.1 hfirst.1 hfirst.2, List.flatMap_cons, List.append_assoc]

/-- **Buffering is not seen in the file.**  After any calls of `local_write` for one byte or more, no
byte was stored behind the array, `wrb_p` is at most 1024, and `local_close` leaves in the file the
bytes of the calls, in their order. -/
theorem writes_transparent {calls : List (Bytes × ℕ)}
    (hcalls : ∀ call ∈ calls, 1 ≤ call.2 ∧ call.2 ≤ call.1.length) :
    ∃ w, WriteBuf.start.localWrites calls = .ret w ∧ w.wrbP ≤ 1024 ∧ w.localClose.wrbP = 0 ∧
      w.localClose.written = calls.flatMap fun call => call.1.take call.2 := by
  obtain ⟨w, o, hw, hshows, hbytes⟩ := WriteBuf.shows_start.localWrites hcalls
  refine ⟨w, hw, hshows.le, rfl, ?_⟩
  have hclose := hshows.flush.written
  rw [WriteBuf.localClose, hclose]
  exact hbytes

/-- A byte, a longer write and a byte. -/
theorem writes_transparent_three :
    ∃ w, WriteBuf.start.localWrites [([1], 1), ([2, 3], 2), ([4], 1)] = .ret w ∧ w.wrbP ≤ 1024 ∧
      w.localClose.wrbP = 0 ∧ w.localClose.written = [1, 2, 3, 4] := by
  have hcalls : ∀ call ∈ ([([1], 1), ([2, 3], 2), ([4], 1)] : List (Bytes × ℕ)),
      1 ≤ call.2 ∧ call.2 ≤ call.1.length := by decide
  exact writes_transparent hcalls

end ZRouter.Upgrade
