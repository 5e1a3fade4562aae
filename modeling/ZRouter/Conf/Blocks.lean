import ZRouter.Conf.Dump
import ZRouter.Lib.Memory

/-!
# The buffer in memory (`conf_strbuf.c`)

`buf` and `end` are pointers.  `realloc` may give another block, and then `end` points into the old one;
`strReplaceOne` makes `end` a pointer from an integer.  Using either is undefined.

* `Pointer`, `Strbuf`, `Allocator`; `strInit`, `strAppend`, `strReplaceOne`, `strReplace`;
* `Ready`, `Shows`: the text that a buffer holds;
* `strAppend_shows`, `strAppend_refines`: what fits is appended, as in `dump_xml`;
* `appends_iff`: when a sequence of strings is appended;
* `replacesAll_iff`: when a replacement leaves a buffer that can be appended to.
-/

namespace ZRouter.Conf.Blocks

/-! ### Memory -/

/-- A pointer into a block, or one made from an integer. -/
inductive Pointer where
  | to (addr offset : ℕ)
  | int (n : ℤ)
deriving DecidableEq

/-- `struct strbuf`, with the block at `buf`; `buf` is null where `realloc` has failed. -/
structure Strbuf where
  buf : Option ℕ
  block : Bytes
  fin : Pointer
  size : ℕ
deriving DecidableEq

/-- `realloc`: the new block starts with what was in the old one. -/
structure Allocator where
  realloc : ℕ → Bytes → ℕ → Option (ℕ × Bytes)
  keeps : ∀ {addr block size addr' block'}, realloc addr block size = some (addr', block') →
    block'.length = size ∧ block.take size <+: block'

/-- A `realloc` that always moves the block. -/
def moving : Allocator where
  realloc addr block size := some (addr + 1, block.take size ++ List.replicate (size - block.length) 0)
  keeps h := by
    cases h
    exact ⟨by rw [List.length_append, List.length_take, List.length_replicate]; omega,
      List.prefix_append _ _⟩

/-- An integer that is stored in an `int`. -/
def cint (n : ℤ) : ℤ := n.bmod (2 ^ 32)

/-- `n > size` for a `size_t`: a negative number is a large one. -/
def Exceeds (n : ℤ) (size : ℕ) : Prop := n < 0 ∨ (size : ℤ) < n

instance (n : ℤ) (size : ℕ) : Decidable (Exceeds n size) := inferInstanceAs (Decidable (_ ∨ _))

/-- What `strncpy` writes. -/
def strncpy (x : Bytes) (n : ℕ) : Bytes := (x ++ List.replicate n 0).take n

/-- A write of bytes behind a pointer. -/
def Strbuf.write (s : Strbuf) (p : Pointer) (xs : Bytes) : Exec Strbuf :=
  match p with
  | .to addr off =>
      if s.buf = some addr ∧ off + xs.length ≤ s.block.length then
        .ret { s with block := poke s.block off xs }
      else .undefined
  | .int _ => .undefined

/-- The string that is read at `buf`. -/
def Strbuf.string (s : Strbuf) : Option Bytes :=
  if s.buf.isSome ∧ 0 ∈ s.block then some (cstr s.block) else none

/-- `s->end - s->buf`. -/
def Strbuf.used (s : Strbuf) : Exec ℤ :=
  match s.fin with
  | .to addr off => if s.buf = some addr then .ret off else .undefined
  | .int _ => .undefined

/-- `s->end += len`. -/
def Strbuf.advance (s : Strbuf) (len : ℤ) : Exec Strbuf :=
  match s.fin with
  | .to addr off => if 0 ≤ off + len then .ret { s with fin := .to addr (off + len).toNat } else .undefined
  | .int _ => .undefined

/-! ### The functions -/

/-- `STRBUF_BLOCKSIZE`. -/
def strbufBlocksize : ℕ := 0x1000

/-- `strInit`, with what `malloc` gives. -/
def strInit (addr : ℕ) (block : Bytes) : Strbuf := ⟨some addr, block, .to addr 0, strbufBlocksize⟩

/-- The growth in `strAppend` and `strReplaceOne`. -/
def grow (A : Allocator) (s : Strbuf) : Strbuf :=
  let size := s.size + strbufBlocksize
  match s.buf.bind fun addr => A.realloc addr s.block size with
  | some (addr, block) => { s with buf := some addr, block, size }
  | none => { s with buf := none, block := [], size }

/-- `strAppend`. -/
def strAppend (A : Allocator) (s : Strbuf) (x : Bytes) : Exec Strbuf :=
  let len := cint x.length
  s.used >>= fun used =>
  let s := if Exceeds (used + len + 1) s.size then grow A s else s
  if s.buf = none then .ret s
  else if len + 1 < 0 then .undefined
  else s.write s.fin (strncpy x (len + 1).toNat) >>= fun s => s.advance len

/-- `memmove` inside the block. -/
def Strbuf.memmove (s : Strbuf) (dst src n : ℤ) : Exec Strbuf :=
  if 0 ≤ dst ∧ 0 ≤ src ∧ 0 ≤ n ∧ dst + n ≤ s.block.length ∧ src + n ≤ s.block.length then
    .ret { s with block := poke s.block dst.toNat (peek s.block src.toNat n.toNat) }
  else .undefined

/-- `strReplaceOne`: what it returns, and the buffer. -/
def strReplaceOne (A : Allocator) (s : Strbuf) (old new : Bytes) : Exec (ℤ × Strbuf) :=
  match s.string with
  | none => .undefined
  | some text =>
      if strstr old text = none then .ret (0, s)
      else
        let nlen := cint new.length
        let olen := cint old.length
        let len := cint text.length
        s.used >>= fun used =>
        let s := if Exceeds (used + cint (nlen - olen) + 1) s.size then grow A s else s
        match s.buf, s.string.bind (strstr old) with
        | none, _ => .ret (-1, s)
        | some _, none => .undefined
        | some addr, some tail =>
            let pos : ℤ := text.length - tail.length
            s.memmove (pos + nlen) (pos + olen) (len - pos - olen + 1) >>= fun s =>
            if nlen < 0 then .undefined
            else
              s.write (.to addr pos.toNat) (strncpy new nlen.toNat) >>= fun s =>
              .ret (1, { s with fin := .int (cint (len - olen + nlen)) })

/-- One pass of the loop of `strReplace`. -/
def replaceBody (A : Allocator) (old new : Bytes) (st : ℤ × Strbuf) :
    Exec ((ℤ × Strbuf) ⊕ (ℤ × Strbuf)) :=
  strReplaceOne A st.2 old new >>= fun r =>
  if r.1 = 0 then .ret (.inr (st.1, r.2))
  else if 0 < r.1 then .ret (.inl (st.1 + r.1, r.2))
  else .ret (.inr r)

/-- `strReplace`, with at most `n` passes: what it returns, and the buffer. -/
def strReplace (A : Allocator) (s : Strbuf) (old new : Bytes) (n : ℕ) : Exec (ℤ × Strbuf) :=
  Exec.loop (replaceBody A old new) n (0, s)

/-! ### Appending -/

/-- What is in front of `end` is the text. -/
structure Ready (s : Strbuf) (text : Bytes) : Prop where
  fin : ∃ addr, s.buf = some addr ∧ s.fin = .to addr text.length
  block : text <+: s.block
  length : s.block.length = s.size

/-- The text stands in the buffer, ended by a NUL at `end`. -/
structure Shows (s : Strbuf) (text : Bytes) : Prop extends Ready s text where
  nul : text ++ [0] <+: s.block
  chars : 0 ∉ text

theorem ready_strInit (addr : ℕ) {block : Bytes} (h : block.length = strbufBlocksize) :
    Ready (strInit addr block) [] := ⟨⟨addr, rfl, rfl⟩, List.nil_prefix, h⟩

section Shows

variable {s : Strbuf} {text : Bytes}

theorem Ready.used (h : Ready s text) : s.used = .ret text.length := by
  obtain ⟨addr, hbuf, hfin⟩ := h.fin
  rw [Strbuf.used, hfin]
  exact if_pos hbuf

theorem Shows.length_lt (h : Shows s text) : text.length + 1 ≤ s.size := by
  have := h.nul.length_le
  rwa [h.length, List.length_append, List.length_singleton] at this

theorem string_eq {addr : ℕ} (hbuf : s.buf = some addr) (hnul : text ++ [0] <+: s.block)
    (hchars : 0 ∉ text) : s.string = some text := by
  obtain ⟨rest, hrest⟩ := hnul
  have hcstr : cstr s.block = text := by
    rw [← hrest, cstr, List.append_assoc,
      List.takeWhile_append_of_pos fun c hc => decide_eq_true (ne_of_mem_of_not_mem hc hchars)]
    simp
  rw [Strbuf.string, hcstr, if_pos ⟨by rw [hbuf]; rfl, by rw [← hrest]; simp⟩]

theorem Shows.string (h : Shows s text) : s.string = some text := by
  obtain ⟨addr, hbuf, -⟩ := h.fin
  exact string_eq hbuf h.nul h.chars

end Shows

theorem cint_eq_self {n : ℕ} (h : n < 2 ^ 31) : cint n = n := by
  rw [cint, Int.bmod_def]
  omega

theorem cint_ne_self {n : ℕ} (h : 2 ^ 31 ≤ n) : cint n ≠ n := by
  have := Int.bmod_lt (x := (n : ℤ)) (show 0 < 2 ^ 32 by norm_num)
  rw [cint]
  omega

theorem strncpy_succ (x : Bytes) : strncpy x (x.length + 1) = x ++ [0] := by
  rw [strncpy, List.replicate_succ, List.append_cons,
    List.take_left' (by rw [List.length_append, List.length_singleton])]

/-- A string that fits is appended. -/
theorem strAppend_shows (A : Allocator) {s : Strbuf} {text x : Bytes} (hs : Ready s text)
    (htext : 0 ∉ text) (hx : 0 ∉ x) (hfit : text.length + x.length < s.size)
    (hint : x.length < 2 ^ 31) :
    ∃ s', strAppend A s x = .ret s' ∧ Shows s' (text ++ x) ∧ s'.size = s.size := by
  obtain ⟨addr, hbuf, hfin⟩ := hs.fin
  obtain ⟨rest, hrest⟩ := hs.block
  have hlen := hs.length
  have hroom : ¬ Exceeds (text.length + (x.length : ℤ) + 1) s.size := by
    rintro (h | h) <;> omega
  have hneg : ¬ (x.length : ℤ) + 1 < 0 := by omega
  have hcount : ((x.length : ℤ) + 1).toNat = x.length + 1 := by omega
  have hwrite : s.write s.fin (x ++ [0]) = .ret { s with block := poke s.block text.length (x ++ [0]) } := by
    have hroom : text.length + (x ++ [0]).length ≤ s.block.length := by
      rw [List.length_append, List.length_singleton]
      omega
    conv_lhs => rw [hfin]
    rw [Strbuf.write, if_pos ⟨hbuf, hroom⟩]
  obtain ⟨mid, tail, rfl, hmid⟩ : ∃ mid tail, rest = mid ++ tail ∧ mid.length = (x ++ [0]).length := by
    refine ⟨rest.take (x.length + 1), rest.drop (x.length + 1), (List.take_append_drop _ _).symm, ?_⟩
    rw [← hrest, List.length_append] at hlen
    rw [List.length_take, List.length_append, List.length_singleton]
    omega
  have hblock : poke s.block text.length (x ++ [0]) = text ++ (x ++ [0] ++ tail) := by
    rw [← hrest, poke_append rfl hmid]
  refine ⟨{ s with block := text ++ (x ++ [0] ++ tail), fin := .to addr (text ++ x).length }, ?_, ?_, rfl⟩
  · rw [strAppend, hs.used, Exec.ret_bind, cint_eq_self hint]
    simp only [if_neg hroom, hbuf, reduceCtorEq, if_false, if_neg hneg, hcount, strncpy_succ, hwrite,
      hblock, Exec.ret_bind]
    rw [Strbuf.advance]
    simp only [hfin]
    rw [if_pos (by omega)]
    have hoff : ((text.length : ℤ) + x.length).toNat = (text ++ x).length := by
      rw [List.length_append]
      omega
    rw [hoff]
  · have hsize : (text ++ (x ++ [0] ++ tail)).length = s.size := by
      rw [← hlen, ← hrest]
      simp only [List.length_append] at hmid ⊢
      omega
    exact ⟨⟨⟨addr, hbuf, rfl⟩, ⟨[0] ++ tail, by simp⟩, hsize⟩, ⟨tail, by simp⟩, by simp [htext, hx]⟩

/-- A string that does not fit is not appended where `realloc` moves the block, and `end` is wrong for
one that is too long for an `int`. -/
theorem strAppend_fails {s s' : Strbuf} {text x : Bytes} (hs : Ready s text)
    (hfull : ¬ (text.length + x.length < s.size ∧ x.length < 2 ^ 31))
    (h : strAppend moving s x = .ret s') : s'.used ≠ .ret (text ++ x).length := by
  obtain ⟨addr, hbuf, hfin⟩ := hs.fin
  rw [strAppend, hs.used, Exec.ret_bind] at h
  by_cases hgrow : Exceeds (text.length + cint x.length + 1) s.size
  · -- the block has moved, `end` has not
    exfalso
    have hmoved : (grow moving s).buf = some (addr + 1) ∧ (grow moving s).fin = .to addr text.length := by
      rw [grow, hbuf]
      exact ⟨rfl, hfin⟩
    simp only [if_pos hgrow, hmoved.1, reduceCtorEq, if_false] at h
    split_ifs at h
    rw [hmoved.2, Strbuf.write, if_neg fun hw => by rw [hmoved.1] at hw; simp at hw] at h
    cases h
  · have hlen : cint x.length ≠ x.length := by
      intro heq
      rw [heq] at hgrow
      by_cases hint : x.length < 2 ^ 31
      · exact hgrow (Or.inr (by omega))
      · exact cint_ne_self (by omega) heq
    simp only [if_neg hgrow, hbuf, reduceCtorEq, if_false] at h
    split_ifs at h
    obtain ⟨s₁, hwrite, h⟩ := Exec.bind_eq_ret h
    have hs₁ : s₁.buf = s.buf ∧ s₁.fin = s.fin := by
      rw [hfin, Strbuf.write] at hwrite
      split_ifs at hwrite
      cases hwrite
      exact ⟨rfl, rfl⟩
    rw [Strbuf.advance, hs₁.2, hfin] at h
    dsimp only at h
    split_ifs at h with hoff
    cases h
    rw [Strbuf.used]
    dsimp only
    rw [hs₁.1, if_pos hbuf]
    intro heq
    have : (((text.length : ℤ) + cint x.length).toNat : ℤ) = (text ++ x).length := by injection heq
    rw [List.length_append] at this
    omega

/-- **The buffer of `dump_xml` and the one in memory**: appending returns in the one exactly when it
returns in the other for every `realloc`, with the same text. -/
theorem strAppend_refines {s : Strbuf} {t : Conf.Strbuf} {x : Bytes} (hs : Shows s t.text)
    (hsize : s.size = t.size) (hx : 0 ∉ x) (hint : x.length < 2 ^ 31) :
    (∃ t', Conf.strAppend t (some x) = .ret t') ↔
      ∀ A, ∃ s', strAppend A s x = .ret s' ∧ Shows s' (t.text ++ x) := by
  constructor
  · rintro ⟨t', ht⟩ A
    by_cases hfit : t.text.length + x.length < t.size
    · obtain ⟨s', hs', hshows, -⟩ := strAppend_shows A hs.toReady hs.chars hx (hsize ▸ hfit) hint
      exact ⟨s', hs', hshows⟩
    · rw [strAppend_full hfit] at ht
      cases ht
  · intro h
    obtain ⟨s', hs', hshows⟩ := h moving
    by_cases hfit : t.text.length + x.length < t.size
    · exact ⟨_, strAppend_fits hfit⟩
    · exact absurd hshows.used (strAppend_fails hs.toReady (fun hf => hfit (hsize ▸ hf.1)) hs')

/-! ### Sequences of strings -/

/-- A string of C. -/
structure CString where
  bytes : Bytes
  chars : 0 ∉ bytes

/-- The text of some strings, one after the other. -/
def textOf (xs : List CString) : Bytes := (xs.map CString.bytes).flatten

/-- The strings are appended one after the other. -/
def appendAll (A : Allocator) (s : Strbuf) : List CString → Exec Strbuf
  | [] => .ret s
  | x :: xs => strAppend A s x.bytes >>= fun s => appendAll A s xs

/-- `strGet` gives the text, `end` stands behind it, and there is room for the NUL. -/
def Keeps (s : Strbuf) (text : Bytes) : Prop :=
  s.string = some text ∧ s.used = .ret text.length ∧ text.length + 1 ≤ s.size

theorem Shows.keeps {s : Strbuf} {text : Bytes} (h : Shows s text) : Keeps s text :=
  ⟨h.string, h.used, h.length_lt⟩

/-- After each string the buffer holds what has been appended, whatever `malloc` and `realloc` give. -/
def Appends (xs : List CString) : Prop :=
  ∀ A addr block, block.length = strbufBlocksize → ∀ ys ≠ [], ys <+: xs →
    ∃ s, appendAll A (strInit addr block) ys = .ret s ∧ Keeps s (textOf ys)

theorem textOf_append (xs ys : List CString) : textOf (xs ++ ys) = textOf xs ++ textOf ys := by
  rw [textOf, List.map_append, List.flatten_append]
  rfl

theorem textOf_chars (xs : List CString) : 0 ∉ textOf xs := by
  rw [textOf, List.mem_flatten]
  rintro ⟨x, hx, h⟩
  obtain ⟨y, -, rfl⟩ := List.mem_map.1 hx
  exact y.chars h

theorem appendAll_append (A : Allocator) (s : Strbuf) (xs ys : List CString) :
    appendAll A s (xs ++ ys) = appendAll A s xs >>= fun s => appendAll A s ys := by
  induction xs generalizing s with
  | nil => rfl
  | cons x xs ih =>
    rw [List.cons_append, appendAll, appendAll]
    cases strAppend A s x.bytes with
    | ret s => exact ih s
    | undefined => rfl
    | stuck => rfl

/-- The run: while the text fits, it is in front of `end`, and shown after the first string. -/
theorem appendAll_shows (A : Allocator) {s : Strbuf} (hs : Ready s [])
    (hsize : s.size = strbufBlocksize) {xs : List CString} (hfit : (textOf xs).length < strbufBlocksize) :
    ∃ s', appendAll A s xs = .ret s' ∧ Ready s' (textOf xs) ∧ s'.size = strbufBlocksize ∧
      (xs ≠ [] → Shows s' (textOf xs)) := by
  induction xs using List.reverseRecOn with
  | nil => exact ⟨s, rfl, hs, hsize, fun h => absurd rfl h⟩
  | append_singleton xs x ih =>
    have hx : textOf [x] = x.bytes := by simp [textOf]
    rw [textOf_append, hx, List.length_append] at hfit
    obtain ⟨s₁, hs₁, hready, hsize₁, -⟩ := ih (by omega)
    have hblock : strbufBlocksize = 4096 := rfl
    obtain ⟨s₂, hs₂, hshows, hsize₂⟩ := strAppend_shows A hready (textOf_chars xs) x.chars
      (by omega) (by omega)
    rw [textOf_append, hx]
    refine ⟨s₂, ?_, hshows.toReady, hsize₂.trans hsize₁, fun _ => hshows⟩
    rw [appendAll_append, hs₁, Exec.ret_bind, appendAll, hs₂]
    rfl

/-- The first string that does not fit. -/
theorem exists_full {n : ℕ} (hn : 0 < n) {xs : List CString} (h : n ≤ (textOf xs).length) :
    ∃ ys x, ys ++ [x] <+: xs ∧ (textOf ys).length < n ∧ n ≤ (textOf (ys ++ [x])).length := by
  induction xs using List.reverseRecOn with
  | nil =>
    simp [textOf] at h
    omega
  | append_singleton xs x ih =>
    by_cases hxs : n ≤ (textOf xs).length
    · obtain ⟨ys, y, hys, hlt, hle⟩ := ih hxs
      exact ⟨ys, y, hys.trans (List.prefix_append _ _), hlt, hle⟩
    · exact ⟨xs, x, List.prefix_rfl, by omega, h⟩

/-- **Strings are appended exactly as long as they fit into the first block.** -/
theorem appends_iff (xs : List CString) :
    Appends xs ↔ (textOf xs).length < strbufBlocksize := by
  constructor
  · intro h
    by_contra hfull
    obtain ⟨ys, x, hys, hlt, hle⟩ := exists_full (by decide) (not_lt.1 hfull)
    have hblock : (List.replicate strbufBlocksize (0 : UInt8)).length = strbufBlocksize :=
      List.length_replicate
    obtain ⟨s, hs, hready, hsize, -⟩ := appendAll_shows moving (ready_strInit 0 hblock) rfl hlt
    obtain ⟨s', hs', -, hused, -⟩ := h moving 0 _ hblock (ys ++ [x]) (by simp) hys
    rw [appendAll_append, hs, Exec.ret_bind, appendAll] at hs'
    obtain ⟨s₁, happend, hret⟩ := Exec.bind_eq_ret hs'
    cases hret
    have hx : textOf [x] = x.bytes := by simp [textOf]
    rw [textOf_append, hx] at hused hle
    rw [List.length_append] at hle
    exact strAppend_fails hready (fun hfit => by omega) happend hused
  · intro hfit A addr block hblock ys hne hys
    obtain ⟨zs, rfl⟩ := hys
    rw [textOf_append, List.length_append] at hfit
    obtain ⟨s, hs, -, -, hshows⟩ := appendAll_shows A (ready_strInit addr hblock) rfl
      (show (textOf ys).length < strbufBlocksize by omega)
    exact ⟨s, hs, (hshows hne).keeps⟩

/-- A string of the size of a block. -/
def page : CString := ⟨List.replicate strbufBlocksize 97, fun h => by cases List.eq_of_mem_replicate h⟩

/-- A string of the size of the block is not appended. -/
theorem not_appends_page : ¬ Appends [page] := by
  intro h
  have hblock : (List.replicate strbufBlocksize (0 : UInt8)).length = strbufBlocksize :=
    List.length_replicate
  obtain ⟨s, hs, -, hused, -⟩ := h moving 0 _ hblock [page] (by simp) List.prefix_rfl
  obtain ⟨s', happend, hret⟩ := Exec.bind_eq_ret hs
  cases hret
  refine strAppend_fails (ready_strInit 0 hblock) (fun hfit => ?_) happend (by simpa [textOf] using hused)
  have hlt : strbufBlocksize < strbufBlocksize := by simpa [page, strInit] using hfit.1
  exact lt_irrefl _ hlt

/-! ### Replacing -/

/-- The text with the occurrences of `old`, from left to right, replaced by `new`, and their number; the
first argument counts what is left of an occurrence. -/
def replaceAll (old new : Bytes) : ℕ → Bytes → Bytes × ℕ
  | _, [] => ([], 0)
  | k + 1, _ :: cs => replaceAll old new k cs
  | 0, c :: cs =>
      if old.isPrefixOf (c :: cs) then
        let r := replaceAll old new (old.length - 1) cs
        (new ++ r.1, r.2 + 1)
      else
        let r := replaceAll old new 0 cs
        (c :: r.1, r.2)

example : replaceAll (str "aa") (str "b") 0 (str "aaaxaa") = (str "baxb", 2) := rfl

theorem replaceAll_absent {old text : Bytes} (new : Bytes) (h : ¬ old <:+: text) :
    replaceAll old new 0 text = (text, 0) := by
  induction text with
  | nil => rfl
  | cons c text ih =>
    have hc : ¬ old.isPrefixOf (c :: text) = true := fun hp =>
      h (List.isPrefixOf_iff_prefix.1 hp).isInfix
    rw [replaceAll, if_neg hc, ih fun hi => h (hi.trans (List.infix_cons List.infix_rfl))]

/-- `strReplace` returns the number of occurrences, leaves the text with all of them replaced, and
`strAppend` then appends to it. -/
def ReplacesAll (s : Strbuf) (text old new t : Bytes) : Prop :=
  ∀ A, ∃ s', Exec.Eventually (strReplace A s old new) (.ret ((replaceAll old new 0 text).2, s')) ∧
    s'.string = some (replaceAll old new 0 text).1 ∧
    ∃ s'', strAppend A s' t = .ret s'' ∧ Keeps s'' ((replaceAll old new 0 text).1 ++ t)

/-- `end` is an integer. -/
def Lost (s : Strbuf) : Prop := ∃ n, s.fin = .int n

theorem Lost.used {s : Strbuf} (h : Lost s) : s.used = .undefined := by
  obtain ⟨n, hn⟩ := h
  rw [Strbuf.used, hn]

/-- After that nothing is appended. -/
theorem Lost.strAppend {s : Strbuf} (h : Lost s) (A : Allocator) (x : Bytes) :
    strAppend A s x = .undefined := by
  rw [Blocks.strAppend, h.used]
  rfl

theorem strReplaceOne_absent (A : Allocator) {s : Strbuf} {text old : Bytes} (new : Bytes)
    (hs : s.string = some text) (h : ¬ old <:+: text) : strReplaceOne A s old new = .ret (0, s) := by
  have hnone : strstr old text = none := not_not.1 fun hne => h (strstr_ne_none.1 hne)
  simp only [strReplaceOne, hs, hnone, if_true]

theorem memmove_eq {s : Strbuf} {dst src n : ℕ} (hdst : dst + n ≤ s.block.length)
    (hsrc : src + n ≤ s.block.length) :
    s.memmove dst src n = .ret { s with block := poke s.block dst (peek s.block src n) } := by
  rw [Strbuf.memmove, if_pos (by omega)]
  simp only [Int.toNat_natCast]

theorem strncpy_self (x : Bytes) : strncpy x x.length = x := by
  rw [strncpy, List.take_left]

/-- The block after the two writes of `strReplaceOne`. -/
theorem poke_poke {pre old post new rest : Bytes}
    (hfit : pre.length + new.length + post.length + 1 ≤
      pre.length + old.length + post.length + 1 + rest.length) :
    ∃ tail, poke (poke (pre ++ old ++ post ++ [0] ++ rest) (pre.length + new.length) (post ++ [0]))
      pre.length new = pre ++ new ++ post ++ [0] ++ tail := by
  obtain ⟨block, hblock⟩ : ∃ b, b = pre ++ old ++ post ++ [0] ++ rest := ⟨_, rfl⟩
  have hlen : block.length = pre.length + old.length + post.length + 1 + rest.length := by
    simp only [hblock, List.length_append, List.length_singleton]
  obtain ⟨mid, hmid⟩ : ∃ mid, block.take (pre.length + new.length) = pre ++ mid := by
    have hpre : pre <+: block.take (pre.length + new.length) := by
      rw [List.prefix_take_iff, hblock]
      exact ⟨by simp, Nat.le_add_right _ _⟩
    obtain ⟨mid, h⟩ := hpre
    exact ⟨mid, h.symm⟩
  have hmidlen : mid.length = new.length := by
    have h := congrArg List.length hmid
    rw [List.length_take, List.length_append] at h
    omega
  refine ⟨block.drop (pre.length + new.length + (post ++ [0]).length), ?_⟩
  have hinner : poke block (pre.length + new.length) (post ++ [0]) = pre ++ (mid ++ (post ++ [0] ++
      block.drop (pre.length + new.length + (post ++ [0]).length))) := by
    rw [poke, hmid]
    simp only [List.append_assoc]
  rw [← hblock, hinner, poke_append rfl hmidlen]
  simp only [List.append_assoc]

/-- The first occurrence is replaced, where the new text fits: it is only `end` that is lost. -/
theorem strReplaceOne_present (A : Allocator) {s : Strbuf} {pre old post new : Bytes}
    (hs : Shows s (pre ++ old ++ post)) (hfirst : strstr old (pre ++ old ++ post) = some (old ++ post))
    (hfit : (pre ++ new ++ post).length < s.size) (hnew : 0 ∉ new) (hint : s.size ≤ 2 ^ 31) :
    ∃ s', strReplaceOne A s old new = .ret (1, s') ∧ s'.string = some (pre ++ new ++ post) ∧
      s'.fin = .int (pre ++ new ++ post).length := by
  obtain ⟨addr, hbuf, hfin⟩ := hs.fin
  obtain ⟨rest, hrest⟩ := hs.nul
  have hlt := hs.length_lt
  have hblen : s.block.length = pre.length + old.length + post.length + 1 + rest.length := by
    simp only [← hrest, List.length_append, List.length_singleton]
  have hsize : s.block.length = s.size := hs.length
  simp only [List.length_append] at hfit hlt
  have hcint : cint ((new.length : ℤ) - old.length) = new.length - old.length := by
    rw [cint, Int.bmod_def]
    omega
  have hroom : ¬ Exceeds (((pre ++ old ++ post).length : ℤ) + cint (new.length - old.length) + 1)
      s.size := by
    rw [hcint]
    simp only [List.length_append]
    rintro (h | h) <;> omega
  have hpos : ((pre ++ old ++ post).length : ℤ) - (old ++ post).length = pre.length := by
    simp only [List.length_append]
    omega
  have hcount : ((pre ++ old ++ post).length : ℤ) - pre.length - old.length + 1 =
      (post.length + 1 : ℕ) := by
    simp only [List.length_append]
    omega
  have hend : cint (((pre ++ old ++ post).length : ℤ) - old.length + new.length) =
      (pre ++ new ++ post).length := by
    have h : ((pre ++ old ++ post).length : ℤ) - old.length + new.length =
        ((pre ++ new ++ post).length : ℕ) := by
      simp only [List.length_append]
      omega
    rw [h, cint_eq_self (by simp only [List.length_append]; omega)]
  have hmove : s.memmove (pre.length + new.length) (pre.length + old.length) (post.length + 1 : ℕ) =
      .ret { s with block := poke s.block (pre.length + new.length) (post ++ [0]) } := by
    have h := @memmove_eq s (pre.length + new.length) (pre.length + old.length) (post.length + 1)
      (by omega) (by omega)
    have hpeek : peek s.block (pre.length + old.length) (post.length + 1) = post ++ [0] := by
      rw [← hrest, List.append_assoc (pre ++ old), List.append_assoc (pre ++ old),
        peek_append (by simp) (by simp)]
    rw [hpeek] at h
    exact_mod_cast h
  obtain ⟨tail, htail⟩ := @poke_poke pre old post new rest (by omega)
  rw [hrest] at htail
  have hwrite : ∀ block : Bytes, block.length = s.block.length →
      Strbuf.write { s with block } (.to addr pre.length) new =
        .ret { s with block := poke block pre.length new } := fun block hb =>
    if_pos ⟨hbuf, by rw [hb]; omega⟩
  have hpoke : (poke s.block (pre.length + new.length) (post ++ [0])).length = s.block.length :=
    length_poke (by rw [List.length_append, List.length_singleton]; omega)
  refine ⟨{ s with block := pre ++ new ++ post ++ [0] ++ tail, fin := .int (pre ++ new ++ post).length },
    ?_, ?_, rfl⟩
  · rw [strReplaceOne, hs.string]
    dsimp only
    rw [if_neg (by rw [hfirst]; simp), hs.used, Exec.ret_bind, cint_eq_self (by omega : new.length < _),
      cint_eq_self (by omega : old.length < _), if_neg hroom, hbuf, hs.string, Option.bind_some, hfirst,
      cint_eq_self (by simp only [List.length_append]; omega : (pre ++ old ++ post).length < _)]
    dsimp only
    rw [hpos, hcount, hmove, Exec.ret_bind, if_neg (by omega), Int.toNat_natCast, Int.toNat_natCast,
      strncpy_self, hwrite _ hpoke, Exec.ret_bind, htail, hend, ← hbuf]
  · have hchars : 0 ∉ pre ++ new ++ post := by
      have := hs.chars
      simp only [List.mem_append, not_or] at this ⊢
      exact ⟨⟨this.1.1, hnew⟩, this.2⟩
    exact string_eq hbuf (List.prefix_append _ _) hchars

/-- What `strReplaceOne` can return. -/
theorem strReplaceOne_ret {A : Allocator} {s s' : Strbuf} {old new : Bytes} {ret : ℤ}
    (h : strReplaceOne A s old new = .ret (ret, s')) :
    (ret = 0 ∧ s' = s ∧ ∃ text, s.string = some text ∧ ¬ old <:+: text) ∨ ret = -1 ∨
      (ret = 1 ∧ Lost s' ∧ ¬ Lost s) := by
  rw [strReplaceOne] at h
  cases hs : s.string with
  | none =>
    rw [hs] at h
    cases h
  | some text =>
    rw [hs] at h
    dsimp only at h
    by_cases hold : strstr old text = none
    · rw [if_pos hold] at h
      cases h
      exact Or.inl ⟨rfl, rfl, text, rfl, fun hi => strstr_ne_none.2 hi hold⟩
    rw [if_neg hold] at h
    obtain ⟨used, hused, h⟩ := Exec.bind_eq_ret h
    have hlost : ¬ Lost s := fun hl => by
      rw [hl.used] at hused
      cases hused
    split at h
    · cases h
      exact Or.inr (Or.inl rfl)
    · cases h
    · obtain ⟨s₁, -, h⟩ := Exec.bind_eq_ret h
      split_ifs at h
      obtain ⟨s₂, -, h⟩ := Exec.bind_eq_ret h
      cases h
      exact Or.inr (Or.inr ⟨rfl, ⟨_, rfl⟩, hlost⟩)

/-- A run that replaces something ends with a lost `end`, or with -1. -/
theorem strReplace_ret {A : Allocator} {s s' : Strbuf} {text old new : Bytes} {count : ℤ} {n : ℕ}
    (hs : s.string = some text) (hold : old <:+: text)
    (h : strReplace A s old new n = .ret (count, s')) : count = -1 ∨ Lost s' := by
  refine Exec.loop_post (fun st => st.2 = s ∨ Lost st.2) (fun r => r.1 = -1 ∨ Lost r.2) ?_ ?_ n (0, s)
    (count, s') (Or.inl rfl) h
  · rintro ⟨c, s₁⟩ ⟨c', s₂⟩ - hbody
    obtain ⟨⟨ret, s₃⟩, hone, hbody⟩ := Exec.bind_eq_ret hbody
    rcases strReplaceOne_ret hone with ⟨rfl, -, -⟩ | rfl | ⟨rfl, hlost, -⟩
    · cases hbody
    · cases hbody
    · cases hbody
      exact Or.inr hlost
  · rintro ⟨c, s₁⟩ ⟨c', s₂⟩ hI hbody
    obtain ⟨⟨ret, s₃⟩, hone, hbody⟩ := Exec.bind_eq_ret hbody
    rcases strReplaceOne_ret hone with ⟨rfl, rfl, text', htext', habsent⟩ | rfl | ⟨rfl, -, -⟩
    · cases hbody
      rcases hI with rfl | hlost
      · -- the first pass finds an occurrence
        have heq : text' = text := by
          rw [hs] at htext'
          exact (Option.some.inj htext').symm
        exact absurd (heq ▸ hold) habsent
      · exact Or.inr hlost
    · cases hbody
      exact Or.inl rfl
    · cases hbody

/-- **A replacement leaves a usable buffer exactly when nothing is replaced** and the string fits. -/
theorem replacesAll_iff {s : Strbuf} {text : Bytes} (hs : Shows s text) (old new t : CString) :
    ReplacesAll s text old.bytes new.bytes t.bytes ↔
      ¬ old.bytes <:+: text ∧ text.length + t.bytes.length < s.size ∧ t.bytes.length < 2 ^ 31 := by
  have habsent : ¬ old.bytes <:+: text → ∀ A,
      Exec.Eventually (strReplace A s old.bytes new.bytes) (.ret (0, s)) := by
    intro h A
    refine Exec.Eventually.loop_done ?_
    rw [replaceBody, strReplaceOne_absent A new.bytes hs.string h]
    rfl
  constructor
  · intro h
    obtain ⟨s', hrun, -, s'', happend, hkeeps⟩ := h moving
    by_cases hin : old.bytes <:+: text
    · exfalso
      obtain ⟨N, hN⟩ := hrun
      rcases strReplace_ret hs.string hin (hN N le_rfl) with hcount | hlost
      · omega
      · rw [hlost.strAppend] at happend
        cases happend
    · refine ⟨hin, ?_⟩
      by_contra hfit
      have heq := hrun.unique (habsent hin moving)
      rw [replaceAll_absent _ hin] at heq hkeeps
      cases heq
      exact strAppend_fails hs.toReady hfit happend hkeeps.2.1
  · rintro ⟨hin, hfit, hint⟩ A
    rw [replaceAll_absent _ hin]
    obtain ⟨s'', happend, hshows, -⟩ := strAppend_shows A hs.toReady hs.chars t.chars hfit hint
    exact ⟨s, habsent hin A, hs.string, s'', happend, hshows.keeps⟩

/-- A buffer with the text `a`. -/
def letter : Strbuf := ⟨some 0, 97 :: List.replicate 4095 0, .to 0 1, strbufBlocksize⟩

theorem shows_letter : Shows letter (str "a") where
  fin := ⟨0, rfl, rfl⟩
  block := ⟨List.replicate 4095 0, rfl⟩
  length := by rw [letter, List.length_cons, List.length_replicate]; rfl
  nul := ⟨List.replicate 4094 0, rfl⟩
  chars := by decide

theorem replacesAll_letter : ReplacesAll letter (str "a") (str "b") (str "c") (str "d") :=
  (replacesAll_iff shows_letter ⟨str "b", by decide⟩ ⟨str "c", by decide⟩
    ⟨str "d", by decide⟩).2 ⟨by decide, by decide, by decide⟩

/-- One occurrence, and the buffer is lost. -/
theorem not_replacesAll_letter : ¬ ReplacesAll letter (str "a") (str "a") (str "b") (str "c") := by
  intro h
  obtain ⟨s', ⟨N, hN⟩, -, s'', happend, -⟩ := h moving
  rcases strReplace_ret shows_letter.string List.infix_rfl (hN N le_rfl) with hcount | hlost
  · omega
  · rw [hlost.strAppend] at happend
    cases happend

end ZRouter.Conf.Blocks
