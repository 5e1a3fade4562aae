import ZRouter.Upgrade.Search

/-!
# The outcomes of `http_input`

For a request read without failures of `read()`, `Course` lists what can happen: the header or a
part header has no defined meaning, the request is answered early, the delimiter is not found, or it
is found and what was read before it goes to the output file.  `course` says that one of these does
happen; when `http_input` returns, and what it leaves in the output file, is read off it.

* `Args.start`: `struct args` as `main` hands it over, with a stream and a schedule of `read()`;
* `Located`, `UnclosedName`: what phase two comes to, on the bytes of the body;
* `locate_eventually`, `Located.run`, `UnclosedName.run`: it does;
* `Course`, `course`.
-/

namespace ZRouter.Upgrade

/-- `struct args` at the start: nothing read, nothing counted. -/
def Args.start (xs : Bytes) (s : Schedule) (key realm : Option Bytes) (outfile : Bytes) : Args :=
  ⟨Reader.zero ⟨xs, s, 0⟩, key, realm, outfile, 0⟩

/-- A schedule of `read()` that delivers all that is asked for. -/
def eager : Schedule := fun _ c => some c

theorem eager_full : Full eager := fun _ _ => rfl

/-- A schedule of `read()` that leaves the last three bytes asked for to the next call. -/
def tardy : Schedule := fun _ c => some (max 1 (c - 3))

theorem tardy_positive : Positive tardy := fun _ _ => ⟨_, rfl, fun _ => by omega⟩

/-- A system with 64-bit `unsigned long` on which every file can be opened. -/
def lp64 : Env := ⟨2 ^ 64 - 1, by norm_num, fun _ => true⟩

/-- The body of an upload of one byte. -/
def oneByteBody : Bytes :=
  str "--x\r\nContent-Disposition: form-data; name=\"firmware\"; filename=\"f\"\r\n\r\nA\r\n--x--\r\n"

/-- The upload of one byte. -/
def oneByteUpload : Bytes :=
  str "POST / HTTP/1.1\r\nContent-Type: multipart/form-data; boundary=x\r\n" ++
    str "Content-Length: 80\r\n\r\n" ++ oneByteBody

/-- The firmware part of the upload of one byte. -/
theorem oneByteBody_part :
    line oneByteBody = some (str "--x", oneByteBody.drop 5) ∧
      FindsPart (str "x") (oneByteBody.drop 5)
        (str "Content-Disposition: form-data; name=\"firmware\"; filename=\"f\"")
        (str "A\r\n--" ++ 120 :: str "--\r\n") :=
  ⟨by decide +kernel, @FindsPart.here _ _ _ (str "\r\nA\r\n--x--\r\n") _
    (by decide +kernel) (by decide +kernel)
    (.empty (by decide +kernel))⟩

/-! ### Phase two -/

/-- The bytes that the body loop gets to read: the content of the part that is accepted, or what is behind
the first line when that is no boundary marker. -/
inductive Located (b : Bytes) : Bytes → Bytes → Prop
  | part {xs l zs disp ws} (hl : line xs = some (l, zs)) (hm : isMarker b l = true)
      (hf : FindsPart b zs disp ws) : Located b xs ws
  | noMarker {xs l ws} (hl : line xs = some (l, ws)) (hm : isMarker b l = false) : Located b xs ws

/-- The search for the part comes to a file name that is not closed. -/
inductive UnclosedName (b : Bytes) : Bytes → Prop
  | part {xs l zs} (hl : line xs = some (l, zs)) (hm : isMarker b l = true) (h : MeetsUnclosed b zs) :
      UnclosedName b xs

section Locate

variable {P : Reader → Bytes → Prop} {stop : Bytes → Prop} {env : Env} {a : Args}

/-- A request whose body has no first line. -/
theorem locate_unreadable (hP : Reads P stop) (b : Bytes) {r : Reader} {xs : Bytes} (hr : P r xs)
    (hl : line xs = none) : ∀ f, locate env f a b r = .ret (.inl a.unreadable) := by
  intro f
  obtain ⟨-, r', h1, -⟩ := readLine_of_none hP hr hl
  simp only [locate, h1]

/-- A body whose first line is read and is no boundary marker. -/
theorem locate_noMarker (env : Env) (a : Args) {b l : Bytes} {r r' : Reader}
    (h1 : readLine r = (some l, r')) (hm : isMarker b l = false) (f : ℕ) : locate env f a b r =
      .ret (if env.opens a.outfile then .inr r' else .inl (a.answer .cantOpenOfile none)) := by
  simp only [locate, h1, hm, Bool.false_eq_true, if_false]

/-- The answers of phase two. -/
theorem locate_inl {f : ℕ} {b : Bytes} {r : Reader} {res : Result}
    (h : locate env f a b r = .ret (.inl res)) :
    (res = a.unreadable ∧ (readLine r).1 = none) ∨ res = a.noFirmware ∨
      res = a.answer .cantOpenOfile none := by
  have hopen : ∀ {r₁}, (Exec.ret (if env.opens a.outfile = true then .inr r₁
      else .inl (a.answer .cantOpenOfile none)) : Exec (Result ⊕ Reader)) = .ret (.inl res) →
      res = a.answer .cantOpenOfile none := by
    intro r₁ h1
    split_ifs at h1
    · cases h1
    · cases h1
      rfl
  unfold locate at h
  rcases e1 : readLine r with ⟨_ | buf, r₁⟩ <;> rw [e1] at h
  · cases h
    exact Or.inl ⟨rfl, rfl⟩
  dsimp only at h
  by_cases hm : isMarker b buf = true
  · rw [if_pos hm] at h
    obtain ⟨t, -, h⟩ := Exec.bind_eq_ret h
    cases t with
    | ready r₂ => exact Or.inr (Or.inr (hopen h))
    | notFormData =>
      cases h
      exact Or.inr (Or.inl rfl)
    | rejected =>
      cases h
      exact Or.inr (Or.inl rfl)
  · rw [if_neg hm] at h
    exact Or.inr (Or.inr (hopen h))

/-- Phase two ends: with a result, with the reader at the content, or without a defined meaning.  The
reader is where it should be, and the file name not closed, unless a call came back empty before. -/
theorem locate_eventually (env : Env) (a : Args) (hP : Reads P stop) (b : Bytes) {r : Reader}
    {xs : Bytes} (hr : P r xs) :
    (∃ res, (res.status = .readErr ∨ res.status = .fwPartRequired ∨ res.status = .cantOpenOfile) ∧
      Exec.Eventually (fun f => locate env f a b r) (.ret (.inl res))) ∨
    (∃ r' xs', P r' xs' ∧ xs' <:+ xs ∧ (Located b xs xs' ∨ Broken stop xs') ∧
      env.opens a.outfile = true ∧ Exec.Eventually (fun f => locate env f a b r) (.ret (.inr r'))) ∨
    ((UnclosedName b xs ∨ ∃ zs, zs ≠ [] ∧ stop zs) ∧
      Exec.Eventually (fun f => locate env f a b r) .undefined) := by
  rcases readLine_reads hP hr with ⟨l, ys, r₁, hl, h1, hr₁⟩ | ⟨xs', r₁, h1, -⟩
  swap
  · exact Or.inl ⟨a.unreadable, Or.inl rfl, .of_eq fun f => by
      simp only [locate, h1]⟩
  have hys := (line_suffix hl).1
  cases hm : isMarker b l with
  | false =>
    have heq := fun f => locate_noMarker env a h1 hm f
    cases ho : env.opens a.outfile with
    | true =>
      simp only [ho, if_true] at heq
      exact Or.inr (Or.inl ⟨r₁, ys, hr₁, hys, Or.inl (.noMarker hl hm), rfl, .of_eq heq⟩)
    | false =>
      simp only [ho, Bool.false_eq_true, if_false] at heq
      exact Or.inl ⟨_, Or.inr (Or.inr rfl), .of_eq heq⟩
  | true =>
    simp only [locate, h1, hm, if_true]
    rcases testPartHeader_eventually hP b hr₁ with
      ⟨r₂, zs, hr₂, hzs, hf, h2⟩ | ⟨t, ht, h2⟩ | ⟨hu, h2⟩
    · cases ho : env.opens a.outfile with
      | true =>
        exact Or.inr (Or.inl ⟨r₂, zs, hr₂, hzs.trans hys,
          hf.imp_left fun ⟨disp, hf⟩ => .part hl hm hf, rfl, h2.bind (.of_eq fun _ => by simp)⟩)
      | false =>
        exact Or.inl ⟨_, Or.inr (Or.inr rfl), h2.bind (.of_eq fun _ => by simp; rfl)⟩
    · refine Or.inl ⟨a.noFirmware, Or.inr (Or.inl rfl), h2.bind (.of_eq fun _ => ?_)⟩
      rcases ht with rfl | rfl <;> rfl
    · exact Or.inr (Or.inr ⟨hu.imp_left (.part hl hm), h2.bind_undefined _⟩)

/-- The content is reached when no call comes back empty before it. -/
theorem Located.run (env : Env) (a : Args) (hP : Reads P stop) {b xs ws : Bytes} (h : Located b xs ws)
    {r : Reader} (hr : P r xs) (hstop : ∀ ys, stop ys → ys.length ≤ ws.length)
    (ho : env.opens a.outfile = true) :
    ∃ r', P r' ws ∧ Exec.Eventually (fun f => locate env f a b r) (.ret (.inr r')) := by
  cases h with
  | part hl hm hf =>
    obtain ⟨r₁, h1, hr₁⟩ := readLine_of_line hP hr hl fun ys hy =>
      (hstop ys hy).trans hf.suffix.length_le
    obtain ⟨r', h2, h3⟩ := hf.run hP hstop hr₁
    refine ⟨r', h2, ?_⟩
    simp only [locate, h1, hm, if_true]
    exact Exec.Eventually.bind h3.eventually (.of_eq fun _ => by simp [ho])
  | noMarker hl hm =>
    obtain ⟨r₁, h1, hr₁⟩ := readLine_of_line hP hr hl hstop
    exact ⟨r₁, hr₁, .of_eq fun f => by rw [locate_noMarker env a h1 hm f, if_pos ho]⟩

/-- The file name is met when no call comes back empty. -/
theorem UnclosedName.run (env : Env) (a : Args) (hP : Reads P stop) (hstop : ∀ ys, stop ys → ys = [])
    {b xs : Bytes} (h : UnclosedName b xs) {r : Reader} (hr : P r xs) :
    Exec.Eventually (fun f => locate env f a b r) .undefined := by
  obtain ⟨hl, hm, h⟩ := h
  obtain ⟨r₁, h1, hr₁⟩ := readLine_of_line hP hr hl fun ys hy => by
    rw [hstop ys hy]
    exact Nat.zero_le _
  simp only [locate, h1, hm, if_true]
  exact (h.run hP hstop hr₁).eventually.bind_undefined _

end Locate

/-! ### The whole run -/

/-- The place where the delimiter is found is determined by the bytes. -/
theorem found_unique {d ys ys' xs xs' : Bytes} {c c' : UInt8}
    (h : ys ++ c :: xs = ys' ++ c' :: xs') (hy : NotYet d ys) (hy' : NotYet d ys')
    (hc : matchAfter d (ys ++ [c]) = d.length) (hc' : matchAfter d (ys' ++ [c']) = d.length) :
    ys = ys' ∧ c = c' ∧ xs = xs' := by
  -- the shorter of the two would be a place found within the longer one
  have key : ∀ {us vs ws zs : Bytes} {e f : UInt8}, us ++ e :: ws = vs ++ f :: zs → NotYet d vs →
      matchAfter d (us ++ [e]) = d.length → vs.length ≤ us.length := by
    intro us vs ws zs e f heq hny hhit
    by_contra hlt
    rw [Nat.not_le] at hlt
    refine hny (us ++ [e]) ?_ hhit
    have h1 : us ++ [e] <+: vs ++ f :: zs := ⟨ws, by rw [← heq]; simp⟩
    exact List.prefix_of_prefix_length_le h1 (List.prefix_append _ _) (by simpa using hlt)
  have hlen : ys.length = ys'.length :=
    le_antisymm (key h.symm hy hc') (key h hy' hc)
  obtain ⟨h1, h2⟩ := List.append_inj h hlen
  obtain ⟨h3, h4⟩ := List.cons_eq_cons.1 h2
  exact ⟨h1, h3, h4⟩

/-- `accept` hands the request on to the body, as `w` announced it, with the reader `r`. -/
structure Enters (env : Env) (a : Args) (s : Schedule) (xs : Bytes) (w : Announced) (r : Reader) :
    Prop where
  header : announced env a xs = .ret (.inr w)
  starts : w.Starts s xs.length r
  run : Exec.Eventually (fun f => accept env f a) (.ret (.inr (w.boundary, r)))

/-- The body loop finds the delimiter: it has read `ys` and then `c`, the reader is at `xs'`. -/
structure Finds (b : Bytes) (r : Reader) (ys : Bytes) (c : UInt8) (xs' : Bytes) (rb : Ring)
    (r' : Reader) : Prop where
  notYet : NotYet (45 :: 45 :: b) ys
  hit : matchAfter (45 :: 45 :: b) (ys ++ [c]) = (45 :: 45 :: b).length
  ring : RingHolds rb (ys ++ [c])
  boundary : rb.boundary = 45 :: 45 :: b
  run : Exec.Eventually (fun n => search n b r) (.ret (true, rb, r'))

/-- The body loop has read `ys` and not found the delimiter. -/
structure Misses (b : Bytes) (r : Reader) (ys : Bytes) (rb : Ring) (r' : Reader) : Prop where
  notYet : NotYet (45 :: 45 :: b) ys
  ring : RingHolds rb ys
  run : Exec.Eventually (fun n => search n b r) (.ret (false, rb, r'))

/-- The delimiter is found at its place when no call comes back empty before it. -/
theorem search_found {P : Reader → Bytes → Prop} {stop : Bytes → Prop} (hP : Reads P stop)
    (hB : ∀ r xs, P r xs → AtBody r xs) {b ys xs' : Bytes} {c : UInt8} {r : Reader}
    (hr : P r (ys ++ c :: xs')) (hy : NotYet (45 :: 45 :: b) ys)
    (hc : matchAfter (45 :: 45 :: b) (ys ++ [c]) = (45 :: 45 :: b).length)
    (hstop : ∀ zs, stop zs → zs.length ≤ xs'.length) :
    ∃ rb r', Finds b r ys c xs' rb r' ∧ P r' xs' := by
  rcases search_eventually hP hB b hr with
    ⟨ys₂, c₂, xs₂, rb, r', hx, h4, h5, h6, h7, h8, h9⟩ | ⟨ys₂, xs₂, rb, r', hx, h4, -, -, h7, -⟩
  · obtain ⟨rfl, rfl, rfl⟩ := found_unique hx hy h4 hc h5
    exact ⟨rb, r', ⟨h4, h5, h6, h7, h9⟩, h8⟩
  · -- what was read without finding it would reach beyond the delimiter
    have hle : xs₂.length ≤ xs'.length := by
      rcases h7 with rfl | h7
      · exact Nat.zero_le _
      · exact hstop xs₂ h7
    have hlen := congrArg List.length hx
    rw [List.length_append, List.length_append, List.length_cons] at hlen
    refine absurd hc (h4 (ys ++ [c]) ?_)
    have h1 : ys ++ [c] <+: ys₂ ++ xs₂ := ⟨xs', by rw [← hx]; simp⟩
    exact List.prefix_of_prefix_length_le h1 (List.prefix_append _ _) (by simp; omega)

section Assemble

variable {env : Env} {a : Args} {b : Bytes} {r r₁ r₂ : Reader} {rb : Ring} {res : Result}

theorem Enters.unique {s s' : Schedule} {xs : Bytes} {w w' : Announced} {r' : Reader}
    (h : Enters env a s xs w r) (h' : Enters env a s' xs w' r') : w = w' ∧ r = r' := by
  have h1 := h.header.symm.trans h'.header
  have h2 := h.run.unique h'.run
  simp only [Exec.ret.injEq, Sum.inr.injEq, Prod.mk.injEq] at h1 h2
  exact ⟨h1, h2.2⟩

theorem returns_of_answer (h : Exec.Eventually (fun f => accept env f a) (.ret (.inl res))) :
    Returns env a res :=
  h.bind (.of_eq fun _ => rfl)

theorem returns_of_locate (ha : Exec.Eventually (fun f => accept env f a) (.ret (.inr (b, r))))
    (h : Exec.Eventually (fun f => locate env f a b r) (.ret (.inl res))) : Returns env a res :=
  ha.bind (h.bind (.of_eq fun _ => rfl))

theorem undefined_of_locate (ha : Exec.Eventually (fun f => accept env f a) (.ret (.inr (b, r))))
    (h : Exec.Eventually (fun f => locate env f a b r) .undefined) :
    Exec.Eventually (fun f => httpInput env f a) .undefined :=
  ha.bind (h.bind_undefined _)

theorem eventually_of_search (ha : Exec.Eventually (fun f => accept env f a) (.ret (.inr (b, r))))
    (hl : Exec.Eventually (fun f => locate env f a b r) (.ret (.inr r₁))) {found : Bool}
    (hs : Exec.Eventually (fun n => search n b r₁) (.ret (found, rb, r₂))) {x : Exec Result}
    (hx : Exec.Eventually (fun f => finish f a (found, rb, r₂)) x) :
    Exec.Eventually (fun f => httpInput env f a) x :=
  ha.bind (hl.bind (hs.bind hx))

/-- The result when the delimiter is not found. -/
theorem finish_missed (a : Args) (r₂ : Reader) {ys : Bytes} (h : RingHolds rb ys) (f : ℕ) :
    finish f a (false, rb, r₂) =
      .ret ⟨.showIndex, a.filesize, ys.take (ys.length - 256), some .fail⟩ := by
  simp [finish, localClose_written, h.out]

/-- The result when the delimiter is found and the socket can be emptied. -/
theorem finish_found {xs : Bytes} (h : RingHolds rb xs) (h0 : 0 < xs.length)
    (hx : xs.length < 4294967296) (hb : rb.boundary.length + 2 < 256)
    (hsock : Exec.Eventually (fun n => Exec.loop socketPass n r₂) (.ret ())) :
    Exec.Eventually (fun f => finish f a (true, rb, r₂))
      (.ret ⟨.ready, (extracted rb.boundary.length xs).length, extracted rb.boundary.length xs,
        some .ok⟩) := by
  obtain ⟨h1, h2⟩ := h.drain h0 hx hb
  simp only [finish, if_true, h1, h2]
  exact hsock.bind (.of_eq fun _ => rfl)

theorem finish_stuck (h : ∀ n, Exec.loop socketPass n r₂ = .stuck) (f : ℕ) :
    finish f a (true, rb, r₂) = .stuck := by
  simp [finish, h f]

end Assemble

/-- What can happen to a request. -/
inductive Course (env : Env) (a : Args) (s : Schedule) (xs : Bytes) : Prop
  /-- A boundary does not fit its buffer. -/
  | badHeader (header : announced env a xs = .undefined)
      (run : Exec.Eventually (fun f => httpInput env f a) .undefined)
  /-- The header alone decides the answer. -/
  | answered {res : Result} (header : announced env a xs = .ret (.inl res))
      (run : Returns env a res)
  /-- The file name of a part is not closed. -/
  | badPart {w r} (enters : Enters env a s xs w r)
      (locate : Exec.Eventually (fun f => locate env f a w.boundary r) .undefined)
      (run : Exec.Eventually (fun f => httpInput env f a) .undefined)
  /-- No firmware part, or the output file cannot be opened. -/
  | refused {w r res} (enters : Enters env a s xs w r)
      (locate : Exec.Eventually (fun f => locate env f a w.boundary r) (.ret (.inl res)))
      (status : res.status = .readErr ∨ res.status = .fwPartRequired ∨ res.status = .cantOpenOfile)
      (run : Returns env a res)
  /-- The delimiter is not found. -/
  | missed {w r r₁ ys xs' rb r₂} (enters : Enters env a s xs w r)
      (locate : Exec.Eventually (fun f => locate env f a w.boundary r) (.ret (.inr r₁)))
      (opens : env.opens a.outfile = true)
      (content : AtBody r₁ (ys ++ xs')) (part : ys ++ xs' <:+ w.body)
      (misses : Misses w.boundary r₁ ys rb r₂)
      (run : Returns env a ⟨.showIndex, a.filesize, ys.take (ys.length - 256), some .fail⟩)
  /-- The delimiter is found and all of the announced body was sent. -/
  | ready {w r r₁ ys c xs' rb r₂} (enters : Enters env a s xs w r)
      (locate : Exec.Eventually (fun f => locate env f a w.boundary r) (.ret (.inr r₁)))
      (opens : env.opens a.outfile = true) (content : AtBody r₁ (ys ++ c :: xs'))
      (part : ys ++ c :: xs' <:+ w.body)
      (finds : Finds w.boundary r₁ ys c xs' rb r₂) (sent : w.len ≤ w.rest.length)
      (run : Returns env a ⟨.ready, (extracted w.delimiter.length (ys ++ [c])).length,
        extracted w.delimiter.length (ys ++ [c]), some .ok⟩)
  /-- The delimiter is found but more was announced than was sent. -/
  | hangs {w r r₁ ys c xs' rb r₂} (enters : Enters env a s xs w r)
      (locate : Exec.Eventually (fun f => locate env f a w.boundary r) (.ret (.inr r₁)))
      (finds : Finds w.boundary r₁ ys c xs' rb r₂) (sent : w.rest.length < w.len)
      (run : Exec.Eventually (fun f => httpInput env f a) .stuck)

/-- The reader in the body that a request announces: what was read and what is left make up all of
the body that was sent. -/
structure BodyOf (w : Announced) (s : Schedule) (r : Reader) (xs : Bytes) : Prop
    extends AtBody r xs where
  len : r.len = w.len
  sched : r.fd.sched = s
  total : r.counterValue + xs.length = w.body.length

theorem reads_bodyOf (w : Announced) (s : Schedule) : Reads (BodyOf w s) fun _ => True := by
  intro r xs h
  have hsame := localRead_same r
  rcases localRead_body h.body with ⟨c, r', h1, hb, hrest, hc⟩ | ⟨r', h1, hb, hrest, hc, -⟩
  · rw [h1] at hsame
    obtain ⟨xs', rfl, h2⟩ := h.toAtBody.cons hsame.len hb hrest hc
    refine Or.inl ⟨c, xs', r', rfl, h1, h2, hsame.len.trans h.len, hsame.sched.trans h.sched, ?_⟩
    have := h.total
    rw [List.length_cons] at this
    omega
  · rw [h1] at hsame
    have hlen : r'.len = r.len := hsame.len
    refine Or.inr ⟨trivial, r', h1, ⟨hb, by rw [h.bytes, hrest, hc, hlen]⟩, hlen.trans h.len,
      hsame.sched.trans h.sched, ?_⟩
    rw [hc]
    exact h.total

theorem Announced.Starts.bodyOf {w : Announced} {s : Schedule} {k : ℕ} {r : Reader}
    (h : w.Starts s k r) (hw : w.Sane) : BodyOf w s r w.body := by
  have hb := h.atBody hw
  obtain ⟨r₀, hr₀, rfl⟩ := h
  exact ⟨hb, hr₀.len, hr₀.sched, by simp [hr₀.counter]⟩

/-- **One of the courses is taken.** -/
theorem course (env : Env) {a : Args} {s : Schedule} (hs : Positive s) {xs : Bytes}
    (hr : InHeader 0 s xs.length a.reader xs) : Course env a s xs := by
  rcases accept_eventually env hr with ⟨res, h1, h2⟩ | ⟨w, r, h1, hst, h2⟩ | ⟨h1, h2⟩
  · exact .answered h1 (returns_of_answer h2)
  swap
  · exact .badHeader h1 (h2.bind_undefined _)
  obtain ⟨-, -, -, -, -, -, -, -, -, -, hw⟩ := announced_upload h1
  have henter : Enters env a s xs w r := ⟨h1, hst, h2⟩
  rcases locate_eventually env a (reads_bodyOf w s) w.boundary (hst.bodyOf hw) with
    ⟨res, hres, h3⟩ | ⟨r₁, ws, hr₁, hsuf, -, ho, h3⟩ | ⟨-, h3⟩
  · exact .refused henter h3 hres (returns_of_locate h2 h3)
  swap
  · exact .badPart henter h3 (undefined_of_locate h2 h3)
  rcases search_eventually (reads_bodyOf w s) (fun _ _ h => h.toAtBody) w.boundary hr₁ with
    ⟨ys, c, xs', rb, r₂, rfl, h4, h5, h6, h7, hr₂, h8⟩ | ⟨ys, xs', rb, r₂, rfl, h4, h5, hr₂, -, h6⟩
  swap
  · exact .missed henter h3 ho hr₁.toAtBody hsuf ⟨h4, h5, h6⟩
      (eventually_of_search h2 h3 h6 (.of_eq (finish_missed _ _ h5)))
  have hfinds : Finds w.boundary r₁ ys c xs' rb r₂ := ⟨h4, h5, h6, h7, h8⟩
  have htotal := hr₂.total
  rw [Announced.body, List.length_take, ← hr₂.len] at htotal
  rcases Nat.lt_or_ge w.rest.length w.len with hlt | hge
  · refine .hangs henter h3 hfinds hlt (eventually_of_search h2 h3 h8 (.of_eq (finish_stuck ?_)))
    exact socket_stuck hr₂.toAtBody (by rw [← hr₂.len] at hlt; omega)
  · have hsock := socket_eventually hr₂.toAtBody (hr₂.sched ▸ hs) (by rw [← hr₂.len] at hge; omega)
    have hlen : (ys ++ [c]).length < 4294967296 := by
      have h9 := hr₁.toAtBody.length_le
      have h10 := hr₁.body.word
      simp only [List.length_append, List.length_cons, List.length_nil] at h9 ⊢
      omega
    have hd : rb.boundary.length + 2 < 256 := by
      have := hw.fit.short
      rw [h7]
      simp only [List.length_cons]
      omega
    have hfin := finish_found (a := a) h6 (by simp) hlen hd hsock
    rw [h7] at hfin
    exact .ready henter h3 ho hr₁.toAtBody hsuf hfinds hge (eventually_of_search h2 h3 h8 hfin)

theorem Enters.sane {env : Env} {a : Args} {s : Schedule} {xs : Bytes} {w : Announced} {r : Reader}
    (h : Enters env a s xs w r) : w.Sane := by
  obtain ⟨-, -, -, -, -, -, -, -, -, -, hw⟩ := announced_upload h.header
  exact hw

/-- What a request announces does not depend on the schedule. -/
theorem enters_of_announced {env : Env} {xs : Bytes} {s s' : Schedule} {key realm : Option Bytes}
    {outfile : Bytes} {w : Announced} (hs : Positive s)
    (hw : announced env (Args.start xs s' key realm outfile) xs = .ret (.inr w)) :
    ∃ r, Enters env (Args.start xs s key realm outfile) s xs w r := by
  rcases accept_eventually env (a := Args.start xs s key realm outfile) (inHeader_zero hs xs) with
    ⟨res, h1, -⟩ | ⟨w', r, h1, h2, h3⟩ | ⟨h1, -⟩ <;> cases hw.symm.trans h1
  exact ⟨r, hw, h2, h3⟩

/-! ### A complete firmware part -/

section Part

variable {env : Env} {a : Args} {s : Schedule} {xs : Bytes} {w : Announced} {r : Reader}
  {l zs disp ys xs' : Bytes} {c : UInt8}

/-- When no call comes back empty before the end of the delimiter, the firmware part is located and the
delimiter behind it is found. -/
theorem Enters.finds (he : Enters env a s xs w r)
    (hs : DeliversTo xs'.length xs.length s w.rest w.len)
    (hl : line w.body = some (l, zs)) (hm : isMarker w.boundary l = true)
    (hf : FindsPart w.boundary zs disp (ys ++ c :: xs')) (hy : NotYet w.delimiter ys)
    (hc : matchAfter w.delimiter (ys ++ [c]) = w.delimiter.length)
    (ho : env.opens a.outfile = true) :
    ∃ r₁ rb r₂, Exec.Eventually (fun f => locate env f a w.boundary r) (.ret (.inr r₁)) ∧
      AtBody r₁ (ys ++ c :: xs') ∧ Finds w.boundary r₁ ys c xs' rb r₂ := by
  have hle : xs'.length ≤ (ys ++ c :: xs').length := by
    rw [List.length_append, List.length_cons]
    omega
  obtain ⟨r₁, hr₁, h1⟩ := (Located.part hl hm hf).run env a (reads_unbroken xs'.length)
    (he.starts.unbroken he.sane hs) (fun us h => h.trans hle) ho
  obtain ⟨rb, r₂, h2, -⟩ := search_found (reads_unbroken xs'.length) (fun _ _ h => h.toAtBody) hr₁ hy hc
    fun us h => h
  exact ⟨r₁, rb, r₂, h1, hr₁.toAtBody, h2⟩

/-- A request whose firmware part is located and whose delimiter is found. -/
theorem Enters.returns_ready (he : Enters env a s xs w r) (hs : Positive s)
    (hr : InHeader 0 s xs.length a.reader xs) {r₁ r₂ : Reader} {rb : Ring}
    (hloc : Exec.Eventually (fun f => locate env f a w.boundary r) (.ret (.inr r₁)))
    (hb : AtBody r₁ (ys ++ c :: xs')) (hf : Finds w.boundary r₁ ys c xs' rb r₂)
    (sent : w.len ≤ w.rest.length) :
    Returns env a ⟨.ready, (extracted w.delimiter.length (ys ++ [c])).length,
      extracted w.delimiter.length (ys ++ [c]), some .ok⟩ := by
  cases course env hs hr with
  | badHeader h _ => cases he.header.symm.trans h
  | answered h _ => cases he.header.symm.trans h
  | badPart he' hl' _ =>
    obtain ⟨rfl, rfl⟩ := he.unique he'
    cases hloc.unique hl'
  | refused he' hl' _ _ =>
    obtain ⟨rfl, rfl⟩ := he.unique he'
    cases hloc.unique hl'
  | missed he' hl' _ _ _ misses _ =>
    obtain ⟨rfl, rfl⟩ := he.unique he'
    cases hloc.unique hl'
    cases hf.run.unique misses.run
  | ready he' hl' _ hb' _ hf' _ run =>
    obtain ⟨rfl, rfl⟩ := he.unique he'
    cases hloc.unique hl'
    obtain ⟨rfl, rfl, -⟩ := found_unique (hb.bytes.trans hb'.bytes.symm) hf.notYet hf'.notYet
      hf.hit hf'.hit
    exact run
  | hangs he' _ _ hlt _ =>
    obtain ⟨rfl, rfl⟩ := he.unique he'
    omega

end Part

end ZRouter.Upgrade
