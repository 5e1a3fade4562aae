import ZRouter.Upgrade.Outcome

/-!
# An upload is extracted exactly

`Form` is the data of an upload as the form of `http_index` produces it: one part with the field
`firmware` and a file name.  `Upload` adds what makes its text a request that `http_input` can read:
lines that fit the buffer, one `Content-Type` and one `Content-Length`, and a payload that does not
contain the delimiter.

* `announced_request`: the header is understood as it was meant;
* `findsPart_body`: the firmware part is found at its place;
* `extracted_payload`: what is cut off at the end is the end of line and the delimiter.
-/

namespace ZRouter.Upgrade

/-- The data of an upload. -/
structure Form where
  requestLine : Bytes
  headers : List Bytes
  boundary : Bytes
  filename : Bytes
  /-- What follows the file name on the line of `Content-Disposition`. -/
  dispositionTail : Bytes
  partHeaders : List Bytes
  payload : Bytes

/-- Lines, each with its end of line. -/
def block (ls : List Bytes) : Bytes := (ls.map (· ++ crlf)).flatten

/-- The header line that announces the boundary. -/
def contentType (b : Bytes) : Bytes := str "Content-Type: multipart/form-data; boundary=" ++ b

/-- The header line that announces the length. -/
def contentLength (n : ℕ) : Bytes := str "Content-Length: " ++ decimal n

/-- The delimiter in front of and behind the part. -/
def Form.delimiter (u : Form) : Bytes := 45 :: 45 :: u.boundary

/-- The first line of the part header. -/
def Form.disposition (u : Form) : Bytes :=
  str "Content-Disposition: form-data; name=\"firmware\"; filename=\"" ++
    (u.filename ++ 34 :: u.dispositionTail)

/-- The content of the part and the closing delimiter. -/
def Form.content (u : Form) : Bytes :=
  u.payload ++ crlf ++ u.delimiter ++ (str "--" ++ crlf)

/-- The body of the request. -/
def Form.body (u : Form) : Bytes :=
  u.delimiter ++ crlf ++ (u.disposition ++ crlf ++ (block u.partHeaders ++ crlf ++ u.content))

/-- The request. -/
def Form.request (u : Form) : Bytes :=
  u.requestLine ++ crlf ++ (block u.headers ++ crlf ++ u.body)

/-- A line without an end of line in it, short enough for the buffer of `read_line`. -/
structure PlainLine (l : Bytes) : Prop where
  cr : cr ∉ l
  lf : lf ∉ l
  short : l.length < 255

/-- The lines of the header and of the part header. -/
def Form.texts (u : Form) : List Bytes :=
  u.requestLine :: u.disposition :: (u.headers ++ u.partHeaders)

/-- A well-formed upload: a `POST` with one boundary and its exact length, and a payload that does
not contain the delimiter and fills the ring together with it. -/
structure Form.Regular (u : Form) : Prop where
  post : str "POST" <+: u.requestLine
  plain : ∀ l ∈ u.texts, PlainLine l
  notEmpty : ∀ l ∈ u.headers ++ u.partHeaders, l ≠ []
  hasType : contentType u.boundary ∈ u.headers
  oneType : ∀ l ∈ u.headers, str "Content-Type:" <+: l → l = contentType u.boundary
  hasLength : contentLength u.body.length ∈ u.headers
  oneLength : ∀ l ∈ u.headers, str "Content-Length:" <+: l → l = contentLength u.body.length
  boundaryNe : u.boundary ≠ []
  boundaryFit : FitBoundary u.boundary
  filenameNe : u.filename ≠ []
  filenameText : 34 ∉ u.filename
  payloadFree : ¬ u.delimiter <:+: u.payload
  payloadLong : 256 ≤ u.payload.length + 2 + u.delimiter.length

/-- An upload within the limits of `http_input`: its lines are C strings, and positions in its body
are values of `int`. -/
structure Upload extends Form where
  regular : toForm.Regular
  nul : ∀ l ∈ toForm.texts, (0 : UInt8) ∉ l
  small : toForm.body.length < 2147483648

/-- The token of the first line that authorizes. -/
def authToken : List Bytes → Bytes
  | [] => []
  | l :: ls =>
      if (str "Authorization:").isPrefixOf l then
        match parseHash l with
        | some token => token
        | none => authToken ls
      else authToken ls

/-! ### The header -/

/-- A string is not found where its first byte does not occur. -/
theorem strstr_skip {c : UInt8} {little pre s : Bytes} (h : c ∉ pre) :
    strstr (c :: little) (pre ++ s) = strstr (c :: little) s := by
  induction pre with
  | nil => rfl
  | cons e pre ih =>
    simp only [List.mem_cons, not_or] at h
    have hne : (c :: little).isPrefixOf (e :: (pre ++ s)) = false := by
      simp [List.isPrefixOf, h.1]
    rw [List.cons_append, strstr, hne, ih h.2]
    rfl

theorem parseBoundary_contentType {b : Bytes} (hne : b ≠ []) (hfit : FitBoundary b) :
    parseBoundary (contentType b) = some b := by
  have hdrop : (contentType b).drop 13 = str " multipart/form-data; " ++ (str "boundary=" ++ b) := by
    simp [contentType, str]
  have hlen : ((contentType b).drop 13).length ≤ 243 := by
    have := hfit.short
    rw [hdrop]
    simp [str]
    omega
  have hfind : strnstr ((contentType b).drop 13) (str "boundary=") 243 =
      some (str "boundary=" ++ b) := by
    rw [strnstr, List.take_of_length_le hlen, List.drop_eq_nil_of_le hlen, hdrop,
      show str "boundary=" = 98 :: str "oundary=" from rfl, strstr_skip (by decide),
      ← show str "boundary=" = 98 :: str "oundary=" from rfl, strstr_append_self]
    simp
  have hform : strstr (str "multipart/form-data") (contentType b) ≠ none := by
    rw [show contentType b = str "Content-Type: " ++ (str "multipart/form-data" ++
      (str "; boundary=" ++ b)) by simp [contentType, str],
      show str "multipart/form-data" = 109 :: str "ultipart/form-data" from rfl,
      strstr_skip (by decide),
      ← show str "multipart/form-data" = 109 :: str "ultipart/form-data" from rfl,
      strstr_append_self]
    simp
  have htoken : (strsep isBlank ((str "boundary=" ++ b).drop 9)).1 = b := by
    rw [show (str "boundary=" ++ b).drop 9 = b by simp [str]]
    simp only [strsep, List.takeWhile_eq_self_iff]
    intro c hc
    simp [hfit.blank c hc]
  have hpos : ¬ b.length < 1 := by
    have := List.length_pos_iff.2 hne
    omega
  simp only [parseBoundary, hfind, if_neg hform, htoken, if_neg hpos]

theorem parseLen_contentLength {ulongMax n : ℕ} (h0 : 0 < n) (hmax : n ≤ ulongMax) :
    parseLen ulongMax (contentLength n) = some (u32 n) := by
  have hskip : skipSpaces ((contentLength n).drop 15) = decimal n := by
    rw [show (contentLength n).drop 15 = 32 :: decimal n by simp [contentLength, str], skipSpaces,
      List.dropWhile_cons_of_pos (by decide)]
    obtain ⟨c, cs, hcs⟩ := List.exists_cons_of_ne_nil (decimal_ne_nil h0)
    have hc := isspace_of_isdigit (decimal_isdigit n c (by simp [hcs]))
    rw [hcs, List.dropWhile_cons_of_neg (by simp [hc])]
  have hpos : ¬ (decimal n).length < 1 := by
    have := List.length_pos_iff.2 (decimal_ne_nil h0)
    omega
  simp only [parseLen, hskip, if_neg hpos, strtoul_decimal h0 hmax, lt_irrefl, if_false]

theorem parseHash_ne_nil {l token : Bytes} (h : parseHash l = some token) : token ≠ [] := by
  unfold parseHash at h
  split at h
  · cases h
  · dsimp only at h
    split_ifs at h with hlen
    obtain rfl := Option.some.inj h
    rintro hnil
    rw [hnil] at hlen
    simp at hlen

section Lines

variable {h : Headers} {b l : Bytes} {ulongMax n N : ℕ}

theorem takeBoundary_line (hne : b ≠ []) (hfit : FitBoundary b)
    (hl : str "Content-Type:" <+: l → l = contentType b) (hb : h.boundary = [] ∨ h.boundary = b) :
    h.takeBoundary l = .ret (if l = contentType b then b else h.boundary) := by
  unfold Headers.takeBoundary
  by_cases hct : l = contentType b
  · rw [if_pos hct]
    have hpre : (str "Content-Type:").isPrefixOf l = true := by
      rw [hct, show contentType b = str "Content-Type:" ++ (str " multipart/form-data; boundary=" ++ b)
        by simp [contentType, str]]
      exact isPrefixOf_append _ _
    rcases hb with hb | hb
    · rw [if_pos ⟨hb, hpre⟩, hct, parseBoundary_contentType hne hfit]
      exact if_pos hfit.short
    · rw [if_neg fun hc => hne (hb ▸ hc.1), hb]
  · rw [if_neg hct, if_neg fun hc => hct (hl (List.isPrefixOf_iff_prefix.1 hc.2))]

theorem takeLen_line (h0 : 0 < N) (hN : N ≤ ulongMax)
    (hl : str "Content-Length:" <+: l → l = contentLength N) (hn : n = 0 ∨ n = u32 N) :
    takeLen ulongMax n l = if l = contentLength N then u32 N else n := by
  unfold takeLen
  by_cases hcl : l = contentLength N
  · rw [if_pos hcl]
    have hpre : (str "Content-Length:").isPrefixOf l = true := by
      rw [hcl, show contentLength N = str "Content-Length:" ++ (32 :: decimal N)
        by simp [contentLength, str]]
      exact isPrefixOf_append _ _
    split_ifs with hc
    · rw [hcl, parseLen_contentLength h0 hN]
      rfl
    · exact hn.resolve_left fun hz => hc ⟨hz, hpre⟩
  · rw [if_neg hcl, if_neg fun hc => hcl (hl (List.isPrefixOf_iff_prefix.1 hc.2))]

theorem takeHash_line (ls : List Bytes) :
    (if h.takeHash l = [] then authToken ls else h.takeHash l) =
      if h.hash = [] then authToken (l :: ls) else h.hash := by
  by_cases hh : h.hash = []
  · by_cases hpre : (str "Authorization:").isPrefixOf l = true
    · cases htok : parseHash l with
      | none => simp [Headers.takeHash, authToken, hh, hpre, htok]
      | some token => simp [Headers.takeHash, authToken, hh, hpre, htok, parseHash_ne_nil htok]
    · simp [Headers.takeHash, authToken, hh, hpre]
  · simp [Headers.takeHash, hh]

/-- A line is met in the rest of the lines or it is the first one. -/
theorem ite_mem_cons {α : Type} (k l : Bytes) (ls : List Bytes) (x y : α) :
    (if k ∈ ls then x else if l = k then x else y) = if k ∈ l :: ls then x else y := by
  by_cases h1 : k ∈ ls
  · simp [h1]
  · simp [h1, eq_comm]

/-- The header loop over lines of which at most one announces the boundary and one the length. -/
theorem headerFrom_block (hne : b ≠ []) (hfit : FitBoundary b) (h0 : 0 < N) (hN : N ≤ ulongMax)
    (ls : List Bytes) (xs : Bytes) :
    ∀ (h : Headers) (n f : ℕ), (∀ l ∈ ls, l ≠ [] ∧ LineText l) →
      (∀ l ∈ ls, str "Content-Type:" <+: l → l = contentType b) →
      (∀ l ∈ ls, str "Content-Length:" <+: l → l = contentLength N) →
      (h.boundary = [] ∨ h.boundary = b) → (n = 0 ∨ n = u32 N) →
      (block ls ++ crlf ++ xs).length < f →
      headerFrom ulongMax f h n (block ls ++ crlf ++ xs) = .ret (some
        (⟨if contentType b ∈ ls then b else h.boundary,
          if h.hash = [] then authToken ls else h.hash⟩,
          if contentLength N ∈ ls then u32 N else n, xs)) := by
  induction ls with
  | nil =>
    intro h n f _ _ _ _ _ hf
    obtain ⟨f, rfl⟩ : ∃ m, f = m + 1 := ⟨f - 1, by omega⟩
    have hl : line (block [] ++ crlf ++ xs) = some ([], xs) := line_empty xs
    have hb : h.takeBoundary [] = .ret h.boundary := by simp [Headers.takeBoundary, str]
    have hh : h.takeHash [] = h.hash := by simp [Headers.takeHash, str]
    have hn : takeLen ulongMax n [] = n := by simp [takeLen, str]
    rw [headerFrom, hl]
    simp only [hb, hh, hn, Exec.ret_bind, if_true, List.not_mem_nil, if_false, authToken]
    split_ifs with hnil
    · rw [hnil]
    · rfl
  | cons l ls ih =>
    intro h n f htext hct hcl hb hn hf
    obtain ⟨f, rfl⟩ : ∃ m, f = m + 1 := ⟨f - 1, by omega⟩
    obtain ⟨hlne, hlt⟩ := htext l (by simp)
    have hsplit : block (l :: ls) ++ crlf ++ xs = l ++ crlf ++ (block ls ++ crlf ++ xs) := by
      simp [block]
    have hline := hlt.line (block ls ++ crlf ++ xs)
    have hlen := (line_suffix hline).2
    rw [hsplit] at hf ⊢
    rw [headerFrom, hline]
    simp only [takeBoundary_line hne hfit (hct l (by simp)) hb, Exec.ret_bind, if_neg hlne,
      takeLen_line h0 hN (hcl l (by simp)) hn]
    rw [ih _ _ f (fun k hk => htext k (by simp [hk])) (fun k hk => hct k (by simp [hk]))
      (fun k hk => hcl k (by simp [hk])) ?_ ?_ (by omega), takeHash_line]
    · simp only [ite_mem_cons]
    · dsimp only
      split_ifs
      · exact Or.inr rfl
      · exact hb
    · split_ifs
      · exact Or.inr rfl
      · exact hn

end Lines

theorem PlainLine.lineText {l : Bytes} (h : PlainLine l) (h0 : (0 : UInt8) ∉ l) : LineText l :=
  ⟨h0, h.cr, h.lf, h.short⟩

theorem Form.body_pos (u : Form) : 0 < u.body.length := by
  simp [Form.body, Form.delimiter]

/-- The header of a `POST` with one boundary and one length: the boundary is taken as it stands, the length
as an `unsigned int`. -/
theorem announced_post {requestLine b : Bytes} {headers : List Bytes} {n : ℕ}
    (hpost : str "POST" <+: requestLine) (hline : LineText requestLine)
    (hheaders : ∀ l ∈ headers, l ≠ [] ∧ LineText l) (hne : b ≠ []) (hfit : FitBoundary b)
    (htype : contentType b ∈ headers)
    (honeType : ∀ l ∈ headers, str "Content-Type:" <+: l → l = contentType b)
    (hlength : contentLength n ∈ headers)
    (honeLength : ∀ l ∈ headers, str "Content-Length:" <+: l → l = contentLength n)
    (hpos : 0 < n) (env : Env) (a : Args) (body : Bytes) (hn : n ≤ env.ulongMax) :
    announced env a (requestLine ++ crlf ++ (block headers ++ crlf ++ body)) =
      match a.refuse true ⟨b, authToken headers⟩ (u32 n) with
      | some res => .ret (.inl res)
      | none => .ret (.inr ⟨b, u32 n, body⟩) := by
  have hmethodLine : (str "POST").isPrefixOf requestLine = true := List.isPrefixOf_iff_prefix.2 hpost
  have hget : (str "GET").isPrefixOf requestLine = false := by
    obtain ⟨t, ht⟩ := hpost
    simp [← ht, str, List.isPrefixOf]
  have hblock := headerFrom_block hne hfit hpos hn headers body ⟨[], []⟩ 0 _ hheaders honeType honeLength
    (Or.inl rfl) (Or.inl rfl) (Nat.lt_succ_self _)
  rw [Upgrade.announced, hline.line]
  simp only [hmethodLine, hget, not_true_eq_false, and_false, if_false, Bool.not_false]
  rw [hblock]
  cases hr : a.refuse true ⟨b, authToken headers⟩ (u32 n) <;>
    simp only [Exec.ret_bind, if_pos htype, if_pos hlength, if_true, hr]

/-- The header of an upload without NUL bytes in its lines. -/
theorem Form.Regular.announced {u : Form} (h : u.Regular) (h0 : ∀ l ∈ u.texts, (0 : UInt8) ∉ l)
    (env : Env) (a : Args) (rest : Bytes) (hlen : u.body.length ≤ env.ulongMax) :
    announced env a (u.request ++ rest) =
      match a.refuse true ⟨u.boundary, authToken u.headers⟩ (u32 u.body.length) with
      | some res => .ret (.inl res)
      | none => .ret (.inr ⟨u.boundary, u32 u.body.length, u.body ++ rest⟩) := by
  have hreq : u.request ++ rest =
      u.requestLine ++ crlf ++ (block u.headers ++ crlf ++ (u.body ++ rest)) := by
    simp [Form.request]
  have htext : ∀ l ∈ u.texts, LineText l := fun l hl => (h.plain l hl).lineText (h0 l hl)
  rw [hreq]
  exact announced_post h.post (htext _ (by simp [Form.texts]))
    (fun l hl => ⟨h.notEmpty l (by simp [hl]), htext l (by simp [Form.texts, hl])⟩) h.boundaryNe
    h.boundaryFit h.hasType h.oneType h.hasLength h.oneLength u.body_pos env a (u.body ++ rest) hlen

theorem announced_request (u : Upload) (env : Env) {a : Args} (rest : Bytes)
    (hauth : a.authOk (authToken u.headers) = true) :
    announced env a (u.request ++ rest) =
      .ret (.inr ⟨u.boundary, u.body.length, u.body ++ rest⟩) := by
  have hu : u32 u.body.length = u.body.length := by
    have := u.small
    unfold u32
    omega
  have hlen : u.body.length ≤ env.ulongMax := by
    have h1 := u.small
    have h2 := env.word
    omega
  have hrefuse : a.refuse true ⟨u.boundary, authToken u.headers⟩ u.body.length = none := by
    simp [Args.refuse, hauth, u.regular.boundaryNe, u.body_pos.ne']
  rw [u.regular.announced u.nul env a rest hlen, hu, hrefuse]

/-! ### The body -/

theorem testDisposition_form (u : Upload) : testDisposition u.disposition = .matched 2 := by
  obtain ⟨c, cs, hcs⟩ := List.exists_cons_of_ne_nil u.regular.filenameNe
  have hc : c ≠ 34 := by
    rintro rfl
    exact u.regular.filenameText (by simp [hcs])
  simp [testDisposition, Form.disposition, str, skipSpaces, isspace, dispositionParams, strsep,
    strspnSkip, List.isPrefixOf, hcs, hc]

theorem delimiter_text {b : Bytes} (h : FitBoundary b) (h0 : (0 : UInt8) ∉ b) :
    LineText (45 :: 45 :: b) := by
  have hcr : cr ∉ b := fun hc => by simpa [isBlank] using h.blank _ hc
  have hlf : lf ∉ b := fun hc => by simpa [isBlank] using h.blank _ hc
  have := h.short
  refine ⟨?_, ?_, ?_, ?_⟩
  · simpa using h0
  · simpa [show cr ≠ 45 by decide] using hcr
  · simpa [show lf ≠ 45 by decide] using hlf
  · simp only [List.length_cons]
    omega

/-- Lines that are not read as empty ones are skipped, up to the empty line. -/
theorem skipsTo_block (ls : List Bytes)
    (hls : ∀ l ∈ ls, ∃ c cs, ∀ xs, line (l ++ crlf ++ xs) = some (c :: cs, xs)) (ws : Bytes) :
    SkipsTo (block ls ++ crlf ++ ws) ws := by
  induction ls with
  | nil => exact .empty (line_empty ws)
  | cons l ls ih =>
    obtain ⟨c, cs, hline⟩ := hls l (by simp)
    rw [show block (l :: ls) ++ crlf ++ ws = l ++ crlf ++ (block ls ++ crlf ++ ws) by
      simp [block]]
    exact .line (hline _) (ih fun k hk => hls k (by simp [hk]))

/-- The firmware part of an upload is found at its place. -/
theorem findsPart_body (u : Upload) :
    ∃ zs, line u.body = some (u.delimiter, zs) ∧
      FindsPart u.boundary zs u.disposition u.content := by
  have h0 : (0 : UInt8) ∉ u.boundary := fun h =>
    u.nul _ (by simp [Form.texts, u.regular.hasType]) (by simp [contentType, h] :
      (0 : UInt8) ∈ contentType u.boundary)
  have htext : ∀ l ∈ u.texts, LineText l := fun l hl => (u.regular.plain l hl).lineText (u.nul l hl)
  refine ⟨_, (delimiter_text u.regular.boundaryFit h0).line _, ?_⟩
  exact .here ((htext _ (by simp [Form.texts])).line _) (testDisposition_form u)
    (skipsTo_block u.partHeaders (fun l hl => by
      obtain ⟨c, cs, rfl⟩ := List.exists_cons_of_ne_nil (u.regular.notEmpty l (by simp [hl]))
      exact ⟨c, cs, (htext _ (by simp [Form.texts, hl])).line⟩) u.content)

/-- What is cut off at the end is the end of line and the delimiter. -/
theorem extracted_payload {F d : Bytes} (hlen : 256 ≤ F.length + 2 + d.length) :
    extracted d.length (F ++ crlf ++ d) = F := by
  have htotal : (F ++ crlf ++ d).length = F.length + 2 + d.length := by
    simp [crlf]
    omega
  have hcut : cutLength (F ++ crlf ++ d) d.length = d.length + 2 := by
    unfold cutLength
    rw [if_pos]
    rw [htotal, show F.length + 2 + d.length - d.length - 2 = F.length by omega]
    simp [crlf]
  rw [extracted, if_neg (by omega), hcut, htotal,
    show F.length + 2 + d.length - (d.length + 2) = F.length by omega]
  simp

/-- An upload is extracted when no call of `local_read` comes back empty before the end of the
delimiter behind the payload. -/
theorem Upload.returns_ready (u : Upload) (env : Env) {s : Schedule} {key realm : Option Bytes}
    {outfile rest : Bytes} (hs : Positive s)
    (hd : DeliversTo (str "--" ++ crlf).length (u.request ++ rest).length s (u.body ++ rest)
      u.body.length)
    (ho : env.opens outfile = true)
    (hauth : key = none ∨ realm = none ∨ key = some (authToken u.headers)) :
    Returns env (Args.start (u.request ++ rest) s key realm outfile)
      ⟨.ready, u.payload.length, u.payload, some .ok⟩ := by
  have hok : (Args.start (u.request ++ rest) s key realm outfile).authOk (authToken u.headers) =
      true := by
    rcases hauth with rfl | rfl | rfl
    · rfl
    · cases key <;> rfl
    · cases realm <;> simp [Args.authOk, Args.start]
  have hw := announced_request u env rest hok
  set w : Announced := ⟨u.boundary, u.body.length, u.body ++ rest⟩ with hwdef
  have hbody : w.body = u.body := by simp [hwdef, Announced.body]
  have hdelimiter : w.delimiter = u.delimiter := rfl
  obtain ⟨r, he⟩ := enters_of_announced hs hw
  -- the delimiter ends with the last byte of the boundary
  obtain ⟨c, hc⟩ : ∃ c, u.delimiter = u.delimiter.dropLast ++ [c] :=
    ⟨_, (List.dropLast_append_getLast (l := u.delimiter) (by simp [Form.delimiter])).symm⟩
  have hcr : cr ∉ u.delimiter := by
    have h1 : cr ∉ u.boundary := fun h => by
      simpa [isBlank] using u.regular.boundaryFit.blank _ h
    simpa [Form.delimiter, show cr ≠ 45 by decide] using h1
  have hlf : lf ∉ u.delimiter := by
    have h1 : lf ∉ u.boundary := fun h => by
      simpa [isBlank] using u.regular.boundaryFit.blank _ h
    simpa [Form.delimiter, show lf ≠ 45 by decide] using h1
  obtain ⟨hny, hhit⟩ := delimiter_found_at_end (by simp [Form.delimiter]) hcr hlf
    u.regular.payloadFree
  have hread : u.payload ++ crlf ++ u.delimiter.dropLast ++ [c] = u.payload ++ crlf ++ u.delimiter := by
    rw [List.append_assoc, ← hc]
  have hcontent : u.content =
      u.payload ++ crlf ++ u.delimiter.dropLast ++ c :: (str "--" ++ crlf) := by
    rw [Form.content, ← hread]
    simp
  obtain ⟨zs, hline, hpart⟩ := findsPart_body u
  rw [hcontent] at hpart
  obtain ⟨r₁, rb, r₂, h1, h2, h3⟩ := he.finds hd (hbody ▸ hline)
    (List.isPrefixOf_iff_prefix.2 (List.prefix_refl _)) hpart hny (by rw [hread]; exact hhit) ho
  have hready := he.returns_ready hs (inHeader_zero hs _) h1 h2 h3 (by simp [w])
  rw [hread, hdelimiter, extracted_payload u.regular.payloadLong] at hready
  exact hready

/-- **An upload is extracted exactly**: `http_input` returns `HTTP_INPUT_READY`, the output file
holds the payload, and the file size is its length. -/
theorem upload_extracted (u : Upload) (env : Env) (s : Schedule) (key realm : Option Bytes)
    (outfile rest : Bytes) (hs : Full s) (ho : env.opens outfile = true)
    (hauth : key = none ∨ realm = none ∨ key = some (authToken u.headers)) :
    Returns env (Args.start (u.request ++ rest) s key realm outfile)
      ⟨.ready, u.payload.length, u.payload, some .ok⟩ :=
  u.returns_ready env hs.positive (hs.deliversTo _ _ _ _) ho hauth

/-! ### Uploads of one repeated byte -/

/-- The upload of `k` bytes `A` with the boundary `b` and an announced length of `n`. -/
def sampleForm (b : Bytes) (k n : ℕ) : Form where
  requestLine := str "POST / HTTP/1.1"
  headers := [contentType b, contentLength n]
  boundary := b
  filename := str "f"
  dispositionTail := []
  partHeaders := []
  payload := List.replicate k 65

theorem sampleForm_body_length (b : Bytes) (k n : ℕ) :
    (sampleForm b k n).body.length = k + 2 * b.length + 77 := by
  simp [Form.body, Form.content, Form.delimiter, Form.disposition, sampleForm, block, crlf, str]
  omega

/-- The `Content-Disposition` line of these uploads. -/
def sampleDisposition : Bytes :=
  str "Content-Disposition: form-data; name=\"firmware\"; filename=\"f\""

theorem sampleForm_texts (b : Bytes) (k n : ℕ) : (sampleForm b k n).texts =
    [str "POST / HTTP/1.1", sampleDisposition, contentType b, contentLength n] := rfl

theorem contentLength_plain {n : ℕ} (h : (decimal n).length < 200) :
    PlainLine (contentLength n) ∧ (0 : UInt8) ∉ contentLength n := by
  have hdig : ∀ c : UInt8, isdigit c = false → c ∉ decimal n := fun c hc hmem => by
    rw [decimal_isdigit n c hmem] at hc
    cases hc
  refine ⟨⟨?_, ?_, ?_⟩, ?_⟩
  · simp only [contentLength, List.mem_append, not_or]
    exact ⟨by decide, hdig _ (by decide)⟩
  · simp only [contentLength, List.mem_append, not_or]
    exact ⟨by decide, hdig _ (by decide)⟩
  · simp [contentLength, str]
    omega
  · simp only [contentLength, List.mem_append, not_or]
    exact ⟨by decide, hdig _ (by decide)⟩

theorem contentType_plain {b : Bytes} (h : FitBoundary b) : PlainLine (contentType b) := by
  have := h.short
  refine ⟨?_, ?_, ?_⟩
  · simp only [contentType, List.mem_append, not_or]
    exact ⟨by decide, fun hc => by simpa [isBlank] using h.blank _ hc⟩
  · simp only [contentType, List.mem_append, not_or]
    exact ⟨by decide, fun hc => by simpa [isBlank] using h.blank _ hc⟩
  · simp [contentType, str]
    omega

theorem sampleForm_regular {b : Bytes} {k n : ℕ} (hne : b ≠ []) (hfit : FitBoundary b)
    (hk : 256 ≤ k) (hn : n = k + 2 * b.length + 77) (hdec : (decimal n).length < 200) :
    (sampleForm b k n).Regular := by
  have hbody : (sampleForm b k n).body.length = n := (sampleForm_body_length b k n).trans hn.symm
  refine ⟨show str "POST" <+: str "POST / HTTP/1.1" by decide, ?_, ?_, by simp [sampleForm], ?_,
    by rw [hbody]; simp [sampleForm], ?_, hne, hfit, show str "f" ≠ [] by decide,
    show 34 ∉ str "f" by decide, ?_, ?_⟩
  · intro l hl
    simp only [sampleForm_texts, List.mem_cons, List.not_mem_nil, or_false] at hl
    rcases hl with rfl | rfl | rfl | rfl
    · exact ⟨by decide, by decide, by decide⟩
    · exact ⟨by decide, by decide, by decide⟩
    · exact contentType_plain hfit
    · exact (contentLength_plain hdec).1
  · simp [sampleForm, contentType, contentLength, str]
  · simp [sampleForm, contentType, contentLength, str]
  · rw [hbody]
    simp [sampleForm, contentType, contentLength, str]
  · intro h
    have h45 : (45 : UInt8) ∈ (sampleForm b k n).payload := h.subset (by simp [Form.delimiter])
    exact absurd (List.eq_of_mem_replicate h45) (by decide)
  · simp [sampleForm]
    omega

/-- The upload of 300 bytes. -/
def sampleUpload : Upload where
  toForm := sampleForm (str "x") 300 379
  regular := sampleForm_regular (by decide) (fitBoundary_singleton (by decide)) (by norm_num)
    (by decide) (by decide)
  nul := by decide
  small := by rw [sampleForm_body_length]; decide

theorem upload_extracted_sample :
    Returns lp64 (Args.start (sampleUpload.request ++ []) eager none none (str "/dev/md0"))
      ⟨.ready, sampleUpload.payload.length, sampleUpload.payload, some .ok⟩ :=
  upload_extracted sampleUpload lp64 eager none none (str "/dev/md0") [] eager_full rfl (Or.inl rfl)

/-- A request that is answered as a bad multipart form is not extracted. -/
theorem not_ready_of_announced {env : Env} {xs : Bytes} {s : Schedule} {key realm : Option Bytes}
    {outfile : Bytes} {res res' : Result} (hs : Positive s)
    (h : announced env (Args.start xs s key realm outfile) xs = .ret (.inl res))
    (hne : res ≠ res') : ¬ Returns env (Args.start xs s key realm outfile) res' := by
  intro hret
  rcases accept_eventually env (a := Args.start xs s key realm outfile) (inHeader_zero hs xs) with
    ⟨res₁, h1, h2⟩ | ⟨w, r, h1, -⟩ | ⟨h1, -⟩ <;> cases h.symm.trans h1
  exact hne (Exec.ret.inj ((returns_of_answer h2).unique hret))

/-- Two well-formed uploads that are not extracted: one whose body of 2^32 bytes has the length 0 as
an `unsigned int`, and one whose boundary is a NUL byte. -/
theorem large_and_nul_not_extracted :
    ((sampleForm (str "x") 4294967217 4294967296).Regular ∧
      ¬ Returns lp64
        (Args.start ((sampleForm (str "x") 4294967217 4294967296).request ++ []) eager none none [])
        ⟨.ready, (sampleForm (str "x") 4294967217 4294967296).payload.length,
          (sampleForm (str "x") 4294967217 4294967296).payload, some .ok⟩) ∧
    ((sampleForm [0] 300 379).Regular ∧
      ¬ Returns lp64 (Args.start ((sampleForm [0] 300 379).request ++ []) eager none none [])
        ⟨.ready, (sampleForm [0] 300 379).payload.length, (sampleForm [0] 300 379).payload,
          some .ok⟩) := by
  have hdec : (decimal 4294967296).length < 200 := by simp [decimal]
  have hlarge : (sampleForm (str "x") 4294967217 4294967296).Regular :=
    sampleForm_regular (by decide) (fitBoundary_singleton (by decide)) (by norm_num) (by simp [str]) hdec
  refine ⟨⟨hlarge, ?_⟩, sampleForm_regular (by decide)
    (fitBoundary_singleton (by decide)) (by norm_num) (by simp) (by decide), ?_⟩
  · have hlen := sampleForm_body_length (str "x") 4294967217 4294967296
    have hnul : ∀ l ∈ (sampleForm (str "x") 4294967217 4294967296).texts, (0 : UInt8) ∉ l := by
      intro l hl
      simp only [sampleForm_texts, List.mem_cons, List.not_mem_nil, or_false] at hl
      rcases hl with rfl | rfl | rfl | rfl
      · decide
      · decide
      · decide
      · exact (contentLength_plain hdec).2
    have hann := hlarge.announced hnul lp64 (Args.start
      ((sampleForm (str "x") 4294967217 4294967296).request ++ []) eager none none []) []
      (by rw [hlen]; simp [lp64, str])
    rw [hlen, show u32 (4294967217 + 2 * (str "x").length + 77) = 0 by decide] at hann
    exact not_ready_of_announced eager_full.positive hann fun h =>
      absurd (congrArg Result.status h) (by simp [Args.badMultipart, Args.answer])
  · have hann : announced lp64
        (Args.start ((sampleForm [0] 300 379).request ++ []) eager none none [])
        ((sampleForm [0] 300 379).request ++ []) =
        .ret (.inl (Args.start [] eager none none []).badMultipart) := by decide +kernel
    exact not_ready_of_announced eager_full.positive hann fun h =>
      absurd (congrArg Result.status h) (by simp [Args.badMultipart, Args.answer])

end ZRouter.Upgrade
