import ZRouter.Upgrade.Extraction
import ZRouter.Upgrade.Parts

/-!
# A form with several fields

A browser sends the fields of a form in the order of the page, each as a part of its own.  The firmware may
come after others, and what follows it is not looked at.

* `Multipart`: a form with parts in front of the firmware, and any bytes behind it;
* `Multipart.Regular`: what makes it a request that `http_input` can read;
* `Multipart.extracted`: the output file holds the firmware, and nothing else.
-/

namespace ZRouter.Upgrade

/-- The data of a form. -/
structure Multipart where
  requestLine : Bytes
  headers : List Bytes
  boundary : Bytes
  /-- The parts in front of the firmware. -/
  parts : List FormPart
  firmware : FormPart
  /-- What follows the delimiter behind the firmware. -/
  tail : Bytes

/-- The delimiter in front of and behind each part. -/
def Multipart.delimiter (u : Multipart) : Bytes := 45 :: 45 :: u.boundary

/-- The firmware, the delimiter, and what follows. -/
def Multipart.content (u : Multipart) : Bytes := u.firmware.content ++ crlf ++ u.delimiter ++ u.tail

/-- The body of the request. -/
def Multipart.body (u : Multipart) : Bytes :=
  u.delimiter ++ crlf ++ (partsText u.boundary u.parts ++ (u.firmware.head ++ u.content))

/-- The request. -/
def Multipart.request (u : Multipart) : Bytes :=
  u.requestLine ++ crlf ++ (block u.headers ++ crlf ++ u.body)

/-- A form within the limits of `http_input`: a `POST` with one boundary and its exact length, parts that
are passed over, and a firmware that does not contain the delimiter and fills the ring together with it. -/
structure Multipart.Regular (u : Multipart) : Prop where
  post : str "POST" <+: u.requestLine
  requestLine : LineText u.requestLine
  headers : ∀ l ∈ u.headers, l ≠ [] ∧ LineText l
  hasType : contentType u.boundary ∈ u.headers
  oneType : ∀ l ∈ u.headers, str "Content-Type:" <+: l → l = contentType u.boundary
  hasLength : contentLength u.body.length ∈ u.headers
  oneLength : ∀ l ∈ u.headers, str "Content-Length:" <+: l → l = contentLength u.body.length
  boundaryNe : u.boundary ≠ []
  boundary : Boundary u.boundary
  parts : ∀ p ∈ u.parts, p.WellFormed ∧ p.Passed u.boundary
  firmware : u.firmware.WellFormed
  accepted : u.firmware.Accepted
  payloadFree : ¬ u.delimiter <:+: u.firmware.content
  payloadLong : 256 ≤ u.firmware.content.length + 2 + u.delimiter.length
  small : u.body.length < 2147483648

section Form

variable {u : Multipart}

theorem Multipart.Regular.announced (h : u.Regular) (env : Env) {a : Args} (rest : Bytes)
    (hauth : a.authOk (authToken u.headers) = true) :
    announced env a (u.request ++ rest) = .ret (.inr ⟨u.boundary, u.body.length, u.body ++ rest⟩) := by
  have hsmall := h.small
  have hword := env.word
  have hpos : 0 < u.body.length := by simp [Multipart.body, Multipart.delimiter]
  have hu : u32 u.body.length = u.body.length := Nat.mod_eq_of_lt (by omega)
  have hreq : u.request ++ rest =
      u.requestLine ++ crlf ++ (block u.headers ++ crlf ++ (u.body ++ rest)) := by
    simp [Multipart.request]
  have hrefuse : a.refuse true ⟨u.boundary, authToken u.headers⟩ u.body.length = none := by
    simp [Args.refuse, hauth, h.boundaryNe, hpos.ne']
  rw [hreq, announced_post h.post h.requestLine h.headers h.boundaryNe h.boundary.fit h.hasType h.oneType
    h.hasLength h.oneLength hpos env a (u.body ++ rest) (by omega), hu, hrefuse]

/-- The firmware is found behind the parts that are passed over. -/
theorem Multipart.Regular.findsPart (h : u.Regular) : ∃ zs, line u.body = some (u.delimiter, zs) ∧
    FindsPart u.boundary zs (cstr u.firmware.disposition) u.content := by
  have hfirmware : ({ u.firmware with content := u.content } : FormPart).WellFormed :=
    ⟨h.firmware.formData, h.firmware.lines, h.firmware.notEmpty⟩
  have haccepted : ({ u.firmware with content := u.content } : FormPart).Accepted :=
    ⟨⟨h.accepted.nul, h.accepted.names⟩, h.accepted.both⟩
  exact ⟨_, (delimiter_text h.boundary.fit h.boundary.nul).line _,
    findsPart_parts h.boundary hfirmware haccepted h.parts⟩

/-- No end of line is in the delimiter. -/
theorem Multipart.Regular.delimiter_free (h : u.Regular) : cr ∉ u.delimiter ∧ lf ∉ u.delimiter :=
  ⟨(delimiter_text h.boundary.fit h.boundary.nul).cr, (delimiter_text h.boundary.fit h.boundary.nul).lf⟩

/-- A form is read as it was meant when no call of `local_read` comes back empty before the end of the
delimiter behind the firmware. -/
theorem Multipart.Regular.returns_ready (h : u.Regular) (env : Env) {s : Schedule} {key realm : Option Bytes}
    {outfile : Bytes} (rest : Bytes) (hs : Positive s)
    (hd : DeliversTo u.tail.length (u.request ++ rest).length s (u.body ++ rest) u.body.length)
    (ho : env.opens outfile = true)
    (hauth : key = none ∨ realm = none ∨ key = some (authToken u.headers)) :
    Returns env (Args.start (u.request ++ rest) s key realm outfile)
      ⟨.ready, u.firmware.content.length, u.firmware.content, some .ok⟩ := by
  have hok : (Args.start (u.request ++ rest) s key realm outfile).authOk (authToken u.headers) =
      true := by
    rcases hauth with rfl | rfl | rfl
    · rfl
    · cases key <;> rfl
    · cases realm <;> simp [Args.authOk, Args.start]
  have hannounced := h.announced env rest hok
  set w : Announced := ⟨u.boundary, u.body.length, u.body ++ rest⟩ with hw
  have hbody : w.body = u.body := by simp [hw, Announced.body]
  have hdelimiter : w.delimiter = u.delimiter := rfl
  obtain ⟨r, he⟩ := enters_of_announced hs hannounced
  -- the delimiter is found with its last byte
  obtain ⟨c, hc⟩ : ∃ c, u.delimiter = u.delimiter.dropLast ++ [c] :=
    ⟨_, (List.dropLast_append_getLast (l := u.delimiter) (by simp [Multipart.delimiter])).symm⟩
  obtain ⟨hny, hhit⟩ := delimiter_found_at_end (by simp [Multipart.delimiter]) h.delimiter_free.1
    h.delimiter_free.2 h.payloadFree
  have hread : u.firmware.content ++ crlf ++ u.delimiter.dropLast ++ [c] =
      u.firmware.content ++ crlf ++ u.delimiter := by
    rw [List.append_assoc, ← hc]
  have hcontent : u.content = u.firmware.content ++ crlf ++ u.delimiter.dropLast ++ c :: u.tail := by
    rw [Multipart.content, ← hread]
    simp
  obtain ⟨zs, hline, hpart⟩ := h.findsPart
  rw [hcontent] at hpart
  obtain ⟨r₁, rb, r₂, h1, h2, h3⟩ := he.finds hd (hbody ▸ hline)
    (List.isPrefixOf_iff_prefix.2 (List.prefix_refl _)) hpart hny (by rw [hread]; exact hhit) ho
  have hready := he.returns_ready hs (inHeader_zero hs _) h1 h2 h3 (by simp [hw])
  rw [hread, hdelimiter, extracted_payload h.payloadLong] at hready
  exact hready

/-- **A form is read as it was meant.**  With any parts in front of the firmware that are passed over, and
anything behind it, `http_input` returns `HTTP_INPUT_READY`, the output file holds the firmware, and the
file size is its length. -/
theorem Multipart.extracted (h : u.Regular) (env : Env) {s : Schedule} {key realm : Option Bytes}
    {outfile : Bytes} (rest : Bytes) (hs : Full s) (ho : env.opens outfile = true)
    (hauth : key = none ∨ realm = none ∨ key = some (authToken u.headers)) :
    Returns env (Args.start (u.request ++ rest) s key realm outfile)
      ⟨.ready, u.firmware.content.length, u.firmware.content, some .ok⟩ :=
  h.returns_ready env rest hs.positive (hs.deliversTo _ _ _ _) ho hauth

end Form

/-- A text field of two lines, and then the firmware. -/
def textThenFirmware (payload : Bytes) (n : ℕ) : Multipart where
  requestLine := str "POST / HTTP/1.1"
  headers := [contentType (str "b"), contentLength n]
  boundary := str "b"
  parts := [textField "x\ny"]
  firmware := { firmwareField with content := payload }
  tail := str "--" ++ crlf

theorem textThenFirmware_regular {payload : Bytes} {n : ℕ}
    (hlen : (textThenFirmware payload n).body.length = n) (hline : LineText (contentLength n))
    (hfree : ¬ str "--b" <:+: payload) (hlong : 251 ≤ payload.length) (hsmall : n < 2147483648) :
    (textThenFirmware payload n).Regular := by
  have hread : (textField "x\ny").Readable :=
    ⟨by simp [textField, field], goodNames_of_mem (by decide +kernel)⟩
  have hclear : Clear (str "b") false (lfLines (str "x\ny" ++ [cr])) := by
    rw [show lfLines (str "x\ny" ++ [cr]) = [[120], [121, 13]] by decide +kernel]
    simp [Clear, Swallows, str]
  have hne : contentLength n ≠ [] := by simp [contentLength, str]
  have htype : LineText (contentType (str "b")) := by
    refine ⟨?_, ?_, ?_, ?_⟩ <;> decide +kernel
  have hfirmware : firmwareField.Accepted :=
    ⟨⟨by simp [firmwareField, field], goodNames_of_mem (by decide +kernel)⟩, by decide +kernel⟩
  have haccepted : ({ firmwareField with content := payload } : FormPart).Accepted :=
    ⟨⟨hfirmware.nul, hfirmware.names⟩, hfirmware.both⟩
  have hrequest : LineText (str "POST / HTTP/1.1") := ⟨by decide, by decide, by decide, by decide⟩
  have hdashes : 45 :: 45 :: str "b" = str "--b" := by decide
  have hdelimiter : (textThenFirmware payload n).delimiter = str "--b" := hdashes
  refine ⟨by simp [textThenFirmware, str], hrequest, ?_,
    by simp [textThenFirmware], ?_, by rw [hlen]; simp [textThenFirmware], ?_, by simp [textThenFirmware, str],
    boundary_b, fun p hp => ?_,
    ⟨firmwareField_wellFormed.formData, firmwareField_wellFormed.lines, firmwareField_wellFormed.notEmpty⟩,
    haccepted, hdelimiter ▸ hfree, ?_, by rw [hlen]; exact hsmall⟩
  · simpa [textThenFirmware] using ⟨⟨by decide +kernel, htype⟩, hne, hline⟩
  · simp [textThenFirmware, contentType, contentLength, str]
  · rw [hlen]
    simp [textThenFirmware, contentType, contentLength, str]
  · obtain rfl := List.mem_singleton.1 hp
    exact ⟨textField_wellFormed _, hread, by decide +kernel, hclear⟩
  · rw [hdelimiter]
    show 256 ≤ payload.length + 2 + 3
    omega

theorem Multipart.extracted_text :
    Returns lp64 (Args.start ((textThenFirmware (List.replicate 300 65) 433).request ++ []) eager none none
        (str "/dev/md0"))
      ⟨.ready, (List.replicate 300 (65 : UInt8)).length, List.replicate 300 65, some .ok⟩ := by
  have hregular : (textThenFirmware (List.replicate 300 65) 433).Regular :=
    textThenFirmware_regular (by decide +kernel) (by refine ⟨?_, ?_, ?_, ?_⟩ <;> decide +kernel)
      (by decide +kernel) (by rw [List.length_replicate]; decide) (by decide)
  exact Multipart.extracted hregular lp64 [] eager_full rfl (Or.inl rfl)

end ZRouter.Upgrade
