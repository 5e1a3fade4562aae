import ZRouter.Lib.Exec
import ZRouter.Upgrade.Ring

/-!
# `http_input` (`http_input.c`)

The request is read in four phases, each a definition of its own:

* `accept`: request line, header loop, authentication, and the checks before the body;
* `locate`: the first line of the body and `test_part_header`, then the output file is opened;
* `search`: the body goes through the ring until the delimiter is seen;
* `finish`: the ring and the socket are drained and the output is closed.

`httpInput` is their sequence.  Two places of the source have no defined result and give
`Exec.undefined`: `strcpy` of a boundary that does not fit `boundary[71]`, and the length taken from
`index(p, '"')` when the file name is not closed.  Messages to the console are left out.
-/

namespace ZRouter.Upgrade

/-- `enum http_input_status`. -/
inductive Status
  | ready
  | showIndex
  | authFail
  | badMultipart
  | cantOpenOfile
  | fwPartRequired
  | methodErr
  | rbInitErr
  | readErr
  deriving DecidableEq

/-- The pages sent to the client: `http_index`, `http_ok`, `http_unauth`, `http_fail` and
`http_error`. -/
inductive Reply
  | index
  | ok
  | unauth (realm : Bytes)
  | fail
  | error (msg : String)
  deriving DecidableEq

/-- What `http_input` depends on besides the request: `ULONG_MAX`, which has at least 32 bits, and
whether a file can be opened for writing. -/
structure Env where
  ulongMax : ℕ
  word : 4294967295 ≤ ulongMax
  opens : Bytes → Bool

/-- `struct args`.  `filename` and `boundary` are never read and `console` only receives messages,
so they are left out. -/
structure Args where
  reader : Reader
  key : Option Bytes
  realm : Option Bytes
  outfile : Bytes
  filesize : ℕ

/-- `struct args` after `bzero`, with the descriptor and the output file set. -/
def Args.zero (fd : Fd) (outfile : Bytes) : Args := ⟨Reader.zero fd, none, none, outfile, 0⟩

/-- What is left behind by `http_input`: its status, `args->filesize`, the bytes written to the
output file and the page sent. -/
structure Result where
  status : Status
  filesize : ℕ
  written : Bytes
  reply : Option Reply
  deriving DecidableEq

/-- A request answered without touching the output file. -/
def Args.answer (a : Args) (status : Status) (reply : Option Reply) : Result :=
  ⟨status, a.filesize, [], reply⟩

/-! ### The header -/

/-- The delimiters `" \t\r\n"`. -/
def isBlank (c : UInt8) : Bool := c = 32 || c = 9 || c = 13 || c = 10

/-- `parse_boundary`: the string it copies. -/
def parseBoundary (buf : Bytes) : Option Bytes :=
  match strnstr (buf.drop 13) (str "boundary=") 243 with
  | none => none
  | some p =>
      if strstr (str "multipart/form-data") buf = none then none
      else
        let token := (strsep isBlank (p.drop 9)).1
        if token.length < 1 then none else some token

/-- `parse_len`: the value it stores. -/
def parseLen (ulongMax : ℕ) (buf : Bytes) : Option ℕ :=
  let lenp := skipSpaces (buf.drop 15)
  if lenp.length < 1 then none
  else
    let (v, used) := strtoul ulongMax lenp
    some (if used < lenp.length then 0 else u32 v)

/-- `parse_hash`: the string it copies. -/
def parseHash (buf : Bytes) : Option Bytes :=
  match strnstr (buf.drop 14) (str "Basic") 242 with
  | none => none
  | some p =>
      let token := (strsep isBlank (skipSpaces (p.drop 5))).1
      if token.length < 2 then none else some token

/-- What the header loop collects in its local buffers. -/
structure Headers where
  boundary : Bytes
  hash : Bytes
  deriving DecidableEq

/-- The boundary after a header line; a string of more than 70 bytes does not fit. -/
def Headers.takeBoundary (h : Headers) (buf : Bytes) : Exec Bytes :=
  if h.boundary = [] ∧ (str "Content-Type:").isPrefixOf buf then
    match parseBoundary buf with
    | some b => if b.length ≤ 70 then .ret b else .undefined
    | none => .ret h.boundary
  else .ret h.boundary

/-- `args->len` after a header line. -/
def takeLen (ulongMax len : ℕ) (buf : Bytes) : ℕ :=
  if len = 0 ∧ (str "Content-Length:").isPrefixOf buf then (parseLen ulongMax buf).getD len else len

/-- The authorization token after a header line. -/
def Headers.takeHash (h : Headers) (buf : Bytes) : Bytes :=
  if h.hash = [] ∧ (str "Authorization:").isPrefixOf buf then (parseHash buf).getD h.hash else h.hash

/-- One pass of the header loop; it ends at an empty line or when no line can be read. -/
def headerPass (ulongMax : ℕ) (s : Headers × Reader) :
    Exec ((Headers × Reader) ⊕ (Option Headers × Reader)) :=
  match readLine s.2 with
  | (none, r) => .ret (.inr (none, r))
  | (some buf, r) =>
      s.1.takeBoundary buf >>= fun b =>
        let h : Headers := ⟨b, s.1.takeHash buf⟩
        let r := { r with len := takeLen ulongMax r.len buf }
        if buf = [] then .ret (.inr (some h, r)) else .ret (.inl (h, r))

/-- The header loop. -/
def readHeaders (ulongMax fuel : ℕ) (r : Reader) : Exec (Option Headers × Reader) :=
  Exec.loop (headerPass ulongMax) fuel (⟨[], []⟩, r)

/-- The test of the token; without a key or a realm there is none. -/
def Args.authOk (a : Args) (hash : Bytes) : Bool :=
  match a.key, a.realm with
  | some key, some _ => hash = key
  | _, _ => true

/-- The answer to a form without boundary or length. -/
def Args.badMultipart (a : Args) : Result :=
  a.answer .badMultipart (some (.error ("<font class=\"red\">\r\n" ++
    "  Multipart form must have both boundary marker and Content-Length defined.\r\n" ++
    "</font>\r\n")))

/-- The checks after the header loop: authentication, the page for `GET`, and that boundary and
length are known. -/
def Args.refuse (a : Args) (post : Bool) (h : Headers) (len : ℕ) : Option Result :=
  if a.authOk h.hash = false then
    some (a.answer .authFail (some (.unauth (a.realm.getD []))))
  else if post = false then some (a.answer .showIndex (some .index))
  else if h.boundary = [] ∨ len = 0 then some a.badMultipart
  else none

/-- What follows the header loop. -/
def Args.afterHeaders (a : Args) (post : Bool) : Option Headers × Reader → Result ⊕ (Bytes × Reader)
  | (none, _) => .inl (a.answer .readErr none)
  | (some h, r) =>
      match a.refuse post h r.len with
      | some res => .inl res
      | none => .inr (h.boundary, { r with enableCounter := true })

/-- Phase one: a result, or the boundary and the reader at the start of the body. -/
def accept (env : Env) (fuel : ℕ) (a : Args) : Exec (Result ⊕ (Bytes × Reader)) :=
  match readLine a.reader with
  | (none, _) =>
      .ret (.inl (a.answer .readErr (some (.error "Can't accept methods other than GET or POST"))))
  | (some buf, r) =>
      if ¬ (str "GET").isPrefixOf buf ∧ ¬ (str "POST").isPrefixOf buf then
        .ret (.inl (a.answer .methodErr
          (some (.error "Can't accept methods other than GET or POST"))))
      else
        readHeaders env.ulongMax fuel r >>= fun s =>
          .ret (a.afterHeaders (!(str "GET").isPrefixOf buf) s)

/-! ### The part header -/

/-- What the `Content-Disposition` line of a part says: it is not form data, its file name is empty
or not closed, or so many of the two parameters were matched. -/
inductive Disposition
  | notFormData
  | emptyName
  | unclosed
  | matched (n : ℕ)
  deriving DecidableEq

/-- The loop over the parameters of `Content-Disposition`, at most eight of them. -/
def dispositionParams : ℕ → Bytes → ℕ → Disposition
  | 0, _, m => .matched m
  | n + 1, p, m =>
      match (strsep (· = 59) p).2 with
      | none => .matched m
      | some [] => .matched m
      | some q =>
          let p := strspnSkip (fun c => c = 32 || c = 9) q
          let m := if (str "name=\"firmware\"").isPrefixOf p then m + 1 else m
          if (str "filename=\"").isPrefixOf p then
            let p := p.drop 10
            if 34 ∉ p then .unclosed
            else if p.head? = some 34 then .emptyName
            else if m + 1 = 2 then .matched 2
            else dispositionParams n p (m + 1)
          else if m = 2 then .matched 2
          else dispositionParams n p m

/-- The test of the first line of a part header. -/
def testDisposition (buf : Bytes) : Disposition :=
  if (str "Content-Disposition:").isPrefixOf buf then
    let p := skipSpaces (buf.drop 20)
    if (str "form-data").isPrefixOf p then dispositionParams 8 (p.drop 9) 0 else .notFormData
  else .matched 0

/-- One pass over the remaining lines of a part header. -/
def skipPass (r : Reader) : Exec (Reader ⊕ Reader) :=
  match readLine r with
  | (none, r') => .ret (.inr r')
  | (some [], r') => .ret (.inr r')
  | (some (_ :: _), r') => .ret (.inl r')

/-- One pass over the content of a part that is not wanted.  It ends at the end of the input or
behind a boundary line (`some`), or when the form data is over (`none`). -/
def seekPass (boundary : Bytes) (r : Reader) : Exec (Reader ⊕ Option Reader) :=
  match localRead r with
  | (none, r) => .ret (.inr (some r))
  | (some c, r) =>
      if c ≠ lf then .ret (.inl r)
      else
        match localRead r with
        | (none, r) => .ret (.inl r)
        | (some c, r) =>
            if c ≠ 45 then .ret (.inl r)
            else
              match localRead r with
              | (none, r) => .ret (.inl r)
              | (some c, r) =>
                  if c ≠ 45 then .ret (.inl r)
                  else
                    match readLine r with
                    | (none, _) => .ret (.inr none)
                    | (some buf, r) =>
                        if boundary.isPrefixOf buf then
                          if (str "--").isPrefixOf (buf.drop boundary.length) then
                            .ret (.inr none)
                          else .ret (.inr (some r))
                        else .ret (.inl r)

/-- The return values of `test_part_header`: `0`, `1`, and `2` with the reader at the content. -/
inductive PartTest
  | notFormData
  | rejected
  | ready (r : Reader)

/-- What follows the lines of a part header, `m` of whose two parameters were matched; `Sum.inl` is
the tail call. -/
def partContent (fuel : ℕ) (boundary : Bytes) (m : ℕ) (r : Reader) : Exec (Reader ⊕ PartTest) :=
  if m = 2 then .ret (.inr (.ready r))
  else
    Exec.loop (seekPass boundary) fuel r >>= fun s =>
      match s with
      | none => .ret (.inr .rejected)
      | some r => .ret (.inl r)

/-- One activation of `test_part_header`. -/
def partPass (fuel : ℕ) (boundary : Bytes) (r : Reader) : Exec (Reader ⊕ PartTest) :=
  match readLine r with
  | (none, _) => .ret (.inr .rejected)
  | (some buf, r) =>
      match testDisposition buf with
      | .notFormData => .ret (.inr .notFormData)
      | .emptyName => .ret (.inr .rejected)
      | .unclosed => .undefined
      | .matched m => Exec.loop skipPass fuel r >>= partContent fuel boundary m

/-- `test_part_header`. -/
def testPartHeader (fuel : ℕ) (boundary : Bytes) (r : Reader) : Exec PartTest :=
  Exec.loop (partPass fuel boundary) fuel r

/-! ### The body -/

/-- Whether the first line of the body is taken for the boundary marker. -/
def isMarker (boundary buf : Bytes) : Bool := (45 :: 45 :: boundary).isPrefixOf buf

/-- The answer to form data that cannot be read. -/
def Args.unreadable (a : Args) : Result :=
  a.answer .readErr (some (.error
    "<font class=\"red\">\r\nFailed to parse form data.\r\n</font>\r\n"))

/-- The answer to form data without a firmware part. -/
def Args.noFirmware (a : Args) : Result :=
  a.answer .fwPartRequired (some (.error
    "<font class=\"red\">\r\nNo Firmware image in posted data.\r\n</font>\r\n"))

/-- Phase two: a result, or the reader where the content of the part starts.  A body whose first
line is no boundary marker skips the part header. -/
def locate (env : Env) (fuel : ℕ) (a : Args) (boundary : Bytes) (r : Reader) :
    Exec (Result ⊕ Reader) :=
  let openOut (r : Reader) : Result ⊕ Reader :=
    if env.opens a.outfile then .inr r else .inl (a.answer .cantOpenOfile none)
  match readLine r with
  | (none, _) => .ret (.inl a.unreadable)
  | (some buf, r) =>
      if isMarker boundary buf then
        testPartHeader fuel boundary r >>= fun t =>
          match t with
          | .ready r => .ret (openOut r)
          | _ => .ret (.inl a.noFirmware)
      else .ret (openOut r)

/-- One pass of the body loop: it ends with the delimiter found, with the length used up, or when
no byte can be read. -/
def searchPass (s : ℕ × Ring × Reader) : Exec ((ℕ × Ring × Reader) ⊕ (Bool × Ring × Reader)) :=
  let (i, rb, r) := s
  if i < r.len then
    match localRead r with
    | (none, r) => .ret (.inr (false, rb, r))
    | (some ch, r) =>
        let (hit, rb) := ringBufferAppend rb ch
        if hit then .ret (.inr (true, rb, r)) else .ret (.inl (u32 (i + 1), rb, r))
  else .ret (.inr (false, rb, r))

/-- Phase three: the body loop. -/
def search (fuel : ℕ) (boundary : Bytes) (r : Reader) : Exec (Bool × Ring × Reader) :=
  Exec.loop searchPass fuel (r.counterValue, ringBufferInit boundary, r)

/-- One pass of the loop that empties the socket. -/
def socketPass (r : Reader) : Exec (Reader ⊕ Unit) :=
  if r.counterValue ≠ r.len then .ret (.inl (localRead r).2) else .ret (.inr ())

/-- Phase four.  When the delimiter was not found `err` still has its first value `1`, which is
`HTTP_INPUT_SHOW_INDEX`. -/
def finish (fuel : ℕ) (a : Args) (s : Bool × Ring × Reader) : Exec Result :=
  let (found, rb, r) := s
  if found then
    let rb := ringBufferDrain rb
    Exec.loop socketPass fuel r >>= fun _ =>
      .ret ⟨.ready, rb.filesize, (localClose rb.out).written, some .ok⟩
  else .ret ⟨.showIndex, a.filesize, (localClose rb.out).written, some .fail⟩

/-- `http_input`. -/
def httpInput (env : Env) (fuel : ℕ) (a : Args) : Exec Result :=
  accept env fuel a >>= fun x =>
    match x with
    | .inl res => .ret res
    | .inr (boundary, r) =>
        locate env fuel a boundary r >>= fun y =>
          match y with
          | .inl res => .ret res
          | .inr r => search fuel boundary r >>= finish fuel a

/-- `http_input` returns `res`: it does so whatever larger bound is put on its loops. -/
def Returns (env : Env) (a : Args) (res : Result) : Prop :=
  Exec.Eventually (fun fuel => httpInput env fuel a) (.ret res)

end ZRouter.Upgrade
