import ZRouter.Lib.CString
import ZRouter.Lib.Exec

/-!
# Server side includes (`io_ssi_zrouter.c`)

A page is read character by character.  What starts like a directive is buffered until its closing `-->`,
then the directive is run; everything else is passed to the client, unless a condition does not hold.  An
included file has a level of its own.

* `State`, `Cond`, `Inc`, `Ssi`: the machine, with the two enumerations and their values;
* `Env`: the code and the kernel around it; every call of the kernel has a number;
* `trimSpaces`, `doInclude`, `doIf`, …, `doSysctl`, `doKenv`: the directives;
* `doCommand`, `readChar`, `readPass`, `readSsi`: the reading of a page.
-/

namespace ZRouter.Shttpd

/-! ### The machine -/

/-- `CMDBUFSIZ`. -/
def cmdBufSiz : ℕ := 512

/-- `NEST_MAX`. -/
def nestMax : ℕ := 6

/-- The states of a level, `SSI_PASS` and so on. -/
inductive State
  | pass
  | buf
  | exec
  | call
  | sysctl
  | kenv
deriving DecidableEq

/-- The conditional states, `SSI_GO` and `SSI_STOP`. -/
inductive Cond
  | go
  | stop
deriving DecidableEq

/-- The integer that a conditional state is. -/
def Cond.value : Cond → ℕ
  | .go => 0
  | .stop => 1

/-- The state that an integer stands for. -/
def State.ofValue : ℕ → State
  | 0 => .pass
  | 1 => .buf
  | 2 => .exec
  | 3 => .call
  | 4 => .sysctl
  | _ => .kenv

/-- `struct ssi_inc`; a stream is what has not been read from it. -/
structure Inc where
  state : State
  cond : Cond
  fp : Bytes
  buf : ℕ → UInt8
  nbuf : ℕ
  pipe : Bytes

/-- What has been buffered. -/
def Inc.text (inc : Inc) : Bytes := (List.range inc.nbuf).map inc.buf

/-- The C string at an index of the buffer. -/
def Inc.strAt (inc : Inc) (p : ℕ) : Bytes := cstr ((List.range' p (cmdBufSiz - p)).map inc.buf)

/-- `struct ssi`, and the number of calls of the kernel so far. -/
structure Ssi where
  nest : ℕ
  incs : ℕ → Inc
  calls : ℕ

/-- What a call for a value leaves in the buffer, and whether it succeeds. -/
structure ValueReply where
  data : Bytes
  ok : Bool

/-- What a registered function does with its `struct shttpd_arg`. -/
structure FuncReply where
  out : Bytes
  evalTrue : Bool
  endOfOutput : Bool

/-- What is outside of the file: the options and the address of the request, the functions of the server,
the registered functions, and the kernel. -/
structure Env where
  root : Bytes
  uri : Bytes
  snprintf : ℕ → Bytes → Bytes
  urlDecode : Bytes → ℕ → Bytes × ℕ
  ssiFunc : Bytes → Option (ℕ → Option Bytes → ℕ → FuncReply)
  fopen : ℕ → Bytes → Option Bytes
  popen : ℕ → Bytes → Option Bytes
  sysctlbyname : ℕ → Bytes → ℕ → ValueReply
  kenv : ℕ → Bytes → ℕ → ValueReply

/-- What ends the process: a look at the buffer below its start, one that runs past its end, or `abort`. -/
inductive Fault
  | below
  | overrun
  | abort
deriving DecidableEq

/-- A call of `read_ssi`: the machine, the buffer of the caller, and how much of it is used. -/
structure Reading where
  ssi : Ssi
  vbuf : ℕ → UInt8
  n : ℤ
  len : ℕ

/-- The current level. -/
def Reading.inc (r : Reading) : Inc := r.ssi.incs r.ssi.nest

/-- Writing to the current level. -/
def Reading.modify (r : Reading) (f : Inc → Inc) : Reading :=
  { r with ssi := { r.ssi with incs := Function.update r.ssi.incs r.ssi.nest (f r.inc) } }

/-- What has been written for the caller. -/
def Reading.out (r : Reading) : Bytes := (List.range r.n.toNat).map r.vbuf

/-- Writing to the buffer of the caller. -/
def store (mem : ℕ → UInt8) (off : ℕ) (bs : Bytes) : ℕ → UInt8 :=
  fun i => if i < off then mem i else bs.getD (i - off) (mem i)

/-- Bytes for the caller. -/
def Reading.put (r : Reading) (off : ℕ) (bs : Bytes) : Reading :=
  { r with vbuf := store r.vbuf off bs, n := r.n + bs.length }

/-- What is left of the buffer of the caller. -/
def Reading.room (r : Reading) : ℕ := (r.len - r.n).toNat

/-- The start of a directive, `<!--#`. -/
def st : Bytes := str "<!--#"

/-! ### Functions of the page -/

/-- `call`, with the index of the name in the buffer.  An argument is cut off the name. -/
def call (env : Env) (r : Reading) (name len : ℕ) : Reading × FuncReply :=
  let text := r.inc.strAt name
  let word := text.takeWhile (· ≠ 32)
  let arg := if 32 ∈ text then some (text.drop (word.length + 1)) else none
  let r :=
    if 32 ∈ text then
      r.modify fun inc => { inc with buf := Function.update inc.buf (name + word.length) 0 }
    else r
  match env.ssiFunc word with
  | none => (r, ⟨[], false, false⟩)
  | some func => ({ r with ssi := { r.ssi with calls := r.ssi.calls + 1 } }, func r.ssi.calls arg len)

/-- `evaluate`. -/
def evaluate (env : Env) (r : Reading) (name : ℕ) : Reading × Bool :=
  let (r, reply) := call env r name 0
  (r, reply.evalTrue)

/-- `pass`. -/
def pass (r : Reading) : Reading :=
  let r := if r.inc.cond = .go then r.put r.n.toNat r.inc.text else r
  r.modify fun inc => { inc with nbuf := 0, state := .pass }

/-! ### Directives -/

/-- `get_path`. -/
def getPath (env : Env) (src : Bytes) : Option Bytes :=
  let accepted : List Bytes := [str "\"", str "file=\"", str "virtual=\""]
  match accepted.find? fun vec => vec.length < src.length && vec.isPrefixOf src with
  | none => none
  | some vec =>
      let src := src.drop vec.length
      if 34 ∈ src then
        let dir :=
          if vec.length = 6 then
            let dst := env.snprintf 1024 (env.root ++ 47 :: env.uri)
            (dst.reverse.dropWhile (· ≠ 47)).reverse.dropLast
          else if vec.length = 9 then env.snprintf 1024 (env.root ++ [47])
          else []
        some (dir ++ (env.urlDecode (src.takeWhile (· ≠ 34)) (1024 - dir.length)).1)
      else none

/-- `do_include`; the level of the file keeps the state that it was left in. -/
def doInclude (env : Env) (r : Reading) : Except Fault Reading :=
  if r.inc.nbuf < 13 then .error .abort
  else if r.inc.cond = .stop then .ok r
  else if nestMax - 1 ≤ r.ssi.nest then .ok r
  else
    match getPath env (r.inc.text.drop 13) with
    | none => .ok r
    | some path =>
        let calls := r.ssi.calls + 1
        match env.fopen r.ssi.calls path with
        | none => .ok { r with ssi := { r.ssi with calls := calls } }
        | some file =>
            let r := { r with ssi := { r.ssi with nest := r.ssi.nest + 1, calls := calls } }
            .ok (r.modify fun inc => { inc with fp := file, nbuf := 0, cond := .go })

/-- The buffer with NULs from the end of the argument on. -/
def trimmed (inc : Inc) : ℕ → UInt8 :=
  let kept := ((inc.text.take (inc.nbuf - 2)).reverse.dropWhile isspace).length
  fun i => if kept ≤ i ∧ i ≤ inc.nbuf - 2 then 0 else inc.buf i

/-- The first blank of a buffer. -/
def firstBlank (buf : ℕ → UInt8) : Option ℕ := (List.range cmdBufSiz).find? fun i => isspace (buf i)

/-- The first other character from an index on. -/
def firstText (buf : ℕ → UInt8) (i : ℕ) : Option ℕ :=
  (List.range' i (cmdBufSiz - i)).find? fun i => !isspace (buf i)

/-- `trim_spaces`: the index of the start of the argument. -/
def trimSpaces (r : Reading) : Except Fault (Reading × ℕ) :=
  let buf := trimmed r.inc
  match firstBlank buf with
  | none => .error .overrun
  | some i =>
      match firstText buf i with
      | none => .error .overrun
      | some p => .ok (r.modify fun inc => { inc with buf := buf }, p)

/-- `do_if`. -/
def doIf (env : Env) (r : Reading) : Except Fault Reading := do
  let (r, name) ← trimSpaces r
  let (r, holds) := evaluate env r name
  return r.modify fun inc => { inc with cond := if holds then .go else .stop }

/-- `do_elif`. -/
def doElif (env : Env) (r : Reading) : Except Fault Reading := do
  let (r, name) ← trimSpaces r
  if r.inc.cond = .stop then
    let (r, holds) := evaluate env r name
    return r.modify fun inc => { inc with cond := if holds then .go else .stop }
  else return r.modify fun inc => { inc with cond := .stop }

/-- `do_endif`. -/
def doEndif (r : Reading) : Except Fault Reading := .ok (r.modify fun inc => { inc with cond := .go })

/-- `do_else`. -/
def doElse (r : Reading) : Except Fault Reading :=
  .ok (r.modify fun inc => { inc with cond := if inc.cond = .go then .stop else .go })

/-- `do_call2`; a function writes no more than it is given room for. -/
def doCall2 (env : Env) (r : Reading) (off len : ℕ) : Reading :=
  let (r, reply) := call env r 0 len
  let r := r.put off (reply.out.take len)
  if reply.endOfOutput then r.modify fun inc => { inc with state := .pass } else r

/-- `do_call`. -/
def doCall (env : Env) (r : Reading) : Except Fault Reading := do
  let (r, name) ← trimSpaces r
  if r.inc.cond = .go then
    let text := r.inc.strAt name ++ [0]
    let r := r.modify fun inc => { inc with buf := store inc.buf 0 text, state := .call }
    return doCall2 env r r.n.toNat r.room
  else return r

/-- `do_exec2`. -/
def doExec2 (r : Reading) (off len : ℕ) : Reading :=
  let pipe := r.inc.pipe
  let r := r.put off (pipe.take len)
  if pipe.length < len then r.modify fun inc => { inc with state := .pass, pipe := [] }
  else r.modify fun inc => { inc with pipe := pipe.drop len }

/-- The quoted argument of a directive, decoded, if it is to be run. -/
def quoted (env : Env) (r : Reading) (p : ℕ) : Option Bytes :=
  if r.inc.cond = .stop then none
  else
    match r.inc.strAt p with
    | 34 :: e =>
        if 34 ∈ e then
          let (cmd, ret) := env.urlDecode (e.takeWhile (· ≠ 34)) cmdBufSiz
          if ret = 0 then none else some cmd
        else none
    | _ => none

/-- `do_exec`. -/
def doExec (env : Env) (r : Reading) : Except Fault Reading := do
  let (r, p) ← trimSpaces r
  match quoted env r p with
  | none => return r
  | some cmd =>
      let calls := r.ssi.calls
      let r := { r with ssi := { r.ssi with calls := calls + 1 } }
      match env.popen calls cmd with
      | none => return r
      | some pipe =>
          let r := r.modify fun inc => { inc with pipe := pipe, state := .exec }
          return doExec2 r r.n.toNat r.room

/-- What `do_sysctl` and `do_kenv` do after the call for the value: it is written for the caller, without its
last byte, and the state becomes one of the conditional states. -/
def afterValue (reply : ValueReply) (state : State) (r : Reading) : Reading :=
  let data := reply.data.take r.room
  let r := { r with
    ssi := { r.ssi with calls := r.ssi.calls + 1 }
    vbuf := store r.vbuf r.n.toNat data }
  if reply.ok then
    let r := r.modify fun inc => { inc with state := state }
    let r := { r with n := r.n + (data.length - 1) }
    r.modify fun inc => { inc with state := State.ofValue Cond.stop.value }
  else r

/-- What `do_sysctl` and `do_kenv` have in common. -/
def doValue (outside : ℕ → Bytes → ℕ → ValueReply) (state : State) (env : Env) (r : Reading) :
    Except Fault Reading := do
  let (r, p) ← trimSpaces r
  match quoted env r p with
  | none => return r
  | some cmd => return afterValue (outside r.ssi.calls cmd r.room) state r

/-- `do_sysctl`. -/
def doSysctl (env : Env) : Reading → Except Fault Reading := doValue env.sysctlbyname .sysctl env

/-- `do_kenv`. -/
def doKenv (env : Env) : Reading → Except Fault Reading := doValue env.kenv .kenv env

/-- The functions of `known_ssi_commands`. -/
inductive Command
  | doInclude
  | doIf
  | doElif
  | doElse
  | doEndif
  | doCall
  | doExec
  | doSysctl
  | doKenv
deriving DecidableEq

/-- `known_ssi_commands`. -/
def knownSsiCommands : List (Bytes × Command) :=
  [(str "include ", .doInclude), (str "if ", .doIf), (str "elif ", .doElif), (str "else", .doElse),
    (str "endif", .doEndif), (str "call ", .doCall), (str "exec ", .doExec), (str "sysctl ", .doSysctl),
    (str "kenv ", .doKenv)]

/-- The function of a command. -/
def Command.run (env : Env) (r : Reading) : Command → Except Fault Reading
  | .doInclude => Shttpd.doInclude env r
  | .doIf => Shttpd.doIf env r
  | .doElif => Shttpd.doElif env r
  | .doElse => Shttpd.doElse r
  | .doEndif => Shttpd.doEndif r
  | .doCall => Shttpd.doCall env r
  | .doExec => Shttpd.doExec env r
  | .doSysctl => Shttpd.doSysctl env r
  | .doKenv => Shttpd.doKenv env r

/-- The command of a directive. -/
def findCommand (inc : Inc) : Option Command :=
  (knownSsiCommands.find? fun cmd =>
    st.length + cmd.1.length < inc.nbuf && cmd.1.isPrefixOf (inc.text.drop st.length)).map Prod.snd

/-- The loop of `do_command`; what is no command is passed. -/
def runCommand (env : Env) (r : Reading) : Except Fault Reading :=
  match findCommand r.inc with
  | none => .ok (pass r)
  | some cmd => cmd.run env r

/-- A level of the machine with an empty buffer. -/
def Reading.emptied (r : Reading) (level : ℕ) : Reading :=
  { r with ssi := { r.ssi with
    incs := Function.update r.ssi.incs level { r.ssi.incs level with nbuf := 0 } } }

/-- `do_command`. -/
def doCommand (env : Env) (r : Reading) : Except Fault Reading :=
  if r.room = 0 ∨ r.room < r.inc.nbuf then .error .abort
  else
    (runCommand env (r.modify fun inc => { inc with state := .pass })).map (·.emptied r.ssi.nest)

/-! ### Reading -/

/-- One more character in the buffer; what is no directive is passed. -/
def pushChar (r : Reading) (ch : UInt8) : Reading :=
  let r := r.modify fun inc => { inc with buf := Function.update inc.buf inc.nbuf ch, nbuf := inc.nbuf + 1 }
  if r.inc.nbuf ≤ st.length ∧ r.inc.text ≠ st.take r.inc.nbuf then pass r else r

/-- One character, by the state of its level. -/
def readChar (env : Env) (r : Reading) (ch : UInt8) : Except Fault Reading :=
  match r.inc.state with
  | .pass =>
      if ch = 60 then
        .ok (r.modify fun inc =>
          { inc with buf := Function.update inc.buf 0 ch, nbuf := 1, state := .buf })
      else if r.inc.cond = .go then .ok (r.put r.n.toNat [ch])
      else .ok r
  | .buf =>
      if cmdBufSiz - 1 ≤ r.inc.nbuf then .ok (pass r)
      else if ch = 62 then
        if r.inc.nbuf < 2 then .error .below
        else if r.inc.text.drop (r.inc.nbuf - 2) = str "--" then doCommand env r
        else .ok (pushChar r ch)
      else .ok (pushChar r ch)
  | .exec | .call | .sysctl => .ok r
  | .kenv => .error .abort

/-- From the label `again` to the loop. -/
def again (env : Env) (r : Reading) : Reading :=
  match r.inc.state with
  | .call => doCall2 env r 0 r.len
  | .exec => doExec2 r 0 r.len
  | _ => r

/-- A pass of the loop, or the end of it (`inr`).  The bound is compared as an unsigned number, so that a
negative one is not below it. -/
def readPass (env : Env) (r : Reading) : Except Fault (Reading ⊕ Reading) :=
  if 0 ≤ r.n + r.inc.nbuf ∧ r.n + r.inc.nbuf < r.len then
    match r.inc.fp with
    | ch :: fp => (readChar env (r.modify fun inc => { inc with fp := fp }) ch).map .inl
    | [] =>
        if 0 < r.ssi.nest then
          .ok (.inl (again env { r with ssi := { r.ssi with nest := r.ssi.nest - 1 } }))
        else .ok (.inr r)
  else .ok (.inr r)

/-- A call of `read_ssi` starts. -/
def startReading (env : Env) (ssi : Ssi) (vbuf : ℕ → UInt8) (len : ℕ) : Reading :=
  again env ⟨ssi, vbuf, 0, len⟩

/-- `read_ssi`, with a bound on its passes: what it leaves, or what ends it. -/
def readSsi (env : Env) (ssi : Ssi) (vbuf : ℕ → UInt8) (len : ℕ) (fuel : ℕ) :
    Exec (Except Fault Reading) :=
  Exec.loop (fun r =>
    match readPass env r with
    | .error e => .ret (.inr (.error e))
    | .ok (.inl r) => .ret (.inl r)
    | .ok (.inr r) => .ret (.inr (.ok r))) fuel (startReading env ssi vbuf len)

/-- The machine that `_shttpd_do_ssi` makes for a page. -/
def newSsi (page : Bytes) : Ssi where
  nest := 0
  incs i := ⟨.pass, .go, if i = 0 then page else [], fun _ => 0, 0, []⟩
  calls := 0

end ZRouter.Shttpd
