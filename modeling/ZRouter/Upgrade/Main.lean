import ZRouter.Upgrade.AnyRead
import ZRouter.Upgrade.Extraction
import ZRouter.Upgrade.Ready

/-!
# `upgrade` (`upgrade.c`)

`main` reads its options, runs `http_input` in HTTP mode, and writes the image to the device in
blocks.  Everything it asks the system for is in `World`; `main` runs once, so each answer is one
value.  Messages are left out.

* `Opt`, `Options`, `parseOpts`: the option loop, over what `getopt` returns;
* `flashFrom`, `flash`: the checks before the write loop, the loop itself, and what follows it;
* `upgradeMain`;
* `Flashable`: the device can be written at all; then it is written without any authentication
  (`authenticated_iff_not_flashable`).
-/

namespace ZRouter.Upgrade

/-- The conditional parts of the program. -/
structure Build where
  useMd5 : Bool
  useGeomGetSize : Bool
  withHttpMode : Bool

/-- An option as `getopt` returns it, with its argument; `other` is anything not listed. -/
inductive Opt
  | f (file : Bytes)
  | d (device : Bytes)
  | G
  | l (console : Bytes)
  | q
  | R
  | S
  | s (blocksize : Bytes)
  | h
  | H (key : Bytes)
  | M (realm : Bytes)
  | V
  | other

/-- The variables that the option loop sets.  `key` and `realm` are fields of `args`. -/
structure Options where
  file : Option Bytes
  device : Bytes
  targetSizeCheck : Bool
  silent : Bool
  rebt : Bool
  doSync : Bool
  blocksize : ℕ
  httpMode : Bool
  key : Option Bytes
  realm : Option Bytes
  verify : Bool

/-- The initial values.  `key` and `realm` are not initialised; nothing reads them. -/
def Options.default : Options where
  file := none
  device := str "/dev/map/upgrade"
  targetSizeCheck := true
  silent := false
  rebt := true
  doSync := true
  blocksize := 0x10000
  httpMode := false
  key := none
  realm := none
  verify := true

/-- One pass of the option loop; `none` when it ends in `usage`.  The block size is an `int`, kept by
its two's complement image. -/
def Options.take (build : Build) (ulongMax : ℕ) (o : Options) : Opt → Option Options
  | .f file => some { o with file := some file }
  | .d device => some { o with device := device }
  | .G => if build.useGeomGetSize then some { o with targetSizeCheck := false } else none
  | .l _ => some o
  | .q => some { o with silent := true }
  | .R => some { o with rebt := false }
  | .S => some { o with doSync := false }
  | .s arg => some { o with blocksize := u32 (strtoulAuto ulongMax arg) }
  | .h => if build.withHttpMode then some { o with httpMode := true } else none
  | .H key => if build.withHttpMode then some { o with key := some key } else none
  | .M realm => if build.withHttpMode then some { o with realm := some realm } else none
  | .V => if build.useMd5 then some { o with verify := false } else none
  | .other => none

/-- The option loop. -/
def parseOpts (build : Build) (ulongMax : ℕ) (opts : List Opt) : Option Options :=
  opts.foldlM (Options.take build ulongMax) Options.default

/-- What `main` asks the system for. -/
structure World where
  env : Env
  /-- The content of a file, `none` if `fopen` fails. -/
  content : Bytes → Option Bytes
  /-- `geom_get_size`. -/
  geomSize : Bytes → ℕ
  /-- What `target_size` holds when nothing was assigned to it. -/
  stale : ℕ
  /-- Whether `kern.geom.debugflags` can be read. -/
  sysctl : Bool
  malloc : ℕ → Bool
  /-- The content of a device, `none` if it cannot be opened. -/
  device : Bytes → Option Bytes
  /-- Whether `write()` takes the whole block. -/
  takes : ℕ → Bool
  /-- `check_md5` of some content: whether it returns non-zero. -/
  checkMd5 : Bytes → ℕ → Bool

/-- What `main` leaves behind: the exit code, the blocks passed to `write()` on the device, and the
call of `reboot()`, with the sync it asks for. -/
structure Outcome where
  exitcode : ℕ
  wrote : List Bytes
  reboot : Option Bool
  deriving DecidableEq

/-- Exit before the device is touched. -/
def Outcome.exit (code : ℕ) : Outcome := ⟨code, [], none⟩

/-- A file that was `old` after `new` was written to its start. -/
def overlay (new old : Bytes) : Bytes := new ++ old.drop new.length

/-- The write loop: `rest` is what `fread` has not delivered, `c` the number of blocks so far.  In
HTTP mode it ends once the position has reached the file size.  The result of `write()` is only kept
as an error. -/
def flashFrom (takes : ℕ → Bool) (filesize : Option ℕ) (blocksize : ℕ) :
    ℕ → ℕ → Bytes → List Bytes × Bool
  | 0, _, _ => ([], true)
  | n + 1, c, rest =>
      let buf := rest.take blocksize
      if buf = [] then ([], true)
      else
        let block := buf ++ List.replicate (blocksize - buf.length) 0
        match filesize with
        | some size =>
            if size ≤ u32 (c * blocksize) then ([block], takes c)
            else
              let (blocks, ok) := flashFrom takes filesize blocksize n (c + 1) (rest.drop blocksize)
              (block :: blocks, takes c && ok)
        | none =>
            let (blocks, ok) := flashFrom takes filesize blocksize n (c + 1) (rest.drop blocksize)
            (block :: blocks, takes c && ok)

/-- From the open device on: the write loop, the check of what was written, and the reboot. -/
def writeImage (build : Build) (world : World) (o : Options) (filesize : Option ℕ)
    (content device : Bytes) : Outcome :=
  let (blocks, ok) := flashFrom world.takes filesize o.blocksize (content.length + 1) 0 content
  let bad := build.useMd5 && o.verify && world.checkMd5 (overlay blocks.flatten device) o.blocksize
  let exitcode := if !ok || bad then 7 else 0
  ⟨exitcode, blocks, if o.rebt && exitcode = 0 then some o.doSync else none⟩

/-- From the check of the sizes on; `filesize` is `args.filesize` in HTTP mode, `content` what the
file holds.  The verdict of the `check_md5` before the device is opened is only printed. -/
def flash (build : Build) (world : World) (o : Options) (filesize : Option ℕ)
    (content : Option Bytes) : Outcome :=
  let targetSize := if o.targetSizeCheck then world.geomSize o.device else world.stale
  if build.useGeomGetSize ∧ (targetSize = 0 ∨ ∃ n ∈ filesize, targetSize < n) then .exit 1
  else if world.sysctl = false then .exit 1
  else
    match content with
    | none => .exit 1
    | some content =>
        if build.useGeomGetSize ∧ targetSize < content.length then .exit 1
        else if world.malloc o.blocksize = false then .exit 2
        else
          match world.device o.device with
          | none => .exit 1
          | some device => writeImage build world o filesize content device

/-- `main`.  In HTTP mode `args` is cleared by `bzero` after the options were read. -/
def upgradeMain (build : Build) (world : World) (opts : List Opt) (fd : Fd) (fuel : ℕ) :
    Exec Outcome :=
  match parseOpts build world.env.ulongMax opts with
  | none => .ret (.exit 1)
  | some o =>
      match o.file with
      | none => .ret (.exit 1)
      | some file =>
          if o.httpMode then
            httpInput world.env fuel (Args.zero fd file) >>= fun res =>
              match res.status with
              | .ready =>
                  .ret (flash build world { o with verify := false } (some res.filesize)
                    ((world.content file).map (overlay res.written)))
              | .showIndex | .authFail | .badMultipart | .cantOpenOfile => .ret (.exit 0)
              | .fwPartRequired | .methodErr | .rbInitErr | .readErr => .ret (.exit 1)
          else .ret (flash build world o none (world.content file))

/-! ### What it takes to write the device -/

/-- The value of `target_size` when it is tested. -/
def World.targetSize (world : World) (o : Options) : ℕ :=
  if o.targetSizeCheck then world.geomSize o.device else world.stale

/-- The device can be written in HTTP mode: nothing that `main` asks for fails, and the target has
room for the staging file and for three bytes, the least that an upload leaves there. -/
structure Flashable (build : Build) (world : World) (o : Options) (file : Bytes) : Prop where
  opens : world.env.opens file = true
  room : ∃ old, world.content file = some old ∧
    (build.useGeomGetSize = true → 3 ≤ world.targetSize o ∧ old.length ≤ world.targetSize o)
  sysctl : world.sysctl = true
  malloc : world.malloc o.blocksize = true
  device : (world.device o.device).isSome = true
  blocksize : 0 < o.blocksize

theorem flashFrom_eq_nil {takes : ℕ → Bool} {size : Option ℕ} {bs n c : ℕ} {rest : Bytes} :
    (flashFrom takes size bs (n + 1) c rest).1 = [] ↔ rest.take bs = [] := by
  rw [flashFrom]
  dsimp only
  split_ifs with h
  · simp [h]
  · cases size with
    | none => simp [h]
    | some k =>
      dsimp only
      split_ifs <;> simp [h]

theorem overlay_length (new old : Bytes) :
    (overlay new old).length = max new.length old.length := by
  simp only [overlay, List.length_append, List.length_drop]
  omega

theorem writeImage_wrote_iff {build : Build} {world : World} {o : Options} {size : Option ℕ}
    {content device : Bytes} :
    (writeImage build world o size content device).wrote ≠ [] ↔
      content ≠ [] ∧ 0 < o.blocksize := by
  have h : (writeImage build world o size content device).wrote =
      (flashFrom world.takes size o.blocksize (content.length + 1) 0 content).1 := rfl
  rw [h, ne_eq, flashFrom_eq_nil, List.take_eq_nil_iff]
  push Not
  rw [and_comm, Nat.pos_iff_ne_zero]

/-- The write loop is reached with something to write exactly when the device can be written and the
target has room. -/
theorem flash_wrote_iff {build : Build} {world : World} {o : Options} {size : Option ℕ}
    {content : Option Bytes} :
    (flash build world o size content).wrote ≠ [] ↔
      (build.useGeomGetSize = true →
        world.targetSize o ≠ 0 ∧ ∀ n ∈ size, n ≤ world.targetSize o) ∧
      world.sysctl = true ∧
      (∃ bytes, content = some bytes ∧ bytes ≠ [] ∧
        (build.useGeomGetSize = true → bytes.length ≤ world.targetSize o)) ∧
      world.malloc o.blocksize = true ∧ (world.device o.device).isSome = true ∧
      0 < o.blocksize := by
  have hexit : ∀ n, (Outcome.exit n).wrote = [] := fun _ => rfl
  unfold flash
  dsimp only
  change (if build.useGeomGetSize ∧ (world.targetSize o = 0 ∨ ∃ n ∈ size,
    world.targetSize o < n) then _ else _ : Outcome).wrote ≠ [] ↔ _
  by_cases h1 : build.useGeomGetSize ∧ (world.targetSize o = 0 ∨ ∃ n ∈ size, world.targetSize o < n)
  · rw [if_pos h1]
    simp only [hexit, ne_eq, not_true_eq_false, false_iff]
    rintro ⟨h, -⟩
    obtain ⟨hzero, hle⟩ := h h1.1
    rcases h1.2 with h0 | ⟨n, hn, hlt⟩
    · exact hzero h0
    · exact absurd (hle n hn) (not_le_of_gt hlt)
  rw [if_neg h1]
  by_cases h2 : world.sysctl = false
  · simp [hexit, h2]
  rw [if_neg h2]
  cases content with
  | none => simp [hexit]
  | some bytes =>
    change (if build.useGeomGetSize ∧ world.targetSize o < bytes.length then _ else _ :
      Outcome).wrote ≠ [] ↔ _
    by_cases h3 : build.useGeomGetSize ∧ world.targetSize o < bytes.length
    · rw [if_pos h3]
      simp only [hexit, ne_eq, not_true_eq_false, false_iff]
      rintro ⟨-, -, ⟨_, ⟨⟩, -, h⟩, -⟩
      have := h h3.1
      omega
    rw [if_neg h3]
    by_cases h4 : world.malloc o.blocksize = false
    · simp [hexit, h4]
    rw [if_neg h4]
    cases h5 : world.device o.device with
    | none => simp [hexit]
    | some dev =>
      simp only [not_and, not_or, not_exists, not_lt, Bool.not_eq_false] at h1 h2 h3 h4
      simp only [writeImage_wrote_iff, h2, h4, Option.some.injEq, exists_eq_left',
        Option.isSome_some, true_and]
      tauto

/-! ### Authentication -/

/-- The header lines of a request, without the request line. -/
def headerLines : ℕ → Bytes → List Bytes
  | 0, _ => []
  | n + 1, xs =>
      match line xs with
      | none => []
      | some (l, ys) => if l = [] then [] else l :: headerLines n ys

/-- An `Authorization` header of the request carries the Basic token `key`. -/
def Carries (xs key : Bytes) : Prop :=
  ∃ l ∈ headerLines xs.length ((line xs).elim [] Prod.snd),
    str "Authorization:" <+: l ∧ parseHash l = some key

/-- `main` started in HTTP mode with a file, a key and a realm. -/
structure HttpMode (build : Build) (world : World) (opts : List Opt) (o : Options)
    (file key realm : Bytes) : Prop where
  parsed : parseOpts build world.env.ulongMax opts = some o
  file : o.file = some file
  mode : o.httpMode = true
  key : o.key = some key
  realm : o.realm = some realm

/-- The header of the request without form data; no token is asked for. -/
theorem announced_noForm (env : Env) (file : Bytes) :
    announced env (Args.start noFormRequest eager none none file) noFormRequest =
      .ret (.inr ⟨str "x", 14, noFormBody⟩) := by
  have hreq : noFormRequest = str "POST / HTTP/1.1" ++ crlf ++
      (block [contentType (str "x"), contentLength 14] ++ crlf ++ noFormBody) := by
    decide +kernel
  have hN : 14 ≤ env.ulongMax := by
    have := env.word
    omega
  have htext : ∀ l ∈ [contentType (str "x"), contentLength 14], l ≠ [] ∧ LineText l := by
    simp only [List.forall_mem_cons]
    refine ⟨⟨by decide, ⟨by decide, by decide, by decide, by decide⟩⟩,
      ⟨by decide +kernel, ⟨?_, ?_, ?_, ?_⟩⟩, by simp⟩ <;> decide +kernel
  have hblock := headerFrom_block (b := str "x") (by decide) (fitBoundary_singleton (by decide))
    (by decide) hN
    [contentType (str "x"), contentLength 14] noFormBody ⟨[], []⟩ 0 _ htext
    (by decide +kernel) (by decide +kernel) (Or.inl rfl) (Or.inl rfl) (Nat.lt_succ_self _)
  have hl : LineText (str "POST / HTTP/1.1") := ⟨by decide, by decide, by decide, by decide⟩
  rw [announced, hreq, hl.line]
  dsimp only
  rw [hblock]
  rfl

theorem not_carries_noForm (key : Bytes) : ¬ Carries noFormRequest key := by
  rintro ⟨l, hl, hp, -⟩
  have hlines : headerLines noFormRequest.length ((line noFormRequest).elim [] Prod.snd) =
      [contentType (str "x"), contentLength 14] := by decide +kernel
  rw [hlines] at hl
  revert l
  decide +kernel

/-- In HTTP mode `main` is `http_input` with the arguments cleared, and then `flash`. -/
theorem upgradeMain_wrote {build : Build} {world : World} {opts : List Opt} {o : Options}
    {file key realm : Bytes} (h : HttpMode build world opts o file key realm) {fd : Fd} {fuel : ℕ}
    {out : Outcome} (hout : upgradeMain build world opts fd fuel = .ret out) (hw : out.wrote ≠ []) :
    ∃ res, httpInput world.env fuel (Args.zero fd file) = .ret res ∧ res.status = .ready ∧
      out = flash build world { o with verify := false } (some res.filesize)
        ((world.content file).map (overlay res.written)) := by
  unfold upgradeMain at hout
  simp only [h.parsed, h.file, h.mode, if_true] at hout
  obtain ⟨res, hres, hout⟩ := Exec.bind_eq_ret hout
  refine ⟨res, hres, ?_⟩
  cases hs : res.status <;> simp only [hs] at hout <;> cases hout <;>
    first | exact ⟨rfl, rfl⟩ | exact absurd rfl hw

theorem upgradeMain_of_ready {build : Build} {world : World} {opts : List Opt} {o : Options}
    {file key realm : Bytes} (h : HttpMode build world opts o file key realm) {fd : Fd} {fuel : ℕ}
    {res : Result} (hres : httpInput world.env fuel (Args.zero fd file) = .ret res)
    (hready : res.status = .ready) :
    upgradeMain build world opts fd fuel =
      .ret (flash build world { o with verify := false } (some res.filesize)
        ((world.content file).map (overlay res.written))) := by
  unfold upgradeMain
  simp only [h.parsed, h.file, h.mode, if_true, hres, Exec.ret_bind, hready]

/-- **Whatever the key, the device is written without it exactly when it can be written.** -/
theorem authenticated_iff_not_flashable {build : Build} {world : World} {opts : List Opt}
    {o : Options} {file key realm : Bytes} (h : HttpMode build world opts o file key realm) :
    (∀ fd fuel out, upgradeMain build world opts fd fuel = .ret out → out.wrote ≠ [] →
      Carries fd.stream key) ↔ ¬ Flashable build world o file := by
  constructor
  · intro hall hf
    obtain ⟨old, hold, hroom⟩ := hf.room
    obtain ⟨f, hrun⟩ := noFormRequest_returns (announced_noForm world.env file) hf.opens
    refine not_carries_noForm key (hall ⟨noFormRequest, eager, 0⟩ f _
      (upgradeMain_of_ready h (hrun f le_rfl) rfl) (flash_wrote_iff.2 ?_))
    refine ⟨fun hg => ?_, hf.sysctl, ⟨_, by rw [hold]; rfl, ?_, fun hg => ?_⟩, hf.malloc,
      hf.device, hf.blocksize⟩
    · have := (hroom hg).1
      refine ⟨by change world.targetSize o ≠ 0; omega, fun n hn => ?_⟩
      cases hn
      exact this
    · simp [overlay, str]
    · rw [overlay_length]
      exact max_le (hroom hg).1 (hroom hg).2
  · intro hf fd fuel out hout hw
    obtain ⟨res, hres, hready, rfl⟩ := upgradeMain_wrote h hout hw
    obtain ⟨ho, hsize, h3⟩ := httpInput_ready (a := Args.zero fd file) (Nat.zero_lt_succ _) hres hready
    obtain ⟨hg, hsys, ⟨bytes, hbytes, -, hb⟩, hm, hd, hbs⟩ := flash_wrote_iff.1 hw
    obtain ⟨old, hold, rfl⟩ := Option.map_eq_some_iff.1 hbytes
    refine absurd ⟨ho, ⟨old, hold, fun hgeom => ?_⟩, hsys, hm, hd, hbs⟩ hf
    have h1 := (hg hgeom).2 _ rfl
    have h2 := hb hgeom
    rw [overlay_length] at h2
    rw [hsize] at h1
    exact ⟨h3.trans h1, (le_max_right _ _).trans h2⟩

/-- The options with which `UPGRADE_MODE` has `inetd` start the program. -/
def upgradeModeOpts : List Opt :=
  [.l (str "/dev/console"), .h, .H (str "YWRtaW46YWRtaW4="), .M (str "Secure Area"),
    .f (str "/dev/md0"), .d (str "/dev/map/upgrade")]

/-- The program as its makefile builds it. -/
def stockBuild : Build := ⟨false, true, true⟩

/-- A router on which everything works, with room for `n` bytes on the target. -/
def router (n : ℕ) : World where
  env := lp64
  content := fun _ => some [0]
  geomSize := fun _ => n
  stale := 0
  sysctl := true
  malloc := fun _ => true
  device := fun _ => some []
  takes := fun _ => true
  checkMd5 := fun _ _ => false

/-- The options that `UPGRADE_MODE` sets. -/
def upgradeModeOptions : Options :=
  { Options.default with
    httpMode := true
    key := some (str "YWRtaW46YWRtaW4=")
    realm := some (str "Secure Area")
    file := some (str "/dev/md0") }

theorem upgradeMode_httpMode (n : ℕ) : HttpMode stockBuild (router n) upgradeModeOpts
    upgradeModeOptions (str "/dev/md0") (str "YWRtaW46YWRtaW4=") (str "Secure Area") :=
  ⟨rfl, rfl, rfl, rfl, rfl⟩

theorem authenticated_iff_not_flashable_upgradeMode :
    ¬ Flashable stockBuild (router 2) upgradeModeOptions (str "/dev/md0") ∧
      ∀ fd fuel out, upgradeMain stockBuild (router 2) upgradeModeOpts fd fuel = .ret out →
        out.wrote ≠ [] → Carries fd.stream (str "YWRtaW46YWRtaW4=") := by
  have hsmall : ¬ Flashable stockBuild (router 2) upgradeModeOptions (str "/dev/md0") := by
    intro h
    obtain ⟨old, -, hroom⟩ := h.room
    have := (hroom rfl).1
    revert this
    decide
  exact ⟨hsmall, (authenticated_iff_not_flashable (upgradeMode_httpMode 2)).2 hsmall⟩

/-- The request without form data, and without any `Authorization` header, has the device
written. -/
theorem upgradeMode_writes_unauthenticated :
    ¬ ∀ fd fuel out, upgradeMain stockBuild (router 0x400000) upgradeModeOpts fd fuel = .ret out →
      out.wrote ≠ [] → Carries fd.stream (str "YWRtaW46YWRtaW4=") := by
  intro hall
  obtain ⟨f, hrun⟩ := noFormRequest_returns (announced_noForm lp64 (str "/dev/md0")) rfl
  refine not_carries_noForm _ (hall ⟨noFormRequest, eager, 0⟩ f _
    (upgradeMain_of_ready (upgradeMode_httpMode _) (hrun f le_rfl) rfl) (flash_wrote_iff.2 ?_))
  refine ⟨fun _ => ⟨by decide, fun n hn => ?_⟩, rfl, ⟨_, rfl, by decide, fun _ => by decide⟩, rfl,
    rfl, by decide⟩
  cases hn
  decide

end ZRouter.Upgrade
