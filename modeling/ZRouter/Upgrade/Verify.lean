import ZRouter.Lib.Memory
import ZRouter.Upgrade.Main

/-!
# The image on the device (`check_md5` and the write loop of `upgrade.c`)

`check_md5` hashes two fields of the image header and the `image_size` bytes after it; the write
loop copies the file to the device through one buffer.  `flashFrom` gives the blocks of that loop;
here the buffer, the device and its file offset are variables of their own.

* `checkMd5`, and `checkMd5_append`: the verdict does not depend on what follows the image;
* `Flash`, `writeLoop`, `flashOutcome`; `writeImage_eq` ties them to `writeImage`;
* what a run leaves on the device and when it reboots (`flash_exact`);
* the first verdict stops nothing (`bad_image_kept_out_iff`).
-/

namespace ZRouter.Upgrade

variable {Ctx : Type}

/-! ### `check_md5` -/

/-- What `check_md5` takes from the machine: whether `malloc` succeeds, and how four bytes are read
as a `uint32_t`. -/
structure Host where
  malloc : ℕ → Bool
  word : Bytes → ℕ

/-- `sizeof(struct image_header)`. -/
def headerSize : ℕ := 96

/-- `header.image_size`. -/
def imageSize (host : Host) (header : Bytes) : ℕ := host.word (peek header 0x28 4)

/-- `header.image_offset`, as bytes. -/
def imageOffset (header : Bytes) : Bytes := peek header 0x2c 4

/-- `header.image_device`. -/
def imageDevice (header : Bytes) : Bytes := peek header 0x30 32

/-- `header.image_digest`. -/
def imageDigest (header : Bytes) : Bytes := peek header 0x50 16

/-- The read loop of `check_md5`: `size` bytes are still to be hashed. -/
def digestLoop (h : IncrementalHash Ctx) (bs : ℕ) : ℕ → Ctx → ℕ → Bytes → Ctx
  | 0, c, _, _ => c
  | n + 1, c, size, rest =>
      match rest.take (if bs < size then bs else size) with
      | [] => c
      | buf => digestLoop h bs n (h.update c buf) (size - buf.length) (rest.drop buf.length)

/-- `check_md5` of a file with this content.  The size is put into an `int`; a negative one makes
`read()` fail, and `MD5Update` is then told to hash `(unsigned)-1` bytes. -/
def checkMd5 (h : IncrementalHash Ctx) (host : Host) (content : Bytes) (bs : ℕ) : Exec ℕ :=
  if host.malloc bs = false then .ret 1
  else
    let header := content.take headerSize
    if header.length ≠ headerSize then .ret 1
    else if 2 ^ 31 ≤ imageSize host header then .undefined
    else
      let c := h.update (h.update h.init (imageOffset header)) (imageDevice header)
      let c := digestLoop h bs (content.length + 1) c (imageSize host header)
        (content.drop headerSize)
      .ret (if h.final c = imageDigest header then 0 else 1)

/-- Counting the size down or cutting the file to that size first is the same. -/
theorem digestLoop_eq (h : IncrementalHash Ctx) {bs : ℕ} (n : ℕ) (c : Ctx) (size : ℕ)
    (rest : Bytes) :
    digestLoop h bs n c size rest = blockLoop bs h.update n c (rest.take size) := by
  induction n generalizing c size rest with
  | zero => rfl
  | succ n ih =>
    have hmin : (if bs < size then bs else size) = min bs size := by
      split <;> omega
    rw [digestLoop, blockLoop, hmin, List.take_take]
    cases hb : rest.take (min bs size) with
    | nil => rfl
    | cons b block =>
      have hlen : (rest.take (min bs size)).length = min (min bs size) rest.length :=
        List.length_take
      simp only [← hb, hlen, ih]
      -- what the next pass sees: by the count, and by the cut
      have hrest : (rest.drop (min (min bs size) rest.length)).take
          (size - min (min bs size) rest.length) = (rest.take size).drop bs := by
        rw [List.drop_take]
        rcases le_total bs size with hs | hs
        · rcases le_total bs rest.length with hr | hr
          · rw [min_eq_left hs, min_eq_left hr]
          · rw [min_eq_left hs, min_eq_right hr, List.drop_length,
              List.drop_of_length_le hr, List.take_nil, List.take_nil]
        · rw [min_eq_right hs, Nat.sub_eq_zero_of_le hs, List.take_zero]
          rcases le_total size rest.length with hr | hr
          · rw [min_eq_left hr, Nat.sub_self, List.take_zero]
          · rw [min_eq_right hr, List.drop_length, List.take_nil]
      rw [hrest]

/-- The verdict, without the loop: one hash of the two fields and the image. -/
theorem checkMd5_eq (h : IncrementalHash Ctx) {host : Host} {content : Bytes} {bs : ℕ}
    (hbs : 0 < bs) (hm : host.malloc bs = true) (hlen : headerSize ≤ content.length)
    (hsize : imageSize host (content.take headerSize) < 2 ^ 31) :
    checkMd5 h host content bs =
      .ret (if h.final (h.update (h.update h.init (imageOffset (content.take headerSize)))
          (imageDevice (content.take headerSize) ++
            (content.drop headerSize).take (imageSize host (content.take headerSize)))) =
        imageDigest (content.take headerSize) then 0 else 1) := by
  have hheader : (content.take headerSize).length = headerSize := by
    rw [List.length_take]
    omega
  have hfuel : ((content.drop headerSize).take
      (imageSize host (content.take headerSize))).length < content.length + 1 := by
    rw [List.length_take, List.length_drop]
    omega
  rw [checkMd5, if_neg (by simp [hm])]
  dsimp only
  rw [if_neg (by simp [hheader]), if_neg (by omega), digestLoop_eq,
    h.blockLoop_update hbs hfuel]

/-- What follows the image has no part in the verdict. -/
theorem checkMd5_append (h : IncrementalHash Ctx) {host : Host} {f rest : Bytes} {bs : ℕ}
    (hbs : 0 < bs) (hlen : headerSize ≤ f.length)
    (himage : headerSize + imageSize host (f.take headerSize) ≤ f.length) :
    checkMd5 h host (f ++ rest) bs = checkMd5 h host f bs := by
  have htake : (f ++ rest).take headerSize = f.take headerSize :=
    List.take_append_of_le_length hlen
  have hdrop : (f ++ rest).drop headerSize = f.drop headerSize ++ rest :=
    List.drop_append_of_le_length hlen
  have hheader : (f.take headerSize).length = headerSize := by
    rw [List.length_take]
    omega
  by_cases hm : host.malloc bs = false
  · rw [checkMd5, checkMd5, if_pos hm, if_pos hm]
  by_cases hsize : imageSize host (f.take headerSize) < 2 ^ 31
  · have hlen' : headerSize ≤ (f ++ rest).length := by
      rw [List.length_append]
      omega
    have hpart : imageSize host (f.take headerSize) ≤ (f.drop headerSize).length := by
      rw [List.length_drop]
      omega
    rw [checkMd5_eq h hbs (by simpa using hm) hlen' (by rwa [htake]),
      checkMd5_eq h hbs (by simpa using hm) hlen hsize, htake, hdrop,
      List.take_append_of_le_length hpart]
  · rw [checkMd5, checkMd5, htake]
    dsimp only
    rw [if_neg hm, if_neg hm, if_neg (by simp [hheader]), if_pos (by omega),
      if_neg (by simp [hheader]), if_pos (by omega)]

/-! ### The write loop -/

/-- The variables of the write loop: the number `c` of blocks so far, the buffer, the device with
its file offset, `exitcode`, and the blocks passed to `write()`. -/
structure Flash where
  c : ℕ
  buf : Bytes
  device : Bytes
  offset : ℕ
  exitcode : ℕ
  wrote : List Bytes

/-- One pass, after `fread` has delivered `data`.  `written c` is the number of bytes that the
`write()` number `c` takes, zero if it fails. -/
def Flash.pass (written : ℕ → ℕ) (bs : ℕ) (s : Flash) (data : Bytes) : Flash :=
  let buf := poke s.buf 0 data
  { c := s.c + 1
    buf := List.replicate bs 0
    device := poke s.device s.offset (buf.take (written s.c))
    offset := s.offset + written s.c
    exitcode := if written s.c ≠ bs then 7 else s.exitcode
    wrote := s.wrote ++ [buf] }

/-- The loop outside HTTP mode, over a file `f` and a device that holds `old`. -/
def writeLoop (written : ℕ → ℕ) (bs : ℕ) (old f : Bytes) : Flash :=
  blockLoop bs (Flash.pass written bs) (f.length + 1) ⟨0, List.replicate bs 0, old, 0, 0, []⟩ f

/-- What follows the loop: the check of what is on the device, and the reboot. -/
def flashOutcome (build : Build) (o : Options) (verdict : Bytes → Bool) (s : Flash) : Outcome :=
  let exitcode := if build.useMd5 && o.verify && verdict s.device then 7 else s.exitcode
  ⟨exitcode, s.wrote, if o.rebt && exitcode = 0 then some o.doSync else none⟩

/-- The state of the loop after `done` was read: the blocks hold the file, padded; the error code
tells whether a write went wrong, and while none did the device holds what was written. -/
structure Flash.Inv (written : ℕ → ℕ) (bs : ℕ) (old : Bytes) (s : Flash) (done : Bytes) : Prop where
  buf : s.buf = List.replicate bs 0
  blocks : s.wrote.flatten = padded bs done
  count : s.wrote.length = s.c
  code : s.exitcode = if ∀ c < s.c, written c = bs then 0 else 7
  offset : (∀ c < s.c, written c = bs) → s.offset = roundUp bs done.length
  device : (∀ c < s.c, written c = bs) →
    s.device = padded bs done ++ old.drop (roundUp bs done.length)

/-- `fread` into a cleared buffer. -/
theorem poke_cleared {bs : ℕ} {data : Bytes} :
    poke (List.replicate bs 0) 0 data = data ++ List.replicate (bs - data.length) 0 := by
  simp [poke]

theorem Flash.Inv.pass {written : ℕ → ℕ} {bs : ℕ} {old : Bytes} {s : Flash} {done block : Bytes}
    (hI : Flash.Inv written bs old s done) (hdvd : bs ∣ done.length) (hne : block ≠ [])
    (hle : block.length ≤ bs) :
    Flash.Inv written bs old (Flash.pass written bs s block) (done ++ block) := by
  have hpos : 0 < block.length := List.length_pos_of_ne_nil hne
  have hbs : 0 < bs := by omega
  have hbuf : poke s.buf 0 block = block ++ List.replicate (bs - block.length) 0 := by
    rw [hI.buf, poke_cleared]
  have hpad : padded bs (done ++ block) = done ++ poke s.buf 0 block := by
    rw [padded_append hbs hdvd hne hle, hbuf]
  have hround : roundUp bs (done ++ block).length = done.length + bs := by
    rw [List.length_append, roundUp_add hbs hdvd hpos hle]
  have hlen : (poke s.buf 0 block).length = bs := by
    rw [hbuf, List.length_append, List.length_replicate]
    omega
  -- the writes so far all went well, and this one too
  have hall : ∀ {n : ℕ}, (∀ c < n + 1, written c = bs) ↔ (∀ c < n, written c = bs) ∧ written n = bs :=
    Nat.forall_lt_succ_right
  have hdone := roundUp_of_dvd hbs hdvd
  refine ⟨rfl, ?_, ?_, ?_, ?_, ?_⟩
  · change (s.wrote ++ [poke s.buf 0 block]).flatten = _
    rw [List.flatten_append, hI.blocks, padded_of_dvd hbs hdvd, hpad]
    simp
  · change (s.wrote ++ [_]).length = s.c + 1
    rw [List.length_append, hI.count]
    rfl
  · change (if written s.c ≠ bs then 7 else s.exitcode) = if ∀ c < s.c + 1, written c = bs then 0 else 7
    rw [hI.code]
    by_cases h1 : written s.c = bs
    · rw [if_neg (not_not.2 h1)]
      simp only [hall, h1, and_true]
    · rw [if_pos h1, if_neg]
      exact fun h => h1 (hall.1 h).2
  · intro h
    obtain ⟨h0, h1⟩ := hall.1 h
    change s.offset + written s.c = _
    rw [hI.offset h0, h1, hdone, hround]
  · intro h
    obtain ⟨h0, h1⟩ := hall.1 h
    have htake : (poke s.buf 0 block).take (written s.c) = poke s.buf 0 block := by
      rw [h1, ← hlen, List.take_length]
    change poke s.device s.offset ((poke s.buf 0 block).take (written s.c)) = _
    rw [htake, hI.device h0, hI.offset h0, hdone, padded_of_dvd hbs hdvd, hpad, hround, poke, hlen,
      List.take_left, ← List.drop_drop, List.drop_left, List.drop_drop]

/-- The invariant at the end of the loop. -/
theorem writeLoop_inv {written : ℕ → ℕ} {bs : ℕ} (hbs : 0 < bs) (old f : Bytes) :
    Flash.Inv written bs old (writeLoop written bs old f) f := by
  have h0 : roundUp bs 0 = 0 := roundUp_of_dvd hbs (dvd_zero bs)
  have hstart : Flash.Inv written bs old ⟨0, List.replicate bs 0, old, 0, 0, []⟩ [] := by
    refine ⟨rfl, ?_, rfl, ?_, fun _ => ?_, fun _ => ?_⟩ <;> simp [padded, h0]
  exact blockLoop_file hbs (Flash.pass written bs) (Flash.Inv written bs old) hstart
    (fun s done block hI hdvd hne hle => hI.pass hdvd hne hle) f

/-- The blocks and the result of the writes are those of `flashFrom`. -/
theorem blockLoop_flashFrom {written : ℕ → ℕ} {bs : ℕ} (n : ℕ) (s : Flash) (rest : Bytes)
    (hbuf : s.buf = List.replicate bs 0) :
    (blockLoop bs (Flash.pass written bs) n s rest).wrote =
        s.wrote ++ (flashFrom (fun c => written c = bs) none bs n s.c rest).1 ∧
      (blockLoop bs (Flash.pass written bs) n s rest).exitcode =
        if (flashFrom (fun c => written c = bs) none bs n s.c rest).2 then s.exitcode else 7 := by
  induction n generalizing s rest with
  | zero => simp [blockLoop, flashFrom]
  | succ n ih =>
    rw [blockLoop, flashFrom]
    cases hb : rest.take bs with
    | nil => simp
    | cons b block =>
      have hih := ih (Flash.pass written bs s (rest.take bs)) (rest.drop bs) rfl
      have hpoke : poke s.buf 0 (rest.take bs) =
          rest.take bs ++ List.replicate (bs - (rest.take bs).length) 0 := by
        rw [hbuf, poke_cleared]
      simp only [← hb]
      rw [hih.1, hih.2, if_neg (by simp [hb])]
      simp only [Flash.pass, hpoke, List.append_assoc, List.singleton_append, true_and]
      by_cases hw : written s.c = bs <;> simp [hw]

/-- `writeImage` is the loop and what follows it.  After a write that failed the read-back may see
anything, but the program is then past rebooting. -/
theorem writeImage_eq {build : Build} {world : World} {o : Options} {written : ℕ → ℕ}
    (hbs : 0 < o.blocksize) (htakes : ∀ c, world.takes c = decide (written c = o.blocksize))
    (f old : Bytes) :
    writeImage build world o none f old =
      flashOutcome build o (world.checkMd5 · o.blocksize) (writeLoop written o.blocksize old f) := by
  have hfun : world.takes = fun c => decide (written c = o.blocksize) := funext htakes
  obtain ⟨hblocks, hcode⟩ := @blockLoop_flashFrom written o.blocksize (f.length + 1)
    ⟨0, List.replicate o.blocksize 0, old, 0, 0, []⟩ f rfl
  have hinv := @writeLoop_inv written o.blocksize hbs old f
  change (writeLoop written o.blocksize old f).wrote = [] ++ _ at hblocks
  change (writeLoop written o.blocksize old f).exitcode = _ at hcode
  rw [List.nil_append] at hblocks
  unfold writeImage flashOutcome
  rw [hfun, hblocks, hcode]
  dsimp only
  generalize hok : (flashFrom (fun c => decide (written c = o.blocksize)) none o.blocksize
    (f.length + 1) 0 f).2 = ok at hcode
  cases ok with
  | false => simp
  | true =>
    -- every write went well, so the device is the overlay of the blocks
    have hall : ∀ c < (writeLoop written o.blocksize old f).c, written c = o.blocksize := by
      by_contra hne
      have := hinv.code
      rw [hcode, if_neg hne] at this
      simp at this
    have hdev : overlay (flashFrom (fun c => decide (written c = o.blocksize)) none o.blocksize
        (f.length + 1) 0 f).1.flatten old = (writeLoop written o.blocksize old f).device := by
      rw [← hblocks, hinv.blocks, hinv.device hall, overlay, length_padded hbs]
    rw [hdev]
    simp

/-! ### Flashing writes the image and nothing else -/

/-- `main` started with a file, outside HTTP mode. -/
structure FileMode (build : Build) (world : World) (opts : List Opt) (o : Options) (file : Bytes) :
    Prop where
  parsed : parseOpts build world.env.ulongMax opts = some o
  file : o.file = some file
  mode : o.httpMode = false

/-- Outside HTTP mode `main` is `flash`. -/
theorem upgradeMain_fileMode {build : Build} {world : World} {opts : List Opt} {o : Options}
    {file f : Bytes} (hmode : FileMode build world opts o file)
    (hf : world.content file = some f) (fd : Fd) (fuel : ℕ) :
    upgradeMain build world opts fd fuel = .ret (flash build world o none (some f)) := by
  unfold upgradeMain
  simp [hmode.parsed, hmode.file, hmode.mode, hf]

/-- Only the write loop leads to a reboot. -/
theorem flash_of_reboot {build : Build} {world : World} {o : Options} {f old : Bytes}
    (hold : world.device o.device = some old)
    (hreboot : (flash build world o none (some f)).reboot ≠ none) :
    flash build world o none (some f) = writeImage build world o none f old := by
  unfold flash at hreboot ⊢
  dsimp only at hreboot ⊢
  rw [hold] at hreboot ⊢
  split_ifs at hreboot ⊢ <;> first | rfl | exact absurd rfl hreboot

/-- The reboot after the write loop needs every write to succeed and the check to pass. -/
theorem writeImage_reboot {build : Build} {world : World} {o : Options} {f old : Bytes}
    {written : ℕ → ℕ} (hbs : 0 < o.blocksize)
    (htakes : ∀ c, world.takes c = decide (written c = o.blocksize))
    (hreboot : (writeImage build world o none f old).reboot ≠ none) :
    (∀ c < (writeLoop written o.blocksize old f).c, written c = o.blocksize) ∧
      (build.useMd5 = true → o.verify = true →
        world.checkMd5 (writeLoop written o.blocksize old f).device o.blocksize = false) := by
  have hinv := @writeLoop_inv written o.blocksize hbs old f
  rw [writeImage_eq hbs htakes, flashOutcome] at hreboot
  -- the exit code is zero, so neither source of an error applies
  by_cases hbad : (build.useMd5 && o.verify &&
      world.checkMd5 (writeLoop written o.blocksize old f).device o.blocksize) = true
  · simp [hbad] at hreboot
  by_cases hall : ∀ c < (writeLoop written o.blocksize old f).c, written c = o.blocksize
  · refine ⟨hall, fun hmd5 hverify => ?_⟩
    simpa [hmd5, hverify] using hbad
  · have hcode := hinv.code
    rw [if_neg hall] at hcode
    simp [hbad, hcode] at hreboot

/-- **The device after a run, the verdict on it, and the reboot.**  If every write succeeds, the
device holds the file, zeros up to the end of the last block and its old content; the check then
gives the same verdict on the device as on the file.  Whatever the writes and the check on the device
give, `main` reboots only if every write succeeded and the check, when it is made, passed. -/
theorem flash_exact (h : IncrementalHash Ctx) (host : Host) {bs : ℕ} (hbs : 0 < bs)
    (f old : Bytes) (hroom : roundUp bs f.length ≤ old.length) (written : ℕ → ℕ) :
    ((∀ c < (writeLoop written bs old f).c, written c = bs) →
      (writeLoop written bs old f).device =
          f ++ List.replicate (roundUp bs f.length - f.length) 0 ++
            old.drop (roundUp bs f.length) ∧
        (writeLoop written bs old f).device.length = old.length ∧
        (headerSize ≤ f.length → headerSize + imageSize host (f.take headerSize) ≤ f.length →
          checkMd5 h host (writeLoop written bs old f).device bs = checkMd5 h host f bs)) ∧
    ∀ build world opts o file fd fuel out, FileMode build world opts o file →
      world.content file = some f → world.device o.device = some old → o.blocksize = bs →
      (∀ c, world.takes c = decide (written c = bs)) →
      upgradeMain build world opts fd fuel = .ret out → out.reboot ≠ none →
        (∀ c < (writeLoop written bs old f).c, written c = bs) ∧
        (build.useMd5 = true → o.verify = true →
          world.checkMd5 (writeLoop written bs old f).device bs = false) := by
  have hinv := @writeLoop_inv written bs hbs old f
  constructor
  · intro hall
    have hdev := hinv.device hall
    refine ⟨hdev, ?_, fun hlen himage => ?_⟩
    · rw [hdev, List.length_append, length_padded hbs, List.length_drop]
      omega
    · rw [hdev, padded, List.append_assoc]
      exact checkMd5_append h hbs hlen himage
  · rintro build world opts o file fd fuel out hmode hf hold rfl htakes hout hreboot
    rw [upgradeMain_fileMode hmode hf] at hout
    cases hout
    rw [flash_of_reboot hold hreboot] at hreboot
    exact writeImage_reboot hbs htakes hreboot

/-- A hash for examples: the first sixteen bytes. -/
def firstBytes : IncrementalHash Bytes where
  init := []
  update := fun c xs => c ++ xs
  final := fun c => (c ++ List.replicate 16 0).take 16
  update_append := fun c xs ys => List.append_assoc c xs ys
  length_final := fun c => by
    rw [List.length_take, List.length_append, List.length_replicate]
    omega

/-- A little-endian machine with enough memory. -/
def leHost : Host := ⟨fun _ => true, leVal⟩

theorem flash_exact_zeros :
    roundUp 64 100 ≤ 200 ∧
      (writeLoop (fun _ => 64) 64 (List.replicate 200 1) (List.replicate 100 0)).device =
        List.replicate 128 0 ++ List.replicate 72 1 := by
  have hroom : roundUp 64 100 ≤ 200 := by decide
  have hlen : roundUp 64 (List.replicate 100 (0 : UInt8)).length ≤
      (List.replicate 200 (1 : UInt8)).length := by
    rwa [List.length_replicate, List.length_replicate]
  have hrun := (flash_exact firstBytes leHost (by decide) (List.replicate 100 0)
    (List.replicate 200 1) hlen (fun _ => 64)).1 (fun _ _ => rfl)
  refine ⟨hroom, hrun.1.trans ?_⟩
  decide +kernel

/-! ### A bad image -/

/-- The file can be written to the device: it is not empty, the target has room for it, and nothing
that `main` asks for fails. -/
structure Writable (build : Build) (world : World) (o : Options) (f : Bytes) : Prop where
  content : f ≠ []
  room : build.useGeomGetSize = true → world.targetSize o ≠ 0 ∧ f.length ≤ world.targetSize o
  sysctl : world.sysctl = true
  malloc : world.malloc o.blocksize = true
  device : (world.device o.device).isSome = true
  blocksize : 0 < o.blocksize

/-- Outside HTTP mode the device is written exactly when it can be. -/
theorem fileMode_wrote_iff {build : Build} {world : World} {opts : List Opt} {o : Options}
    {file f : Bytes} (hmode : FileMode build world opts o file)
    (hf : world.content file = some f) (fd : Fd) (fuel : ℕ) :
    ∃ out, upgradeMain build world opts fd fuel = .ret out ∧
      (out.wrote ≠ [] ↔ Writable build world o f) := by
  refine ⟨_, upgradeMain_fileMode hmode hf fd fuel, ?_⟩
  rw [flash_wrote_iff]
  constructor
  · rintro ⟨hg, hsys, ⟨_, ⟨⟩, hne, hb⟩, hm, hd, hbs⟩
    exact ⟨hne, fun hgeom => ⟨(hg hgeom).1, hb hgeom⟩, hsys, hm, hd, hbs⟩
  · intro hw
    refine ⟨fun hgeom => ⟨(hw.room hgeom).1, by simp⟩, hw.sysctl, ⟨f, rfl, hw.content, ?_⟩,
      hw.malloc, hw.device, hw.blocksize⟩
    exact fun hgeom => (hw.room hgeom).2

/-- **Verification keeps no bad image from the device.**  With verification on, an image that
`check_md5` rejects is not written exactly when no image of that length could be. -/
theorem bad_image_kept_out_iff (h : IncrementalHash Ctx) (word : Bytes → ℕ) {build : Build}
    {world : World} {opts : List Opt} {o : Options} {file : Bytes}
    (hmode : FileMode build world opts o file) (_hmd5 : build.useMd5 = true)
    (_hverify : o.verify = true) (fd : Fd) (fuel : ℕ) :
    ∀ f r, world.content file = some f →
      checkMd5 h ⟨world.malloc, word⟩ f o.blocksize = .ret r → r ≠ 0 →
      ((∃ out, upgradeMain build world opts fd fuel = .ret out ∧ out.wrote = []) ↔
        ¬ Writable build world o f) := by
  intro f r hf _ _
  obtain ⟨out, hout, hiff⟩ := fileMode_wrote_iff hmode hf fd fuel
  rw [← hiff, hout]
  simp

/-- The program built with `USE_MD5`. -/
def md5Build : Build := ⟨true, false, true⟩

/-- The options of a run with `-f new.img` and the given block size. -/
def fileOptions (bs : ℕ) : Options :=
  { Options.default with
    file := some (str "new.img")
    blocksize := bs }

theorem router_fileMode : FileMode md5Build (router 0) [.f (str "new.img"), .s (str "0x10000")]
    (fileOptions 0x10000) (str "new.img") :=
  ⟨by rfl, rfl, rfl⟩

/-- The image on `router`, one zero byte, has no header. -/
theorem checkMd5_short (bs : ℕ) : checkMd5 firstBytes leHost [0] bs = .ret 1 := rfl

theorem bad_image_kept_out_iff_zeroBlocks :
    ¬ Writable md5Build (router 0) (fileOptions 0) [0] ∧
      ∃ out, upgradeMain md5Build (router 0) [.f (str "new.img"), .s (str "0")]
        ⟨[], eager, 0⟩ 0 = .ret out ∧ out.wrote = [] := by
  have hmode : FileMode md5Build (router 0) [.f (str "new.img"), .s (str "0")] (fileOptions 0)
      (str "new.img") := ⟨by rfl, rfl, rfl⟩
  have hnot : ¬ Writable md5Build (router 0) (fileOptions 0) [0] :=
    fun hw => absurd hw.blocksize (by decide)
  exact ⟨hnot, (bad_image_kept_out_iff firstBytes leVal hmode rfl rfl ⟨[], eager, 0⟩ 0 [0] 1 rfl
    (checkMd5_short 0) one_ne_zero).2 hnot⟩

/-- An image without a header is rejected by `check_md5`, and written. -/
theorem short_image_written :
    ¬ ∀ f r out, (router 0).content (str "new.img") = some f →
      checkMd5 firstBytes leHost f 0x10000 = .ret r → r ≠ 0 →
      upgradeMain md5Build (router 0) [.f (str "new.img"), .s (str "0x10000")]
        ⟨[], eager, 0⟩ 0 = .ret out → out.wrote = [] := by
  intro hall
  obtain ⟨out, hout, hiff⟩ := fileMode_wrote_iff router_fileMode rfl ⟨[], eager, 0⟩ 0
  refine hiff.2 ?_ (hall [0] 1 out rfl (checkMd5_short _) one_ne_zero hout)
  exact ⟨by decide, fun hgeom => absurd hgeom (by decide), rfl, rfl, rfl, by decide⟩

end ZRouter.Upgrade
