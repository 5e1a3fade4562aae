import ZRouter.Tools.Packimage
import ZRouter.Upgrade.Blocks
import ZRouter.Upgrade.Multipart

/-!
# From the packer to the device

An image leaves `packimage`, comes in through the form that `upgrade` serves, or as a file, and is written
to the device in blocks.

* `flashFrom_covers`, `flashFrom_takes`: the blocks reach as far as the upload, and all of them count for
  the exit code;
* `Ready`, `flash_eq`: `main` comes to the write loop;
* `Written`, `writeImage_written`: what a run leaves on the device;
* `IsPacked`, `packed_isPacked`: what `packimage` writes, and that `check_md5` accepts it with anything
  behind it;
* `packed_upload_flashed`, `packed_file_flashed`: a packed image on the device.
-/

namespace ZRouter.Tools

open ZRouter.Upgrade

variable {Ctx : Type}

/-! ### The write loop -/

section Loop

variable {takes : ℕ → Bool} {size : Option ℕ} {B : ℕ}

/-- The loop does not end before the upload. -/
theorem flashFrom_covers (hB : 0 < B) {n : ℕ} {rest : Bytes} (hn : rest.length < n) :
    size.getD rest.length ≤ rest.length →
      size.getD rest.length ≤ (flashFrom takes size B n 0 rest).1.length * B := by
  intro hle
  rcases (flashFrom_length_le_iff hB n 0 rest _ hn).1 (le_refl (flashFrom takes size B n 0 rest).1.length)
    with h | ⟨fs, hfs, j, hj, h⟩
  · exact hle.trans h
  · obtain rfl : size = some fs := hfs
    calc fs ≤ u32 ((0 + j) * B) := h
      _ ≤ (0 + j) * B := u32_le _
      _ ≤ _ := Nat.mul_le_mul_right B (by omega)

/-- What the loop makes of the results of `write()`. -/
theorem flashFrom_takes : ∀ (n c : ℕ) (rest : Bytes),
    (flashFrom takes size B n c rest).2 = true ↔
      ∀ j < (flashFrom takes size B n c rest).1.length, takes (c + j) = true := by
  intro n
  induction n with
  | zero => simp [flashFrom]
  | succ n ih =>
    intro c rest
    have hcons : ∀ k, (takes c = true ∧ ∀ j < k, takes (c + 1 + j) = true) ↔
        ∀ j < k + 1, takes (c + j) = true := by
      intro k
      rw [Nat.forall_lt_succ_left]
      simp only [Nat.add_zero, Nat.add_assoc, Nat.add_comm 1]
    rw [flashFrom]
    dsimp only
    by_cases hbuf : rest.take B = []
    · simp [hbuf]
    rw [if_neg hbuf]
    cases size with
    | none => simpa [ih] using hcons _
    | some fs =>
      by_cases hstop : fs ≤ u32 (c * B)
      · simp [hstop]
      · simpa [hstop, ih] using hcons _

/-- The blocks start with the upload, and so does the device. -/
theorem prefix_blocks (hB : 0 < B) {n : ℕ} {F more old : Bytes}
    (hn : (F ++ more).length < n) (hsize : size.getD (F ++ more).length = F.length) :
    F <+: Upgrade.overlay (flashFrom takes size B n 0 (F ++ more)).1.flatten old := by
  have hcover := @flashFrom_covers takes size B hB n (F ++ more) hn (by rw [hsize, List.length_append]; omega)
  rw [hsize] at hcover
  rw [Upgrade.overlay, flashFrom_flatten hB]
  obtain ⟨m, hm⟩ := Nat.exists_eq_add_of_le hcover
  rw [hm, List.take_append, List.take_of_length_le (by omega)]
  simp only [List.append_assoc]
  exact List.prefix_append _ _

end Loop

/-! ### What `main` does -/

/-- Nothing that `main` asks for before the write loop fails; the target, which holds `old`, has room for
what is read. -/
structure Ready (build : Build) (world : World) (o : Options) (size : Option ℕ) (bytes old : Bytes) :
    Prop where
  room : build.useGeomGetSize = true → world.targetSize o ≠ 0 ∧ (∀ n ∈ size, n ≤ world.targetSize o) ∧
    bytes.length ≤ world.targetSize o
  sysctl : world.sysctl = true
  malloc : world.malloc o.blocksize = true
  device : world.device o.device = some old
  blocksize : 0 < o.blocksize

theorem flash_eq {build : Build} {world : World} {o : Options} {size : Option ℕ} {bytes old : Bytes}
    (h : Ready build world o size bytes old) :
    flash build world o size (some bytes) = writeImage build world o size bytes old := by
  have h1 : ¬ (build.useGeomGetSize = true ∧ (world.targetSize o = 0 ∨
      ∃ n ∈ size, world.targetSize o < n)) := by
    rintro ⟨hg, h0 | ⟨n, hn, hlt⟩⟩
    · exact (h.room hg).1 h0
    · exact absurd ((h.room hg).2.1 n hn) (not_le_of_gt hlt)
  have h2 : ¬ (build.useGeomGetSize = true ∧ world.targetSize o < bytes.length) := fun hc =>
    absurd (h.room hc.1).2.2 (not_le_of_gt hc.2)
  unfold flash
  dsimp only
  change (if build.useGeomGetSize = true ∧ (world.targetSize o = 0 ∨ ∃ n ∈ size,
    world.targetSize o < n) then _ else if _ then _ else if build.useGeomGetSize = true ∧
    world.targetSize o < bytes.length then _ else _ : Outcome) = _
  rw [if_neg h1, h.sysctl, if_neg (by decide), if_neg h2, h.malloc, if_neg (by decide), h.device]

/-- What a run leaves behind that wrote `F` to a device with `old` on it: if all writes succeed, the device
starts with `F` and keeps what lies behind the blocks, and `main` is content unless the check behind the
writes, if it is made, fails; if one fails, it does not reboot. -/
structure Written (world : World) (o : Options) (checked : Bool) (F old : Bytes) (out : Outcome) : Prop where
  holds : F <+: Upgrade.overlay out.wrote.flatten old
  length : (Upgrade.overlay out.wrote.flatten old).length = max (out.wrote.length * o.blocksize) old.length
  beyond : (Upgrade.overlay out.wrote.flatten old).drop (out.wrote.length * o.blocksize) =
    old.drop (out.wrote.length * o.blocksize)
  exitcode : out.exitcode = if (∀ c < out.wrote.length, world.takes c = true) ∧
    (checked = true → world.checkMd5 (Upgrade.overlay out.wrote.flatten old) o.blocksize = false) then 0 else 7
  reboot : out.reboot = if o.rebt = true ∧ out.exitcode = 0 then some o.doSync else none

theorem writeImage_written {build : Build} {world : World} {o : Options} {size : Option ℕ}
    {F more : Bytes} (old : Bytes) (hB : 0 < o.blocksize)
    (hsize : size.getD (F ++ more).length = F.length) :
    Written world o (build.useMd5 && o.verify) F old (writeImage build world o size (F ++ more) old) := by
  have hholds := @prefix_blocks world.takes size o.blocksize hB _ F more old
    (Nat.lt_succ_self (F ++ more).length) hsize
  have hflat := @flashFrom_flatten world.takes size o.blocksize hB ((F ++ more).length + 1) 0 (F ++ more)
  have htakes := @flashFrom_takes world.takes size o.blocksize ((F ++ more).length + 1) 0 (F ++ more)
  unfold writeImage
  generalize flashFrom world.takes size o.blocksize ((F ++ more).length + 1) 0 (F ++ more) = p
    at hholds hflat htakes
  obtain ⟨blocks, ok⟩ := p
  dsimp only [Nat.zero_add] at hholds hflat htakes
  have hlen : blocks.flatten.length = blocks.length * o.blocksize := by
    rw [hflat, List.length_append, List.length_take, List.length_replicate]
    omega
  simp only [Nat.zero_add] at htakes
  refine ⟨hholds, ?_, ?_, ?_, ?_⟩
  · rw [overlay_length, hlen]
  · rw [Upgrade.overlay, ← hlen, List.drop_left]
  · simp only [← htakes]
    cases ok <;> cases build.useMd5 && o.verify <;>
      cases world.checkMd5 (Upgrade.overlay blocks.flatten old) o.blocksize <;> rfl
  · simp only [Bool.and_eq_true, decide_eq_true_eq]

/-- Nothing that can be written is changed behind the image. -/
theorem Written.image {world : World} {o : Options} {checked : Bool} {F old : Bytes} {out : Outcome}
    (h : Written world o checked F old out) :
    ∃ rest, Upgrade.overlay out.wrote.flatten old = F ++ rest :=
  h.holds.imp fun _ => Eq.symm

/-! ### A packed image -/

/-- An image with the kernel `K` and the root file system `R`, packed in blocks of `bs` bytes: where they
lie, and that `check_md5` accepts whatever starts with it. -/
structure IsPacked (h : IncrementalHash Ctx) (host : Host) (bs : ℕ) (K R image : Bytes) : Prop where
  layout : ∃ header, header.length = headerSize ∧ image = header ++ (padded bs K ++
    (str "--PaCkImGs--" ++ List.replicate 4 0 ++ ((leBytes 4 R.length).reverse ++ List.replicate 12 0) ++ R))
  verified : ∀ rest bs', 0 < bs' → host.malloc bs' = true → checkMd5 h host (image ++ rest) bs' = .ret 0

theorem packed_isPacked (h : IncrementalHash Ctx) {w : PackWorld} {host : Host} {opts : List PackOpt}
    {kernel rootfs K R image : Bytes} {bs code : ℕ} (hgiven : PackOptions.Given w opts kernel rootfs bs)
    (hworks : w.Works bs kernel rootfs K R) (hbs : 0 < bs) (hle : host.word = leVal)
    (hpacked : packimage h w opts = ⟨code, some image⟩) (hsize : image.length < 2 ^ 31) :
    IsPacked h host bs K R image := by
  obtain ⟨code', hpack⟩ := packimage_eq h hgiven hworks hbs
  have himage := Option.some.inj (PackResult.mk.inj (hpacked.symm.trans hpack)).2
  have hlen : (payload bs K R).length ≤ image.length := by
    rw [himage, List.length_append]
    omega
  have hn : (payload bs K R).length < 2 ^ 32 := by omega
  have hR : R.length < 2 ^ 32 := by
    rw [payload, List.length_append, List.length_append] at hn
    omega
  obtain ⟨hoff, hdev⟩ := sizedHeader_fields hn
  rw [hoff, hdev] at himage
  have hd := h.length_final (h.update (h.update h.init (List.replicate 4 0))
    (headerDevice ++ payload bs K R))
  generalize hdigest : h.final (h.update (h.update h.init (List.replicate 4 0))
    (headerDevice ++ payload bs K R)) = digest at himage hd
  obtain ⟨f1, f2, f3, f4, f5⟩ := header_fields hle hn hd
  generalize poke (sizedHeader (payload bs K R).length) 0x50 digest = header at himage f1 f2 f3 f4 f5
  refine ⟨⟨header, f1, by rw [himage, payload, splitHeader_eq hR]⟩, fun rest bs' hbs' hmalloc => ?_⟩
  have htake : (image ++ rest).take headerSize = header := by
    rw [himage, List.append_assoc, ← f1, List.take_left]
  have hdrop : (image ++ rest).drop headerSize = payload bs K R ++ rest := by
    rw [himage, List.append_assoc, ← f1, List.drop_left]
  have hheader : headerSize ≤ (image ++ rest).length := by
    rw [himage, List.append_assoc, List.length_append, f1]
    omega
  rw [checkMd5_eq h hbs' hmalloc hheader (by rw [htake, f2]; omega), htake, hdrop, f2, f3, f4, f5,
    List.take_left, hdigest, if_pos rfl]

/-! ### An upload -/

/-- **An upload on the device.**  `main` in HTTP mode gets a form from a socket that delivers what is asked
for, and the staging file and the device are there with enough room: the run ends with the firmware at the
start of the device. -/
theorem upload_flashed {build : Build} {world : World} {opts : List Opt} {o : Options}
    {file key realm staging old : Bytes} (hmode : HttpMode build world opts o file key realm)
    {u : Multipart} (hu : u.Regular) {s : Schedule} (hs : Full s) (rest : Bytes)
    (hopens : world.env.opens file = true) (hstaging : world.content file = some staging)
    (hready : Ready build world o (some u.firmware.content.length)
      (Upgrade.overlay u.firmware.content staging) old) :
    ∃ out, Exec.Eventually (fun fuel => upgradeMain build world opts ⟨u.request ++ rest, s, 0⟩ fuel)
        (.ret out) ∧ Written world o false u.firmware.content old out := by
  obtain ⟨n, hrun⟩ := hu.returns_ready world.env rest hs.positive (hs.deliversTo _ _ _ _) hopens
    (Or.inl rfl : (none : Option Bytes) = none ∨ (none : Option Bytes) = none ∨ _)
  have hready' : Ready build world { o with verify := false } (some u.firmware.content.length)
      (Upgrade.overlay u.firmware.content staging) old :=
    ⟨hready.room, hready.sysctl, hready.malloc, hready.device, hready.blocksize⟩
  have hwritten : Written world { o with verify := false } (build.useMd5 && false) u.firmware.content old
      (writeImage build world { o with verify := false } (some u.firmware.content.length)
        (Upgrade.overlay u.firmware.content staging) old) :=
    writeImage_written old hready.blocksize rfl
  refine ⟨_, ⟨n, fun fuel hfuel => upgradeMain_of_ready hmode (hrun fuel hfuel) rfl⟩, ?_⟩
  dsimp only
  rw [hstaging, Option.map_some, flash_eq hready']
  rw [Bool.and_false] at hwritten
  exact ⟨hwritten.holds, hwritten.length, hwritten.beyond, hwritten.exitcode, hwritten.reboot⟩

/-- **From the packer to the device, through the form.**  What `packimage` writes is uploaded as the firmware
of a form.  Where all writes succeed, the device then starts with the image, `check_md5` of the device
returns zero for every block size, although `main` does not make that check in HTTP mode, and the router
reboots unless it was told not to. -/
theorem packed_upload_flashed (h : IncrementalHash Ctx) {w : PackWorld} {host : Host}
    {popts : List PackOpt} {kernel rootfs K R : Bytes} {bs code : ℕ}
    (hgiven : PackOptions.Given w popts kernel rootfs bs) (hworks : w.Works bs kernel rootfs K R)
    (hbs : 0 < bs) (hle : host.word = leVal) {u : Multipart} (hu : u.Regular)
    (hpacked : packimage h w popts = ⟨code, some u.firmware.content⟩) {build : Build} {world : World}
    {opts : List Opt} {o : Options} {file key realm staging old : Bytes}
    (hmode : HttpMode build world opts o file key realm) {s : Schedule} (hs : Full s) (rest : Bytes)
    (hopens : world.env.opens file = true) (hstaging : world.content file = some staging)
    (hready : Ready build world o (some u.firmware.content.length)
      (Upgrade.overlay u.firmware.content staging) old) (htakes : ∀ c, world.takes c = true) :
    ∃ out more, Exec.Eventually (fun fuel => upgradeMain build world opts ⟨u.request ++ rest, s, 0⟩ fuel)
        (.ret out) ∧
      Upgrade.overlay out.wrote.flatten old = u.firmware.content ++ more ∧
      IsPacked h host bs K R u.firmware.content ∧
      (∀ bs', 0 < bs' → host.malloc bs' = true →
        checkMd5 h host (Upgrade.overlay out.wrote.flatten old) bs' = .ret 0) ∧
      out.exitcode = 0 ∧ out.reboot = if o.rebt then some o.doSync else none := by
  obtain ⟨out, hrun, hwritten⟩ := upload_flashed hmode hu hs rest hopens hstaging hready
  obtain ⟨more, hmore⟩ := hwritten.image
  have hlen : u.firmware.content.length < 2 ^ 31 := by
    refine lt_of_le_of_lt ?_ hu.small
    simp only [Multipart.body, Multipart.content, List.length_append]
    omega
  have hpack := packed_isPacked h hgiven hworks hbs hle hpacked hlen
  have hexit : out.exitcode = 0 := by
    rw [hwritten.exitcode, if_pos ⟨fun c _ => htakes c, fun hf => absurd hf Bool.false_ne_true⟩]
  refine ⟨out, more, hrun, hmore, hpack, fun bs' hbs' hmalloc => ?_, hexit, ?_⟩
  · rw [hmore]
    exact hpack.verified more bs' hbs' hmalloc
  · rw [hwritten.reboot]
    simp [hexit]

/-- A machine on which both files hold a hundred bytes. -/
def buildHost : PackWorld := { workstation with content := fun _ => some (List.replicate 100 1) }

/-- The image that it packs in blocks of four bytes. -/
def smallImage : Bytes :=
  ((packimage firstBytes buildHost [.k (str "kernel"), .r (str "rootfs"), .s (str "4")]).outfile).getD []

theorem buildHost_given : PackOptions.Given buildHost [.k (str "kernel"), .r (str "rootfs"), .s (str "4")]
    (str "kernel") (str "rootfs") 4 := ⟨_, _, rfl⟩

theorem buildHost_works : buildHost.Works 4 (str "kernel") (str "rootfs") (List.replicate 100 1)
    (List.replicate 100 1) := ⟨rfl, rfl, rfl, rfl, fun _ => rfl, fun _ _ => rfl⟩

theorem smallImage_packed : ∃ code,
    packimage firstBytes buildHost [.k (str "kernel"), .r (str "rootfs"), .s (str "4")] =
      ⟨code, some smallImage⟩ := by
  obtain ⟨code, hpack⟩ := packimage_eq firstBytes buildHost_given buildHost_works (by decide)
  exact ⟨code, by rw [smallImage, hpack, Option.getD_some]⟩

/-- The image, behind a text field. -/
def smallForm : Multipart := textThenFirmware smallImage 461

theorem smallForm_regular : smallForm.Regular :=
  textThenFirmware_regular (by decide +kernel) (by refine ⟨?_, ?_, ?_, ?_⟩ <;> decide +kernel)
    (by decide +kernel) (by decide +kernel) (by decide)

theorem packed_upload_flashed_small :
    ∃ out more, Exec.Eventually (fun fuel => upgradeMain stockBuild (router 0x400000) upgradeModeOpts
        ⟨smallForm.request ++ [], eager, 0⟩ fuel) (.ret out) ∧
      Upgrade.overlay out.wrote.flatten [] = smallImage ++ more ∧
      IsPacked firstBytes leHost 4 (List.replicate 100 1) (List.replicate 100 1) smallImage ∧
      (∀ bs', 0 < bs' → leHost.malloc bs' = true →
        checkMd5 firstBytes leHost (Upgrade.overlay out.wrote.flatten []) bs' = .ret 0) ∧
      out.exitcode = 0 ∧ out.reboot = if upgradeModeOptions.rebt then some upgradeModeOptions.doSync else none := by
  obtain ⟨code, hpacked⟩ := smallImage_packed
  have hready : Ready stockBuild (router 0x400000) upgradeModeOptions (some smallImage.length)
      (Upgrade.overlay smallImage [0]) [] :=
    ⟨fun _ => by decide +kernel, rfl, rfl, rfl, by decide⟩
  have hcontent : smallForm.firmware.content = smallImage := by rw [smallForm, textThenFirmware]
  rw [← hcontent] at hpacked hready ⊢
  exact packed_upload_flashed firstBytes buildHost_given buildHost_works (by decide) rfl smallForm_regular
    hpacked (upgradeMode_httpMode 0x400000) eager_full [] rfl rfl hready fun _ => rfl

/-! ### A file -/

/-- **From the packer to the device, as a file.**  With the check on, `main` leaves with zero, and reboots
unless it was told not to, exactly when all writes succeed. -/
theorem packed_file_flashed (h : IncrementalHash Ctx) {w : PackWorld} {host : Host}
    {popts : List PackOpt} {kernel rootfs K R image : Bytes} {bs code : ℕ}
    (hgiven : PackOptions.Given w popts kernel rootfs bs) (hworks : w.Works bs kernel rootfs K R)
    (hbs : 0 < bs) (hle : host.word = leVal) (hpacked : packimage h w popts = ⟨code, some image⟩)
    (hsize : image.length < 2 ^ 31) {build : Build} {world : World} {opts : List Opt} {o : Options}
    {file old : Bytes} (hmode : FileMode build world opts o file)
    (hcontent : world.content file = some image) (hready : Ready build world o none image old)
    (hcheck : ∀ bytes, world.checkMd5 bytes o.blocksize = true ↔
      checkMd5 h host bytes o.blocksize ≠ .ret 0) (hmalloc : host.malloc o.blocksize = true)
    (fd : Fd) (fuel : ℕ) :
    ∃ out more, upgradeMain build world opts fd fuel = .ret out ∧
      Upgrade.overlay out.wrote.flatten old = image ++ more ∧
      (out.exitcode = 0 ↔ ∀ c < out.wrote.length, world.takes c = true) ∧
      (out.reboot = if o.rebt = true ∧ out.exitcode = 0 then some o.doSync else none) := by
  have hwritten : Written world o (build.useMd5 && o.verify) image old
      (writeImage build world o none (image ++ []) old) :=
    writeImage_written old hready.blocksize (by simp)
  rw [List.append_nil] at hwritten
  obtain ⟨more, hmore⟩ := hwritten.image
  have hpack := packed_isPacked h hgiven hworks hbs hle hpacked hsize
  have hgood : world.checkMd5 (Upgrade.overlay (writeImage build world o none image old).wrote.flatten old)
      o.blocksize = false := by
    rw [Bool.eq_false_iff, ne_eq, hcheck, not_not, hmore]
    exact hpack.verified more o.blocksize hready.blocksize hmalloc
  refine ⟨_, more, upgradeMain_fileMode hmode hcontent fd fuel, ?_⟩
  rw [flash_eq hready]
  refine ⟨hmore, ?_, hwritten.reboot⟩
  rw [hwritten.exitcode]
  simp [hgood]

/-- A router with the image in a file, and the check. -/
def checkingRouter : World :=
  { router 0 with
    content := fun _ => some smallImage
    checkMd5 := fun bytes bs => decide (checkMd5 firstBytes leHost bytes bs ≠ .ret 0) }

theorem packed_file_flashed_small :
    ∃ out more, upgradeMain md5Build checkingRouter [.f (str "new.img"), .s (str "0x10000")]
        ⟨[], eager, 0⟩ 0 = .ret out ∧
      Upgrade.overlay out.wrote.flatten [] = smallImage ++ more ∧
      (out.exitcode = 0 ↔ ∀ c < out.wrote.length, checkingRouter.takes c = true) ∧
      (out.reboot = if (fileOptions 0x10000).rebt = true ∧ out.exitcode = 0 then
        some (fileOptions 0x10000).doSync else none) := by
  obtain ⟨code, hpacked⟩ := smallImage_packed
  have hmode : FileMode md5Build checkingRouter [.f (str "new.img"), .s (str "0x10000")]
      (fileOptions 0x10000) (str "new.img") := ⟨by rfl, rfl, rfl⟩
  have hready : Ready md5Build checkingRouter (fileOptions 0x10000) none smallImage [] :=
    ⟨fun hg => absurd hg (by decide), rfl, rfl, rfl, by decide⟩
  exact packed_file_flashed firstBytes buildHost_given buildHost_works (by decide) rfl hpacked
    (by decide +kernel) hmode rfl hready (fun _ => decide_eq_true_iff) rfl ⟨[], eager, 0⟩ 0

end ZRouter.Tools
