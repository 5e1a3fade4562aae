import ZRouter.Lib.Memory
import ZRouter.Upgrade.Verify

/-!
# `packimage` (`packimage.c`)

The packer puts the kernel, a split header and the root file system into a temporary file, hashes
it, and writes the image header and the temporary file to the output.  The structures are kept as
bytes: `fgetpos` stores a 64-bit position into a 32-bit field and the one after it.

* `PackWorld`, `PackOpt`, `packimage`: the program, with its exits;
* `splitHeader`, `imageHeader`: the two structures as they are filled;
* `packimage_eq`: what the program writes when nothing fails;
* `packed_image_verified`: `check_md5` accepts it.
-/

namespace ZRouter.Tools

open ZRouter.Upgrade

variable {Ctx : Type}

/-! ### The program -/

/-- What `packimage` asks the system for.  `taken c n` is the number of bytes that the `fwrite`
number `c` takes of the `n` it is given; `creates c` tells whether the output file can be opened the
first and the second time. -/
structure PackWorld where
  malloc : ℕ → Bool
  temporary : Bool
  content : Bytes → Option Bytes
  creates : ℕ → Bool
  taken : ℕ → ℕ → ℕ
  ulongMax : ℕ

/-- An option as `getopt` returns it, with its argument. -/
inductive PackOpt
  | k (kernel : Bytes)
  | o (outfile : Bytes)
  | q
  | r (rootfs : Bytes)
  | s (blocksize : Bytes)
  | other

/-- The variables that the option loop sets. -/
structure PackOptions where
  kernel : Option Bytes
  rootfs : Option Bytes
  outfile : Bytes
  silent : Bool
  blocksize : ℕ

/-- One pass of the option loop; `none` when it ends in `usage`. -/
def PackOptions.take (ulongMax : ℕ) (p : PackOptions) : PackOpt → Option PackOptions
  | .k kernel => some { p with kernel := some kernel }
  | .o outfile => some { p with outfile := outfile }
  | .q => some { p with silent := true }
  | .r rootfs => some { p with rootfs := some rootfs }
  | .s arg => some { p with blocksize := u32 (strtoulAuto ulongMax arg) }
  | .other => none

/-- The exit code and, if the output file was opened, what it holds. -/
structure PackResult where
  exitcode : ℕ
  outfile : Option Bytes

/-- A file that is being written: the number of `fwrite` calls so far, and its content. -/
structure Out where
  calls : ℕ
  bytes : Bytes

/-- `fwrite`, and whether it took everything. -/
def Out.fwrite (w : PackWorld) (out : Out) (xs : Bytes) : Bool × Out :=
  (w.taken out.calls xs.length = xs.length,
    ⟨out.calls + 1, out.bytes ++ xs.take (w.taken out.calls xs.length)⟩)

/-- A pass of the loop that copies the kernel: always a whole block. -/
def padPass (w : PackWorld) (bs : ℕ) (s : Except ℕ (Bytes × Out)) (data : Bytes) :
    Except ℕ (Bytes × Out) :=
  s.bind fun (buf, out) =>
    match out.fwrite w (poke buf 0 data) with
    | (true, out) => .ok (List.replicate bs 0, out)
    | (false, _) => .error 4

/-- A pass of the loop that appends the root file system. -/
def copyPass (w : PackWorld) (s : Except ℕ (Bytes × Out)) (data : Bytes) :
    Except ℕ (Bytes × Out) :=
  s.bind fun (buf, out) =>
    let buf := poke buf 0 data
    match out.fwrite w (buf.take data.length) with
    | (true, out) => .ok (buf, out)
    | (false, _) => .error 4

/-- A pass of the loop that hashes the temporary file. -/
def digestPass (h : IncrementalHash Ctx) (s : Bytes × Ctx) (data : Bytes) : Bytes × Ctx :=
  let buf := poke s.1 0 data
  (buf, h.update s.2 (buf.take data.length))

/-- A pass of the loop that writes the output file; it goes on after an error. -/
def outPass (w : PackWorld) (s : Bytes × Out × ℕ) (data : Bytes) : Bytes × Out × ℕ :=
  let buf := poke s.1 0 data
  match s.2.1.fwrite w (buf.take data.length) with
  | (true, out) => (buf, out, s.2.2)
  | (false, out) => (buf, out, 4)

/-- `strcpy` into a field. -/
def strcpy (m : Bytes) (off : ℕ) (s : Bytes) : Bytes := poke m off (s ++ [0])

/-- `fgetpos` on a little-endian host with a 64-bit `fpos_t`. -/
def fgetpos (m : Bytes) (off pos : ℕ) : Bytes := poke m off (leBytes 8 pos)

/-- The expression that swaps the bytes of `split.image_size`. -/
def swap32 (v : ℕ) : ℕ :=
  (v &&& 0x000000ff) <<< 24 ||| (v &&& 0x0000ff00) <<< 8 |||
    (v &&& 0x00ff0000) >>> 8 ||| (v &&& 0xff000000) >>> 24

/-- The split header before a root file system of `n` bytes. -/
def splitHeader (n : ℕ) : Bytes :=
  let split := strcpy (List.replicate 32 0) 0 (str "--PaCkImGs--")
  let split := fgetpos split 16 n
  poke split 16 (leBytes 4 (swap32 (leVal (peek split 16 4))))

/-- The image header before `image_size` is known. -/
def blankHeader : Bytes :=
  let header := strcpy (List.replicate 96 0) 0 (str "wrgg27_dlwbr_dir320")
  let header := poke header 0x20 (leBytes 4 0x20040220)
  let header := poke header 0x24 (leBytes 4 0x20040220)
  let header := poke header 0x2c (leBytes 4 0)
  strcpy header 0x30 (str "/dev/mtdblock/2")

/-- The image header with `image_size`, before the digest. -/
def sizedHeader (n : ℕ) : Bytes := fgetpos blankHeader 0x28 n

/-- The temporary file. -/
def packTemporary (w : PackWorld) (bs : ℕ) (kernel rootfs : Bytes) : Except ℕ (Bytes × Out) := do
  if w.malloc bs = false then throw 2
  if w.temporary = false then throw 3
  let some K := w.content kernel | throw 3
  let (buf, out) ← blockLoop bs (padPass w bs) (K.length + 1) (.ok (List.replicate bs 0, ⟨0, []⟩)) K
  let some R := w.content rootfs | throw 3
  let (true, out) := out.fwrite w (splitHeader R.length) | throw 4
  blockLoop bs (copyPass w) (R.length + 1) (.ok (buf, out)) R

/-- The digest of the temporary file, with the two fields of the header that precede it. -/
def packDigest (h : IncrementalHash Ctx) (bs : ℕ) (header buf payload : Bytes) : Bytes :=
  let c := h.update (h.update h.init (imageOffset header)) (imageDevice header)
  h.final (blockLoop bs (digestPass h) (payload.length + 1) (buf, c) payload).2

/-- The output file: the header, and then the temporary file.  A long image gives a warning; its
size is in an `int`. -/
def packOutput (w : PackWorld) (bs calls : ℕ) (buf header payload : Bytes) : PackResult :=
  match (Out.mk calls []).fwrite w header with
  | (false, out) => ⟨4, some out.bytes⟩
  | (true, out) =>
      let (_, out, code) := blockLoop bs (outPass w) (payload.length + 1) (buf, out, 0) payload
      let i := u32 out.bytes.length
      ⟨if (64 - 6) * 0x10000 < i ∧ i < 2 ^ 31 then 5 else code, some out.bytes⟩

/-- `main`. -/
def packimage (h : IncrementalHash Ctx) (w : PackWorld) (opts : List PackOpt) : PackResult :=
  match opts.foldlM (PackOptions.take w.ulongMax)
    ⟨none, none, str "DIR-320_FBSD.img", false, 0x10000⟩ with
  | some ⟨some kernel, some rootfs, _, _, bs⟩ =>
      match packTemporary w bs kernel rootfs with
      | .error code => ⟨code, none⟩
      | .ok (buf, tmp) =>
          if w.creates 0 = false then ⟨3, none⟩
          else
            let header := sizedHeader tmp.bytes.length
            let digest := packDigest h bs header buf tmp.bytes
            if w.creates 1 = false then ⟨3, some []⟩
            else packOutput w bs tmp.calls buf (poke header 0x50 digest) tmp.bytes
  | _ => ⟨1, none⟩

/-! ### The two headers -/

/-- Eight bits of a word. -/
theorem testBit_mask (k j : ℕ) :
    (255 * 2 ^ k).testBit j = (decide (k ≤ j) && decide (j < k + 8)) := by
  have h : 255 * 2 ^ k = (2 ^ 8 - 1) <<< k := by
    rw [Nat.shiftLeft_eq]
    norm_num
  rw [h, Nat.testBit_shiftLeft, Nat.testBit_two_pow_sub_one]
  by_cases hk : k ≤ j
  · simp only [hk, decide_true, Bool.true_and, decide_eq_decide]
    omega
  · simp [hk]

/-- The bytes of the swapped word are those of the word, the other way round. -/
theorem byte_swap32 (v i : ℕ) (hi : i < 4) :
    swap32 v / 256 ^ i % 256 = v / 256 ^ (3 - i) % 256 := by
  have h1 : 0x000000ff = 255 * 2 ^ 0 := by norm_num
  have h2 : 0x0000ff00 = 255 * 2 ^ 8 := by norm_num
  have h3 : 0x00ff0000 = 255 * 2 ^ 16 := by norm_num
  have h4 : 0xff000000 = 255 * 2 ^ 24 := by norm_num
  have h256 : ∀ k, 256 ^ k = 2 ^ (8 * k) := fun k => by rw [pow_mul]; norm_num
  apply Nat.eq_of_testBit_eq
  intro j
  rw [h256, h256, show 256 = 2 ^ 8 by norm_num, Nat.testBit_mod_two_pow,
    Nat.testBit_mod_two_pow, Nat.testBit_div_two_pow, Nat.testBit_div_two_pow]
  by_cases hj : j < 8
  · rw [swap32, h1, h2, h3, h4]
    simp only [Nat.testBit_or, Nat.testBit_shiftLeft, Nat.testBit_shiftRight, Nat.testBit_and,
      testBit_mask]
    -- one goal for each of the 32 bits
    interval_cases i <;> interval_cases j <;> simp
  · simp [hj]

theorem leBytes_swap32 (v : ℕ) : leBytes 4 (swap32 v) = (leBytes 4 v).reverse := by
  have hbyte : ∀ i < 4, UInt8.ofNat (swap32 v / 256 ^ i) = UInt8.ofNat (v / 256 ^ (3 - i)) := by
    intro i hi
    apply UInt8.toNat_inj.1
    rw [UInt8.toNat_ofNat', UInt8.toNat_ofNat']
    exact byte_swap32 v i hi
  have h0 := hbyte 0 (by omega)
  have h1 := hbyte 1 (by omega)
  have h2 := hbyte 2 (by omega)
  have h3 := hbyte 3 (by omega)
  simp only [leBytes, Nat.div_div_eq_div_mul, List.reverse_cons, List.reverse_nil,
    List.nil_append, List.cons_append]
  norm_num at h0 h1 h2 h3 ⊢
  exact ⟨h0, h1, h2, h3⟩

/-- A position below `2 ^ 32` fills the field and clears the one after it. -/
theorem leBytes_eight {n : ℕ} (hn : n < 2 ^ 32) : leBytes 8 n = leBytes 4 n ++ List.replicate 4 0 := by
  have hzero : n / 256 ^ 4 = 0 := Nat.div_eq_of_lt (by norm_num at hn ⊢; exact hn)
  rw [leBytes_add 4 4 n, hzero, leBytes_zero]

/-- The split header: the signature, the size with the high byte first, and zeros. -/
theorem splitHeader_eq {n : ℕ} (hn : n < 2 ^ 32) :
    splitHeader n = (str "--PaCkImGs--" ++ List.replicate 4 0) ++
      ((leBytes 4 n).reverse ++ List.replicate 12 0) := by
  have hstart : strcpy (List.replicate 32 0) 0 (str "--PaCkImGs--") =
      (str "--PaCkImGs--" ++ List.replicate 4 0) ++
        (List.replicate 8 0 ++ List.replicate 8 0) := by decide
  have hsig : (str "--PaCkImGs--" ++ List.replicate 4 (0 : UInt8)).length = 16 := by decide
  have hpos : fgetpos (strcpy (List.replicate 32 0) 0 (str "--PaCkImGs--")) 16 n =
      (str "--PaCkImGs--" ++ List.replicate 4 0) ++
        (leBytes 4 n ++ (List.replicate 4 0 ++ List.replicate 8 0)) := by
    rw [hstart, fgetpos, poke_append hsig (by simp), leBytes_eight hn]
    simp only [List.append_assoc]
  rw [splitHeader, hpos, peek_append hsig (length_leBytes 4 n), poke_append hsig (by simp),
    leVal_leBytes (by norm_num at hn ⊢; exact hn), leBytes_swap32]
  rfl

/-- The fields before `image_size`. -/
def headerStart : Bytes := peek blankHeader 0 0x28

/-- `image_device`. -/
def headerDevice : Bytes := peek blankHeader 0x30 32

theorem sizedHeader_eq {n : ℕ} (hn : n < 2 ^ 32) :
    sizedHeader n = headerStart ++ (leBytes 4 n ++
      (List.replicate 4 0 ++ (headerDevice ++ List.replicate 16 0))) := by
  have hblank : blankHeader = headerStart ++ (List.replicate 8 0 ++
      (headerDevice ++ List.replicate 16 0)) := by decide +kernel
  have hstart : headerStart.length = 0x28 := by decide +kernel
  rw [sizedHeader, hblank, fgetpos, poke_append hstart (by simp), leBytes_eight hn,
    List.append_assoc]

/-- The header of the output file. -/
theorem poke_digest {n : ℕ} (hn : n < 2 ^ 32) {digest : Bytes} (hd : digest.length = 16) :
    poke (sizedHeader n) 0x50 digest = headerStart ++ (leBytes 4 n ++
      (List.replicate 4 0 ++ (headerDevice ++ digest))) := by
  have hpre : (headerStart ++ (leBytes 4 n ++ (List.replicate 4 0 ++ headerDevice))).length =
      0x50 := by
    have h1 : headerStart.length = 0x28 := by decide +kernel
    have h2 : headerDevice.length = 32 := by decide +kernel
    simp [h1, h2]
  have hpoke := poke_append (c := []) hpre
    (show (List.replicate 16 (0 : UInt8)).length = digest.length by simp [hd])
  simpa [sizedHeader_eq hn] using hpoke

/-! ### A run in which nothing fails -/

/-- Nothing that the program asks for fails, and the two files are there. -/
structure PackWorld.Works (w : PackWorld) (bs : ℕ) (kernel rootfs K R : Bytes) : Prop where
  malloc : w.malloc bs = true
  temporary : w.temporary = true
  kernel : w.content kernel = some K
  rootfs : w.content rootfs = some R
  creates : ∀ c, w.creates c = true
  taken : ∀ c n, w.taken c n = n

variable {w : PackWorld} {bs : ℕ}

theorem fwrite_all (hw : ∀ c n, w.taken c n = n) (out : Out) (xs : Bytes) :
    out.fwrite w xs = (true, ⟨out.calls + 1, out.bytes ++ xs⟩) := by
  simp [Out.fwrite, hw]

/-- What `fread` delivered is at the start of the buffer. -/
theorem take_poke_zero (buf data : Bytes) : (poke buf 0 data).take data.length = data := by
  simp [poke]

theorem padLoop_all (hw : ∀ c n, w.taken c n = n) (hbs : 0 < bs) (K : Bytes) :
    ∃ n, blockLoop bs (padPass w bs) (K.length + 1) (.ok (List.replicate bs 0, ⟨0, []⟩)) K =
      .ok (List.replicate bs 0, ⟨n, padded bs K⟩) := by
  have hnil : padded bs [] = [] := padded_of_dvd hbs (dvd_zero bs)
  refine blockLoop_file hbs (padPass w bs)
    (fun s done => ∃ n, s = .ok (List.replicate bs 0, ⟨n, padded bs done⟩)) ⟨0, by rw [hnil]⟩ ?_ K
  rintro s done block ⟨n, rfl⟩ hdvd hne hle
  refine ⟨n + 1, ?_⟩
  rw [padded_append hbs hdvd hne hle, padded_of_dvd hbs hdvd]
  simp only [padPass, Except.bind, fwrite_all hw, poke_cleared]

theorem copyLoop_all (hw : ∀ c n, w.taken c n = n) (hbs : 0 < bs) (buf R : Bytes) (out : Out) :
    ∃ buf' n, blockLoop bs (copyPass w) (R.length + 1) (.ok (buf, out)) R =
      .ok (buf', ⟨n, out.bytes ++ R⟩) := by
  refine blockLoop_file hbs (copyPass w)
    (fun s done => ∃ buf' n, s = .ok (buf', ⟨n, out.bytes ++ done⟩))
    ⟨buf, out.calls, by rw [List.append_nil]⟩ ?_ R
  rintro s done block ⟨buf', n, rfl⟩ _ _ _
  refine ⟨poke buf' 0 block, n + 1, ?_⟩
  simp only [copyPass, Except.bind, take_poke_zero, fwrite_all hw, List.append_assoc]

theorem outLoop_all (hw : ∀ c n, w.taken c n = n) (hbs : 0 < bs) (buf payload : Bytes) (out : Out) :
    ∃ buf' n, blockLoop bs (outPass w) (payload.length + 1) (buf, out, 0) payload =
      (buf', ⟨n, out.bytes ++ payload⟩, 0) := by
  refine blockLoop_file hbs (outPass w)
    (fun s done => ∃ buf' n, s = (buf', ⟨n, out.bytes ++ done⟩, 0))
    ⟨buf, out.calls, by rw [List.append_nil]⟩ ?_ payload
  rintro s done block ⟨buf', n, rfl⟩ _ _ _
  refine ⟨poke buf' 0 block, n + 1, ?_⟩
  simp only [outPass, take_poke_zero, fwrite_all hw, List.append_assoc]

/-- The digest does not depend on the block size. -/
theorem packDigest_eq (h : IncrementalHash Ctx) (hbs : 0 < bs) (header buf payload : Bytes) :
    packDigest h bs header buf payload =
      h.final (h.update (h.update h.init (imageOffset header)) (imageDevice header ++ payload)) := by
  rw [packDigest]
  congr 1
  refine blockLoop_file hbs (digestPass h) (fun s done => s.2 =
    h.update (h.update h.init (imageOffset header)) (imageDevice header ++ done))
    (by rw [List.append_nil]) ?_ payload
  intro s done block hs _ _ _
  rw [digestPass, take_poke_zero, hs, h.update_append, List.append_assoc]

/-- The temporary file. -/
def payload (bs : ℕ) (K R : Bytes) : Bytes := padded bs K ++ (splitHeader R.length ++ R)

theorem packTemporary_eq {kernel rootfs K R : Bytes} (hw : w.Works bs kernel rootfs K R)
    (hbs : 0 < bs) :
    ∃ buf n, packTemporary w bs kernel rootfs = .ok (buf, ⟨n, payload bs K R⟩) := by
  obtain ⟨n, hpad⟩ := padLoop_all hw.taken hbs K
  obtain ⟨buf, m, hcopy⟩ := copyLoop_all hw.taken hbs (List.replicate bs 0) R
    ⟨n + 1, padded bs K ++ splitHeader R.length⟩
  refine ⟨buf, m, ?_⟩
  simp only [packTemporary, hw.malloc, hw.temporary, hw.kernel, hw.rootfs, hpad,
    fwrite_all hw.taken, bind, Except.bind]
  simpa [payload] using hcopy

theorem packOutput_eq (hw : ∀ c n, w.taken c n = n) (hbs : 0 < bs) (calls : ℕ)
    (buf header payload : Bytes) :
    ∃ code, packOutput w bs calls buf header payload = ⟨code, some (header ++ payload)⟩ := by
  obtain ⟨buf', n, hout⟩ := outLoop_all hw hbs buf payload ⟨calls + 1, header⟩
  simp only [packOutput, fwrite_all hw, List.nil_append, hout]
  exact ⟨_, rfl⟩

/-- The options name the two files and a block size. -/
def PackOptions.Given (w : PackWorld) (opts : List PackOpt) (kernel rootfs : Bytes) (bs : ℕ) : Prop :=
  ∃ outfile silent, opts.foldlM (PackOptions.take w.ulongMax)
    ⟨none, none, str "DIR-320_FBSD.img", false, 0x10000⟩ =
      some ⟨some kernel, some rootfs, outfile, silent, bs⟩

/-- The program writes the header and the temporary file. -/
theorem packimage_eq (h : IncrementalHash Ctx) {opts : List PackOpt} {kernel rootfs K R : Bytes}
    (hopts : PackOptions.Given w opts kernel rootfs bs) (hw : w.Works bs kernel rootfs K R)
    (hbs : 0 < bs) :
    ∃ code, packimage h w opts = ⟨code, some (poke (sizedHeader (payload bs K R).length) 0x50
      (h.final (h.update (h.update h.init
        (imageOffset (sizedHeader (payload bs K R).length)))
        (imageDevice (sizedHeader (payload bs K R).length) ++ payload bs K R))) ++
      payload bs K R)⟩ := by
  obtain ⟨outfile, silent, hopts⟩ := hopts
  obtain ⟨buf, n, htmp⟩ := packTemporary_eq hw hbs
  obtain ⟨code, hout⟩ := packOutput_eq hw.taken hbs n buf
    (poke (sizedHeader (payload bs K R).length) 0x50
      (packDigest h bs (sizedHeader (payload bs K R).length) buf (payload bs K R)))
    (payload bs K R)
  refine ⟨code, ?_⟩
  rw [packimage, hopts]
  dsimp only
  rw [htmp]
  dsimp only
  rw [if_neg (by simp [hw.creates]), if_neg (by simp [hw.creates]), hout, packDigest_eq h hbs]

/-! ### The packer and the verifier agree -/

/-- The fields of the header that the verifier reads. -/
theorem header_fields {host : Host} (hle : host.word = leVal) {n : ℕ} (hn : n < 2 ^ 32)
    {digest : Bytes} (hd : digest.length = 16) :
    (poke (sizedHeader n) 0x50 digest).length = headerSize ∧
      imageSize host (poke (sizedHeader n) 0x50 digest) = n ∧
      imageOffset (poke (sizedHeader n) 0x50 digest) = List.replicate 4 0 ∧
      imageDevice (poke (sizedHeader n) 0x50 digest) = headerDevice ∧
      imageDigest (poke (sizedHeader n) 0x50 digest) = digest := by
  have h1 : headerStart.length = 0x28 := by decide +kernel
  have h2 : headerDevice.length = 32 := by decide +kernel
  rw [poke_digest hn hd]
  refine ⟨by simp [h1, h2, hd, headerSize], ?_, ?_, ?_, ?_⟩
  · rw [imageSize, hle, peek_append h1 (length_leBytes 4 n),
      leVal_leBytes (by norm_num at hn ⊢; exact hn)]
  · rw [imageOffset, ← List.append_assoc,
      peek_append (by simp [h1]) (List.length_replicate)]
  · rw [imageDevice, ← List.append_assoc, ← List.append_assoc,
      peek_append (by simp [h1]) h2]
  · have hpre : (headerStart ++ (leBytes 4 n ++ (List.replicate 4 0 ++ headerDevice))).length =
        0x50 := by simp [h1, h2]
    have hlast := peek_append (c := []) hpre hd
    simpa [imageDigest] using hlast

/-- The header before the digest has the same two fields. -/
theorem sizedHeader_fields {n : ℕ} (hn : n < 2 ^ 32) :
    imageOffset (sizedHeader n) = List.replicate 4 0 ∧
      imageDevice (sizedHeader n) = headerDevice := by
  have h1 : headerStart.length = 0x28 := by decide +kernel
  have h2 : headerDevice.length = 32 := by decide +kernel
  rw [sizedHeader_eq hn]
  constructor
  · rw [imageOffset, ← List.append_assoc, peek_append (by simp [h1]) (List.length_replicate)]
  · rw [imageDevice, ← List.append_assoc, ← List.append_assoc, peek_append (by simp [h1]) h2]

/-- **The verifier accepts what the packer writes.**  On a little-endian host with a 64-bit
`fpos_t`, for images below `2 ^ 31` bytes: the output is a header of 96 bytes, the kernel with zeros
up to a multiple of the packing block size, the split header with the size of the root file system
(high byte first), and the root file system; `image_size` is the length after the header,
`image_offset` is zero, and `check_md5` returns zero for every verifying block size. -/
theorem packed_image_verified (h : IncrementalHash Ctx) {w : PackWorld} {host : Host}
    {opts : List PackOpt} {kernel rootfs K R : Bytes} {bs bs' : ℕ}
    (hopts : PackOptions.Given w opts kernel rootfs bs) (hw : w.Works bs kernel rootfs K R)
    (hbs : 0 < bs) (hbs' : 0 < bs') (hle : host.word = leVal) (hmalloc : host.malloc bs' = true)
    (hsize : 96 + (roundUp bs K.length + (32 + R.length)) < 2 ^ 31) :
    ∃ code header image, packimage h w opts = ⟨code, some (header ++ image)⟩ ∧
      image = K ++ List.replicate (roundUp bs K.length - K.length) 0 ++
        (str "--PaCkImGs--" ++ List.replicate 4 0 ++
          ((leBytes 4 R.length).reverse ++ List.replicate 12 0) ++ R) ∧
      header.length = 96 ∧ imageSize host header = image.length ∧
      imageOffset header = List.replicate 4 0 ∧
      checkMd5 h host (header ++ image) bs' = .ret 0 := by
  have hR : R.length < 2 ^ 32 := by omega
  have hsplit := splitHeader_eq hR
  have hslen : (splitHeader R.length).length = 32 := by
    have hsig : (str "--PaCkImGs--").length = 12 := by decide
    simp [hsplit, hsig]
  have hplen : (payload bs K R).length = roundUp bs K.length + (32 + R.length) := by
    rw [payload, List.length_append, length_padded hbs, List.length_append, hslen]
  have hn : (payload bs K R).length < 2 ^ 31 := by omega
  have hn' : (payload bs K R).length < 2 ^ 32 := by omega
  obtain ⟨code, hpack⟩ := packimage_eq h hopts hw hbs
  obtain ⟨hoff, hdev⟩ := sizedHeader_fields hn'
  rw [hoff, hdev] at hpack
  have hd := h.length_final (h.update (h.update h.init (List.replicate 4 0))
    (headerDevice ++ payload bs K R))
  generalize hdigest : h.final (h.update (h.update h.init (List.replicate 4 0))
    (headerDevice ++ payload bs K R)) = digest at hpack hd
  obtain ⟨f1, f2, f3, f4, f5⟩ := header_fields hle hn' hd
  generalize poke (sizedHeader (payload bs K R).length) 0x50 digest = header at hpack f1 f2 f3 f4 f5
  refine ⟨code, header, payload bs K R, hpack, ?_, f1, f2, f3, ?_⟩
  · rw [payload, padded, hsplit]
  · have htake : (header ++ payload bs K R).take headerSize = header := by
      rw [← f1, List.take_left]
    have hdrop : (header ++ payload bs K R).drop headerSize = payload bs K R := by
      rw [← f1, List.drop_left]
    have hlen : headerSize ≤ (header ++ payload bs K R).length := by
      rw [List.length_append, f1]
      omega
    rw [checkMd5_eq h hbs' hmalloc hlen (by rw [htake, f2]; exact hn), htake, hdrop, f2, f3, f4, f5,
      List.take_length, hdigest, if_pos rfl]

/-- A machine on which nothing fails; every file holds five bytes. -/
def workstation : PackWorld where
  malloc := fun _ => true
  temporary := true
  content := fun _ => some [1, 2, 3, 4, 5]
  creates := fun _ => true
  taken := fun _ n => n
  ulongMax := 2 ^ 64 - 1

theorem packed_image_verified_fiveBytes :
    ∃ code header image,
      packimage firstBytes workstation [.k (str "kernel"), .r (str "rootfs"), .s (str "4")] =
        ⟨code, some (header ++ image)⟩ ∧
      header.length = 96 ∧ image.length = 45 ∧
      checkMd5 firstBytes leHost (header ++ image) 3 = .ret 0 := by
  have hopts : PackOptions.Given workstation
      [.k (str "kernel"), .r (str "rootfs"), .s (str "4")] (str "kernel") (str "rootfs") 4 :=
    ⟨_, _, rfl⟩
  have hw : workstation.Works 4 (str "kernel") (str "rootfs") [1, 2, 3, 4, 5] [1, 2, 3, 4, 5] :=
    ⟨rfl, rfl, rfl, rfl, fun _ => rfl, fun _ _ => rfl⟩
  have hle : leHost.word = leVal := rfl
  obtain ⟨code, header, image, hpack, himage, hlen, -, -, hcheck⟩ :=
    packed_image_verified firstBytes hopts hw (by decide) (by decide : 0 < 3) hle rfl (by decide)
  exact ⟨code, header, image, hpack, hlen, by rw [himage]; decide +kernel, hcheck⟩

end ZRouter.Tools
