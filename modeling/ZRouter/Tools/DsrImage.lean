import ZRouter.Tools.Packimage

/-!
# `make_dlink_dsr_image` (`make_dlink_dsr_image.c`)

The program puts a header of 512 bytes in front of a file.  The header is kept as bytes; all its
numbers have the high byte first, except for the signature, which is stored as the host stores an
`uint32_t`.  The sum of all bytes is taken in a pass over the file before the one that copies it.

* `DsrWorld`, `DsrArgs`, `makeDlinkDsrImage`: the program, with its exits;
* `mksum`: the sum, an `int` that wraps around; `emod_mksum`: what it is modulo `2 ^ 32`;
* `dsr_image_sound`: the header and the file behind it.
-/

namespace ZRouter.Tools

/-! ### The program -/

/-- What the program asks the system for.  `store` is how the host keeps an `uint32_t`, `ctime` the
text of the present time, `stack` what a local buffer holds at first; `taken c n` is the number of bytes
that the `fwrite` number `c` takes of the `n` it is given. -/
structure DsrWorld where
  store : ℕ → Bytes
  length_store : ∀ v, (store v).length = 4
  ctime : Bytes
  stack : Bytes
  content : Bytes → Option Bytes
  creates : Bytes → Bool
  taken : ℕ → ℕ → ℕ

/-- The variables that point into `argv`. -/
structure DsrArgs where
  outimage : Option Bytes
  inimage : Option Bytes
  hwName : Option Bytes
  fwRelease : Option Bytes
  hwVersion : Option Bytes
  hwVername : Option Bytes
  country : Bytes

/-- The start of `main`.  `argv` is read past its null pointer when there are few arguments; what lies
there is arbitrary. -/
def dsrArgs (argv : ℕ → Option Bytes) : DsrArgs :=
  let o : Bool := argv 1 = some (str "-o")
  let i := if o then 3 else 1
  { outimage := if o then argv 2 else none
    inimage := argv i
    hwName := argv (i + 1)
    fwRelease := argv (i + 2)
    hwVersion := argv (i + 3)
    hwVername := argv (i + 4)
    country := (argv (i + 5)).getD (str "WW") }

/-- The test of `CHECK_FIELD_LENGTH` for a field of `size` bytes: the string, or no result when the
program exits.  The length of a null pointer is undefined. -/
def checkFieldLength (size : ℕ) : Option Bytes → Exec (Option Bytes)
  | none => .undefined
  | some f => .ret (if size - 1 < f.length then none else some f)

/-- `strncpy` into a field of `size` bytes. -/
def fieldBytes (size : ℕ) (s : Bytes) : Bytes := (s ++ List.replicate size 0).take size

/-- What `snprintf` writes for `%s`. -/
def formatString (s : Option Bytes) : Bytes := s.getD (str "(null)")

/-- The text that `snprintf` writes to `img_name`, before it is cut. -/
def imgName (a : DsrArgs) (fw name : Bytes) : Bytes :=
  name ++ str "_" ++ formatString a.hwVername ++ str "_FW" ++ fw ++ str "_" ++ a.country

/-- `snprintf` into a field of `size` bytes. -/
def snprintfBytes (size : ℕ) (s : Bytes) : Bytes := s.take (size - 1) ++ [0]

/-- The assignments to the header before the size of the file is known.  `sign[3]` lies at `hdrsize`. -/
def dsrBlank (w : DsrWorld) (a : DsrArgs) (fw name ver : Bytes) : Bytes :=
  let hdr := List.replicate 512 0
  let hdr := poke hdr 0x1c (fieldBytes 0x0c fw)
  let hdr := poke hdr 0x34 (fieldBytes 0x20 name)
  let hdr := poke hdr 0x28 (fieldBytes 0x0c ver)
  let hdr := poke hdr 0x00 (w.store 0x00000000)
  let hdr := poke hdr 0x04 (w.store 0x7a1d0100)
  let hdr := poke hdr 0x08 (w.store 0xabe6e6c3)
  let hdr := poke hdr 0x0c (beBytes 4 0x94)
  let hdr := poke hdr 0x54 (fieldBytes 0x20 w.ctime)
  let hdr := poke hdr 0x18 (beBytes 4 1)
  poke hdr 0x74 (snprintfBytes 0x8c (imgName a fw name))

/-- The header with `size`, before `sum`, for a file of `n` bytes. -/
def dsrSized (hdr : Bytes) (n : ℕ) : Bytes := poke hdr 0x10 (beBytes 4 (n + 512))

/-- `+=` for an `int`. -/
def addInt (a b : ℤ) : ℤ := (a + b).bmod (2 ^ 32)

/-- `mksum`. -/
def mksum (buf : Bytes) : ℤ := buf.foldl (fun sum b => addInt sum b.toNat) 0

/-- A pass of the loop that sums up the file. -/
def sumPass (s : Bytes × ℤ) (data : Bytes) : Bytes × ℤ :=
  let buf := poke s.1 0 data
  (List.replicate 512 0, addInt s.2 (mksum (buf.take data.length)))

/-- `htobe32` of an `int`, stored. -/
def be32 (v : ℤ) : Bytes := beBytes 4 (v % 2 ^ 32).toNat

/-- The header with `sum`. -/
def dsrHeader (w : DsrWorld) (hdr K : Bytes) : Bytes :=
  let hdr := dsrSized hdr K.length
  let sum := addInt 0 (mksum hdr)
  let (_, sum) := blockLoop 512 sumPass (K.length + 1) (w.stack, sum) K
  poke hdr 0x14 (be32 sum)

/-- `fwrite`, after which the program goes on in any case. -/
def Out.put (w : DsrWorld) (out : Out) (xs : Bytes) : Out :=
  ⟨out.calls + 1, out.bytes ++ xs.take (w.taken out.calls xs.length)⟩

/-- A pass of the loop that copies the file. -/
def putPass (w : DsrWorld) (s : Bytes × Out) (data : Bytes) : Bytes × Out :=
  let buf := poke s.1 0 data
  (buf, s.2.put w (buf.take data.length))

/-- The name of the output file: without `-o`, the string in `img_name`. -/
def dsrOutimage (a : DsrArgs) (hdr : Bytes) : Bytes := a.outimage.getD (cstr (peek hdr 0x74 0x8c))

/-- `main` behind the checks: the exit code and, if the output file was opened, what it holds.  The
output is not written over the input. -/
def dsrWrite (w : DsrWorld) (a : DsrArgs) (fw name ver : Bytes) : PackResult :=
  let hdr := dsrBlank w a fw name ver
  match a.inimage.bind w.content with
  | none => ⟨2, none⟩
  | some K =>
      if w.creates (dsrOutimage a hdr) = false then ⟨2, none⟩
      else
        let out := Out.put w ⟨0, []⟩ (dsrHeader w hdr K)
        let (_, out) := blockLoop 512 (putPass w) (K.length + 1) (w.stack, out) K
        ⟨0, some out.bytes⟩

/-- `main`. -/
def makeDlinkDsrImage (w : DsrWorld) (argc : ℕ) (argv : ℕ → Option Bytes) : Exec PackResult :=
  if argc < 5 then .ret ⟨1, none⟩
  else
    let a := dsrArgs argv
    checkFieldLength 0x0c a.fwRelease >>= fun fw =>
    match fw with
    | none => .ret ⟨1, none⟩
    | some fw =>
        checkFieldLength 0x20 a.hwName >>= fun name =>
        match name with
        | none => .ret ⟨1, none⟩
        | some name =>
            checkFieldLength 0x0c a.hwVersion >>= fun ver =>
            match ver with
            | none => .ret ⟨1, none⟩
            | some ver => .ret (dsrWrite w a fw name ver)

/-! ### The sum -/

/-- The sum of some bytes. -/
def byteSum (bs : Bytes) : ℕ := (bs.map UInt8.toNat).sum

theorem byteSum_append (xs ys : Bytes) : byteSum (xs ++ ys) = byteSum xs + byteSum ys := by
  rw [byteSum, List.map_append, List.sum_append]
  rfl

theorem emod_addInt (a b : ℤ) : addInt a b % 2 ^ 32 = (a + b) % 2 ^ 32 := Int.bmod_emod

/-- Wrapping around does not change a sum modulo `2 ^ 32`. -/
theorem emod_addInt_congr {a a' b b' : ℤ} (ha : a % 2 ^ 32 = a' % 2 ^ 32)
    (hb : b % 2 ^ 32 = b' % 2 ^ 32) : addInt a b % 2 ^ 32 = (a' + b') % 2 ^ 32 := by
  rw [emod_addInt, Int.add_emod, ha, hb, ← Int.add_emod]

theorem emod_mksum (buf : Bytes) : mksum buf % 2 ^ 32 = (byteSum buf : ℤ) % 2 ^ 32 := by
  have key : ∀ (buf : Bytes) (sum : ℤ),
      buf.foldl (fun sum b => addInt sum b.toNat) sum % 2 ^ 32 =
        (sum + (byteSum buf : ℤ)) % 2 ^ 32 := by
    intro buf
    induction buf with
    | nil =>
      intro sum
      rw [byteSum, List.foldl_nil, List.map_nil, List.sum_nil, Nat.cast_zero, add_zero]
    | cons b buf ih =>
      intro sum
      have hsum : (byteSum (b :: buf) : ℤ) = (b.toNat : ℤ) + byteSum buf := by
        rw [byteSum, List.map_cons, List.sum_cons, Nat.cast_add]
        rfl
      rw [List.foldl_cons, ih, Int.add_emod, emod_addInt, ← Int.add_emod, hsum, add_assoc]
  rw [mksum, key buf 0, zero_add]

/-- The pass over the file adds its bytes, however they fall into blocks. -/
theorem emod_sumLoop (stack : Bytes) (sum : ℤ) (K : Bytes) :
    (blockLoop 512 sumPass (K.length + 1) (stack, sum) K).2 % 2 ^ 32 =
      (sum + (byteSum K : ℤ)) % 2 ^ 32 := by
  refine blockLoop_file (by norm_num) sumPass
    (fun s done => s.2 % 2 ^ 32 = (sum + (byteSum done : ℤ)) % 2 ^ 32) ?_ ?_ K
  · show sum % 2 ^ 32 = (sum + ((0 : ℕ) : ℤ)) % 2 ^ 32
    rw [Nat.cast_zero, add_zero]
  · intro s done block hs _ _ _
    show addInt s.2 (mksum ((poke s.1 0 block).take block.length)) % 2 ^ 32 = _
    rw [take_poke_zero, emod_addInt_congr hs (emod_mksum block), byteSum_append, Nat.cast_add,
      add_assoc]

theorem beVal_be32 (v : ℤ) : (beVal (be32 v) : ℤ) = v % 2 ^ 32 := by
  have hnonneg : 0 ≤ v % 2 ^ 32 := Int.emod_nonneg v (by norm_num)
  have hlt : v % 2 ^ 32 < 2 ^ 32 := Int.emod_lt_of_pos v (by norm_num)
  rw [be32, beVal_beBytes, Int.toNat_of_nonneg hnonneg]
  norm_num at hlt ⊢
  omega

/-! ### The header -/

/-- A header in which `sum` has not been set. -/
structure SumFree (hdr : Bytes) : Prop where
  size : hdr.length = 512
  sum : peek hdr 0x14 4 = List.replicate 4 0

/-- Assigning to another field. -/
theorem SumFree.assign {hdr xs : Bytes} {len : ℕ} (h : SumFree hdr) (off : ℕ) (hlen : xs.length = len)
    (hfit : off + len ≤ 512) (hoff : 0x18 ≤ off ∨ off + len ≤ 0x14) : SumFree (poke hdr off xs) := by
  have hsize : off + xs.length ≤ hdr.length := by rw [hlen, h.size]; exact hfit
  refine ⟨by rw [length_poke hsize, h.size], ?_⟩
  rw [peek_poke_of_disjoint hsize (by omega)]
  exact h.sum

theorem length_fieldBytes (size : ℕ) (s : Bytes) : (fieldBytes size s).length = size := by
  rw [fieldBytes, List.length_take, List.length_append, List.length_replicate]
  omega

theorem length_snprintfBytes (size : ℕ) (hsize : 0 < size) (s : Bytes) :
    (snprintfBytes size s).length ≤ size := by
  rw [snprintfBytes, List.length_append, List.length_take, List.length_singleton]
  omega

/-- The assignments before `size` leave `sum` alone. -/
theorem sumFree_dsrBlank (w : DsrWorld) (a : DsrArgs) (fw name ver : Bytes) :
    SumFree (dsrBlank w a fw name ver) := by
  have hstore := w.length_store
  have hfield := length_fieldBytes
  have hname := length_snprintfBytes 0x8c (by norm_num) (imgName a fw name)
  have hzero : SumFree (List.replicate 512 0) := ⟨List.length_replicate, by decide +kernel⟩
  have h1 := hzero.assign 0x1c (hfield 0x0c fw) (by norm_num) (by norm_num)
  have h2 := h1.assign 0x34 (hfield 0x20 name) (by norm_num) (by norm_num)
  have h3 := h2.assign 0x28 (hfield 0x0c ver) (by norm_num) (by norm_num)
  have h4 := h3.assign 0x00 (hstore 0x00000000) (by norm_num) (by norm_num)
  have h5 := h4.assign 0x04 (hstore 0x7a1d0100) (by norm_num) (by norm_num)
  have h6 := h5.assign 0x08 (hstore 0xabe6e6c3) (by norm_num) (by norm_num)
  have h7 := h6.assign 0x0c (length_beBytes 4 0x94) (by norm_num) (by norm_num)
  have h8 := h7.assign 0x54 (hfield 0x20 w.ctime) (by norm_num) (by norm_num)
  have h9 := h8.assign 0x18 (length_beBytes 4 1) (by norm_num) (by norm_num)
  exact h9.assign _ rfl (by omega) (by left; norm_num)

theorem SumFree.sized {hdr : Bytes} (h : SumFree hdr) (n : ℕ) : SumFree (dsrSized hdr n) :=
  h.assign 0x10 (length_beBytes 4 (n + 512)) (by norm_num) (by norm_num)

/-- Clearing `sum` gives the header over which the sum was taken. -/
theorem SumFree.cleared {hdr xs : Bytes} (h : SumFree hdr) (hxs : xs.length = 4) :
    poke (poke hdr 0x14 xs) 0x14 (List.replicate 4 0) = hdr := by
  have hfit : 0x14 + xs.length ≤ hdr.length := by rw [hxs, h.size]; norm_num
  rw [poke_poke_self hfit (by rw [hxs, List.length_replicate]), ← h.sum,
    poke_peek_self (by rw [h.size]; norm_num)]

/-- The two numbers in the header that is written. -/
theorem dsrHeader_fields (w : DsrWorld) {hdr : Bytes} (h : SumFree hdr) {K : Bytes}
    (hK : K.length < 2 ^ 31 - 512) :
    (dsrHeader w hdr K).length = 512 ∧ beVal (peek (dsrHeader w hdr K) 0x10 4) = K.length + 512 ∧
      (beVal (peek (dsrHeader w hdr K) 0x14 4) : ℤ) =
        ((byteSum (dsrSized hdr K.length ++ K) : ℕ) : ℤ) % 2 ^ 32 ∧
      poke (dsrHeader w hdr K) 0x14 (List.replicate 4 0) = dsrSized hdr K.length := by
  have hsized := h.sized K.length
  obtain ⟨sum, hsum⟩ : ∃ sum, sum = (blockLoop 512 sumPass (K.length + 1)
    (w.stack, addInt 0 (mksum (dsrSized hdr K.length))) K).2 := ⟨_, rfl⟩
  have hheader : dsrHeader w hdr K = poke (dsrSized hdr K.length) 0x14 (be32 sum) := by
    rw [dsrHeader, hsum]
  have hlen : (be32 sum).length = 4 := length_beBytes 4 _
  have hfit : 0x14 + (be32 sum).length ≤ (dsrSized hdr K.length).length := by
    rw [hlen, hsized.size]
    norm_num
  rw [hheader]
  refine ⟨by rw [length_poke hfit, hsized.size], ?_, ?_, hsized.cleared hlen⟩
  · have hsize : 0x10 + (beBytes 4 (K.length + 512)).length ≤ hdr.length := by
      rw [length_beBytes, h.size]
      norm_num
    have hword : K.length + 512 < 256 ^ 4 := by
      norm_num at hK ⊢
      omega
    rw [peek_poke_of_disjoint hfit (by left; norm_num), dsrSized,
      peek_poke_self hsize (length_beBytes 4 _), beVal_beBytes hword]
  · rw [peek_poke_self hfit hlen, beVal_be32, hsum, emod_sumLoop, byteSum_append, Nat.cast_add]
    rw [Int.add_emod, emod_addInt, zero_add, emod_mksum, ← Int.add_emod]

/-! ### A run in which nothing fails -/

/-- The arguments pass the checks: the three strings are there, and fit into their fields. -/
structure DsrArgs.Accepted (a : DsrArgs) (fw name ver : Bytes) : Prop where
  fwRelease : a.fwRelease = some fw
  fw_le : fw.length ≤ 0x0c - 1
  hwName : a.hwName = some name
  name_le : name.length ≤ 0x20 - 1
  hwVersion : a.hwVersion = some ver
  ver_le : ver.length ≤ 0x0c - 1

/-- The input file is there, the output file can be opened, and `fwrite` takes what it is given. -/
structure DsrWorld.Works (w : DsrWorld) (a : DsrArgs) (fw name ver K : Bytes) : Prop where
  input : a.inimage.bind w.content = some K
  creates : w.creates (dsrOutimage a (dsrBlank w a fw name ver)) = true
  taken : ∀ c n, w.taken c n = n

theorem put_all {w : DsrWorld} (hw : ∀ c n, w.taken c n = n) (out : Out) (xs : Bytes) :
    out.put w xs = ⟨out.calls + 1, out.bytes ++ xs⟩ := by
  rw [Out.put, hw, List.take_length]

theorem putLoop_all {w : DsrWorld} (hw : ∀ c n, w.taken c n = n) (out : Out) (K : Bytes) :
    (blockLoop 512 (putPass w) (K.length + 1) (w.stack, out) K).2.bytes = out.bytes ++ K := by
  refine blockLoop_file (by norm_num) (putPass w) (fun s done => s.2.bytes = out.bytes ++ done)
    (by rw [List.append_nil]) ?_ K
  intro s done block hs _ _ _
  show (s.2.put w ((poke s.1 0 block).take block.length)).bytes = _
  rw [take_poke_zero, put_all hw, hs, List.append_assoc]

theorem checkFieldLength_fits {size : ℕ} {f : Bytes} (h : f.length ≤ size - 1) :
    checkFieldLength size (some f) = .ret (some f) := by
  rw [checkFieldLength, if_neg (Nat.not_lt.2 h)]

/-- The program writes the header and the file. -/
theorem makeDlinkDsrImage_eq {w : DsrWorld} {argc : ℕ} {argv : ℕ → Option Bytes}
    {fw name ver K : Bytes} (hargc : 5 ≤ argc) (ha : (dsrArgs argv).Accepted fw name ver)
    (hw : w.Works (dsrArgs argv) fw name ver K) :
    makeDlinkDsrImage w argc argv =
      .ret ⟨0, some (dsrHeader w (dsrBlank w (dsrArgs argv) fw name ver) K ++ K)⟩ := by
  have hput := putLoop_all hw.taken
    (Out.put w ⟨0, []⟩ (dsrHeader w (dsrBlank w (dsrArgs argv) fw name ver) K)) K
  have hheader : (Out.put w ⟨0, []⟩ (dsrHeader w (dsrBlank w (dsrArgs argv) fw name ver) K)).bytes =
      dsrHeader w (dsrBlank w (dsrArgs argv) fw name ver) K := by
    rw [put_all hw.taken, List.nil_append]
  have hwrite : dsrWrite w (dsrArgs argv) fw name ver =
      ⟨0, some (dsrHeader w (dsrBlank w (dsrArgs argv) fw name ver) K ++ K)⟩ := by
    rw [dsrWrite, hw.input]
    dsimp only
    rw [if_neg (by simp [hw.creates]), hput, hheader]
  rw [makeDlinkDsrImage, if_neg (by omega)]
  dsimp only
  rw [ha.fwRelease, checkFieldLength_fits ha.fw_le, Exec.ret_bind]
  dsimp only
  rw [ha.hwName, checkFieldLength_fits ha.name_le, Exec.ret_bind]
  dsimp only
  rw [ha.hwVersion, checkFieldLength_fits ha.ver_le, Exec.ret_bind]
  dsimp only
  rw [hwrite]

/-- A machine on which nothing fails; every file holds three bytes. -/
def dsrHost : DsrWorld where
  store := leBytes 4
  length_store := length_leBytes 4
  ctime := str "Mon Jul 26 22:49:27 2010\n"
  stack := []
  content := fun _ => some [255, 255, 1]
  creates := fun _ => true
  taken := fun _ n => n

/-- The arguments of the usage text. -/
def dsrArgv : ℕ → Option Bytes
  | 0 => some (str "make_dlink_dsr_image")
  | 1 => some (str "kernel_rootfs")
  | 2 => some (str "DSR-1000N")
  | 3 => some (str "9.0Z03")
  | 4 => some (str "0.1")
  | 5 => some (str "A1")
  | _ => none

end ZRouter.Tools
