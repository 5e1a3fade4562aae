import ZRouter.Json.Value
import ZRouter.Lib.Crc
import ZRouter.Lib.Exec
import ZRouter.Lib.Memory
import ZRouter.Tools.Packimage

/-!
# `asustrx` (`asustrx.c`)

The program puts up to three files behind a header of 28 bytes, each at an offset that the header names, and
fills the image up to a multiple of 4096 bytes.  With a product the last 64 bytes describe it.  A check sum
covers everything from `flag_version` on.

* `TrxOpt`, `TrxArgs`, `TrxWorld`, `asustrx`: the program, with its exits; an access outside of `buf` or of
  `offsets` is undefined;
* `crc32buf`, `crc32buf_eq_feed`: the check sum, and the polynomial behind its table;
* `TrxBuf.Holds`, `Layout`: what the loop over the files keeps, and where it puts them;
* `trx_outcome`, `trx_image`, `trx_damage_detected`: when it writes an image, what the image holds, and which
  damage the check sum shows.
-/

namespace ZRouter.Tools

open ZRouter.Upgrade
open Json (strtoulUsed)

/-! ### The check sum -/

/-- `crc_32_tab`. -/
def crc32Tab : List ℕ := [
  0x00000000, 0x77073096, 0xee0e612c, 0x990951ba, 0x076dc419, 0x706af48f, 0xe963a535, 0x9e6495a3,
  0x0edb8832, 0x79dcb8a4, 0xe0d5e91e, 0x97d2d988, 0x09b64c2b, 0x7eb17cbd, 0xe7b82d07, 0x90bf1d91,
  0x1db71064, 0x6ab020f2, 0xf3b97148, 0x84be41de, 0x1adad47d, 0x6ddde4eb, 0xf4d4b551, 0x83d385c7,
  0x136c9856, 0x646ba8c0, 0xfd62f97a, 0x8a65c9ec, 0x14015c4f, 0x63066cd9, 0xfa0f3d63, 0x8d080df5,
  0x3b6e20c8, 0x4c69105e, 0xd56041e4, 0xa2677172, 0x3c03e4d1, 0x4b04d447, 0xd20d85fd, 0xa50ab56b,
  0x35b5a8fa, 0x42b2986c, 0xdbbbc9d6, 0xacbcf940, 0x32d86ce3, 0x45df5c75, 0xdcd60dcf, 0xabd13d59,
  0x26d930ac, 0x51de003a, 0xc8d75180, 0xbfd06116, 0x21b4f4b5, 0x56b3c423, 0xcfba9599, 0xb8bda50f,
  0x2802b89e, 0x5f058808, 0xc60cd9b2, 0xb10be924, 0x2f6f7c87, 0x58684c11, 0xc1611dab, 0xb6662d3d,
  0x76dc4190, 0x01db7106, 0x98d220bc, 0xefd5102a, 0x71b18589, 0x06b6b51f, 0x9fbfe4a5, 0xe8b8d433,
  0x7807c9a2, 0x0f00f934, 0x9609a88e, 0xe10e9818, 0x7f6a0dbb, 0x086d3d2d, 0x91646c97, 0xe6635c01,
  0x6b6b51f4, 0x1c6c6162, 0x856530d8, 0xf262004e, 0x6c0695ed, 0x1b01a57b, 0x8208f4c1, 0xf50fc457,
  0x65b0d9c6, 0x12b7e950, 0x8bbeb8ea, 0xfcb9887c, 0x62dd1ddf, 0x15da2d49, 0x8cd37cf3, 0xfbd44c65,
  0x4db26158, 0x3ab551ce, 0xa3bc0074, 0xd4bb30e2, 0x4adfa541, 0x3dd895d7, 0xa4d1c46d, 0xd3d6f4fb,
  0x4369e96a, 0x346ed9fc, 0xad678846, 0xda60b8d0, 0x44042d73, 0x33031de5, 0xaa0a4c5f, 0xdd0d7cc9,
  0x5005713c, 0x270241aa, 0xbe0b1010, 0xc90c2086, 0x5768b525, 0x206f85b3, 0xb966d409, 0xce61e49f,
  0x5edef90e, 0x29d9c998, 0xb0d09822, 0xc7d7a8b4, 0x59b33d17, 0x2eb40d81, 0xb7bd5c3b, 0xc0ba6cad,
  0xedb88320, 0x9abfb3b6, 0x03b6e20c, 0x74b1d29a, 0xead54739, 0x9dd277af, 0x04db2615, 0x73dc1683,
  0xe3630b12, 0x94643b84, 0x0d6d6a3e, 0x7a6a5aa8, 0xe40ecf0b, 0x9309ff9d, 0x0a00ae27, 0x7d079eb1,
  0xf00f9344, 0x8708a3d2, 0x1e01f268, 0x6906c2fe, 0xf762575d, 0x806567cb, 0x196c3671, 0x6e6b06e7,
  0xfed41b76, 0x89d32be0, 0x10da7a5a, 0x67dd4acc, 0xf9b9df6f, 0x8ebeeff9, 0x17b7be43, 0x60b08ed5,
  0xd6d6a3e8, 0xa1d1937e, 0x38d8c2c4, 0x4fdff252, 0xd1bb67f1, 0xa6bc5767, 0x3fb506dd, 0x48b2364b,
  0xd80d2bda, 0xaf0a1b4c, 0x36034af6, 0x41047a60, 0xdf60efc3, 0xa867df55, 0x316e8eef, 0x4669be79,
  0xcb61b38c, 0xbc66831a, 0x256fd2a0, 0x5268e236, 0xcc0c7795, 0xbb0b4703, 0x220216b9, 0x5505262f,
  0xc5ba3bbe, 0xb2bd0b28, 0x2bb45a92, 0x5cb36a04, 0xc2d7ffa7, 0xb5d0cf31, 0x2cd99e8b, 0x5bdeae1d,
  0x9b64c2b0, 0xec63f226, 0x756aa39c, 0x026d930a, 0x9c0906a9, 0xeb0e363f, 0x72076785, 0x05005713,
  0x95bf4a82, 0xe2b87a14, 0x7bb12bae, 0x0cb61b38, 0x92d28e9b, 0xe5d5be0d, 0x7cdcefb7, 0x0bdbdf21,
  0x86d3d2d4, 0xf1d4e242, 0x68ddb3f8, 0x1fda836e, 0x81be16cd, 0xf6b9265b, 0x6fb077e1, 0x18b74777,
  0x88085ae6, 0xff0f6a70, 0x66063bca, 0x11010b5c, 0x8f659eff, 0xf862ae69, 0x616bffd3, 0x166ccf45,
  0xa00ae278, 0xd70dd2ee, 0x4e048354, 0x3903b3c2, 0xa7672661, 0xd06016f7, 0x4969474d, 0x3e6e77db,
  0xaed16a4a, 0xd9d65adc, 0x40df0b66, 0x37d83bf0, 0xa9bcae53, 0xdebb9ec5, 0x47b2cf7f, 0x30b5ffe9,
  0xbdbdf21c, 0xcabac28a, 0x53b39330, 0x24b4a3a6, 0xbad03605, 0xcdd70693, 0x54de5729, 0x23d967bf,
  0xb3667a2e, 0xc4614ab8, 0x5d681b02, 0x2a6f2b94, 0xb40bbe37, 0xc30c8ea1, 0x5a05df1b, 0x2d02ef8d]

/-- `UPDC32`. -/
def updc32 (crc : BitVec 32) (octet : UInt8) : BitVec 32 :=
  Crc.step (fun i => BitVec.ofNat 32 (crc32Tab.getD i 0)) crc octet

/-- `crc32buf`. -/
def crc32buf (buf : Bytes) : BitVec 32 := buf.foldl updc32 0xFFFFFFFF#32

/-- The polynomial: the highest power is the lowest bit. -/
def crc32Polynomial : BitVec 32 := 0xedb88320#32

theorem crc32Polynomial_top : Crc.Top crc32Polynomial := by
  show crc32Polynomial.getLsbD 31 = true
  decide

/-- The table is that of the polynomial. -/
theorem crc32Tab_isTable : Crc.IsTable crc32Polynomial fun i => BitVec.ofNat 32 (crc32Tab.getD i 0) := by
  unfold Crc.IsTable
  decide +kernel

/-- **The check sum is that of the polynomial**, one bit after the other. -/
theorem crc32buf_eq_feed (buf : Bytes) :
    crc32buf buf = Crc.feed crc32Polynomial 0xFFFFFFFF#32 (Crc.bitsOfBytes buf) :=
  Crc.foldl_step_eq_feed crc32Tab_isTable (by decide) _ buf

/-! ### The options -/

/-- What the program asks the system for.  `taken n` is what reaches the output of the `n` bytes written. -/
structure TrxWorld where
  ulongMax : ℕ
  word : ulongMax = 2 ^ 32 - 1 ∨ ulongMax = 2 ^ 64 - 1
  malloc : ℕ → Bool
  content : Bytes → Option Bytes
  creates : Bytes → Bool
  taken : ℕ → ℕ

/-- An option as `getopt` returns it, with its argument. -/
inductive TrxOpt
  | b (offs : Bytes)
  | o (ofile : Bytes)
  | m (maxlen : Bytes)
  | p (prodid : Bytes)
  | v (ver : Bytes)
  | other

/-- What the option loop sets: the offsets assigned so far, the name of the output file, `maxlen`, and two
fields of `asus`. -/
structure TrxArgs where
  offsets : List ℕ
  ofn : Option Bytes
  maxlen : ℕ
  prodId : Bytes
  version : Bytes

/-- `TRX_MAX_LEN`. -/
def trxMaxLen : ℕ := 0x9A0000

/-- The initial values. -/
def TrxArgs.default : TrxArgs := ⟨[], none, trxMaxLen, List.replicate 12 0, [1, 9, 2, 7]⟩

/-- The string is a number, and nothing else. -/
def isNumeric (s : Bytes) : Bool := strtoulUsed s ≠ 0 && strtoulUsed s = s.length

/-- `maxlen` of an `unsigned long`, rounded up to a multiple of 4096; none if it is too small or wraps. -/
def roundMaxlen (ulongMax n : ℕ) : Option ℕ :=
  let maxlen := if n % 0x1000 ≠ 0 then (n + (0x1000 - n % 0x1000)) % (ulongMax + 1) else n
  if maxlen < 0x1000 then none else some maxlen

/-- The loop over the bytes of `version`, from the one at `n` on; none if something is left of the string. -/
def versionLoop (ulongMax : ℕ) : ℕ → ℕ → Bytes → Bytes → Option Bytes
  | 0, _, optarg, version => if optarg = [] then some version else none
  | left + 1, n, optarg, version =>
      if n ≠ 0 ∧ ¬ (optarg.head? = some 46 ∧ 2 ≤ optarg.length) then
        if optarg = [] then some version else none
      else
        let optarg := if n ≠ 0 then optarg.drop 1 else optarg
        let (v, used) := strtoul ulongMax optarg
        versionLoop ulongMax left (n + 1) (optarg.drop used) (version.set n (UInt8.ofNat v))

/-- One pass of the option loop; none when it ends in `usage`.  The fourth offset lies behind `trxtemp`.  A
`maxlen` too large for `strtoul` is `ULONG_MAX`, which wraps. -/
def TrxArgs.take (w : TrxWorld) (a : TrxArgs) : TrxOpt → Exec (Option TrxArgs)
  | .b offs =>
      if 3 ≤ a.offsets.length then .undefined
      else if isNumeric offs = false then .ret none
      else .ret (some { a with offsets := a.offsets ++ [u32 (strtoulAuto w.ulongMax offs)] })
  | .o ofile => .ret (some { a with ofn := some ofile })
  | .m maxlen =>
      if isNumeric maxlen = false then .ret none
      else .ret ((roundMaxlen w.ulongMax (strtoulAuto w.ulongMax maxlen)).map fun n => { a with maxlen := n })
  | .p prodid =>
      if 12 < prodid.length then .ret none
      else .ret (some { a with prodId := poke (List.replicate 12 32) 0 prodid })
  | .v ver => .ret ((versionLoop w.ulongMax 4 0 ver a.version).map fun v => { a with version := v })
  | .other => .ret none

/-- The option loop. -/
def trxOptions (w : TrxWorld) : List TrxOpt → TrxArgs → Exec (Option TrxArgs)
  | [], a => .ret (some a)
  | opt :: opts, a => a.take w opt >>= fun r =>
      match r with
      | none => .ret none
      | some a => trxOptions w opts a

/-! ### The image -/

/-- `asus`: the version, the product, one pair of versions of compatible hardware, and zeros. -/
def TrxArgs.asus (a : TrxArgs) : Bytes :=
  a.version ++ a.prodId ++ [0, 2, 2, 99] ++ List.replicate 44 0

/-- `asus.prod_id[0]` is set. -/
def TrxArgs.hasAsus (a : TrxArgs) : Bool := a.prodId.head?.any (· ≠ 0)

/-- The variables of the loop over the files. -/
structure TrxBuf where
  buf : Bytes
  curLen : ℕ

/-- An access to `buf`; one to no bytes does nothing. -/
def trxStore (buf : Bytes) (off : ℕ) (xs : Bytes) : Exec Bytes :=
  if xs = [] then .ret buf
  else if off + xs.length ≤ buf.length then .ret (poke buf off xs)
  else .undefined

/-- `buf` before the loop: the header as `trxtemp` has it, with `magic` and `flag_version`. -/
def trxStart (a : TrxArgs) : TrxBuf :=
  let trxtemp := List.replicate 16 0 ++ leWords 4 (a.offsets ++ List.replicate (3 - a.offsets.length) 0)
  let buf := poke (List.replicate a.maxlen 0) 0 trxtemp
  let buf := poke buf 0 (leBytes 4 0x30524448)
  ⟨poke buf 12 (leBytes 4 (1 <<< 16)), 28⟩

/-- A pass of the loop over the files; none when it leaves with a failure.  `maxlen - cur_len` is an
`unsigned long`, and `cur_len` an `uint32_t`; the end of a file that fills the buffer is not seen. -/
def trxPass (w : TrxWorld) (maxlen i : ℕ) (last : Bool) (file : Bytes) (s : TrxBuf) : Exec (Option TrxBuf) :=
  let offset := leVal (peek s.buf (16 + 4 * i) 4)
  if offset ≠ 0 ∧ offset < s.curLen then .ret none
  else
    let buf := if offset = 0 then poke s.buf (16 + 4 * i) (leBytes 4 s.curLen) else s.buf
    let curLen := if offset = 0 then s.curLen else offset
    match w.content file with
    | none => .ret none
    | some data =>
        let room := (maxlen + (w.ulongMax + 1) - curLen) % (w.ulongMax + 1)
        trxStore buf curLen (data.take room) >>= fun buf =>
        if room ≤ data.length then .ret none
        else
          let pad := if last then 0 else (4 - data.length % 4) % 4
          trxStore buf (curLen + data.length) (List.replicate pad 0) >>= fun buf =>
          .ret (some ⟨buf, u32 (curLen + (data.length + pad))⟩)

/-- The loop over the files. -/
def trxLoop (w : TrxWorld) (maxlen : ℕ) : ℕ → List Bytes → TrxBuf → Exec (Option TrxBuf)
  | _, [], s => .ret (some s)
  | i, file :: files, s => trxPass w maxlen i (files = []) file s >>= fun r =>
      match r with
      | none => .ret none
      | some s => trxLoop w maxlen (i + 1) files s

/-- What follows the loop: the image that is written. -/
def trxFinish (a : TrxArgs) (s : TrxBuf) : Exec Bytes :=
  let curLen := if a.hasAsus then u32 (s.curLen + 64) else s.curLen
  let pad := if curLen % 0x1000 = 0 then 0 else 0x1000 - curLen % 0x1000
  trxStore s.buf curLen (List.replicate pad 0) >>= fun buf =>
  let curLen := u32 (curLen + pad)
  -- below this length the addresses of the footer and of the check sum lie in front of `buf`
  if curLen < 64 ∨ buf.length < curLen then .undefined
  else
    let buf := if a.hasAsus then poke buf (curLen - 64) a.asus else buf
    let crc32 := crc32buf ((buf.take curLen).drop 12)
    let buf := poke buf 8 (leBytes 4 crc32.toNat)
    let buf := poke buf 4 (leBytes 4 curLen)
    .ret (buf.take curLen)

/-- `main` from the check of the arguments on.  The output is none of the files that are read. -/
def trxMain (w : TrxWorld) (a : TrxArgs) (files : List Bytes) : Exec PackResult :=
  if a.ofn.any (w.creates · = false) then .ret ⟨1, none⟩
  else if files = [] ∨ 3 < files.length then .ret ⟨1, some []⟩
  else if w.malloc a.maxlen = false then .ret ⟨1, some []⟩
  else
    trxLoop w a.maxlen 0 files (trxStart a) >>= fun r =>
    match r with
    | none => .ret ⟨1, some []⟩
    | some s =>
        trxFinish a s >>= fun image =>
        if w.taken image.length = image.length then .ret ⟨0, some image⟩
        else .ret ⟨1, some (image.take (w.taken image.length))⟩

/-- `main`: the exit code and what was written to the output. -/
def asustrx (w : TrxWorld) (opts : List TrxOpt) (files : List Bytes) : Exec PackResult :=
  trxOptions w opts .default >>= fun r =>
  match r with
  | none => .ret ⟨1, none⟩
  | some a => trxMain w a files

/-! ### What the options leave -/

/-- What the program can rely on behind the option loop. -/
structure TrxArgs.Sane (a : TrxArgs) : Prop where
  offsets : a.offsets.length ≤ 3
  word : ∀ o ∈ a.offsets, o < 2 ^ 32
  aligned : 0x1000 ∣ a.maxlen
  room : 0x1000 ≤ a.maxlen
  prodId : a.prodId.length = 12
  version : a.version.length = 4

theorem TrxArgs.Sane.length_asus {a : TrxArgs} (h : a.Sane) : a.asus.length = 64 := by
  simp [TrxArgs.asus, h.prodId, h.version]

theorem roundMaxlen_sane {w : TrxWorld} {n m : ℕ} (h : roundMaxlen w.ulongMax n = some m) :
    0x1000 ∣ m ∧ 0x1000 ≤ m := by
  have hdvd : 0x1000 ∣ w.ulongMax + 1 := by
    rcases w.word with hw | hw <;> rw [hw] <;> norm_num
  unfold roundMaxlen at h
  dsimp only at h
  split_ifs at h with h1 h2 h3
  · obtain rfl := Option.some.inj h
    refine ⟨(Nat.dvd_mod_iff hdvd).2 ?_, by omega⟩
    omega
  · obtain rfl := Option.some.inj h
    exact ⟨by omega, by omega⟩

theorem versionLoop_length (ulongMax left : ℕ) : ∀ {n : ℕ} {optarg version v : Bytes},
    versionLoop ulongMax left n optarg version = some v → v.length = version.length := by
  induction left with
  | zero =>
    intro n optarg version v h
    rw [versionLoop] at h
    split_ifs at h
    rw [Option.some.inj h]
  | succ left ih =>
    intro n optarg version v h
    rw [versionLoop] at h
    split_ifs at h with h1 h2
    · rw [Option.some.inj h]
    all_goals
      rw [ih h, List.length_set]

theorem TrxArgs.Sane.take {w : TrxWorld} {a a' : TrxArgs} (ha : a.Sane) {opt : TrxOpt}
    (h : a.take w opt = .ret (some a')) : a'.Sane := by
  cases opt with
  | b offs =>
    rw [TrxArgs.take] at h
    split_ifs at h with h1 h2
    · cases h
    · obtain rfl := Option.some.inj (Exec.ret.inj h)
      refine ⟨?_, ?_, ha.aligned, ha.room, ha.prodId, ha.version⟩
      · rw [List.length_append, List.length_singleton]
        omega
      · intro o ho
        rcases List.mem_append.1 ho with ho | ho
        · exact ha.word o ho
        · rw [List.mem_singleton.1 ho]
          exact Nat.mod_lt _ (by norm_num)
  | o ofile =>
    obtain rfl := Option.some.inj (Exec.ret.inj h)
    exact ⟨ha.offsets, ha.word, ha.aligned, ha.room, ha.prodId, ha.version⟩
  | m maxlen =>
    rw [TrxArgs.take] at h
    split_ifs at h with h1
    · cases h
    · obtain ⟨n, hn, rfl⟩ := Option.map_eq_some_iff.1 (Exec.ret.inj h)
      obtain ⟨hdvd, hle⟩ := roundMaxlen_sane hn
      exact ⟨ha.offsets, ha.word, hdvd, hle, ha.prodId, ha.version⟩
  | p prodid =>
    rw [TrxArgs.take] at h
    split_ifs at h with h1
    · cases h
    · obtain rfl := Option.some.inj (Exec.ret.inj h)
      refine ⟨ha.offsets, ha.word, ha.aligned, ha.room, ?_, ha.version⟩
      show (poke (List.replicate 12 32) 0 prodid).length = 12
      rw [length_poke (by rw [List.length_replicate]; omega), List.length_replicate]
  | v ver =>
    obtain ⟨v, hv, rfl⟩ := Option.map_eq_some_iff.1 (Exec.ret.inj h)
    exact ⟨ha.offsets, ha.word, ha.aligned, ha.room, ha.prodId, (versionLoop_length _ _ hv).trans ha.version⟩
  | other => cases h

/-- The arguments after any options. -/
theorem trxOptions_sane {w : TrxWorld} : ∀ {opts : List TrxOpt} {a a' : TrxArgs}, a.Sane →
    trxOptions w opts a = .ret (some a') → a'.Sane := by
  intro opts
  induction opts with
  | nil =>
    intro a a' ha h
    obtain rfl := Option.some.inj (Exec.ret.inj h)
    exact ha
  | cons opt opts ih =>
    intro a a' ha h
    obtain ⟨r, hr, h⟩ := Exec.bind_eq_ret h
    cases r with
    | none => cases h
    | some a₁ => exact ih (ha.take hr) h

theorem default_sane : TrxArgs.default.Sane :=
  ⟨by decide, by simp [TrxArgs.default], by decide, by decide, by decide, by decide⟩

/-! ### What the loop does to the buffer -/

/-- An access behind what has been written: the gap in front of it stays zero. -/
theorem trxStore_zeros {pre xs buf : Bytes} {n g : ℕ} (hg : g ≤ n)
    (h : trxStore (pre ++ List.replicate n 0) (pre.length + g) xs = .ret buf) :
    g + xs.length ≤ n ∧
      buf = pre ++ (List.replicate g 0 ++ xs) ++ List.replicate (n - (g + xs.length)) 0 := by
  have hzeros : ∀ k ≤ n, List.replicate n (0 : UInt8) = List.replicate k 0 ++ List.replicate (n - k) 0 :=
    fun k hk => by rw [List.replicate_append_replicate, Nat.add_sub_cancel' hk]
  rw [trxStore] at h
  split_ifs at h with h1 h2
  · obtain rfl := Exec.ret.inj h
    rw [h1, List.append_nil, List.length_nil, Nat.add_zero, List.append_assoc, ← hzeros g hg]
    exact ⟨hg, rfl⟩
  · obtain rfl := Exec.ret.inj h
    rw [List.length_append, List.length_replicate] at h2
    have hle : g + xs.length ≤ n := by omega
    refine ⟨hle, ?_⟩
    obtain ⟨k, rfl⟩ := Nat.exists_eq_add_of_le hle
    have hsplit : pre ++ List.replicate (g + xs.length + k) 0 = (pre ++ List.replicate g 0) ++
        (List.replicate xs.length 0 ++ List.replicate k (0 : UInt8)) := by
      rw [List.replicate_add, List.replicate_add]
      simp only [List.append_assoc]
    rw [hsplit, poke_append (by simp) (by simp), Nat.add_sub_cancel_left]
    simp only [List.append_assoc]

/-- The first four fields of the header, with the length and the check sum. -/
def trxFront (len crc : Bytes) : Bytes := leBytes 4 0x30524448 ++ len ++ crc ++ leBytes 4 (1 <<< 16)

/-- The buffer while the files are packed: the offsets in the header, and what has been written behind it. -/
structure TrxBuf.Holds (maxlen : ℕ) (s : TrxBuf) (offs : List ℕ) (data : Bytes) : Prop where
  buf : s.buf = trxFront (List.replicate 4 0) (List.replicate 4 0) ++
    (leWords 4 offs ++ (data ++ List.replicate (maxlen - (28 + data.length)) 0))
  curLen : s.curLen = 28 + data.length
  fits : 28 + data.length ≤ maxlen
  three : offs.length = 3
  small : ∀ o ∈ offs, o < 2 ^ 32

theorem length_trxFront {len crc : Bytes} (hlen : len.length = 4) (hcrc : crc.length = 4) :
    (trxFront len crc).length = 16 := by
  simp [trxFront, hlen, hcrc]

theorem length_front_blank : (trxFront (List.replicate 4 0) (List.replicate 4 0)).length = 16 := rfl

/-- The offsets that the options gave, with zeros for the others. -/
def TrxArgs.given (a : TrxArgs) : List ℕ := a.offsets ++ List.replicate (3 - a.offsets.length) 0

theorem trxStart_holds {a : TrxArgs} (ha : a.Sane) : (trxStart a).Holds a.maxlen a.given [] := by
  have hthree : a.given.length = 3 := by
    have := ha.offsets
    rw [TrxArgs.given, List.length_append, List.length_replicate]
    omega
  have hroom := ha.room
  refine ⟨?_, rfl, by rw [List.length_nil]; omega, hthree, fun o ho => ?_⟩
  · have hzeros : List.replicate a.maxlen (0 : UInt8) =
        List.replicate 28 0 ++ List.replicate (a.maxlen - 28) 0 := by
      rw [List.replicate_append_replicate, Nat.add_sub_cancel' (by omega)]
    have htemp : (List.replicate 16 (0 : UInt8) ++ leWords 4 a.given).length = 28 := by simp [hthree]
    have hcopy : poke (List.replicate a.maxlen 0) 0 (List.replicate 16 0 ++ leWords 4 a.given) =
        List.replicate 16 0 ++ leWords 4 a.given ++ List.replicate (a.maxlen - 28) 0 := by
      rw [hzeros]
      exact poke_append (a := []) rfl (List.length_replicate.trans htemp.symm)
    have hmagic : ∀ rest, poke (List.replicate 16 (0 : UInt8) ++ rest) 0 (leBytes 4 0x30524448) =
        (leBytes 4 0x30524448 ++ List.replicate 8 0) ++ (List.replicate 4 0 ++ rest) := fun _ => rfl
    have hversion : ∀ rest, poke ((leBytes 4 0x30524448 ++ List.replicate 8 0) ++
        (List.replicate 4 (0 : UInt8) ++ rest)) 12 (leBytes 4 (1 <<< 16)) =
        trxFront (List.replicate 4 0) (List.replicate 4 0) ++ rest := fun _ => rfl
    show poke (poke (poke (List.replicate a.maxlen 0) 0 (List.replicate 16 0 ++ leWords 4 a.given)) 0
      (leBytes 4 0x30524448)) 12 (leBytes 4 (1 <<< 16)) = _
    rw [hcopy, List.append_assoc, hmagic, hversion]
    rfl
  · rcases List.mem_append.1 ho with ho | ho
    · exact ha.word o ho
    · rw [List.eq_of_mem_replicate ho]
      norm_num

theorem u32_of_lt {n : ℕ} (h : n < 2 ^ 32) : u32 n = n := Nat.mod_eq_of_lt h

section Loop

variable {w : TrxWorld} {maxlen i : ℕ} {s : TrxBuf} {offs : List ℕ} {data : Bytes}

/-- Where a file goes: to the offset that was given, or behind what is there. -/
def fileOffset (given curLen : ℕ) : ℕ := if given = 0 then curLen else given

theorem TrxBuf.Holds.lt_word (hs : s.Holds maxlen offs data) (hmax : maxlen < 2 ^ 32) :
    28 + data.length < 2 ^ 32 := hs.fits.trans_lt hmax

theorem TrxBuf.Holds.curLen_le (hs : s.Holds maxlen offs data) : s.curLen ≤ maxlen := hs.curLen ▸ hs.fits

/-- The offset in the header. -/
theorem TrxBuf.Holds.offset (hs : s.Holds maxlen offs data) {g : ℕ} (hg : offs[i]? = some g) :
    leVal (peek s.buf (16 + 4 * i) 4) = g := by
  rw [hs.buf, peek_leWords _ _ hg (by rw [length_front_blank]),
    leVal_leBytes (by have := hs.small g (List.mem_of_getElem? hg); norm_num at this ⊢; exact this)]

/-- The offset of the next file, when the loop is through with it. -/
theorem TrxBuf.Holds.setOffset (hs : s.Holds maxlen offs data) (hmax : maxlen < 2 ^ 32) {g : ℕ}
    (hg : offs[i]? = some g) :
    TrxBuf.Holds maxlen ⟨if g = 0 then poke s.buf (16 + 4 * i) (leBytes 4 s.curLen) else s.buf, s.curLen⟩
      (offs.set i (fileOffset g s.curLen)) data := by
  obtain ⟨hi, hget⟩ := List.getElem?_eq_some_iff.1 hg
  by_cases hzero : g = 0
  · rw [if_pos hzero, fileOffset, if_pos hzero]
    refine ⟨?_, hs.curLen, hs.fits, by rw [List.length_set, hs.three], fun x hx => ?_⟩
    · show poke s.buf (16 + 4 * i) (leBytes 4 s.curLen) = _
      rw [hs.buf, poke_leWords _ _ hi _ (by rw [length_front_blank])]
    · rcases List.mem_or_eq_of_mem_set hx with hx | rfl
      · exact hs.small x hx
      · rw [hs.curLen]
        exact hs.lt_word hmax
  · have hset : offs.set i g = offs := by rw [← hget, List.set_getElem_self]
    rw [if_neg hzero, fileOffset, if_neg hzero, hset]
    exact hs

/-- An access behind what is there. -/
theorem TrxBuf.Holds.store (hs : s.Holds maxlen offs data) {o : ℕ} (hge : s.curLen ≤ o) (hle : o ≤ maxlen)
    {xs buf : Bytes} (h : trxStore s.buf o xs = .ret buf) :
    TrxBuf.Holds maxlen ⟨buf, o + xs.length⟩ offs (data ++ List.replicate (o - s.curLen) 0 ++ xs) := by
  have hcur := hs.curLen
  have hfits := hs.fits
  have hpre : (trxFront (List.replicate 4 0) (List.replicate 4 0) ++ leWords 4 offs ++ data).length =
      s.curLen := by
    rw [List.length_append, List.length_append, length_front_blank, length_leWords, hs.three, hcur]
  have hlen : (data ++ List.replicate (o - s.curLen) 0 ++ xs).length + 28 = o + xs.length := by
    rw [List.length_append, List.length_append, List.length_replicate]
    omega
  rw [hs.buf, ← List.append_assoc, ← List.append_assoc, show o = s.curLen + (o - s.curLen) by omega,
    ← hpre] at h
  obtain ⟨hfit, rfl⟩ := trxStore_zeros (by rw [hpre]; omega) h
  rw [hpre] at hfit
  refine ⟨?_, ?_, by omega, hs.three, hs.small⟩
  · have hrest : maxlen - (28 + (data ++ List.replicate (o - s.curLen) 0 ++ xs).length) =
        maxlen - (28 + data.length) - (o - s.curLen + xs.length) := by omega
    dsimp only
    rw [hpre, hrest]
    simp only [List.append_assoc]
  · show o + xs.length = _
    omega

/-- Room in the buffer, as the `unsigned long` that `fread` gets. -/
theorem room_eq (w : TrxWorld) (hmax : maxlen < 2 ^ 32) {curLen : ℕ} (hcur : curLen ≤ maxlen) :
    (maxlen + (w.ulongMax + 1) - curLen) % (w.ulongMax + 1) = maxlen - curLen := by
  have hword : maxlen < w.ulongMax + 1 := by
    rcases w.word with hw | hw <;> rw [hw] <;> norm_num at hmax ⊢ <;> omega
  rw [Nat.sub_add_comm hcur, Nat.add_mod_right, Nat.mod_eq_of_lt (by omega)]

/-- **A pass of the loop**: the file at its offset, with zeros in front of it and behind it. -/
theorem TrxBuf.Holds.pass (hs : s.Holds maxlen offs data) (hmax : maxlen < 2 ^ 32) {g : ℕ}
    (hg : offs[i]? = some g) (hle : g ≤ maxlen) {last : Bool} {file : Bytes} {s' : TrxBuf}
    (h : trxPass w maxlen i last file s = .ret (some s')) :
    ∃ X pad, w.content file = some X ∧ s.curLen ≤ fileOffset g s.curLen ∧
      s'.Holds maxlen (offs.set i (fileOffset g s.curLen))
        (data ++ List.replicate (fileOffset g s.curLen - s.curLen) 0 ++ X ++ List.replicate pad 0) := by
  have hset := hs.setOffset hmax hg
  have hcur := hs.curLen
  have hfits := hs.fits
  rw [trxPass] at h
  dsimp only at h
  rw [hs.offset hg] at h
  by_cases hback : g ≠ 0 ∧ g < s.curLen
  · rw [if_pos hback] at h
    cases h
  rw [if_neg hback] at h
  have hge : s.curLen ≤ fileOffset g s.curLen := by
    rw [fileOffset]
    split_ifs with hzero
    · exact le_rfl
    · exact not_lt.1 fun hlt => hback ⟨hzero, hlt⟩
  have hoffset : fileOffset g s.curLen ≤ maxlen := by
    rw [fileOffset]
    split_ifs <;> omega
  cases hX : w.content file with
  | none =>
    rw [hX] at h
    cases h
  | some X =>
    rw [hX] at h
    dsimp only at h
    rw [show (if g = 0 then s.curLen else g) = fileOffset g s.curLen from rfl, room_eq w hmax hoffset] at h
    obtain ⟨buf, hstore, h⟩ := Exec.bind_eq_ret h
    by_cases hroom : maxlen - fileOffset g s.curLen ≤ X.length
    · rw [if_pos hroom] at h
      cases h
    rw [if_neg hroom] at h
    obtain ⟨buf', hpad, h⟩ := Exec.bind_eq_ret h
    obtain rfl := Option.some.inj (Exec.ret.inj h)
    rw [List.take_of_length_le (by omega)] at hstore
    have hfile := hset.store hge hoffset hstore
    have hend := hfile.store le_rfl hfile.curLen_le hpad
    rw [Nat.sub_self, List.replicate_zero, List.append_nil, List.length_replicate] at hend
    refine ⟨X, if last = true then 0 else (4 - X.length % 4) % 4, rfl, hge, ?_⟩
    rw [← Nat.add_assoc, u32_of_lt (hend.curLen_le.trans_lt hmax)]
    exact hend

/-- The files `Xs`, from the one with the number `i` on, in what follows `data`: each at its offset, one
behind the other, and zeros between them. -/
structure Layout (i : ℕ) (data : Bytes) (Xs : List Bytes) (offs : List ℕ) (data' : Bytes) : Prop where
  front : data <+: data'
  file : ∀ j X, Xs[j]? = some X → ∃ o, offs[i + j]? = some o ∧ 28 + data.length ≤ o ∧
    o + X.length ≤ 28 + data'.length ∧ peek data' (o - 28) X.length = X
  ordered : ∀ j k X o o', j < k → k < Xs.length → Xs[j]? = some X → offs[i + j]? = some o →
    offs[i + k]? = some o' → o + X.length ≤ o'
  zero : ∀ n, data.length ≤ n → n < data'.length →
    (∀ j X o, Xs[j]? = some X → offs[i + j]? = some o → ¬ (o ≤ 28 + n ∧ 28 + n < o + X.length)) →
    data'[n]? = some 0

theorem Layout.nil (i : ℕ) (data : Bytes) (offs : List ℕ) : Layout i data [] offs data :=
  ⟨List.prefix_refl data, fun _ _ hX => by simp at hX, fun _ _ _ _ _ _ hk => by simp at hk,
    fun n hn hn' => by omega⟩

theorem Layout.cons {X data' : Bytes} {Xs : List Bytes} {o pad : ℕ} (ho : offs[i]? = some o)
    (hge : 28 + data.length ≤ o)
    (h : Layout (i + 1) (data ++ List.replicate (o - (28 + data.length)) 0 ++ X ++ List.replicate pad 0) Xs
      offs data') : Layout i data (X :: Xs) offs data' := by
  have hshift : ∀ j, i + 1 + j = i + (j + 1) := fun j => by omega
  have hlen : (data ++ List.replicate (o - (28 + data.length)) (0 : UInt8)).length = o - 28 := by
    rw [List.length_append, List.length_replicate]
    omega
  have hnext : (data ++ List.replicate (o - (28 + data.length)) 0 ++ X ++ List.replicate pad 0).length + 28 =
      o + X.length + pad := by
    rw [List.length_append, List.length_append, hlen, List.length_replicate]
    omega
  obtain ⟨rest, hrest⟩ := h.front
  have hend : o + X.length + pad ≤ 28 + data'.length := by
    rw [← hrest, List.length_append]
    omega
  have hfront : data <+: data' := by
    rw [← hrest]
    simp only [List.append_assoc]
    exact List.prefix_append _ _
  refine ⟨hfront, fun j Y hY => ?_,
    fun j k Y o₁ o₂ hjk hk hY ho₁ ho₂ => ?_, fun n hn hn' hout => ?_⟩
  · cases j with
    | zero =>
      obtain rfl : X = Y := Option.some.inj hY
      refine ⟨o, ho, hge, by omega, ?_⟩
      rw [← hrest, List.append_assoc, List.append_assoc]
      exact peek_append hlen rfl
    | succ j =>
      obtain ⟨o', ho', hle, hfits, hpeek⟩ := h.file j Y hY
      exact ⟨o', hshift j ▸ ho', by omega, hfits, hpeek⟩
  · cases k with
    | zero => exact absurd hjk (Nat.not_lt_zero j)
    | succ k =>
      rw [List.length_cons, Nat.add_lt_add_iff_right] at hk
      rw [← hshift] at ho₂
      cases j with
      | zero =>
        -- the next files lie behind the end of this one
        obtain rfl : X = Y := Option.some.inj hY
        obtain rfl : o = o₁ := Option.some.inj (ho.symm.trans ho₁)
        obtain ⟨o', ho', hle, -, -⟩ := h.file k Xs[k] (List.getElem?_eq_getElem hk)
        obtain rfl : o' = o₂ := Option.some.inj (ho'.symm.trans ho₂)
        omega
      | succ j =>
        rw [← hshift] at ho₁
        exact h.ordered j k Y o₁ o₂ (by omega) hk hY ho₁ ho₂
  · by_cases hbehind : o + X.length + pad ≤ 28 + n
    · exact h.zero n (by omega) hn' fun j Y o' hY ho' => hout (j + 1) Y o' hY (hshift j ▸ ho')
    · have hfile := hout 0 X o rfl ho
      rw [← hrest, List.append_assoc, List.append_assoc, List.append_assoc, List.getElem?_append_right hn,
        List.getElem?_append, List.length_replicate]
      split_ifs with hgap
      · rw [List.getElem?_replicate, if_pos hgap]
      · rw [List.getElem?_append_right (by omega), List.getElem?_append_left
          (by rw [List.length_replicate]; omega), List.getElem?_replicate, if_pos (by omega)]

/-- **The loop over the files.** -/
theorem TrxBuf.Holds.loop (hmax : maxlen < 2 ^ 32) : ∀ {files : List Bytes} {i : ℕ} {s s' : TrxBuf}
    {offs : List ℕ} {data : Bytes}, s.Holds maxlen offs data → (∀ g ∈ offs, g ≤ maxlen) →
    i + files.length ≤ 3 → trxLoop w maxlen i files s = .ret (some s') →
    ∃ Xs offs' data', files.map w.content = Xs.map some ∧ s'.Holds maxlen offs' data' ∧
      (∀ j < i, offs'[j]? = offs[j]?) ∧
      (∀ j g, j < files.length → offs[i + j]? = some g → g ≠ 0 → offs'[i + j]? = some g) ∧
      Layout i data Xs offs' data' := by
  intro files
  induction files with
  | nil =>
    intro i s s' offs data hs _ _ h
    obtain rfl := Option.some.inj (Exec.ret.inj h)
    exact ⟨[], offs, data, rfl, hs, fun _ _ => rfl, fun _ _ _ hg _ => hg, Layout.nil i data offs⟩
  | cons file files ih =>
    intro i s s' offs data hs hle hi h
    rw [List.length_cons] at hi
    obtain ⟨r, hr, h⟩ := Exec.bind_eq_ret h
    cases r with
    | none => cases h
    | some s₁ =>
      have hlt : i < offs.length := by rw [hs.three]; omega
      have hg : offs[i]? = some offs[i] := List.getElem?_eq_getElem hlt
      obtain ⟨X, pad, hX, hge, hs₁⟩ := hs.pass hmax hg (hle _ (List.getElem_mem hlt)) hr
      generalize ho : fileOffset offs[i] s.curLen = o at hge hs₁
      have hle₁ : ∀ g ∈ offs.set i o, g ≤ maxlen := by
        intro g hg
        rcases List.mem_or_eq_of_mem_set hg with hg | rfl
        · exact hle g hg
        · rw [← ho, fileOffset]
          split_ifs
          · exact hs.curLen_le
          · exact hle _ (List.getElem_mem hlt)
      obtain ⟨Xs, offs', data', hXs, hs', hfront, hgiven, hlayout⟩ := ih hs₁ hle₁ (by omega) h
      have hoffset : offs'[i]? = some o := by
        rw [hfront i (Nat.lt_succ_self i)]
        exact List.getElem?_set_self hlt
      rw [hs.curLen] at hge hlayout
      refine ⟨X :: Xs, offs', data', by rw [List.map_cons, hX, hXs, List.map_cons], hs', fun j hj => ?_,
        fun j g hj hg hne => ?_, Layout.cons hoffset hge hlayout⟩
      · rw [hfront j (by omega), List.getElem?_set_ne (by omega)]
      · cases j with
        | zero =>
          have hsame : offs[i] = g := Option.some.inj ((List.getElem?_eq_getElem hlt).symm.trans hg)
          rw [Nat.add_zero, hoffset, ← ho, fileOffset, hsame, if_neg hne]
        | succ j =>
          have hshift : i + (j + 1) = i + 1 + j := by omega
          rw [List.length_cons] at hj
          rw [hshift] at hg ⊢
          exact hgiven j g (by omega) (by rw [List.getElem?_set_ne (by omega)]; exact hg) hne

end Loop

/-! ### The image -/

theorem poke_trxFront_crc {len crc x : Bytes} (hlen : len.length = 4) (hx : x.length = crc.length)
    (rest : Bytes) : poke (trxFront len crc ++ rest) 8 x = trxFront len x ++ rest := by
  have hoff : (leBytes 4 0x30524448 ++ len).length = 8 := by simp [hlen]
  simp only [trxFront, List.append_assoc]
  rw [← List.append_assoc (leBytes 4 0x30524448) len, poke_append hoff hx.symm]
  simp only [List.append_assoc]

theorem poke_trxFront_len {len crc x : Bytes} (hx : x.length = len.length) (rest : Bytes) :
    poke (trxFront len crc ++ rest) 4 x = trxFront x crc ++ rest := by
  simp only [trxFront, List.append_assoc]
  rw [poke_append (length_leBytes 4 _) hx.symm]

theorem drop_trxFront {len crc : Bytes} (hlen : len.length = 4) (hcrc : crc.length = 4) (rest : Bytes) :
    (trxFront len crc ++ rest).drop 12 = leBytes 4 (1 <<< 16) ++ rest := by
  have hoff : (leBytes 4 0x30524448 ++ len ++ crc).length = 12 := by simp [hlen, hcrc]
  rw [trxFront, List.append_assoc, List.drop_left' hoff]

/-- The number of bytes that the footer takes. -/
def TrxArgs.footerLength (a : TrxArgs) : ℕ := if a.hasAsus then 64 else 0

theorem TrxArgs.footerLength_le (a : TrxArgs) : a.footerLength ≤ 64 := by
  rw [TrxArgs.footerLength]
  split_ifs <;> omega

/-- The space for the footer, which does not make `cur_len` wrap. -/
theorem TrxArgs.Sane.curLen_footer {a : TrxArgs} (ha : a.Sane) (hmax : a.maxlen < 2 ^ 32) {curLen : ℕ}
    (hle : curLen ≤ a.maxlen) :
    (if a.hasAsus = true then u32 (curLen + 64) else curLen) = curLen + a.footerLength := by
  have haligned := ha.aligned
  rw [TrxArgs.footerLength]
  split_ifs
  · exact u32_of_lt (by omega)
  · rfl

/-- The image, in its parts: the header, the files, a gap, and the footer. -/
structure TrxParts (a : TrxArgs) (offs : List ℕ) (data image : Bytes) : Prop where
  aligned : 0x1000 ∣ image.length
  fits : image.length ≤ a.maxlen
  three : offs.length = 3
  small : ∀ o ∈ offs, o < 2 ^ 32
  parts : ∃ gap, image = trxFront (leBytes 4 image.length) (leBytes 4 (crc32buf (image.drop 12)).toNat) ++
    (leWords 4 offs ++ (data ++ (List.replicate gap 0 ++ if a.hasAsus then a.asus else [])))

theorem trxStore_length {buf buf' xs : Bytes} {off : ℕ} (h : trxStore buf off xs = .ret buf') :
    buf'.length = buf.length := by
  rw [trxStore] at h
  split_ifs at h with h1 h2
  · rw [Exec.ret.inj h]
  · rw [← Exec.ret.inj h, length_poke h2]

theorem TrxBuf.Holds.length_buf {maxlen : ℕ} {s : TrxBuf} {offs : List ℕ} {data : Bytes}
    (hs : s.Holds maxlen offs data) : s.buf.length = maxlen := by
  have hfits := hs.fits
  rw [hs.buf]
  simp only [List.length_append, length_front_blank, length_leWords, hs.three, List.length_replicate]
  omega

theorem TrxBuf.Holds.finish {a : TrxArgs} (ha : a.Sane) (hmax : a.maxlen < 2 ^ 32) {s : TrxBuf}
    {offs : List ℕ} {data image : Bytes} (hs : s.Holds a.maxlen offs data)
    (h : trxFinish a s = .ret image) : TrxParts a offs data image := by
  have haligned := ha.aligned
  have hle := hs.curLen_le
  have hcur := hs.curLen
  have hfooter := ha.curLen_footer hmax hle
  have hfooterLen : (if a.hasAsus = true then a.asus else []).length = a.footerLength := by
    rw [TrxArgs.footerLength]
    split_ifs
    · exact ha.length_asus
    · rfl
  have hfooterLe := a.footerLength_le
  rw [trxFinish] at h
  dsimp only at h
  rw [hfooter] at h
  generalize hpad : (if (s.curLen + a.footerLength) % 0x1000 = 0 then 0
    else 0x1000 - (s.curLen + a.footerLength) % 0x1000) = pad at h
  have hround : 0x1000 ∣ s.curLen + a.footerLength + pad := by
    rw [← hpad]
    split_ifs <;> omega
  obtain ⟨buf, hstore, h⟩ := Exec.bind_eq_ret h
  by_cases hout : u32 (s.curLen + a.footerLength + pad) < 64 ∨
      buf.length < u32 (s.curLen + a.footerLength + pad)
  · rw [if_pos hout] at h
    cases h
  rw [if_neg hout] at h
  rw [not_or, not_lt, not_lt, trxStore_length hstore, hs.length_buf] at hout
  -- the length does not wrap, since zero is below the footer
  have hword : s.curLen + a.footerLength + pad < 2 ^ 32 := by
    by_contra hge
    have hpad' : pad < 0x1000 := by
      rw [← hpad]
      split_ifs <;> omega
    have hzero : s.curLen + a.footerLength + pad = 2 ^ 32 := by omega
    rw [hzero] at hout
    exact absurd hout.1 (by decide)
  rw [u32_of_lt hword] at h hout
  have hend := (hs.store (o := s.curLen + a.footerLength) (by omega) (by omega) hstore).buf
  have hzeros : List.replicate a.footerLength (0 : UInt8) ++ List.replicate pad 0 =
      List.replicate pad 0 ++ List.replicate a.footerLength 0 := by
    rw [List.replicate_append_replicate, List.replicate_append_replicate, Nat.add_comm]
  dsimp only at hend
  rw [Nat.add_sub_cancel_left, List.append_assoc data, hzeros] at hend
  generalize hrest : a.maxlen - (28 + (data ++ (List.replicate pad 0 ++
    List.replicate a.footerLength (0 : UInt8))).length) = rest at hend
  generalize hbody : leWords 4 offs ++ (data ++ (List.replicate pad 0 ++
    if a.hasAsus = true then a.asus else [])) = body
  have hlen : ∀ len crc : Bytes, len.length = 4 → crc.length = 4 →
      (trxFront len crc ++ body).length = s.curLen + a.footerLength + pad := by
    intro len crc h1 h2
    rw [← hbody]
    simp only [List.length_append, length_trxFront h1 h2, length_leWords, hs.three, List.length_replicate,
      hfooterLen]
    omega
  have htake : ∀ len crc : Bytes, len.length = 4 → crc.length = 4 →
      (trxFront len crc ++ (body ++ List.replicate rest 0)).take (s.curLen + a.footerLength + pad) =
        trxFront len crc ++ body := by
    intro len crc h1 h2
    rw [← List.append_assoc, List.take_left' (hlen len crc h1 h2)]
  have hbuf : (if a.hasAsus = true then poke buf (s.curLen + a.footerLength + pad - 64) a.asus else buf) =
      trxFront (List.replicate 4 0) (List.replicate 4 0) ++ (body ++ List.replicate rest 0) := by
    rw [hend, ← hbody]
    by_cases hasus : a.hasAsus = true
    · have h64 : a.footerLength = 64 := if_pos hasus
      have hpre : (trxFront (List.replicate 4 0) (List.replicate 4 0) ++ (leWords 4 offs ++
          (data ++ List.replicate pad 0))).length = s.curLen + 64 + pad - 64 := by
        simp only [List.length_append, length_front_blank, length_leWords, hs.three, List.length_replicate]
        omega
      have hpoke := @poke_append _ _ (List.replicate 64 0) (List.replicate rest 0) a.asus _ hpre
        (by rw [List.length_replicate, ha.length_asus])
      rw [if_pos hasus, if_pos hasus, h64]
      simpa only [List.append_assoc] using hpoke
    · have h0 : a.footerLength = 0 := if_neg hasus
      rw [if_neg hasus, if_neg hasus, h0]
      simp only [List.replicate_zero, List.append_nil, List.append_assoc]
  rw [hbuf, htake _ _ rfl rfl, poke_trxFront_crc rfl (by simp), poke_trxFront_len (by simp),
    htake _ _ (by simp) (by simp)] at h
  obtain rfl := Exec.ret.inj h
  have hlenImage := hlen (leBytes 4 (s.curLen + a.footerLength + pad))
    (leBytes 4 (crc32buf ((trxFront (List.replicate 4 0) (List.replicate 4 0) ++ body).drop 12)).toNat)
    (by simp) (by simp)
  refine ⟨by rw [hlenImage]; exact hround, by rw [hlenImage]; exact hout.2, hs.three, hs.small, pad, ?_⟩
  rw [hlenImage, hbody, drop_trxFront (by simp) (by simp), drop_trxFront rfl rfl]

/-- The offset of a file, as the header names it. -/
def fileAt (image : Bytes) (i : ℕ) : ℕ := leVal (peek image (16 + 4 * i) 4)

/-- An image with the files `Xs`. -/
structure TrxImage (a : TrxArgs) (Xs : List Bytes) (image : Bytes) : Prop where
  aligned : 0x1000 ∣ image.length
  fits : image.length ≤ a.maxlen
  magic : leVal (peek image 0 4) = 0x30524448
  len : leVal (peek image 4 4) = image.length
  crc : leVal (peek image 8 4) = (crc32buf (image.drop 12)).toNat
  version : leVal (peek image 12 4) = 1 <<< 16
  file : ∀ i X, Xs[i]? = some X → 28 ≤ fileAt image i ∧
    fileAt image i + X.length + a.footerLength ≤ image.length ∧ peek image (fileAt image i) X.length = X
  given : ∀ i g, i < Xs.length → a.given[i]? = some g → g ≠ 0 → fileAt image i = g
  ordered : ∀ i j X, i < j → j < Xs.length → Xs[i]? = some X → fileAt image i + X.length ≤ fileAt image j
  footer : a.hasAsus = true → image.drop (image.length - 64) = a.asus
  zero : ∀ n, 28 ≤ n → n + a.footerLength < image.length →
    (∀ i X, Xs[i]? = some X → ¬ (fileAt image i ≤ n ∧ n < fileAt image i + X.length)) → image[n]? = some 0

/-- A field in the middle of three parts. -/
theorem peek_middle {pre m rest : Bytes} {off n : ℕ} (h : off + n ≤ m.length) :
    peek (pre ++ (m ++ rest)) (pre.length + off) n = peek m off n := by
  rw [← peek_append_left h rest, peek, peek, ← List.drop_drop, List.drop_left]

theorem TrxParts.image {a : TrxArgs} (ha : a.Sane) {offs : List ℕ} {data image : Bytes}
    (h : TrxParts a offs data image) {Xs : List Bytes} (hlayout : Layout 0 [] Xs offs data)
    (hgiven : ∀ i g, i < Xs.length → a.given[i]? = some g → g ≠ 0 → offs[i]? = some g)
    (hmax : a.maxlen < 2 ^ 32) : TrxImage a Xs image := by
  obtain ⟨gap, hparts⟩ := h.parts
  generalize hcrc : crc32buf (image.drop 12) = crc at hparts
  generalize htail : List.replicate gap 0 ++ (if a.hasAsus = true then a.asus else []) = tail at hparts
  have hlt : image.length < 256 ^ 4 := by
    have := h.fits
    norm_num at hmax ⊢
    omega
  have hfront : (trxFront (leBytes 4 image.length) (leBytes 4 crc.toNat)).length = 16 :=
    length_trxFront (by simp) (by simp)
  have hhead : (trxFront (leBytes 4 image.length) (leBytes 4 crc.toNat) ++ leWords 4 offs).length = 28 := by
    rw [List.length_append, hfront, length_leWords, h.three]
  have hparts' : image = (trxFront (leBytes 4 image.length) (leBytes 4 crc.toNat) ++ leWords 4 offs) ++
      (data ++ tail) := by
    rw [List.append_assoc]
    exact hparts
  have hlen : image.length = 28 + data.length + tail.length := by
    conv_lhs => rw [hparts', List.length_append, hhead, List.length_append]
    omega
  have htailLen : tail.length = gap + a.footerLength := by
    rw [← htail, List.length_append, List.length_replicate, TrxArgs.footerLength]
    split_ifs
    · rw [ha.length_asus]
    · rfl
  have hoffset : ∀ i o, offs[i]? = some o → fileAt image i = o := by
    intro i o ho
    have hsmall := h.small o (List.mem_of_getElem? ho)
    rw [fileAt, hparts, peek_leWords _ _ ho (by rw [hfront]),
      leVal_leBytes (by norm_num at hsmall ⊢; exact hsmall)]
  have hfile : ∀ i X, Xs[i]? = some X → 28 ≤ fileAt image i ∧
      fileAt image i + X.length ≤ 28 + data.length ∧ peek data (fileAt image i - 28) X.length = X := by
    intro i X hX
    obtain ⟨o, ho, hge, hle, hpeek⟩ := hlayout.file i X hX
    rw [Nat.zero_add] at ho
    rw [hoffset i o ho]
    exact ⟨by omega, hle, hpeek⟩
  have hfields := hparts
  simp only [trxFront, List.append_assoc] at hfields
  generalize hrest : leWords 4 offs ++ (data ++ tail) = rest at hfields
  refine ⟨h.aligned, h.fits, ?_, ?_, ?_, ?_, fun i X hX => ?_, fun i g hi hg hne => ?_,
    fun i j X hij hj hX => ?_, fun hasus => ?_, fun n hn hn' hout => ?_⟩
  · have hmagic := @peek_append _ [] (leBytes 4 0x30524448) (leBytes 4 image.length ++ (leBytes 4 crc.toNat ++
      (leBytes 4 (1 <<< 16) ++ rest))) 0 4 rfl (length_leBytes 4 _)
    rw [List.nil_append, ← hfields] at hmagic
    rw [hmagic, leVal_leBytes (by norm_num)]
  · conv_lhs => rw [hfields, peek_append (length_leBytes 4 _) (length_leBytes 4 _), leVal_leBytes hlt]
  · rw [hcrc, hfields, ← List.append_assoc, peek_append (by simp) (length_leBytes 4 _),
      leVal_leBytes (by have := crc.isLt; norm_num at this ⊢; exact this)]
  · rw [hfields, ← List.append_assoc, ← List.append_assoc, peek_append (by simp) (length_leBytes 4 _),
      leVal_leBytes (by decide)]
  · obtain ⟨hge, hle, hpeek⟩ := hfile i X hX
    refine ⟨hge, by omega, ?_⟩
    have hmiddle := @peek_middle (trxFront (leBytes 4 image.length) (leBytes 4 crc.toNat) ++ leWords 4 offs)
      data tail (fileAt image i - 28) X.length (by omega)
    rw [hhead, ← hparts', Nat.add_sub_cancel' hge, hpeek] at hmiddle
    exact hmiddle
  · exact hoffset i g (hgiven i g hi hg hne)
  · obtain ⟨o, ho, -⟩ := hlayout.file i X hX
    obtain ⟨o', ho', -⟩ := hlayout.file j Xs[j] (List.getElem?_eq_getElem hj)
    have hordered := hlayout.ordered i j X o o' hij hj hX ho ho'
    rw [Nat.zero_add] at ho ho'
    rw [hoffset i o ho, hoffset j o' ho']
    exact hordered
  · have h64 : a.footerLength = 64 := if_pos hasus
    rw [if_pos hasus] at htail
    have hpre : (trxFront (leBytes 4 image.length) (leBytes 4 crc.toNat) ++ leWords 4 offs ++
        (data ++ List.replicate gap 0)).length = image.length - 64 := by
      rw [List.length_append, hhead, List.length_append, List.length_replicate]
      omega
    have hsplit : image = trxFront (leBytes 4 image.length) (leBytes 4 crc.toNat) ++ leWords 4 offs ++
        (data ++ List.replicate gap 0) ++ a.asus := by
      rw [List.append_assoc, List.append_assoc data, htail]
      exact hparts'
    exact (congrArg (List.drop (image.length - 64)) hsplit).trans (List.drop_left' hpre)
  · rw [hparts', List.getElem?_append_right (by rw [hhead]; exact hn), hhead]
    by_cases hdata : n - 28 < data.length
    · rw [List.getElem?_append_left hdata]
      refine hlayout.zero (n - 28) (Nat.zero_le _) hdata fun j X o hX ho => ?_
      rw [Nat.zero_add] at ho
      have hfree := hout j X hX
      rw [hoffset j o ho] at hfree
      rwa [Nat.add_sub_cancel' hn]
    · rw [List.getElem?_append_right (by omega), ← htail, List.getElem?_append_left
        (by rw [List.length_replicate]; omega), List.getElem?_replicate, if_pos (by omega)]

/-- A run that exits with zero comes through the loop. -/
theorem trxMain_ret {w : TrxWorld} {a : TrxArgs} {files : List Bytes} {image : Bytes}
    (h : trxMain w a files = .ret ⟨0, some image⟩) :
    files ≠ [] ∧ files.length ≤ 3 ∧ ∃ s, trxLoop w a.maxlen 0 files (trxStart a) = .ret (some s) ∧
      trxFinish a s = .ret image := by
  have hexit : ∀ out, Exec.ret (PackResult.mk 1 out) ≠ .ret ⟨0, some image⟩ := fun out hne => by
    cases hne
  rw [trxMain] at h
  by_cases h1 : a.ofn.any (w.creates · = false) = true
  · rw [if_pos h1] at h
    exact absurd h (hexit none)
  rw [if_neg h1] at h
  by_cases h2 : files = [] ∨ 3 < files.length
  · rw [if_pos h2] at h
    exact absurd h (hexit (some []))
  rw [if_neg h2] at h
  rw [not_or, not_lt] at h2
  by_cases h3 : w.malloc a.maxlen = false
  · rw [if_pos h3] at h
    exact absurd h (hexit (some []))
  rw [if_neg h3] at h
  obtain ⟨r, hloop, h⟩ := Exec.bind_eq_ret h
  cases r with
  | none => exact absurd h (hexit (some []))
  | some s =>
    obtain ⟨image', hfinish, h⟩ := Exec.bind_eq_ret h
    by_cases h4 : w.taken image'.length = image'.length
    · rw [if_pos h4] at h
      obtain rfl : image' = image := Option.some.inj (PackResult.mk.inj (Exec.ret.inj h)).2
      exact ⟨h2.1, h2.2, s, hloop, hfinish⟩
    · rw [if_neg h4] at h
      exact absurd h (hexit _)

/-- What `main` writes from the check of the arguments on. -/
theorem trxMain_image {w : TrxWorld} {a : TrxArgs} {files : List Bytes} {image : Bytes} (ha : a.Sane)
    (hmax : a.maxlen < 2 ^ 32) (hoffsets : ∀ o ∈ a.offsets, o ≤ a.maxlen)
    (hrun : trxMain w a files = .ret ⟨0, some image⟩) :
    ∃ Xs, files.map w.content = Xs.map some ∧ Xs ≠ [] ∧ TrxImage a Xs image := by
  obtain ⟨hne, hthree, s, hloop, hfinish⟩ := trxMain_ret hrun
  have hstart := trxStart_holds ha
  have hle : ∀ g ∈ a.given, g ≤ a.maxlen := by
    intro g hg
    rcases List.mem_append.1 hg with hg | hg
    · exact hoffsets g hg
    · rw [List.eq_of_mem_replicate hg]
      exact Nat.zero_le _
  obtain ⟨Xs, offs, data, hXs, hs, -, hgiven, hlayout⟩ := hstart.loop hmax hle (by omega) hloop
  have hlength : files.length = Xs.length := by
    rw [← List.length_map (f := w.content), hXs, List.length_map]
  refine ⟨Xs, hXs, fun hnil => hne ?_, (hs.finish ha hmax hfinish).image ha hlayout ?_ hmax⟩
  · rw [← List.length_eq_zero_iff, hlength, hnil]
    rfl
  · intro i g hi hg hzero
    have hoff := hgiven i g (by omega)
    rw [Nat.zero_add] at hoff
    exact hoff hg hzero

/-- `main` behind options that it accepts. -/
theorem asustrx_eq {w : TrxWorld} {opts : List TrxOpt} {a : TrxArgs}
    (hargs : trxOptions w opts .default = .ret (some a)) (files : List Bytes) :
    asustrx w opts files = trxMain w a files := by
  rw [asustrx, hargs, Exec.ret_bind]

/-! ### Whether everything fits -/

/-- The length of the files behind each other, all but the last up to a multiple of four. -/
def packedLength : List Bytes → ℕ
  | [] => 0
  | X :: Xs => (if Xs = [] then X.length else roundUp 4 X.length) + packedLength Xs

theorem trxStore_fits {buf xs : Bytes} {off : ℕ} (h : off + xs.length ≤ buf.length) :
    ∃ buf', trxStore buf off xs = .ret buf' := by
  rw [trxStore]
  split_ifs
  · exact ⟨_, rfl⟩
  · exact ⟨_, rfl⟩

section Outcome

variable {w : TrxWorld} {maxlen i : ℕ} {s : TrxBuf} {offs : List ℕ} {data : Bytes}

/-- A pass with a file whose offset was not given. -/
theorem TrxBuf.Holds.pass_outcome (hs : s.Holds maxlen offs data) (hmax : maxlen < 2 ^ 32)
    (hg : offs[i]? = some 0) (hfour : 4 ∣ maxlen) (hcur : 4 ∣ s.curLen) (last : Bool) {file X : Bytes}
    (hX : w.content file = some X) :
    (maxlen ≤ s.curLen + X.length → trxPass w maxlen i last file s = .ret none) ∧
    (s.curLen + X.length < maxlen → ∃ s', trxPass w maxlen i last file s = .ret (some s') ∧
      s'.curLen = s.curLen + if last then X.length else roundUp 4 X.length) := by
  have hset := hs.setOffset hmax hg
  have hle := hs.curLen_le
  have hlen := hset.length_buf
  dsimp only at hlen
  rw [if_pos rfl] at hlen
  have hpass : trxPass w maxlen i last file s =
      trxStore (poke s.buf (16 + 4 * i) (leBytes 4 s.curLen)) s.curLen (X.take (maxlen - s.curLen)) >>= fun buf =>
        if maxlen - s.curLen ≤ X.length then .ret none
        else trxStore buf (s.curLen + X.length) (List.replicate (if last then 0 else (4 - X.length % 4) % 4) 0) >>=
          fun buf => .ret (some ⟨buf, u32 (s.curLen + (X.length + if last then 0 else (4 - X.length % 4) % 4))⟩) := by
    rw [trxPass]
    dsimp only
    rw [hs.offset hg, if_neg (by simp), hX]
    simp only [if_true, room_eq w hmax hle]
  obtain ⟨buf, hstore⟩ : ∃ buf, trxStore (poke s.buf (16 + 4 * i) (leBytes 4 s.curLen)) s.curLen
      (X.take (maxlen - s.curLen)) = .ret buf :=
    trxStore_fits (by rw [hlen, List.length_take]; omega)
  rw [hpass, hstore, Exec.ret_bind]
  refine ⟨fun hfull => if_pos (by omega), fun hroom => ?_⟩
  rw [if_neg (by omega)]
  have hround : roundUp 4 X.length = X.length + (4 - X.length % 4) % 4 := by
    rw [roundUp]
    omega
  -- what is filled up ends within the buffer, whose length is a multiple of four
  have hpad : s.curLen + X.length + (if last = true then 0 else (4 - X.length % 4) % 4) ≤ maxlen := by
    split_ifs <;> omega
  obtain ⟨buf', hstore'⟩ : ∃ buf', trxStore buf (s.curLen + X.length)
      (List.replicate (if last = true then 0 else (4 - X.length % 4) % 4) 0) = .ret buf' :=
    trxStore_fits (by rw [trxStore_length hstore, hlen, List.length_replicate]; exact hpad)
  rw [hstore', Exec.ret_bind]
  refine ⟨_, rfl, ?_⟩
  show u32 _ = _
  rw [← Nat.add_assoc, u32_of_lt (hpad.trans_lt hmax), hround]
  split_ifs <;> omega

/-- The loop over files whose offsets were not given. -/
theorem TrxBuf.Holds.loop_outcome (hmax : maxlen < 2 ^ 32) (hfour : 4 ∣ maxlen) : ∀ {files Xs : List Bytes}
    {i : ℕ} {s : TrxBuf} {offs : List ℕ} {data : Bytes}, s.Holds maxlen offs data → 4 ∣ s.curLen →
    (∀ j, i ≤ j → j < 3 → offs[j]? = some 0) → i + files.length ≤ 3 → files ≠ [] →
    files.map w.content = Xs.map some →
    (maxlen ≤ s.curLen + packedLength Xs → trxLoop w maxlen i files s = .ret none) ∧
    (s.curLen + packedLength Xs < maxlen → ∃ s', trxLoop w maxlen i files s = .ret (some s') ∧
      s'.curLen = s.curLen + packedLength Xs) := by
  intro files
  induction files with
  | nil => exact fun _ _ _ _ hne => absurd rfl hne
  | cons file files ih =>
    intro Xs i s offs data hs hcur hoffs hi _ hXs
    cases Xs with
    | nil => cases hXs
    | cons X Xs =>
      rw [List.map_cons, List.map_cons, List.cons.injEq] at hXs
      obtain ⟨hX, hXs⟩ := hXs
      rw [List.length_cons] at hi
      have hg := hoffs i le_rfl (by omega)
      obtain ⟨hfull, hfits⟩ := hs.pass_outcome hmax hg hfour hcur (decide (files = [])) hX
      have hnil : files = [] ↔ Xs = [] := by
        rw [← List.map_eq_nil_iff (f := w.content), hXs, List.map_eq_nil_iff]
      have hround := le_roundUp (by norm_num : 0 < 4) X.length
      rw [packedLength]
      by_cases hroom : s.curLen + X.length < maxlen
      · obtain ⟨s₁, hpass, hcur₁⟩ := hfits hroom
        by_cases hlast : files = []
        · obtain rfl := hnil.1 hlast
          subst hlast
          rw [trxLoop, hpass, if_pos rfl]
          refine ⟨fun h => ?_, fun _ => ⟨s₁, rfl, hcur₁⟩⟩
          rw [packedLength] at h
          omega
        · -- what the other files find is again a multiple of four
          rw [if_neg (by simpa using hlast)] at hcur₁
          obtain ⟨X', pad, -, -, hs₁⟩ := hs.pass hmax hg (Nat.zero_le _) hpass
          have hdvd : 4 ∣ roundUp 4 X.length := Nat.dvd_mul_left _ _
          have hrest := @ih Xs (i + 1) s₁ _ _ hs₁ (by rw [hcur₁]; exact Nat.dvd_add hcur hdvd)
            (fun j hj hj3 => by rw [List.getElem?_set_ne (by omega)]; exact hoffs j (by omega) hj3)
            (by omega) hlast hXs
          rw [trxLoop, hpass, Exec.ret_bind, if_neg (fun h => hlast (hnil.2 h)), ← Nat.add_assoc, ← hcur₁]
          exact hrest
      · rw [trxLoop, hfull (by omega), Exec.ret_bind]
        refine ⟨fun _ => rfl, fun h => absurd h (not_lt.2 ?_)⟩
        split_ifs <;> omega

/-- What follows the loop. -/
theorem TrxBuf.Holds.finish_outcome {a : TrxArgs} (ha : a.Sane) (hmax : a.maxlen < 2 ^ 32)
    (hs : s.Holds a.maxlen offs data) :
    (a.maxlen < s.curLen + a.footerLength → trxFinish a s = .undefined) ∧
    (s.curLen + a.footerLength ≤ a.maxlen → ∃ image, trxFinish a s = .ret image) := by
  have haligned := ha.aligned
  have hle := hs.curLen_le
  have hcur := hs.curLen
  have hfooterLe := a.footerLength_le
  rw [trxFinish]
  dsimp only
  rw [ha.curLen_footer hmax hle]
  generalize hend : s.curLen + a.footerLength = e
  generalize hpad : (if e % 0x1000 = 0 then 0 else 0x1000 - e % 0x1000) = pad
  have hround : 0x1000 ∣ e + pad := by
    rw [← hpad]
    split_ifs <;> omega
  constructor
  · intro hout
    by_cases hzero : pad = 0
    · have hbuf : trxStore s.buf e (List.replicate pad 0) = .ret s.buf := by
        rw [trxStore, hzero, List.replicate_zero, if_pos rfl]
      rw [hbuf, Exec.ret_bind, if_pos (Or.inr ?_)]
      rw [hs.length_buf, hzero, Nat.add_zero, u32_of_lt (by omega)]
      exact hout
    · have hbuf : trxStore s.buf e (List.replicate pad 0) = .undefined := by
        rw [trxStore, if_neg (by simpa using hzero), if_neg]
        rw [hs.length_buf, List.length_replicate]
        omega
      rw [hbuf]
      rfl
  · intro hin
    have hpad' : pad < 0x1000 := by
      rw [← hpad]
      split_ifs <;> omega
    obtain ⟨buf, hstore⟩ : ∃ buf, trxStore s.buf e (List.replicate pad 0) = .ret buf :=
      trxStore_fits (by rw [hs.length_buf, List.length_replicate]; omega)
    rw [hstore, Exec.ret_bind, trxStore_length hstore, hs.length_buf, u32_of_lt (by omega), if_neg (by omega)]
    exact ⟨_, rfl⟩

end Outcome

/-- The checks in front of the loop are passed. -/
structure TrxArgs.Ready (w : TrxWorld) (a : TrxArgs) (files : List Bytes) : Prop where
  opens : ∀ ofn ∈ a.ofn, w.creates ofn = true
  files : files ≠ [] ∧ files.length ≤ 3
  malloc : w.malloc a.maxlen = true

section Ready

variable {w : TrxWorld} {a : TrxArgs} {files : List Bytes}

/-- `main` from the loop on. -/
theorem TrxArgs.Ready.loop_eq (h : a.Ready w files) {r : Option TrxBuf}
    (hloop : trxLoop w a.maxlen 0 files (trxStart a) = .ret r) :
    (r = none → trxMain w a files = .ret ⟨1, some []⟩) ∧
    (∀ s, r = some s → trxFinish a s = .undefined → trxMain w a files = .undefined) ∧
    (∀ s image, r = some s → trxFinish a s = .ret image → w.taken image.length = image.length →
      trxMain w a files = .ret ⟨0, some image⟩) := by
  have h1 : ¬ a.ofn.any (w.creates · = false) = true := by
    rw [Option.any_eq_true]
    rintro ⟨ofn, hofn, hcreates⟩
    rw [decide_eq_true_eq, h.opens ofn hofn] at hcreates
    cases hcreates
  have h2 : ¬ (files = [] ∨ 3 < files.length) := by
    rw [not_or, not_lt]
    exact h.files
  have h3 : ¬ w.malloc a.maxlen = false := by
    rw [h.malloc]
    exact Bool.true_eq_false_eq_False
  rw [trxMain, if_neg h1, if_neg h2, if_neg h3, hloop, Exec.ret_bind]
  refine ⟨?_, ?_, ?_⟩
  · rintro rfl
    rfl
  · rintro s rfl hfinish
    dsimp only
    rw [hfinish]
    rfl
  · rintro s image rfl hfinish htaken
    dsimp only
    rw [hfinish, Exec.ret_bind, if_pos htaken]

end Ready

/-- Files that are all there, with no offsets given, and the loop over them. -/
theorem asustrx_loop {w : TrxWorld} {opts : List TrxOpt} {a : TrxArgs} {files Xs : List Bytes}
    (hargs : trxOptions w opts .default = .ret (some a)) (hmax : a.maxlen < 2 ^ 32)
    (hoffsets : a.offsets = []) (hready : a.Ready w files) (hXs : files.map w.content = Xs.map some) :
    asustrx w opts files = trxMain w a files ∧
    (a.maxlen ≤ 28 + packedLength Xs → trxLoop w a.maxlen 0 files (trxStart a) = .ret none) ∧
    (28 + packedLength Xs < a.maxlen → ∃ s offs data,
      trxLoop w a.maxlen 0 files (trxStart a) = .ret (some s) ∧ s.Holds a.maxlen offs data ∧
        s.curLen = 28 + packedLength Xs) := by
  have ha := trxOptions_sane default_sane hargs
  have hstart := trxStart_holds ha
  have hgiven : a.given = [0, 0, 0] := by
    rw [TrxArgs.given, hoffsets]
    rfl
  rw [hgiven] at hstart
  have hzero : ∀ j, 0 ≤ j → j < 3 → ([0, 0, 0] : List ℕ)[j]? = some 0 := by
    intro j _ hj
    interval_cases j <;> rfl
  have hfour : 4 ∣ a.maxlen := Dvd.dvd.trans (by norm_num) ha.aligned
  have hthree := hready.files.2
  obtain ⟨hfull, hfits⟩ := hstart.loop_outcome hmax hfour (show 4 ∣ 28 by decide) hzero (by omega)
    hready.files.1 hXs
  refine ⟨asustrx_eq hargs files, hfull, fun hin => ?_⟩
  obtain ⟨s, hloop, hcur⟩ := hfits hin
  obtain ⟨-, offs, data, -, hs, -⟩ := hstart.loop hmax (by simp) (by omega) hloop
  exact ⟨s, offs, data, hloop, hs, hcur⟩

/-- Files that fit together with the footer are written. -/
theorem asustrx_fits {w : TrxWorld} {opts : List TrxOpt} {a : TrxArgs} {files Xs : List Bytes}
    (hargs : trxOptions w opts .default = .ret (some a)) (hmax : a.maxlen < 2 ^ 32)
    (hoffsets : a.offsets = []) (hready : a.Ready w files) (hXs : files.map w.content = Xs.map some)
    (htaken : ∀ n, w.taken n = n) (hin : 28 + packedLength Xs < a.maxlen)
    (hfooter : 28 + packedLength Xs + a.footerLength ≤ a.maxlen) :
    ∃ image, asustrx w opts files = .ret ⟨0, some image⟩ := by
  obtain ⟨hmain, -, hfits⟩ := asustrx_loop hargs hmax hoffsets hready hXs
  obtain ⟨s, offs, data, hloop, hs, hcur⟩ := hfits hin
  obtain ⟨image, hfinish⟩ := (hs.finish_outcome (trxOptions_sane default_sane hargs) hmax).2
    (by rw [hcur]; exact hfooter)
  rw [hmain]
  exact ⟨image, (hready.loop_eq hloop).2.2 s image rfl hfinish (htaken _)⟩

/-! ### A small image -/

/-- A host with one file. -/
def smallTrxHost : TrxWorld :=
  ⟨2 ^ 64 - 1, Or.inr rfl, fun _ => true, fun file => if file = str "zImage" then some [1, 2, 3] else none,
    fun _ => true, id⟩

/-- `-p WL500g -m 4096 -o out.trx`. -/
def smallTrxOpts : List TrxOpt := [.p (str "WL500g"), .m (str "4096"), .o (str "out.trx")]

/-- The arguments behind `smallTrxOpts`. -/
def smallTrxArgs : TrxArgs :=
  ⟨[], some (str "out.trx"), 4096, str "WL500g" ++ List.replicate 6 32, [1, 9, 2, 7]⟩

theorem smallTrxOpts_args : trxOptions smallTrxHost smallTrxOpts .default = .ret (some smallTrxArgs) := by
  rfl

theorem smallTrx_ready : smallTrxArgs.Ready smallTrxHost [str "zImage"] :=
  ⟨fun _ _ => rfl, by decide, rfl⟩

theorem smallTrx_written :
    ∃ image, asustrx smallTrxHost smallTrxOpts [str "zImage"] = .ret ⟨0, some image⟩ :=
  @asustrx_fits _ _ _ _ [[1, 2, 3]] smallTrxOpts_args (by decide) rfl smallTrx_ready (by decide) (fun _ => rfl)
    (by decide) (by decide)

/-- The image goes on behind the check sum. -/
theorem smallTrx_byte {image : Bytes}
    (hrun : asustrx smallTrxHost smallTrxOpts [str "zImage"] = .ret ⟨0, some image⟩) :
    ∃ x rest, image.drop 12 = x :: rest := by
  rw [asustrx_eq smallTrxOpts_args] at hrun
  obtain ⟨Xs, -, hne, himage⟩ := trxMain_image (trxOptions_sane default_sane smallTrxOpts_args) (by decide)
    (by simp [smallTrxArgs]) hrun
  obtain ⟨X, hX⟩ := List.exists_mem_of_ne_nil Xs hne
  obtain ⟨i, hi, rfl⟩ := List.mem_iff_getElem.1 hX
  have hlen := himage.file i _ (List.getElem?_eq_getElem hi)
  refine List.exists_cons_of_ne_nil fun hnil => ?_
  rw [List.drop_eq_nil_iff] at hnil
  omega

/-- **Whether everything fits.**  Files that are all there, with no offsets given: the program fails when
they do not fit into `maxlen`; it writes an image when they fit together with the footer; in between it
goes on behind the end of the buffer. -/
theorem trx_outcome {w : TrxWorld} {opts : List TrxOpt} {a : TrxArgs} {files Xs : List Bytes}
    (hargs : trxOptions w opts .default = .ret (some a)) (hmax : a.maxlen < 2 ^ 32)
    (hoffsets : a.offsets = []) (hready : a.Ready w files) (hXs : files.map w.content = Xs.map some)
    (htaken : ∀ n, w.taken n = n) :
    (a.maxlen ≤ 28 + packedLength Xs → asustrx w opts files = .ret ⟨1, some []⟩) ∧
    (28 + packedLength Xs < a.maxlen → a.maxlen < 28 + packedLength Xs + a.footerLength →
      asustrx w opts files = .undefined) ∧
    (28 + packedLength Xs < a.maxlen → 28 + packedLength Xs + a.footerLength ≤ a.maxlen →
      ∃ image, asustrx w opts files = .ret ⟨0, some image⟩) := by
  obtain ⟨hmain, hfull, hfits⟩ := asustrx_loop hargs hmax hoffsets hready hXs
  refine ⟨fun hout => ?_, fun hin hfooter => ?_, asustrx_fits hargs hmax hoffsets hready hXs htaken⟩
  · rw [hmain]
    exact (hready.loop_eq (hfull hout)).1 rfl
  · obtain ⟨s, offs, data, hloop, hs, hcur⟩ := hfits hin
    have hfinish := (hs.finish_outcome (trxOptions_sane default_sane hargs) hmax).1
      (by rw [hcur]; exact hfooter)
    rw [hmain]
    exact (hready.loop_eq hloop).2.1 s rfl hfinish

theorem trx_outcome_small :
    ∃ image, asustrx smallTrxHost smallTrxOpts [str "zImage"] = .ret ⟨0, some image⟩ :=
  (@trx_outcome _ _ _ _ [[1, 2, 3]] smallTrxOpts_args (by decide) rfl smallTrx_ready (by decide)
    (fun _ => rfl)).2.2 (by decide) (by decide)

/-! ### What is written -/

/-- **What `asustrx` writes.**  When it exits with zero, and the offsets that were given lie within `maxlen`,
below `2 ^ 32`, the output is an image with the files. -/
theorem trx_image {w : TrxWorld} {opts : List TrxOpt} {a : TrxArgs} {files : List Bytes} {image : Bytes}
    (hargs : trxOptions w opts .default = .ret (some a)) (hmax : a.maxlen < 2 ^ 32)
    (hoffsets : ∀ o ∈ a.offsets, o ≤ a.maxlen)
    (hrun : asustrx w opts files = .ret ⟨0, some image⟩) :
    ∃ Xs, files.map w.content = Xs.map some ∧ Xs ≠ [] ∧ TrxImage a Xs image :=
  trxMain_image (trxOptions_sane default_sane hargs) hmax hoffsets (asustrx_eq hargs files ▸ hrun)

/-- A host with a kernel and a file system. -/
def pairTrxHost : TrxWorld := { smallTrxHost with
  content := fun file =>
    if file = str "zImage" then some [1, 2, 3] else if file = str "rootfs" then some [4, 5, 6, 7, 8] else none }

/-- `-b 64 -b 256 -p WL500g -m 4096 -o out.trx`. -/
def pairTrxOpts : List TrxOpt := .b (str "64") :: .b (str "256") :: smallTrxOpts

/-- The arguments behind `pairTrxOpts`. -/
def pairTrxArgs : TrxArgs := { smallTrxArgs with offsets := [64, 256] }

theorem pairTrxOpts_args : trxOptions pairTrxHost pairTrxOpts .default = .ret (some pairTrxArgs) := by
  rfl

theorem pairTrx_written :
    ∃ image, asustrx pairTrxHost pairTrxOpts [str "zImage", str "rootfs"] = .ret ⟨0, some image⟩ := by
  have hready : pairTrxArgs.Ready pairTrxHost [str "zImage", str "rootfs"] :=
    ⟨fun _ _ => rfl, by decide, rfl⟩
  have hend : (trxLoop pairTrxHost 4096 0 [str "zImage", str "rootfs"] (trxStart pairTrxArgs) >>=
      fun s => .ret (s.map (·.curLen))) = .ret (some 261) := by
    decide +kernel
  obtain ⟨r, hloop, hr⟩ := Exec.bind_eq_ret hend
  obtain ⟨s, rfl, hcur⟩ := Option.map_eq_some_iff.1 (Exec.ret.inj hr)
  have hsane := trxOptions_sane default_sane pairTrxOpts_args
  obtain ⟨-, offs, data, -, hs, -⟩ := (trxStart_holds hsane).loop (by decide) (by decide) (by decide) hloop
  obtain ⟨image, hfinish⟩ := (hs.finish_outcome hsane (by decide)).2 (by rw [hcur]; decide)
  refine ⟨image, ?_⟩
  rw [asustrx_eq pairTrxOpts_args]
  exact (hready.loop_eq hloop).2.2 s image rfl hfinish rfl

theorem trx_image_pair :
    ∃ image, asustrx pairTrxHost pairTrxOpts [str "zImage", str "rootfs"] = .ret ⟨0, some image⟩ ∧
      TrxImage pairTrxArgs [[1, 2, 3], [4, 5, 6, 7, 8]] image := by
  obtain ⟨image, hrun⟩ := pairTrx_written
  obtain ⟨Xs, hXs, -, himage⟩ := trx_image pairTrxOpts_args (by decide) (by decide) hrun
  have heq : [[1, 2, 3], [4, 5, 6, 7, 8]] = Xs :=
    List.map_injective_iff.2 (Option.some_injective Bytes) hXs
  exact ⟨image, hrun, heq ▸ himage⟩

/-! ### Damage -/

/-- **Damage is seen.**  An image that was written, changed behind the check sum in no more than 32 bits next
to each other, no longer has the sum that its header names. -/
theorem trx_damage_detected {w : TrxWorld} {opts : List TrxOpt} {a : TrxArgs} {files : List Bytes}
    {image image' : Bytes} (hargs : trxOptions w opts .default = .ret (some a)) (hmax : a.maxlen < 2 ^ 32)
    (hoffsets : ∀ o ∈ a.offsets, o ≤ a.maxlen) (hrun : asustrx w opts files = .ret ⟨0, some image⟩)
    (hfront : image'.take 12 = image.take 12) {pre u v post : List Bool}
    (hbits : Crc.bitsOfBytes (image.drop 12) = pre ++ u ++ post)
    (hbits' : Crc.bitsOfBytes (image'.drop 12) = pre ++ v ++ post) (hlen : u.length = v.length)
    (hu : u.length ≤ 32) (hne : image' ≠ image) :
    leVal (peek image 8 4) = (crc32buf (image.drop 12)).toNat ∧
      leVal (peek image' 8 4) ≠ (crc32buf (image'.drop 12)).toNat := by
  rw [asustrx_eq hargs] at hrun
  obtain ⟨Xs, -, -, h⟩ := trxMain_image (trxOptions_sane default_sane hargs) hmax hoffsets hrun
  refine ⟨h.crc, ?_⟩
  have hpeek : ∀ m : Bytes, peek m 8 4 = peek (m.take 12) 8 4 := by
    intro m
    rw [peek, peek, List.drop_take, List.take_take]
    rfl
  have huv : u ≠ v := by
    rintro rfl
    have hdrop := Crc.bitsOfBytes_injective (hbits'.trans hbits.symm)
    rw [← List.take_append_drop 12 image', ← List.take_append_drop 12 image, hfront, hdrop] at hne
    exact hne rfl
  rw [hpeek, hfront, ← hpeek, h.crc]
  intro heq
  have hcrc := BitVec.eq_of_toNat_eq heq
  rw [crc32buf_eq_feed, crc32buf_eq_feed, hbits, hbits'] at hcrc
  exact Crc.burst_detected crc32Polynomial_top _ pre post hlen hu huv hcrc

/-- The first byte behind the check sum is changed. -/
theorem trx_damage_detected_small :
    ∃ image image', asustrx smallTrxHost smallTrxOpts [str "zImage"] = .ret ⟨0, some image⟩ ∧
      image' ≠ image ∧ leVal (peek image' 8 4) ≠ (crc32buf (image'.drop 12)).toNat := by
  obtain ⟨image, hrun⟩ := smallTrx_written
  obtain ⟨x, rest, hrest⟩ := smallTrx_byte hrun
  have himage : image = image.take 12 ++ x :: rest := by rw [← hrest, List.take_append_drop]
  have htake : (image.take 12).length = 12 := by
    have hlen := congrArg List.length hrest
    rw [List.length_drop, List.length_cons] at hlen
    rw [List.length_take]
    omega
  have hbyte : x + 1 ≠ x := fun h => absurd (add_eq_left.1 h) (by decide)
  have hdamage : image.take 12 ++ (x + 1) :: rest ≠ image := by
    intro h
    rw [himage, List.take_left' htake] at h
    exact hbyte (List.cons.inj (List.append_cancel_left h)).1
  have hbits : ∀ y : UInt8, Crc.bitsOfBytes (y :: rest) = [] ++ Crc.bitsOf y ++ Crc.bitsOfBytes rest :=
    fun _ => rfl
  have hbits' : Crc.bitsOfBytes ((image.take 12 ++ (x + 1) :: rest).drop 12) =
      [] ++ Crc.bitsOf (x + 1) ++ Crc.bitsOfBytes rest := by
    rw [List.drop_left' htake]
    exact hbits (x + 1)
  have hdetected := trx_damage_detected smallTrxOpts_args (by decide) (by simp [smallTrxArgs]) hrun
    (List.take_left' htake) (by rw [hrest]; exact hbits x) hbits' (by simp) (by simp) hdamage
  exact ⟨image, image.take 12 ++ (x + 1) :: rest, hrun, hdamage, hdetected.2⟩

end ZRouter.Tools
