import ZRouter.Upgrade.Main

/-!
# The blocks that `main` writes

The write loop tests `bytes >= args.filesize` behind the write, with the `bytes` of the block that
was just written still to be added.  Each block is written whole, whatever `fread` delivered.

* `flashFrom_length_le_iff`: the number of blocks, by its upper bounds;
* `flashFrom_flatten`: what the blocks hold;
* `writesUpload_iff`: in HTTP mode the blocks of the upload are written, and no more;
* `totalWritten_le_iff`: no more is written than the target holds.
-/

namespace ZRouter.Upgrade

section Loop

variable {takes : ℕ → Bool} {size : Option ℕ} {B : ℕ}

/-- A pass of the write loop. -/
theorem flashFrom_succ (hB : 0 < B) (n c : ℕ) {rest : Bytes} (hrest : rest ≠ []) :
    (flashFrom takes size B (n + 1) c rest).1 =
      (rest.take B ++ List.replicate (B - (rest.take B).length) 0) ::
        if ∃ fs ∈ size, fs ≤ u32 (c * B) then []
        else (flashFrom takes size B n (c + 1) (rest.drop B)).1 := by
  have hbuf : ¬ rest.take B = [] := by
    rw [List.take_eq_nil_iff]
    exact fun h => h.elim hB.ne' hrest
  rw [flashFrom]
  dsimp only
  rw [if_neg hbuf]
  cases size with
  | none => simp
  | some fs =>
    by_cases hfs : fs ≤ u32 (c * B)
    · simp [hfs]
    · simp [hfs]

theorem flashFrom_nil (n c : ℕ) : (flashFrom takes size B n c []).1 = [] := by
  cases n with
  | zero => rfl
  | succ n => simp [flashFrom]

/-- At most `k` blocks are written when no more are read, or when one of the first `k` passes ends
the loop. -/
theorem flashFrom_length_le_iff (hB : 0 < B) :
    ∀ (n c : ℕ) (rest : Bytes) (k : ℕ), rest.length < n →
      ((flashFrom takes size B n c rest).1.length ≤ k ↔
        rest.length ≤ k * B ∨ ∃ fs ∈ size, ∃ j < k, fs ≤ u32 ((c + j) * B)) := by
  intro n
  induction n with
  | zero => exact fun c rest k h => absurd h (Nat.not_lt_zero _)
  | succ n ih =>
    intro c rest k hn
    rcases List.eq_nil_or_concat rest with rfl | ⟨pre, e, hcat⟩
    · simp [flashFrom_nil]
    have hrest : rest ≠ [] := by
      rw [hcat]
      simp
    have hpos := List.length_pos_iff.2 hrest
    rw [flashFrom_succ hB n c hrest, List.length_cons]
    cases k with
    | zero =>
      constructor
      · omega
      · rintro (h | ⟨fs, -, j, hj, -⟩)
        · omega
        · omega
    | succ k =>
      rw [Nat.add_le_add_iff_right]
      split_ifs with hstop
      · obtain ⟨fs, hfs, hle⟩ := hstop
        exact iff_of_true (Nat.zero_le _) (Or.inr ⟨fs, hfs, 0, Nat.succ_pos k, by simpa using hle⟩)
      · rw [ih (c + 1) (rest.drop B) k (by rw [List.length_drop]; omega), List.length_drop]
        refine or_congr ?_ ⟨?_, ?_⟩
        · rw [Nat.add_mul, one_mul]
          omega
        · rintro ⟨fs, hfs, j, hj, hle⟩
          exact ⟨fs, hfs, j + 1, Nat.succ_lt_succ hj, by rwa [Nat.add_assoc, Nat.add_comm 1 j] at hle⟩
        · rintro ⟨fs, hfs, j, hj, hle⟩
          cases j with
          | zero => exact absurd ⟨fs, hfs, by simpa using hle⟩ hstop
          | succ j =>
            exact ⟨fs, hfs, j, Nat.lt_of_succ_lt_succ hj,
              by rwa [Nat.add_assoc, Nat.add_comm 1 j]⟩

/-- The blocks hold what was read, with zeros behind it. -/
theorem flashFrom_flatten (hB : 0 < B) :
    ∀ (n c : ℕ) (rest : Bytes), (flashFrom takes size B n c rest).1.flatten =
      rest.take ((flashFrom takes size B n c rest).1.length * B) ++
        List.replicate ((flashFrom takes size B n c rest).1.length * B - rest.length) 0 := by
  intro n
  induction n with
  | zero => intro c rest; simp [flashFrom]
  | succ n ih =>
    intro c rest
    rcases List.eq_nil_or_concat rest with rfl | ⟨pre, e, hcat⟩
    · simp [flashFrom_nil]
    have hrest : rest ≠ [] := by
      rw [hcat]
      simp
    rw [flashFrom_succ hB n c hrest, List.flatten_cons, List.length_cons, Nat.add_mul, one_mul]
    split_ifs with hstop
    · simp
      omega
    · rw [ih (c + 1) (rest.drop B)]
      generalize (flashFrom takes size B n (c + 1) (rest.drop B)).1.length * B = m
      rcases Nat.le_total B rest.length with hle | hle
      · rw [List.length_take, Nat.min_eq_left hle, Nat.sub_self, List.replicate_zero, List.append_nil,
          ← List.append_assoc, Nat.add_comm m B, List.take_add, List.length_drop]
        congr 2
        omega
      · have hdrop : rest.drop B = [] := List.drop_eq_nil_of_le hle
        rw [hdrop, List.take_nil, List.nil_append, List.length_nil, List.take_of_length_le hle,
          List.take_of_length_le (show rest.length ≤ m + B by omega), List.append_assoc,
          List.replicate_append_replicate]
        congr 2
        omega

end Loop

/-! ### The blocks of the upload -/

/-- The blocks written are as many as the upload of `fs` bytes takes, and hold it. -/
structure WritesUpload (fs B : ℕ) (content : Bytes) (blocks : List Bytes) : Prop where
  count : blocks.length = fs ⌈/⌉ B
  upload : blocks.flatten.take fs = content.take fs

theorem u32_le (n : ℕ) : u32 n ≤ n := Nat.mod_le _ _

/-- **In HTTP mode the blocks of the upload and no others are written exactly when the staging
device has no others.** -/
theorem writesUpload_iff (build : Build) (world : World) (o : Options) (device : Bytes) {fs : ℕ}
    {content : Bytes} (hB : 1 ≤ o.blocksize) (hlong : fs < content.length) :
    WritesUpload fs o.blocksize content (writeImage build world o (some fs) content device).wrote ↔
      content.length ≤ (fs ⌈/⌉ o.blocksize) * o.blocksize := by
  have hwrote : (writeImage build world o (some fs) content device).wrote =
      (flashFrom world.takes (some fs) o.blocksize (content.length + 1) 0 content).1 := rfl
  rw [hwrote]
  generalize hk : fs ⌈/⌉ o.blocksize = k
  have hle : ∀ j, k ≤ j ↔ fs ≤ o.blocksize * j := fun j => hk ▸ ceilDiv_le_iff_le_mul hB
  have hnum := @flashFrom_length_le_iff world.takes (some fs) o.blocksize hB (content.length + 1) 0
    content
  -- the passes before the last block of the upload do not end the loop
  have hgo : ∀ j < k, ¬ fs ≤ u32 ((0 + j) * o.blocksize) := fun j hj h => by
    have := (hle j).2 (h.trans ((u32_le _).trans (by rw [Nat.zero_add, Nat.mul_comm])))
    omega
  have hmin : ∀ i < k, ¬ (flashFrom world.takes (some fs) o.blocksize (content.length + 1) 0
      content).1.length ≤ i := fun i hi h => by
    rcases (hnum i (Nat.lt_succ_self _)).1 h with hc | ⟨fs', hfs', j, hj, hstop⟩
    · have := (hle i).2 (by rw [Nat.mul_comm]; omega)
      omega
    · obtain rfl := Option.some.inj hfs'
      exact hgo j (by omega) hstop
  have hcount : (flashFrom world.takes (some fs) o.blocksize (content.length + 1) 0
      content).1.length = k ↔ content.length ≤ k * o.blocksize := by
    constructor
    · intro h
      rcases (hnum k (Nat.lt_succ_self _)).1 h.le with hc | ⟨fs', hfs', j, hj, hstop⟩
      · exact hc
      · obtain rfl := Option.some.inj hfs'
        exact absurd hstop (hgo j hj)
    · intro h
      have hup := (hnum k (Nat.lt_succ_self _)).2 (Or.inl h)
      refine Nat.le_antisymm hup (Nat.le_of_not_lt fun hlt => ?_)
      exact hmin _ hlt le_rfl
  refine ⟨fun h => hcount.1 (h.count.trans hk), fun h => ⟨(hcount.2 h).trans hk.symm, ?_⟩⟩
  rw [flashFrom_flatten hB, hcount.2 h, List.take_append_of_le_length, List.take_take]
  · congr 1
    have := (hle k).1 le_rfl
    rw [Nat.mul_comm] at this
    omega
  · have := (hle k).1 le_rfl
    rw [Nat.mul_comm] at this
    rw [List.length_take]
    omega

/-- A staging device of one block. -/
theorem writesUpload_iff_one :
    WritesUpload 3 4 [65, 66, 67, 0]
      (writeImage stockBuild (router 4) { upgradeModeOptions with blocksize := 4 } (some 3)
        [65, 66, 67, 0] []).wrote :=
  (writesUpload_iff stockBuild (router 4) { upgradeModeOptions with blocksize := 4 } []
    (by decide) (by decide)).2 (by decide)

/-- An upload of one block on a staging device of four. -/
theorem not_writesUpload_four :
    ¬ ∀ (build : Build) (world : World) (o : Options) (device : Bytes) (fs : ℕ) (content : Bytes),
      1 ≤ fs → 1 ≤ o.blocksize → fs < content.length →
      WritesUpload fs o.blocksize content
        (writeImage build world o (some fs) content device).wrote := by
  intro h
  have hcount := (h stockBuild (router 16) { upgradeModeOptions with blocksize := 4 } [] 4
    (List.replicate 16 65) (by decide) (by decide) (by decide)).count
  revert hcount
  decide +kernel

/-! ### The size of the target -/

/-- The bytes passed to `write()` on the device. -/
def Outcome.totalWritten (out : Outcome) : ℕ := (out.wrote.map List.length).sum

/-- What it takes to come to the write loop with the content `bytes`. -/
structure ReachesLoop (build : Build) (world : World) (o : Options) (size : Option ℕ)
    (bytes : Bytes) : Prop where
  target : world.targetSize o ≠ 0
  upload : ∀ n ∈ size, n ≤ world.targetSize o
  sysctl : world.sysctl = true
  file : bytes.length ≤ world.targetSize o
  malloc : world.malloc o.blocksize = true
  device : (world.device o.device).isSome = true

/-- The blocks fit: those of the whole file do, or in HTTP mode those up to a block at which the
loop ends. -/
def BlocksFit (target B : ℕ) (size : Option ℕ) (bytes : Bytes) : Prop :=
  (bytes.length ⌈/⌉ B) * B ≤ target ∨
    ∃ fs ∈ size, ∃ c, fs ≤ u32 (c * B) ∧ (c + 1) * B ≤ target

theorem writeImage_total (build : Build) (world : World) {o : Options} (size : Option ℕ)
    (content device : Bytes) (hB : 0 < o.blocksize) :
    (writeImage build world o size content device).totalWritten =
      (writeImage build world o size content device).wrote.length * o.blocksize := by
  show ((flashFrom world.takes size o.blocksize (content.length + 1) 0 content).1.map
    List.length).sum = _
  rw [← List.length_flatten, flashFrom_flatten hB]
  show _ = (flashFrom world.takes size o.blocksize (content.length + 1) 0 content).1.length * _
  rw [List.length_append, List.length_take, List.length_replicate]
  omega

theorem totalWritten_pos {out : Outcome} (h : out.totalWritten ≠ 0) : out.wrote ≠ [] := by
  intro hnil
  rw [Outcome.totalWritten, hnil] at h
  exact h rfl

/-- Where the write loop is reached, `flash` is `writeImage`. -/
theorem flash_of_reaches {build : Build} {world : World} {o : Options} {size : Option ℕ}
    {bytes : Bytes} (h : ReachesLoop build world o size bytes) :
    ∃ device, flash build world o size (some bytes) = writeImage build world o size bytes device := by
  obtain ⟨device, hd⟩ := Option.isSome_iff_exists.1 h.device
  refine ⟨device, ?_⟩
  have h1 : ¬ (build.useGeomGetSize = true ∧ (world.targetSize o = 0 ∨
      ∃ n ∈ size, world.targetSize o < n)) := by
    rintro ⟨-, h0 | ⟨n, hn, hlt⟩⟩
    · exact h.target h0
    · exact absurd (h.upload n hn) (not_le_of_gt hlt)
  have h2 : ¬ (build.useGeomGetSize = true ∧ world.targetSize o < bytes.length) := fun hc =>
    absurd h.file (not_le_of_gt hc.2)
  unfold flash
  dsimp only
  change (if build.useGeomGetSize = true ∧ (world.targetSize o = 0 ∨ ∃ n ∈ size,
    world.targetSize o < n) then _ else if _ then _ else if build.useGeomGetSize = true ∧
    world.targetSize o < bytes.length then _ else _ : Outcome) = _
  rw [if_neg h1, h.sysctl, if_neg (by decide), if_neg h2, h.malloc, if_neg (by decide), hd]

/-- **No more is written than the target holds exactly when, if the loop is reached, the blocks
fit.** -/
theorem totalWritten_le_iff {build : Build} {world : World} {o : Options}
    (hgeom : build.useGeomGetSize = true) (hcheck : o.targetSizeCheck = true)
    (hB : 1 ≤ o.blocksize) (size : Option ℕ) (content : Option Bytes) :
    (flash build world o size content).totalWritten ≤ world.geomSize o.device ↔
      ∀ bytes, content = some bytes → ReachesLoop build world o size bytes →
        BlocksFit (world.geomSize o.device) o.blocksize size bytes := by
  have htarget : world.targetSize o = world.geomSize o.device := if_pos hcheck
  -- the number of blocks, against the number that the target holds
  have hfit : ∀ bytes, ReachesLoop build world o size bytes →
      ((flash build world o size (some bytes)).totalWritten ≤ world.geomSize o.device ↔
        BlocksFit (world.geomSize o.device) o.blocksize size bytes) := by
    intro bytes hreach
    obtain ⟨device, hflash⟩ := flash_of_reaches hreach
    have hwrote : (writeImage build world o size bytes device).wrote =
        (flashFrom world.takes size o.blocksize (bytes.length + 1) 0 bytes).1 := rfl
    rw [hflash, writeImage_total _ _ _ _ _ hB, ← Nat.le_div_iff_mul_le hB, hwrote,
      flashFrom_length_le_iff hB _ _ _ _ (Nat.lt_succ_self _)]
    refine or_congr ?_ ⟨?_, ?_⟩
    · rw [← Nat.le_div_iff_mul_le hB, ceilDiv_le_iff_le_mul hB, Nat.mul_comm]
    · rintro ⟨fs, hfs, j, hj, hle⟩
      exact ⟨fs, hfs, j, by rwa [Nat.zero_add] at hle, (Nat.le_div_iff_mul_le hB).1 hj⟩
    · rintro ⟨fs, hfs, j, hle, hj⟩
      exact ⟨fs, hfs, j, (Nat.le_div_iff_mul_le hB).2 hj, by rwa [Nat.zero_add]⟩
  constructor
  · rintro hle bytes rfl hreach
    exact (hfit bytes hreach).1 hle
  · intro h
    by_contra hgt
    obtain ⟨htar, hsys, ⟨bytes, rfl, -, hlen⟩, hm, hd, -⟩ :=
      flash_wrote_iff.1 (totalWritten_pos (by omega : (flash build world o size content).totalWritten ≠ 0))
    have hreach : ReachesLoop build world o size bytes :=
      ⟨(htar hgeom).1, (htar hgeom).2, hsys, hlen hgeom, hm, hd⟩
    exact hgt ((hfit bytes hreach).2 (h bytes rfl hreach))

/-- A file of two blocks on a target of two blocks. -/
theorem totalWritten_le_iff_two :
    (flash stockBuild (router 8) { Options.default with blocksize := 4 } none
      (some (List.replicate 8 65))).totalWritten ≤ 8 :=
  (totalWritten_le_iff rfl rfl (by decide) none (some (List.replicate 8 65))).2 fun bytes hb _ => by
    obtain rfl := Option.some.inj hb
    exact Or.inl (by decide)

/-- A file of five bytes takes two blocks of four, which is more than a target of six bytes. -/
theorem totalWritten_past_target :
    ¬ ∀ (build : Build) (world : World) (o : Options) (size : Option ℕ) (content : Option Bytes),
      build.useGeomGetSize = true → o.targetSizeCheck = true → 1 ≤ o.blocksize →
      (flash build world o size content).totalWritten ≤ world.geomSize o.device := by
  intro h
  have hle := h stockBuild (router 6) { Options.default with blocksize := 4 } none
    (some (List.replicate 5 65)) rfl rfl (by decide)
  revert hle
  decide +kernel

end ZRouter.Upgrade
