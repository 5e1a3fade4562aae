import Mathlib

/-!
# Lua patterns

The matcher behind `string.find` and `string.gsub`, over any alphabet.  A class of characters is a
test; captures are not nested.

* `Item`, `run`: items with their repetitions, matched with backtracking;
* `exec`, `find`, `gsub`, `gsubOnce`: a match at the start, the first match, the replacement of all
  matches, and of a match at the start; `gmatch`: the captures of all matches;
* `lit`: a pattern without special characters;
* `maxExpand_append`, `minExpand_append`: how far a repetition reaches; `maxExpand_before`,
  `run_plus_before`, `run_star_before`: as far as its class does;
* `gsub_match`, `gsub_skip`: one step of the replacement; `Shrinks.gsub`, `gsub_of_none`: when it
  changes nothing.
-/

namespace ZRouter.Pattern

variable {α β : Type*}

/-- The items of a pattern: a class, its repetitions (`*`, `+`, `-` and `?`), the two ends of a
capture, and `$`. -/
inductive Item (α : Type*)
  | one (p : α → Bool)
  | star (p : α → Bool)
  | plus (p : α → Bool)
  | lazy (p : α → Bool)
  | opt (p : α → Bool)
  | opens
  | closes
  | atEnd

/-- `max_expand`: the longest repetition after which `k` succeeds. -/
def maxExpand (p : α → Bool) (k : List α → Option β) : List α → Option β
  | [] => k []
  | c :: s => if p c then (maxExpand p k s).or (k (c :: s)) else k (c :: s)

/-- `min_expand`: the shortest repetition after which `k` succeeds. -/
def minExpand (p : α → Bool) (k : List α → Option β) : List α → Option β
  | [] => k []
  | c :: s => (k (c :: s)).or (if p c then minExpand p k s else none)

/-- Match the items at the start of a string: the captures and what is left.  `start` is where the
last capture was opened. -/
def run : List (Item α) → List α → List (List α) → List α → Option (List (List α) × List α)
  | [], _, caps, s => some (caps, s)
  | .one p :: is, start, caps, s =>
      match s with
      | [] => none
      | c :: s => if p c then run is start caps s else none
  | .star p :: is, start, caps, s => maxExpand p (run is start caps) s
  | .plus p :: is, start, caps, s =>
      match s with
      | [] => none
      | c :: s => if p c then maxExpand p (run is start caps) s else none
  | .lazy p :: is, start, caps, s => minExpand p (run is start caps) s
  | .opt p :: is, start, caps, s =>
      match s with
      | [] => run is start caps []
      | c :: t => (if p c then run is start caps t else none).or (run is start caps (c :: t))
  | .opens :: is, _, caps, s => run is s caps s
  | .closes :: is, start, caps, s =>
      run is start (caps ++ [start.take (start.length - s.length)]) s
  | .atEnd :: is, start, caps, s => if s.isEmpty then run is start caps s else none

/-- A match at the start of a string. -/
def exec (items : List (Item α)) (s : List α) : Option (List (List α) × List α) :=
  run items s [] s

/-- The first match in a string: what stands before it, its captures, and what is left. -/
def find (items : List (Item α)) : List α → Option (List α × List (List α) × List α)
  | [] => (exec items []).map fun m => ([], m)
  | c :: s =>
      match exec items (c :: s) with
      | some m => some ([], m)
      | none => (find items s).map fun m => (c :: m.1, m.2)

/-- Copy a character, if there is one, then `next` on what is left. -/
def copyFirst (next : List α → List α) : List α → List α
  | [] => []
  | c :: s => c :: next s

/-- One position of `gsub`, then `next` on what is left.  An empty match is replaced too, and then
a character is copied. -/
def gsubStep (items : List (Item α)) (f : List α → List (List α) → List α)
    (next : List α → List α) (s : List α) : List α :=
  match exec items s with
  | some (caps, rest) =>
      f (s.take (s.length - rest.length)) caps ++
        if rest.length < s.length then next rest else copyFirst next s
  | none => copyFirst next s

/-- `gsub` in at most so many steps. -/
def gsubFrom (items : List (Item α)) (f : List α → List (List α) → List α) : ℕ → List α → List α
  | 0 => fun _ => []
  | n + 1 => gsubStep items f (gsubFrom items f n)

/-- `string.gsub`: `f` is given the match and its captures. -/
def gsub (items : List (Item α)) (f : List α → List (List α) → List α) (s : List α) : List α :=
  gsubFrom items f (s.length + 1) s

/-- `string.gsub` with a pattern that starts with `^`. -/
def gsubOnce (items : List (Item α)) (f : List α → List (List α) → List α) (s : List α) :
    List α :=
  match exec items s with
  | some (caps, rest) => f (s.take (s.length - rest.length)) caps ++ rest
  | none => s

/-- Skip a character, if there is one, then `next` on what is left. -/
def gmatchSkip (next : List α → List β) : List α → List β
  | [] => []
  | _ :: s => next s

/-- `string.gmatch` in at most so many steps.  After an empty match a character is skipped. -/
def gmatchFrom (items : List (Item α)) : ℕ → List α → List (List (List α))
  | 0, _ => []
  | n + 1, s =>
      match exec items s with
      | some (caps, rest) =>
          caps :: if rest.length < s.length then gmatchFrom items n rest
            else gmatchSkip (gmatchFrom items n) s
      | none => gmatchSkip (gmatchFrom items n) s

/-- `string.gmatch`: the captures of the matches. -/
def gmatch (items : List (Item α)) (s : List α) : List (List (List α)) :=
  gmatchFrom items (s.length + 1) s

/-- The pattern of a string without special characters. -/
def lit [DecidableEq α] (l : List α) : List (Item α) := l.map fun c => .one (· = c)

/-! ### Repetitions -/

section Expand

variable {p : α → Bool} {k : List α → Option β} {pre s : List α} {b : β}

/-- A repetition fails when nothing fits wherever it stops. -/
theorem maxExpand_eq_none (h : ∀ u v, s = u ++ v → (∀ c ∈ u, p c = true) → k v = none) :
    maxExpand p k s = none := by
  induction s with
  | nil => exact h [] [] rfl (by simp)
  | cons c s ih =>
    have h2 := h [] (c :: s) rfl (by simp)
    cases hc : p c with
    | false => simp only [maxExpand, hc, h2, Bool.false_eq_true, if_false]
    | true =>
      have h1 := ih fun u v huv hu => h (c :: u) v (by rw [huv]; rfl)
        (List.forall_mem_cons.2 ⟨hc, hu⟩)
      simp only [maxExpand, h1, h2, Option.or_none, ite_self]

/-- A repetition that takes as much as it can stops at `s` when nothing further on fits. -/
theorem maxExpand_append (hp : ∀ c ∈ pre, p c = true) (hk : k s = some b)
    (hlater : ∀ u v, s = u ++ v → u ≠ [] → (∀ c ∈ u, p c = true) → k v = none) :
    maxExpand p k (pre ++ s) = some b := by
  induction pre with
  | nil =>
    cases s with
    | nil => exact hk
    | cons c t =>
      cases hc : p c with
      | false => simp only [List.nil_append, maxExpand, hc, hk, Bool.false_eq_true, if_false]
      | true =>
        have h1 : maxExpand p k t = none := maxExpand_eq_none fun u v huv hu =>
          hlater (c :: u) v (by rw [huv]; rfl) (by simp) (List.forall_mem_cons.2 ⟨hc, hu⟩)
        simp only [List.nil_append, maxExpand, h1, hk, Option.none_or, ite_self]
  | cons c pre ih =>
    have h1 := ih fun x hx => hp x (by simp [hx])
    simp only [List.cons_append, maxExpand, hp c (by simp), if_true, h1, Option.some_or]

/-- A repetition that takes as much as it can takes all of its class, when what follows then fits. -/
theorem maxExpand_before (hp : ∀ c ∈ pre, p c = true) (hstop : ∀ c ∈ s.head?, p c = false)
    (hk : k s = some b) : maxExpand p k (pre ++ s) = some b := by
  refine maxExpand_append hp hk fun u v huv hu hall => ?_
  obtain ⟨c, u, rfl⟩ := List.exists_cons_of_ne_nil hu
  have hc := hstop c (by rw [huv]; rfl)
  rw [hall c List.mem_cons_self] at hc
  cases hc

/-- A repetition that takes as little as it can stops at `s` when nothing before fits. -/
theorem minExpand_append (hp : ∀ c ∈ pre, p c = true) (hk : k s = some b)
    (hsooner : ∀ u v, pre = u ++ v → v ≠ [] → k (v ++ s) = none) :
    minExpand p k (pre ++ s) = some b := by
  induction pre with
  | nil => cases s <;> simp [minExpand, hk]
  | cons c pre ih =>
    have h1 := ih (fun x hx => hp x (by simp [hx])) fun u v huv =>
      hsooner (c :: u) v (by rw [huv]; rfl)
    have h2 := hsooner [] (c :: pre) rfl (by simp)
    rw [List.cons_append] at h2
    simp only [List.cons_append, minExpand, h2, hp c (by simp), if_true, h1, Option.none_or]

/-- A repetition fails when nothing fits wherever it stops. -/
theorem minExpand_eq_none (h : ∀ u v, s = u ++ v → k v = none) : minExpand p k s = none := by
  induction s with
  | nil => exact h [] [] rfl
  | cons c s ih =>
    have h1 := h [] (c :: s) rfl
    have h2 := ih fun u v huv => h (c :: u) v (by rw [huv]; rfl)
    simp only [minExpand, h1, h2, Option.none_or, ite_self]

/-- Where a repetition that succeeds stopped. -/
theorem maxExpand_eq_some (h : maxExpand p k s = some b) :
    ∃ u v, s = u ++ v ∧ (∀ c ∈ u, p c = true) ∧ k v = some b := by
  induction s with
  | nil => exact ⟨[], [], rfl, by simp, h⟩
  | cons c s ih =>
    rw [maxExpand] at h
    split_ifs at h with hc
    · rcases Option.or_eq_some_iff.1 h with h | ⟨-, h⟩
      · obtain ⟨u, v, rfl, hu, hv⟩ := ih h
        exact ⟨c :: u, v, rfl, List.forall_mem_cons.2 ⟨hc, hu⟩, hv⟩
      · exact ⟨[], c :: s, rfl, by simp, h⟩
    · exact ⟨[], c :: s, rfl, by simp, h⟩

/-- Where a repetition that succeeds stopped. -/
theorem minExpand_eq_some (h : minExpand p k s = some b) :
    ∃ u v, s = u ++ v ∧ (∀ c ∈ u, p c = true) ∧ k v = some b := by
  induction s with
  | nil => exact ⟨[], [], rfl, by simp, h⟩
  | cons c s ih =>
    rw [minExpand] at h
    rcases Option.or_eq_some_iff.1 h with h | ⟨-, h⟩
    · exact ⟨[], c :: s, rfl, by simp, h⟩
    · split_ifs at h with hc
      obtain ⟨u, v, rfl, hu, hv⟩ := ih h
      exact ⟨c :: u, v, rfl, List.forall_mem_cons.2 ⟨hc, hu⟩, hv⟩

/-- A repetition behind which nothing of its class fits takes all that it can. -/
theorem maxExpand_of_stops (hp : ∀ c ∈ pre, p c = true) (hstop : ∀ c ∈ s.head?, p c = false)
    (hk : ∀ c t, p c = true → k (c :: t) = none) : maxExpand p k (pre ++ s) = k s := by
  induction pre with
  | nil =>
    cases s with
    | nil => rfl
    | cons c t =>
      rw [List.nil_append, maxExpand, hstop c rfl, if_neg Bool.false_ne_true]
  | cons c pre ih =>
    have hall := List.forall_mem_cons.1 hp
    rw [List.cons_append, maxExpand, if_pos hall.1, ih hall.2, hk c _ hall.1, Option.or_none]

/-- A repetition after which something fits somewhere succeeds, and stops where something fits. -/
theorem maxExpand_of_fits (hp : ∀ c ∈ pre, p c = true) (hk : (k s).isSome = true) :
    ∃ u v b, pre ++ s = u ++ v ∧ k v = some b ∧ maxExpand p k (pre ++ s) = some b := by
  cases hr : maxExpand p k (pre ++ s) with
  | none =>
    exfalso
    revert hr
    induction pre with
    | nil =>
      cases s with
      | nil => simp [maxExpand, Option.isSome_iff_ne_none.1 hk]
      | cons c t =>
        have hne := Option.isSome_iff_ne_none.1 hk
        cases hc : p c <;> simp [maxExpand, hc, hne]
    | cons c pre ih =>
      have hne := ih fun x hx => hp x (by simp [hx])
      have hc := hp c (by simp)
      intro hr
      simp only [List.cons_append, maxExpand, hc, if_true, Option.or_eq_none_iff] at hr
      exact hne hr.1
  | some b =>
    obtain ⟨u, v, huv, -, hv⟩ := maxExpand_eq_some hr
    exact ⟨u, v, b, huv, hv, rfl⟩

end Expand

/-- The end of a capture. -/
theorem run_closes (is : List (Item α)) (x s : List α) (caps : List (List α)) :
    run (.closes :: is) (x ++ s) caps s = run is (x ++ s) (caps ++ [x]) s := by
  rw [run, List.length_append, Nat.add_sub_cancel, List.take_left]

/-- A capture of characters of a class, behind which no such character fits. -/
theorem run_plus_capture {p : α → Bool} {pre s : List α} (hne : pre ≠ []) (hp : ∀ c ∈ pre, p c = true)
    (hstop : ∀ c ∈ s.head?, p c = false) {is : List (Item α)}
    (his : ∀ start caps c t, p c = true → run is start caps (c :: t) = none) (start : List α)
    (caps : List (List α)) : run (.opens :: .plus p :: .closes :: is) start caps (pre ++ s) =
      run is (pre ++ s) (caps ++ [pre]) s := by
  obtain ⟨c, pre, rfl⟩ := List.exists_cons_of_ne_nil hne
  have hall := List.forall_mem_cons.1 hp
  change (if p c then maxExpand p (run (.closes :: is) ((c :: pre) ++ s) caps) (pre ++ s) else none) = _
  rw [if_pos hall.1, maxExpand_of_stops hall.2 hstop fun c t hc => by rw [run]; exact his _ _ c t hc,
    run_closes]

/-- A captured repetition takes all of its class, when what follows then fits. -/
theorem run_star_before {p : α → Bool} {pre s : List α} (hp : ∀ c ∈ pre, p c = true)
    (hstop : ∀ c ∈ s.head?, p c = false) {is : List (Item α)} {start : List α}
    {caps : List (List α)} {m : List (List α) × List α}
    (h : run is (pre ++ s) (caps ++ [pre]) s = some m) :
    run (.opens :: .star p :: .closes :: is) start caps (pre ++ s) = some m := by
  change maxExpand p (run (.closes :: is) (pre ++ s) caps) (pre ++ s) = _
  refine maxExpand_before hp hstop ?_
  rwa [run_closes]

/-- The same for a repetition that takes something. -/
theorem run_plus_before {p : α → Bool} {pre s : List α} (hne : pre ≠ [])
    (hp : ∀ c ∈ pre, p c = true) (hstop : ∀ c ∈ s.head?, p c = false) {is : List (Item α)}
    {start : List α} {caps : List (List α)} {m : List (List α) × List α}
    (h : run is (pre ++ s) (caps ++ [pre]) s = some m) :
    run (.opens :: .plus p :: .closes :: is) start caps (pre ++ s) = some m := by
  obtain ⟨c, pre, rfl⟩ := List.exists_cons_of_ne_nil hne
  have hall := List.forall_mem_cons.1 hp
  change (if p c then maxExpand p (run (.closes :: is) ((c :: pre) ++ s) caps) (pre ++ s)
    else none) = _
  rw [if_pos hall.1]
  refine maxExpand_before hall.2 hstop ?_
  rwa [run_closes]

/-- Captures are only added. -/
theorem run_caps_prefix (items : List (Item α)) : ∀ {start : List α} {caps : List (List α)}
    {s : List α} {m : List (List α) × List α}, run items start caps s = some m → caps <+: m.1 := by
  have hexpand : ∀ {p : α → Bool} {k : List α → Option (List (List α) × List α)}
      {caps : List (List α)} {s : List α} {m : List (List α) × List α},
      (∀ t m, k t = some m → caps <+: m.1) →
      (maxExpand p k s = some m → caps <+: m.1) ∧ (minExpand p k s = some m → caps <+: m.1) := by
    intro p k caps s m hk
    induction s with
    | nil => exact ⟨hk [] m, hk [] m⟩
    | cons c s ih =>
      refine ⟨fun h => ?_, fun h => ?_⟩
      · rw [maxExpand] at h
        split_ifs at h
        · rcases Option.or_eq_some_iff.1 h with h | ⟨-, h⟩
          · exact ih.1 h
          · exact hk _ m h
        · exact hk _ m h
      · rw [minExpand] at h
        rcases Option.or_eq_some_iff.1 h with h | ⟨-, h⟩
        · exact hk _ m h
        · split_ifs at h
          exact ih.2 h
  induction items with
  | nil =>
    intro start caps s m h
    cases h
    exact List.prefix_rfl
  | cons i items ih =>
    intro start caps s m h
    cases i with
    | one p =>
      cases s with
      | nil => cases h
      | cons c s =>
        rw [run] at h
        split_ifs at h
        exact ih h
    | star p => exact (hexpand fun t m => ih).1 h
    | plus p =>
      cases s with
      | nil => cases h
      | cons c s =>
        rw [run] at h
        split_ifs at h
        exact (hexpand fun t m => ih).1 h
    | lazy p => exact (hexpand fun t m => ih).2 h
    | opt p =>
      cases s with
      | nil => exact ih h
      | cons c s =>
        rw [run] at h
        rcases Option.or_eq_some_iff.1 h with h | ⟨-, h⟩
        · split_ifs at h
          exact ih h
        · exact ih h
    | opens => exact ih h
    | closes => exact (List.prefix_append _ _).trans (ih h)
    | atEnd =>
      rw [run] at h
      split_ifs at h
      exact ih h

/-! ### How much a match takes -/

/-- The characters that an item takes at least. -/
def Item.width : Item α → ℕ
  | .one _ | .plus _ => 1
  | .star _ | .lazy _ | .opt _ | .opens | .closes | .atEnd => 0

/-- The characters that a pattern takes at least. -/
def width (items : List (Item α)) : ℕ := (items.map Item.width).sum

/-- A match takes at least the width of the pattern. -/
theorem run_length_le (items : List (Item α)) : ∀ {start : List α} {caps : List (List α)}
    {s : List α} {m : List (List α) × List α}, run items start caps s = some m →
    m.2.length + width items ≤ s.length := by
  induction items with
  | nil =>
    intro start caps s m h
    cases h
    exact le_rfl
  | cons i items ih =>
    intro start caps s m h
    have hwidth : width (i :: items) = i.width + width items := by
      rw [width, List.map_cons, List.sum_cons, width]
    rw [hwidth]
    -- a repetition leaves a part of the string for the items behind it
    have hrest : ∀ {u v : List α}, s = u ++ v → run items start caps v = some m →
        m.2.length + width items ≤ s.length := by
      intro u v huv hv
      rw [huv, List.length_append]
      exact (ih hv).trans (Nat.le_add_left _ _)
    cases i with
    | one p =>
      cases s with
      | nil => cases h
      | cons c s =>
        rw [run] at h
        split_ifs at h
        have := ih h
        rw [Item.width, List.length_cons]
        omega
    | star p =>
      obtain ⟨u, v, huv, -, hv⟩ := maxExpand_eq_some h
      rw [Item.width, zero_add]
      exact hrest huv hv
    | plus p =>
      cases s with
      | nil => cases h
      | cons c s =>
        rw [run] at h
        split_ifs at h
        obtain ⟨u, v, rfl, -, hv⟩ := maxExpand_eq_some h
        have := ih hv
        rw [Item.width, List.length_cons, List.length_append]
        omega
    | lazy p =>
      obtain ⟨u, v, huv, -, hv⟩ := minExpand_eq_some h
      rw [Item.width, zero_add]
      exact hrest huv hv
    | opt p =>
      rw [Item.width, zero_add]
      cases s with
      | nil => exact ih h
      | cons c s =>
        rw [run] at h
        rcases Option.or_eq_some_iff.1 h with h | ⟨-, h⟩
        · split_ifs at h
          exact hrest (u := [c]) rfl h
        · exact ih h
    | opens =>
      rw [Item.width, zero_add]
      exact ih h
    | closes =>
      rw [Item.width, zero_add]
      exact ih h
    | atEnd =>
      rw [run] at h
      split_ifs at h
      rw [Item.width, zero_add]
      exact ih h

theorem exec_length_le {items : List (Item α)} {s : List α} {m : List (List α) × List α}
    (h : exec items s = some m) : m.2.length + width items ≤ s.length := run_length_le items h

theorem find_length_le {items : List (Item α)} {s : List α}
    {m : List α × List (List α) × List α} (h : find items s = some m) :
    m.2.2.length + width items ≤ s.length := by
  induction s generalizing m with
  | nil =>
    rw [find, Option.map_eq_some_iff] at h
    obtain ⟨a, ha, rfl⟩ := h
    exact exec_length_le ha
  | cons c s ih =>
    rw [find] at h
    cases he : exec items (c :: s) with
    | some a =>
      rw [he, Option.some.injEq] at h
      subst h
      exact exec_length_le he
    | none =>
      rw [he, Option.map_eq_some_iff] at h
      obtain ⟨a, ha, rfl⟩ := h
      exact (ih ha).trans (Nat.le_succ _)

/-- A match at the start is the first match. -/
theorem find_of_exec {items : List (Item α)} {s : List α} {m : List (List α) × List α}
    (h : exec items s = some m) : find items s = some ([], m) := by
  cases s with
  | nil => rw [find, h, Option.map_some]
  | cons c s => rw [find, h]

/-- What cannot start a match is skipped. -/
theorem find_skip {items : List (Item α)} {pre s : List α} {m : List (List α) × List α}
    (hpre : ∀ u v, pre = u ++ v → v ≠ [] → exec items (v ++ s) = none)
    (h : exec items s = some m) : find items (pre ++ s) = some (pre, m) := by
  induction pre with
  | nil => exact find_of_exec h
  | cons c pre ih =>
    have h1 := hpre [] (c :: pre) rfl (by simp)
    have h2 := ih fun u v huv => hpre (c :: u) v (by rw [huv]; rfl)
    rw [List.cons_append] at h1 ⊢
    rw [find, h1, h2]
    rfl

/-- Without a match anywhere there is no first one. -/
theorem find_eq_none {items : List (Item α)} {s : List α}
    (h : ∀ t, t <:+ s → exec items t = none) : find items s = none := by
  induction s with
  | nil => rw [find, h [] List.suffix_rfl, Option.map_none]
  | cons c s ih =>
    rw [find, h _ List.suffix_rfl, ih fun t ht => h t (ht.trans (List.suffix_cons c s))]
    rfl

/-! ### Literals -/

theorem run_lit [DecidableEq α] (l : List α) (is : List (Item α)) (start : List α)
    (caps : List (List α)) (s : List α) :
    run (lit l ++ is) start caps s =
      if l <+: s then run is start caps (s.drop l.length) else none := by
  induction l generalizing s with
  | nil => simp [lit]
  | cons c l ih =>
    cases s with
    | nil => simp [lit, run]
    | cons d s =>
      have h1 : run (lit (c :: l) ++ is) start caps (d :: s) =
          if (decide (d = c)) = true then run (lit l ++ is) start caps s else none := rfl
      rw [h1, ih]
      by_cases hdc : d = c
      · simp [hdc]
      · simp [hdc, List.cons_prefix_cons, Ne.symm hdc]

theorem exec_lit [DecidableEq α] (l s : List α) :
    exec (lit l) s = if l <+: s then some ([], s.drop l.length) else none := by
  have h := run_lit l [] s [] s
  rwa [List.append_nil] at h

theorem exec_lit_eq_none_iff [DecidableEq α] {l s : List α} :
    (∀ t, t <:+ s → exec (lit l) t = none) ↔ ¬ l <:+: s := by
  simp only [exec_lit, ite_eq_right_iff, reduceCtorEq, imp_false]
  refine ⟨fun h hl => ?_, fun h t ht hl => h (hl.isInfix.trans ht.isInfix)⟩
  obtain ⟨u, v, rfl⟩ := hl
  exact h (l ++ v) ⟨u, by simp⟩ (List.prefix_append l v)

/-! ### Replacement -/

section Gsub

variable {items : List (Item α)} {f : List α → List (List α) → List α}

/-- Any number of steps above the length gives the same. -/
theorem gsubFrom_eq {n m : ℕ} : ∀ {s : List α}, s.length < n → s.length < m →
    gsubFrom items f n s = gsubFrom items f m s := by
  induction n generalizing m with
  | zero => intro s h; omega
  | succ n ih =>
    intro s hn hm
    obtain ⟨m, rfl⟩ := Nat.exists_eq_succ_of_ne_zero (by omega : m ≠ 0)
    have hcopy : copyFirst (gsubFrom items f n) s = copyFirst (gsubFrom items f m) s := by
      cases s with
      | nil => rfl
      | cons c t =>
        simp only [List.length_cons] at hn hm
        simp only [copyFirst]
        rw [@ih m t (by omega) (by omega)]
    simp only [gsubFrom, gsubStep, hcopy]
    cases exec items s with
    | none => rfl
    | some x =>
      by_cases hx : x.2.length < s.length
      · simp only [hx, if_true]
        rw [@ih m x.2 (by omega) (by omega)]
      · simp only [hx, if_false]

/-- A match that is not empty is replaced. -/
theorem gsub_match {s rest : List α} {caps : List (List α)} (h : exec items s = some (caps, rest))
    (hlt : rest.length < s.length) :
    gsub items f s = f (s.take (s.length - rest.length)) caps ++ gsub items f rest := by
  have h1 : gsubFrom items f s.length rest = gsub items f rest :=
    gsubFrom_eq hlt (Nat.lt_succ_self _)
  rw [gsub, gsubFrom, gsubStep, h]
  simp only [hlt, if_true, h1]

/-- A character at which nothing matches is copied. -/
theorem gsub_skip {c : α} {s : List α} (h : exec items (c :: s) = none) :
    gsub items f (c :: s) = c :: gsub items f s := by
  simp only [gsub, gsubFrom, gsubStep, copyFirst, h, List.length_cons]

theorem gsub_nil (h : exec items [] = none) : gsub items f [] = [] := by
  simp only [gsub, gsubFrom, gsubStep, copyFirst, h]

/-- Every match is replaced by something shorter. -/
def Shrinks (items : List (Item α)) (f : List α → List (List α) → List α) : Prop :=
  ∀ s caps rest, exec items s = some (caps, rest) →
    (f (s.take (s.length - rest.length)) caps).length + rest.length < s.length

/-- With such a replacement the string does not get longer, and it is as long as before only if
nothing matched. -/
theorem Shrinks.gsub (h : Shrinks items f) (s : List α) :
    (gsub items f s).length ≤ s.length ∧
      ((gsub items f s).length = s.length → ∀ t, t <:+ s → exec items t = none) := by
  induction hn : s.length using Nat.strong_induction_on generalizing s with
  | _ n ih =>
    subst hn
    rcases hx : exec items s with _ | ⟨caps, rest⟩
    · cases s with
      | nil =>
        rw [gsub_nil hx]
        refine ⟨le_rfl, fun _ t ht => ?_⟩
        rw [List.suffix_nil.1 ht, hx]
      | cons c s =>
        obtain ⟨h1, h2⟩ := ih s.length (by simp) s rfl
        rw [gsub_skip hx]
        simp only [List.length_cons, Nat.add_le_add_iff_right, Nat.add_right_cancel_iff]
        refine ⟨h1, fun heq t ht => ?_⟩
        rcases List.suffix_cons_iff.1 ht with rfl | ht
        · exact hx
        · exact h2 heq t ht
    · have hlt := h s caps rest hx
      obtain ⟨h1, -⟩ := ih rest.length (by omega) rest rfl
      rw [gsub_match hx (by omega), List.length_append]
      exact ⟨by omega, fun heq => by omega⟩

theorem shrinks_lit [DecidableEq α] {l r : List α} (h : r.length < l.length) :
    Shrinks (lit l) fun _ _ => r := by
  intro s caps rest hx
  rw [exec_lit] at hx
  split_ifs at hx with hl
  have := hl.length_le
  cases hx
  simp only [List.length_drop]
  omega

/-- Where nothing matches, nothing is replaced. -/
theorem gsub_of_none {s : List α} (h : ∀ t, t <:+ s → exec items t = none) :
    gsub items f s = s := by
  induction s with
  | nil => exact gsub_nil (h [] List.suffix_rfl)
  | cons c s ih =>
    rw [gsub_skip (h _ List.suffix_rfl), ih fun t ht => h t (ht.trans (List.suffix_cons c s))]

/-- The replacement of single characters. -/
theorem gsub_single {p : α → Bool} {caps : α → List (List α)} (h0 : exec items [] = none)
    (h : ∀ c s, exec items (c :: s) = if p c then some (caps c, s) else none) (s : List α) :
    gsub items f s = s.flatMap fun c => if p c then f [c] (caps c) else [c] := by
  induction s with
  | nil => exact gsub_nil h0
  | cons c s ih =>
    rw [List.flatMap_cons, ← ih]
    by_cases hc : p c = true
    · rw [gsub_match ((h c s).trans (if_pos hc)) (by simp), if_pos hc]
      simp
    · rw [gsub_skip ((h c s).trans (if_neg hc)), if_neg hc]
      rfl

/-- The replacement of a character. -/
theorem gsub_lit_singleton [DecidableEq α] (a : α) (s : List α) :
    gsub (lit [a]) f s = s.flatMap fun c => if c = a then f [c] [] else [c] := by
  have h := @gsub_single α (lit [a]) f (fun c => decide (c = a)) (fun _ => []) rfl
    (fun c s => rfl) s
  simpa using h

end Gsub

/-! ### All matches -/

section Gmatch

variable {items : List (Item α)}

/-- Any number of steps above the length gives the same. -/
theorem gmatchFrom_eq {n m : ℕ} : ∀ {s : List α}, s.length < n → s.length < m →
    gmatchFrom items n s = gmatchFrom items m s := by
  induction n generalizing m with
  | zero => intro s h; omega
  | succ n ih =>
    intro s hn hm
    obtain ⟨m, rfl⟩ := Nat.exists_eq_succ_of_ne_zero (by omega : m ≠ 0)
    have hskip : gmatchSkip (gmatchFrom items n) s = gmatchSkip (gmatchFrom items m) s := by
      cases s with
      | nil => rfl
      | cons c t =>
        simp only [List.length_cons] at hn hm
        exact @ih m t (by omega) (by omega)
    rw [gmatchFrom, gmatchFrom, hskip]
    cases exec items s with
    | none => rfl
    | some x =>
      by_cases hx : x.2.length < s.length
      · simp only [hx, if_true]
        rw [@ih m x.2 (by omega) (by omega)]
      · simp only [hx, if_false]

/-- A match that is not empty. -/
theorem gmatch_match {s rest : List α} {caps : List (List α)}
    (h : exec items s = some (caps, rest)) (hlt : rest.length < s.length) :
    gmatch items s = caps :: gmatch items rest := by
  have h1 : gmatchFrom items s.length rest = gmatch items rest :=
    gmatchFrom_eq hlt (Nat.lt_succ_self _)
  rw [gmatch, gmatchFrom, h]
  simp only [hlt, if_true, h1]

/-- What cannot start a match is skipped. -/
theorem gmatch_skip {pre s : List α}
    (hpre : ∀ u v, pre = u ++ v → v ≠ [] → exec items (v ++ s) = none) :
    gmatch items (pre ++ s) = gmatch items s := by
  induction pre with
  | nil => rfl
  | cons c pre ih =>
    have h1 := hpre [] (c :: pre) rfl (by simp)
    have h2 := ih fun u v huv => hpre (c :: u) v (by rw [huv]; rfl)
    rw [← h2, List.cons_append, gmatch, List.length_cons, gmatchFrom]
    rw [List.cons_append] at h1
    rw [h1]
    rfl

/-- Without a match anywhere there is none. -/
theorem gmatch_of_none {s : List α} (h : ∀ t, t <:+ s → exec items t = none) :
    gmatch items s = [] := by
  have hskip := @gmatch_skip α items s [] fun u v huv _ => by
    rw [List.append_nil]
    exact h v ⟨u, huv.symm⟩
  rw [List.append_nil] at hskip
  rw [hskip, gmatch, List.length_nil, gmatchFrom, h [] (List.nil_suffix)]
  rfl

end Gmatch

end ZRouter.Pattern
