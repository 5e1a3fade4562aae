import ZRouter.Lib.Pattern

/-!
# Captures

A capture is a part of the string that is searched.

* `run_captures`: the captures of the items that are left;
* `gmatch_captures`: those of all matches.
-/

namespace ZRouter.Pattern

variable {α : Type*} {t : List α}

/-- A match keeps to the parts of `t`: its captures are parts, and what it leaves is an end. -/
def Inside (t : List α) (m : List (List α) × List α) : Prop :=
  (∀ u ∈ m.1, u <:+: t) ∧ m.2 <:+ t

/-- A repetition leaves an end of the string to the items behind it. -/
theorem expand_inside {p : α → Bool} {k : List α → Option (List (List α) × List α)} {s : List α}
    {m : List (List α) × List α} (hs : s <:+ t) (hk : ∀ v, v <:+ t → k v = some m → Inside t m) :
    (maxExpand p k s = some m → Inside t m) ∧ (minExpand p k s = some m → Inside t m) := by
  constructor
  · intro h
    obtain ⟨u, v, rfl, -, hv⟩ := maxExpand_eq_some h
    exact hk v ((List.suffix_append u v).trans hs) hv
  · intro h
    obtain ⟨u, v, rfl, -, hv⟩ := minExpand_eq_some h
    exact hk v ((List.suffix_append u v).trans hs) hv

theorem run_captures (items : List (Item α)) : ∀ {start : List α} {caps : List (List α)} {s : List α}
    {m : List (List α) × List α}, start <:+ t → s <:+ t → (∀ u ∈ caps, u <:+: t) →
    run items start caps s = some m → Inside t m := by
  induction items with
  | nil =>
    intro start caps s m _ hs hcaps h
    cases h
    exact ⟨hcaps, hs⟩
  | cons i items ih =>
    intro start caps s m hstart hs hcaps h
    cases i with
    | one p =>
      cases s with
      | nil => cases h
      | cons c s =>
        rw [run] at h
        split_ifs at h
        exact ih hstart ((List.suffix_cons c s).trans hs) hcaps h
    | star p => exact (expand_inside hs fun v hv => ih hstart hv hcaps).1 h
    | plus p =>
      cases s with
      | nil => cases h
      | cons c s =>
        rw [run] at h
        split_ifs at h
        exact (expand_inside ((List.suffix_cons c s).trans hs) fun v hv => ih hstart hv hcaps).1 h
    | lazy p => exact (expand_inside hs fun v hv => ih hstart hv hcaps).2 h
    | opt p =>
      cases s with
      | nil => exact ih hstart hs hcaps h
      | cons c s =>
        rw [run] at h
        rcases Option.or_eq_some_iff.1 h with h | ⟨-, h⟩
        · split_ifs at h
          exact ih hstart ((List.suffix_cons c s).trans hs) hcaps h
        · exact ih hstart hs hcaps h
    | opens => exact ih hs hs hcaps h
    | closes =>
      refine ih hstart hs (fun u hu => ?_) h
      rcases List.mem_append.1 hu with hu | hu
      · exact hcaps u hu
      · have htake := List.take_prefix (start.length - s.length) start
        rw [List.mem_singleton.1 hu]
        exact htake.isInfix.trans hstart.isInfix
    | atEnd =>
      rw [run] at h
      split_ifs at h
      exact ih hstart hs hcaps h

theorem gmatchFrom_captures {items : List (Item α)} (n : ℕ) : ∀ {s : List α}, s <:+ t →
    ∀ caps ∈ gmatchFrom items n s, ∀ u ∈ caps, u <:+: t := by
  induction n with
  | zero =>
    intro s _ caps hcaps
    cases hcaps
  | succ n ih =>
    intro s hs caps hcaps
    have hskip : caps ∈ gmatchSkip (gmatchFrom items n) s → ∀ u ∈ caps, u <:+: t := by
      intro hmem
      cases s with
      | nil => cases hmem
      | cons c s => exact ih ((List.suffix_cons c s).trans hs) caps hmem
    rw [gmatchFrom] at hcaps
    cases hx : exec items s with
    | none =>
      rw [hx] at hcaps
      exact hskip hcaps
    | some m =>
      have hm : Inside t m := run_captures items hs hs (List.forall_mem_nil _) hx
      rw [hx] at hcaps
      dsimp only at hcaps
      rcases List.mem_cons.1 hcaps with rfl | hcaps
      · exact hm.1
      · split_ifs at hcaps
        · exact ih hm.2 caps hcaps
        · exact hskip hcaps

/-- The captures of all matches are parts of the string. -/
theorem gmatch_captures {items : List (Item α)} {s : List α} {caps : List (List α)}
    (h : caps ∈ gmatch items s) {u : List α} (hu : u ∈ caps) : u <:+: s :=
  gmatchFrom_captures _ List.suffix_rfl caps h u hu

end ZRouter.Pattern
