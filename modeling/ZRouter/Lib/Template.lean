import ZRouter.Lib.Pattern

/-!
# Texts with names between delimiters

The pattern `d(.-)d` replaces what stands between two delimiters.  Every text is made of pieces that are copied
and names that are replaced, and this is how `gsub` reads it.

* `gsubM`: `string.gsub` with a replacement that has effects;
* `Segment`, `source`, `render`, `fill`: pieces and names, the text that they are written as, and what becomes
  of it;
* `Reading`: the delimiters are where the first occurrences are;
* `exists_reading`, `Reading.unique`: every text is written so, in one way;
* `gsubM_source`: it is replaced name by name.
-/

namespace ZRouter.Template

open Pattern

universe u

variable {α : Type u} {m : Type u → Type*} [Monad m]

/-! ### Replacement with effects -/

/-- Copy a character, if there is one, then `next` on what is left. -/
def copyFirstM (next : List α → m (List α)) : List α → m (List α)
  | [] => pure []
  | c :: s => (c :: ·) <$> next s

/-- `gsub` in at most so many steps. -/
def gsubFromM (items : List (Item α)) (f : List α → List (List α) → m (List α)) :
    ℕ → List α → m (List α)
  | 0, _ => pure []
  | n + 1, s =>
      match exec items s with
      | some (caps, rest) =>
          f (s.take (s.length - rest.length)) caps >>= fun v =>
            (v ++ ·) <$> (if rest.length < s.length then gsubFromM items f n rest
              else copyFirstM (gsubFromM items f n) s)
      | none => copyFirstM (gsubFromM items f n) s

/-- `string.gsub`: `f` is given the match and its captures, from the first match to the last. -/
def gsubM (items : List (Item α)) (f : List α → List (List α) → m (List α)) (s : List α) :
    m (List α) :=
  gsubFromM items f (s.length + 1) s

/-! ### Pieces and names -/

/-- A piece of text and the name behind it. -/
structure Segment (α : Type u) where
  text : List α
  name : List α

/-- How segments are written. -/
def source (d : List α) : List (Segment α) → List α → List α
  | [], tail => tail
  | x :: page, tail => x.text ++ (d ++ (x.name ++ (d ++ source d page tail)))

/-- What becomes of them: the names are replaced in their order. -/
def render (f : List α → m (List α)) : List (Segment α) → List α → m (List α)
  | [], tail => pure tail
  | x :: page, tail => f x.name >>= fun v => (fun r => x.text ++ (v ++ r)) <$> render f page tail

/-- Segments, with texts in the place of the names. -/
def fill (f : List α → List α) : List (Segment α) → List α → List α
  | [], tail => tail
  | x :: page, tail => x.text ++ (f x.name ++ fill f page tail)

/-- Behind `t`, the delimiter does not begin earlier. -/
def Clean (d t : List α) : Prop := ∀ u v, t ++ d = u ++ (d ++ v) → v = []

/-- There is no name in `s`. -/
def Nameless (d s : List α) : Prop := ∀ u n v, s ≠ u ++ (d ++ (n ++ (d ++ v)))

/-- The delimiters of the segments are the first ones, and the tail has none that belong together. -/
structure Reading (d : List α) (page : List (Segment α)) (tail : List α) : Prop where
  text : ∀ x ∈ page, Clean d x.text
  name : ∀ x ∈ page, Clean d x.name
  tail : Nameless d tail

/-- The pattern `d(.-)d`. -/
def items [DecidableEq α] (d : List α) : List (Item α) :=
  lit d ++ (.opens :: .lazy (fun _ => true) :: .closes :: lit d)

section Text

variable {d : List α}

/-- Inside a clean text no delimiter begins. -/
theorem Clean.not_prefix {t : List α} (ht : Clean d t) {u v : List α} (huv : t = u ++ v) (hv : v ≠ [])
    (s : List α) : ¬ d <+: v ++ (d ++ s) := by
  intro hd
  have hpre : d <+: v ++ d := by
    rw [← List.append_assoc] at hd
    exact List.prefix_of_prefix_length_le hd (List.prefix_append _ s) (by simp)
  obtain ⟨w, hw⟩ := hpre
  have hlen := congrArg List.length hw
  rw [List.length_append, List.length_append] at hlen
  have hnil := ht u w (by rw [huv, List.append_assoc, hw])
  rw [hnil, List.length_nil] at hlen
  exact hv (List.length_eq_zero_iff.1 (by omega))

variable [DecidableEq α]

/-- A name between delimiters is matched. -/
theorem exec_name {n : List α} (hn : Clean d n) (s : List α) :
    exec (items d) (d ++ (n ++ (d ++ s))) = some ([n], s) := by
  rw [exec, items, run_lit, if_pos (List.prefix_append _ _), List.drop_left]
  change minExpand (fun _ => true) _ (n ++ (d ++ s)) = _
  refine minExpand_append (fun _ _ => rfl) ?_ fun u v huv hv => ?_
  · have hlit := run_lit d [] (n ++ (d ++ s)) [n] (d ++ s)
    rw [List.append_nil, if_pos (List.prefix_append _ _), List.drop_left] at hlit
    rw [run_closes]
    exact hlit
  · have hlit := run_lit d [] (n ++ (d ++ s))
      [(n ++ (d ++ s)).take ((n ++ (d ++ s)).length - (v ++ (d ++ s)).length)] (v ++ (d ++ s))
    rw [List.append_nil, if_neg (hn.not_prefix huv hv s)] at hlit
    exact hlit

/-- Where no delimiter begins, nothing is matched. -/
theorem exec_text {s : List α} (h : ¬ d <+: s) : exec (items d) s = none := by
  rw [exec, items, run_lit, if_neg h]

/-- Nor is anything in a text without names. -/
theorem exec_nameless {s : List α} (h : Nameless d s) : exec (items d) s = none := by
  by_cases hd : d <+: s
  · obtain ⟨r, rfl⟩ := hd
    rw [exec, items, run_lit, if_pos (List.prefix_append _ _), List.drop_left]
    change minExpand (fun _ => true) _ r = none
    refine minExpand_eq_none fun u v huv => ?_
    have hlit := run_lit d [] r ([] ++ [r.take (r.length - v.length)]) v
    rw [List.append_nil, if_neg] at hlit
    · exact hlit
    · rintro ⟨w, rfl⟩
      exact h [] u w (by rw [huv]; rfl)
  · exact exec_text hd

omit [DecidableEq α] in
/-- What cannot start a match is copied. -/
theorem gsubFromM_skip [LawfulMonad m] {is : List (Item α)} {f : List α → List (List α) → m (List α)}
    {t s : List α} (h : ∀ u v, t = u ++ v → v ≠ [] → exec is (v ++ s) = none) {n : ℕ} :
    gsubFromM is f (t.length + n) (t ++ s) = (t ++ ·) <$> gsubFromM is f n s := by
  induction t with
  | nil => exact (congrArg (gsubFromM is f · s) (Nat.zero_add n)).trans (id_map' _).symm
  | cons c t ih =>
    have hc := h [] (c :: t) rfl (List.cons_ne_nil c t)
    have hrest := ih fun u v huv => h (c :: u) v (by rw [huv]; rfl)
    rw [List.cons_append] at hc ⊢
    rw [List.length_cons, Nat.add_right_comm, gsubFromM, hc]
    dsimp only
    rw [copyFirstM, hrest, Functor.map_map]
    rfl

/-- The names are replaced in their order, and more steps than the length make no difference. -/
theorem gsubFromM_source [LawfulMonad m] (hd : d ≠ []) {f : List α → List (List α) → m (List α)}
    {page : List (Segment α)} {tail : List α} (hp : Reading d page tail) :
    ∀ n, (source d page tail).length < n → gsubFromM (items d) f n (source d page tail) =
      render (fun name => f (d ++ (name ++ d)) [name]) page tail := by
  induction page with
  | nil =>
    intro n hn
    have hskip : ∀ u v, tail = u ++ v → v ≠ [] → exec (items d) (v ++ []) = none := by
      intro u v huv _
      rw [List.append_nil]
      exact exec_nameless fun a m b heq => hp.tail (u ++ a) m b (by rw [huv, heq, List.append_assoc])
    obtain ⟨k, rfl⟩ := Nat.exists_eq_add_of_lt hn
    have hcopy := @gsubFromM_skip α m _ _ (items d) f tail [] hskip (k + 1)
    rw [List.append_nil] at hcopy
    have hend : exec (items d) [] = none := exec_text fun h => hd (List.prefix_nil.1 h)
    rw [source, Nat.add_assoc, hcopy, gsubFromM, hend]
    dsimp only
    rw [copyFirstM, render, map_pure, List.append_nil]
  | cons x page ih =>
    intro n hn
    obtain ⟨htext, htexts⟩ := List.forall_mem_cons.1 hp.text
    obtain ⟨hname, hnames⟩ := List.forall_mem_cons.1 hp.name
    have hrest := ih ⟨htexts, hnames, hp.tail⟩
    rw [source, render]
    rw [source] at hn
    generalize source d page tail = s at hn hrest
    obtain ⟨k, rfl⟩ : ∃ k, n = x.text.length + (k + 1) := by
      rw [List.length_append] at hn
      exact ⟨n - x.text.length - 1, by omega⟩
    have hdpos : 0 < d.length := List.length_pos_of_ne_nil hd
    simp only [List.length_append] at hn
    rw [gsubFromM_skip fun u v huv hv => exec_text (htext.not_prefix huv hv _), gsubFromM, exec_name hname]
    dsimp only
    have hwhole : (d ++ (x.name ++ (d ++ s))).take ((d ++ (x.name ++ (d ++ s))).length - s.length) =
        d ++ (x.name ++ d) := by
      have hassoc : d ++ (x.name ++ (d ++ s)) = d ++ (x.name ++ d) ++ s := by simp only [List.append_assoc]
      rw [hassoc, List.length_append, Nat.add_sub_cancel, List.take_left]
    rw [hwhole, if_pos (by simp only [List.length_append]; omega), hrest k (by omega), map_bind]
    refine bind_congr fun v => ?_
    rw [Functor.map_map]

/-- **A text is replaced name by name.** -/
theorem gsubM_source [LawfulMonad m] (hd : d ≠ []) {f : List α → List (List α) → m (List α)}
    {page : List (Segment α)} {tail : List α} (hp : Reading d page tail) :
    gsubM (items d) f (source d page tail) = render (fun name => f (d ++ (name ++ d)) [name]) page tail :=
  gsubFromM_source hd hp _ (Nat.lt_succ_self _)

end Text

/-! ### Every text is written so -/

/-- The first name of a text that has one. -/
theorem exists_first {d s : List α} (h : ¬ Nameless d s) :
    ∃ t n v, s = t ++ (d ++ (n ++ (d ++ v))) ∧ Clean d t ∧ Clean d n := by
  classical
  have hex : ∃ k, ∃ t n v, t.length = k ∧ s = t ++ (d ++ (n ++ (d ++ v))) := by
    simp only [Nameless, not_forall, not_not] at h
    obtain ⟨t, n, v, hs⟩ := h
    exact ⟨t.length, t, n, v, rfl, hs⟩
  obtain ⟨t, n₀, v₀, htlen, hs₀⟩ := Nat.find_spec hex
  have htmin : ∀ t' n' v', s = t' ++ (d ++ (n' ++ (d ++ v'))) → t.length ≤ t'.length := by
    intro t' n' v' hs'
    rw [htlen]
    exact Nat.find_min' hex ⟨t', n', v', rfl, hs'⟩
  have hex' : ∃ k, ∃ n v, n.length = k ∧ s = t ++ (d ++ (n ++ (d ++ v))) := ⟨_, n₀, v₀, rfl, hs₀⟩
  obtain ⟨n, v, hnlen, hs⟩ := Nat.find_spec hex'
  have hnmin : ∀ n' v', s = t ++ (d ++ (n' ++ (d ++ v'))) → n.length ≤ n'.length := by
    intro n' v' hs'
    rw [hnlen]
    exact Nat.find_min' hex' ⟨n', v', rfl, hs'⟩
  refine ⟨t, n, v, hs, fun u w huw => ?_, fun u w huw => ?_⟩
  · -- an earlier delimiter would be the beginning of an earlier name
    have hearlier := htmin u (w ++ n) v (by
      rw [hs, ← List.append_assoc t, huw]
      simp only [List.append_assoc])
    have hlen := congrArg List.length huw
    simp only [List.length_append] at hlen
    exact List.length_eq_zero_iff.1 (by omega)
  · -- and of a shorter one
    have hshorter := hnmin u (w ++ v) (by
      rw [hs, ← List.append_assoc n, huw]
      simp only [List.append_assoc])
    have hlen := congrArg List.length huw
    simp only [List.length_append] at hlen
    exact List.length_eq_zero_iff.1 (by omega)

/-- **Every text is made of pieces and names.** -/
theorem exists_reading {d : List α} (hd : d ≠ []) (s : List α) :
    ∃ page tail, Reading d page tail ∧ s = source d page tail := by
  classical
  induction hlen : s.length using Nat.strong_induction_on generalizing s with
  | _ k ih =>
    by_cases h : Nameless d s
    · exact ⟨[], s, ⟨fun _ hx => absurd hx List.not_mem_nil, fun _ hx => absurd hx List.not_mem_nil, h⟩, rfl⟩
    · obtain ⟨t, n, v, rfl, ht, hn⟩ := exists_first h
      have hdpos : 0 < d.length := List.length_pos_of_ne_nil hd
      simp only [List.length_append] at hlen
      obtain ⟨page, tail, hp, hv⟩ := ih v.length (by omega) v rfl
      refine ⟨⟨t, n⟩ :: page, tail, ⟨List.forall_mem_cons.2 ⟨ht, hp.text⟩,
        List.forall_mem_cons.2 ⟨hn, hp.name⟩, hp.tail⟩, ?_⟩
      rw [source, ← hv]

/-- Where the first delimiter begins is determined. -/
theorem Clean.append_inj {d t t' s s' : List α} (ht : Clean d t) (ht' : Clean d t')
    (h : t ++ (d ++ s) = t' ++ (d ++ s')) : t = t' ∧ s = s' := by
  have hle : ∀ {t t' s s' : List α}, Clean d t' → t ++ (d ++ s) = t' ++ (d ++ s') → ¬ t.length < t'.length := by
    intro t t' s s' ht' h hlt
    obtain ⟨w, hw⟩ := List.prefix_of_prefix_length_le (List.prefix_append t (d ++ s))
      (h ▸ List.prefix_append t' (d ++ s')) hlt.le
    have hne : w ≠ [] := by
      rintro rfl
      rw [List.append_nil] at hw
      exact absurd hlt (by rw [hw]; exact lt_irrefl _)
    refine ht'.not_prefix hw.symm hne s' ⟨s, ?_⟩
    rw [← hw, List.append_assoc] at h
    exact List.append_cancel_left h
  have hlen : t.length = t'.length := le_antisymm (not_lt.1 (hle ht h.symm)) (not_lt.1 (hle ht' h))
  obtain ⟨rfl, hrest⟩ := List.append_inj h hlen
  exact ⟨rfl, List.append_cancel_left hrest⟩

/-- **A text is written in one way.** -/
theorem Reading.unique {d : List α} {page page' : List (Segment α)} {tail tail' : List α}
    (h : Reading d page tail) (h' : Reading d page' tail')
    (heq : source d page tail = source d page' tail') : page = page' ∧ tail = tail' := by
  induction page generalizing page' with
  | nil =>
    cases page' with
    | nil => exact ⟨rfl, heq⟩
    | cons x page' => exact absurd heq (h.tail _ _ _)
  | cons x page ih =>
    cases page' with
    | nil => exact absurd heq.symm (h'.tail _ _ _)
    | cons x' page' =>
      obtain ⟨htext, htexts⟩ := List.forall_mem_cons.1 h.text
      obtain ⟨hname, hnames⟩ := List.forall_mem_cons.1 h.name
      obtain ⟨htext', htexts'⟩ := List.forall_mem_cons.1 h'.text
      obtain ⟨hname', hnames'⟩ := List.forall_mem_cons.1 h'.name
      rw [source, source] at heq
      obtain ⟨ht, heq⟩ := htext.append_inj htext' heq
      obtain ⟨hn, heq⟩ := hname.append_inj hname' heq
      obtain ⟨rfl, rfl⟩ := ih ⟨htexts, hnames, h.tail⟩ ⟨htexts', hnames', h'.tail⟩ heq
      obtain ⟨text, name⟩ := x
      obtain ⟨text', name'⟩ := x'
      obtain rfl : text = text' := ht
      obtain rfl : name = name' := hn
      exact ⟨rfl, rfl⟩

end ZRouter.Template
