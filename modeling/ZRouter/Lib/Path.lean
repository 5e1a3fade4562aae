import Mathlib

/-!
# Paths with `.` and `..`

A path is a list of components: names, `..`, and components that mean nothing (`.` and empty ones).
Resolving it gives some number of steps up and then names.

* `Component`, `Resolved`, `resolve`;
* `height l`: names less steps up;
* `under_iff_stays`: the result of walking on from the directory `root` lies in `root` exactly when
  the walk never goes above it, or comes back into it for good.
-/

namespace ZRouter.Walk

variable {α : Type*}

/-- A component of a path. -/
inductive Component (α : Type*)
  | skip
  | up
  | name (a : α)
  deriving DecidableEq

/-- A resolved path: steps up from the working directory, then names, the last one first. -/
structure Resolved (α : Type*) where
  ups : ℕ
  names : List α

/-- One more component. -/
def Resolved.walk (r : Resolved α) : Component α → Resolved α
  | .skip => r
  | .up => match r.names with
    | [] => ⟨r.ups + 1, []⟩
    | _ :: names => ⟨r.ups, names⟩
  | .name a => ⟨r.ups, a :: r.names⟩

/-- The path that some components lead to. -/
def resolve (r : Resolved α) (l : List (Component α)) : Resolved α := l.foldl Resolved.walk r

/-- The path starts with `root`. -/
def Resolved.Under (root : α) (r : Resolved α) : Prop := r.ups = 0 ∧ r.names.getLast? = some root

/-- By how much a component goes down. -/
def Component.height : Component α → ℤ
  | .skip => 0
  | .up => -1
  | .name _ => 1

/-- Names less steps up. -/
def height (l : List (Component α)) : ℤ := (l.map Component.height).sum

@[simp] theorem height_nil : height ([] : List (Component α)) = 0 := rfl

@[simp] theorem height_append (l m : List (Component α)) : height (l ++ m) = height l + height m := by
  simp [height]

@[simp] theorem height_cons (c : Component α) (l : List (Component α)) :
    height (c :: l) = c.height + height l := by
  simp [height]

/-- The walk never gets lower than `k` below where it starts. -/
def Above (k : ℤ) (l : List (Component α)) : Prop := ∀ p, p <+: l → -k ≤ height p

/-- The walk never goes above `root`; or it does by one step, comes back by name, and stays. -/
def Stays (root : α) (l : List (Component α)) : Prop :=
  Above 0 l ∨ ∃ a b, l = a ++ .name root :: b ∧ Above 1 a ∧ height a = -1 ∧ Above 0 b

/-! ### The walk -/

theorem resolve_append (r : Resolved α) (l m : List (Component α)) :
    resolve r (l ++ m) = resolve (resolve r l) m := by
  simp [resolve]

theorem resolve_concat (r : Resolved α) (l : List (Component α)) (c : Component α) :
    resolve r (l ++ [c]) = (resolve r l).walk c := by
  simp [resolve]

theorem above_cons {k : ℤ} {c : Component α} {l : List (Component α)} (h : Above k (c :: l)) :
    Above (k + c.height) l := by
  intro p hp
  have := h (c :: p) ((List.prefix_cons_inj c).2 hp)
  rw [height_cons] at this
  omega

/-- A walk that does not go below the names `st` leaves what is under them alone. -/
theorem resolve_base {u : ℕ} {base : List α} (l : List (Component α)) (st : List α)
    (h : Above st.length l) :
    ∃ st', resolve ⟨u, st ++ base⟩ l = ⟨u, st' ++ base⟩ ∧ st'.length = st.length + height l := by
  induction l generalizing st with
  | nil => exact ⟨st, rfl, by simp⟩
  | cons c l ih =>
    have htail := above_cons h
    cases c with
    | skip =>
      obtain ⟨st', hst, hlen⟩ := ih st (by simpa [Component.height] using htail)
      exact ⟨st', hst, by simpa [Component.height] using hlen⟩
    | name a =>
      obtain ⟨st', hst, hlen⟩ := ih (a :: st) (by simpa [Component.height] using htail)
      refine ⟨st', hst, ?_⟩
      simp only [List.length_cons, Nat.cast_add, Nat.cast_one] at hlen
      simp only [height_cons, Component.height]
      omega
    | up =>
      have hone := h [.up] (by simp)
      cases st with
      | nil => simp [Component.height] at hone
      | cons a st =>
        obtain ⟨st', hst, hlen⟩ := ih st (by simpa [Component.height] using htail)
        refine ⟨st', hst, ?_⟩
        simp only [height_cons, Component.height, List.length_cons, Nat.cast_add, Nat.cast_one]
        omega

/-- The end of a walk that went up no further than the working directory. -/
theorem height_of_ups {root : α} (l : List (Component α)) (h : (resolve ⟨0, [root]⟩ l).ups = 0) :
    Above 1 l ∧ ((resolve ⟨0, [root]⟩ l).names.length : ℤ) = height l + 1 := by
  induction l using List.reverseRecOn with
  | nil =>
    refine ⟨fun p hp => ?_, rfl⟩
    rw [List.prefix_nil.1 hp]
    simp
  | append_singleton l c ih =>
    rw [resolve_concat] at h ⊢
    have hups : (resolve ⟨0, [root]⟩ l).ups = 0 := by
      cases c with
      | skip => exact h
      | name a => exact h
      | up =>
        cases hn : (resolve ⟨0, [root]⟩ l).names with
        | nil => simp [Resolved.walk, hn] at h
        | cons a names => simpa [Resolved.walk, hn] using h
    obtain ⟨habove, hlen⟩ := ih hups
    -- the length follows the height
    have hlen' : (((resolve ⟨0, [root]⟩ l).walk c).names.length : ℤ) = height (l ++ [c]) + 1 := by
      cases c with
      | skip => simpa [Resolved.walk, Component.height] using hlen
      | name a =>
        simp only [Resolved.walk, List.length_cons, Nat.cast_add, Nat.cast_one, height_append,
          height_cons, height_nil, Component.height]
        omega
      | up =>
        cases hn : (resolve ⟨0, [root]⟩ l).names with
        | nil => simp [Resolved.walk, hn] at h
        | cons a names =>
          simp only [hn, List.length_cons, Nat.cast_add, Nat.cast_one] at hlen
          simp only [Resolved.walk, hn, height_append, height_cons, height_nil, Component.height]
          omega
    refine ⟨fun p hp => ?_, hlen'⟩
    rcases List.prefix_concat_iff.1 hp with rfl | hp
    · omega
    · exact habove p hp

theorem above_concat {k : ℤ} {l : List (Component α)} {c : Component α} (h : Above k l)
    (hc : -k ≤ height l + c.height) : Above k (l ++ [c]) := by
  intro p hp
  rcases List.prefix_concat_iff.1 hp with rfl | hp
  · simpa using hc
  · exact h p hp

/-- A walk that stays goes on staying if it does not leave with the next step. -/
theorem stays_concat {root : α} {l : List (Component α)} {c : Component α} (h : Stays root l)
    (hc : 0 ≤ height l + c.height) : Stays root (l ++ [c]) := by
  rcases h with h | ⟨a, b, rfl, ha, hh, hb⟩
  · exact Or.inl (above_concat h (by simpa using hc))
  · refine Or.inr ⟨a, b ++ [c], by simp, ha, hh, above_concat hb ?_⟩
    have hname : (Component.name root).height = 1 := rfl
    rw [height_append, height_cons, hh, hname] at hc
    omega

/-- **Where a walk from `root` ends.** -/
theorem under_iff_stays (root : α) (l : List (Component α)) :
    (resolve ⟨0, [root]⟩ l).Under root ↔ Stays root l := by
  constructor
  · induction l using List.reverseRecOn with
    | nil =>
      intro _
      refine Or.inl fun p hp => ?_
      rw [List.prefix_nil.1 hp]
      simp
    | append_singleton l c ih =>
      rw [resolve_concat]
      rintro ⟨hups, hlast⟩
      cases c with
      | skip =>
        have hl := (height_of_ups l hups).2
        have hne : (resolve ⟨0, [root]⟩ l).names ≠ [] := by
          intro hnil
          simp [Resolved.walk, hnil] at hlast
        have hpos := List.length_pos_of_ne_nil hne
        exact stays_concat (ih ⟨hups, hlast⟩) (by simp only [Component.height]; omega)
      | name a =>
        obtain ⟨habove, hlen⟩ := height_of_ups l hups
        cases hn : (resolve ⟨0, [root]⟩ l).names with
        | nil =>
          -- the walk has just come back
          have ha : a = root := by simpa [Resolved.walk, hn] using hlast
          subst ha
          refine Or.inr ⟨l, [], rfl, habove, ?_, fun p hp => ?_⟩
          · rw [hn, List.length_nil] at hlen
            simp only [Nat.cast_zero] at hlen
            omega
          · rw [List.prefix_nil.1 hp]
            simp
        | cons b names =>
          have hlast' : (resolve ⟨0, [root]⟩ l).names.getLast? = some root := by
            rw [hn]
            simpa [Resolved.walk, hn] using hlast
          rw [hn, List.length_cons] at hlen
          push_cast at hlen
          exact stays_concat (ih ⟨hups, hlast'⟩) (by simp only [Component.height]; omega)
      | up =>
        cases hn : (resolve ⟨0, [root]⟩ l).names with
        | nil => simp [Resolved.walk, hn] at hups
        | cons b names =>
          have hups' : (resolve ⟨0, [root]⟩ l).ups = 0 := by simpa [Resolved.walk, hn] using hups
          have hlast' : names.getLast? = some root := by simpa [Resolved.walk, hn] using hlast
          have hne : names ≠ [] := by
            rintro rfl
            simp at hlast'
          have hlen := (height_of_ups l hups').2
          have hpos := List.length_pos_of_ne_nil hne
          rw [hn, List.length_cons] at hlen
          push_cast at hlen
          have hin : (resolve ⟨0, [root]⟩ l).names.getLast? = some root := by
            obtain ⟨x, t, rfl⟩ := List.exists_cons_of_ne_nil hne
            rw [hn]
            simpa using hlast'
          exact stays_concat (ih ⟨hups', hin⟩) (by simp only [Component.height]; omega)
  · have hbase : ∀ m, Above 0 m → (resolve ⟨0, [root]⟩ m).Under root := by
      intro m hm
      obtain ⟨st, hst, -⟩ := @resolve_base α 0 [root] m [] (by simpa using hm)
      rw [List.nil_append] at hst
      rw [hst]
      exact ⟨rfl, by simp⟩
    rintro (h | ⟨a, b, rfl, ha, hh, hb⟩)
    · exact hbase l h
    · obtain ⟨st, hst, hlen⟩ := @resolve_base α 0 [] a [root] (by simpa using ha)
      have hnil : st = [] := by
        rw [hh] at hlen
        simpa using hlen
      rw [List.append_nil, hnil] at hst
      rw [resolve_append, hst]
      exact hbase b hb

end ZRouter.Walk
