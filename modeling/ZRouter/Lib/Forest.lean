import Mathlib

/-!
# Ordered forests and their merging

A forest is a list of trees: the label of the first one, what is below it, and the trees behind it.
Merging a forest into another one acts, for each of its trees, on the first tree with the same key,
or on a new one at the end.

* `Forest`, `Forest.map`, `Forest.append`, `Forest.keep`, `Forest.kidsOf`, `Forest.All`;
* `Forest.upsert`: acting on the first tree with a key;
* `Merging`, `Merging.merge`, with `Merging.map_merge`;
* `overlay`: keys with values, of which the last one counts;
* `overlay_again_iff`: when a merged forest can be merged again and changes nothing.
-/

namespace ZRouter

variable {α β γ α' γ' ω : Type}

/-- The first tree, with its label and what is below it, and the trees behind it. -/
inductive Forest (α : Type)
  | nil
  | cons (a : α) (kids next : Forest α)
  deriving DecidableEq

namespace Forest

/-- Other labels. -/
def map (f : α → α') : Forest α → Forest α'
  | nil => nil
  | cons a kids next => cons (f a) (kids.map f) (next.map f)

/-- The trees of one forest and those of another behind them. -/
def append : Forest α → Forest α → Forest α
  | nil, G => G
  | cons a kids next, G => cons a kids (next.append G)

/-- The number of labels. -/
def size : Forest α → ℕ
  | nil => 0
  | cons _ kids next => kids.size + next.size + 1

/-- Every label has the property. -/
def All (P : α → Prop) : Forest α → Prop
  | nil => True
  | cons a kids next => P a ∧ kids.All P ∧ next.All P

instance All.decidable {P : α → Prop} [DecidablePred P] : (F : Forest α) → Decidable (F.All P)
  | nil => isTrue trivial
  | cons a kids next =>
      have := All.decidable (P := P) kids
      have := All.decidable (P := P) next
      inferInstanceAs (Decidable (P a ∧ kids.All P ∧ next.All P))

section Key

variable (key : α → β)

/-- The trees whose keys pass. -/
def keep (p : β → Bool) : Forest α → Forest α
  | nil => nil
  | cons a kids next => if p (key a) then cons a kids (next.keep p) else next.keep p

variable [DecidableEq β]

/-- What is below the trees with a key. -/
def kidsOf (b : β) : Forest α → Forest α
  | nil => nil
  | cons a kids next => if key a = b then kids.append (next.kidsOf b) else next.kidsOf b

/-- `f` on the label of the first tree with the key `b`, and `g` on what is below it; without one
there is a new tree at the end. -/
def upsert (b : β) (new : α) (f : α → α) (g : Forest α → Forest α) : Forest α → Forest α
  | nil => cons (f new) (g nil) nil
  | cons a kids next => if key a = b then cons (f a) (g kids) next else cons a kids (next.upsert b new f g)

end Key

@[simp] theorem append_nil (F : Forest α) : F.append nil = F := by
  induction F with
  | nil => rfl
  | cons a kids next _ ih => rw [append, ih]

theorem append_assoc (F G H : Forest α) : (F.append G).append H = F.append (G.append H) := by
  induction F with
  | nil => rfl
  | cons a kids next _ ih => rw [append, append, append, ih]

@[simp] theorem map_append (f : α → α') (F G : Forest α) :
    (F.append G).map f = (F.map f).append (G.map f) := by
  induction F with
  | nil => rfl
  | cons a kids next _ ih => rw [append, map, ih, map, append]

theorem map_map {α'' : Type} (f : α → α') (g : α' → α'') (F : Forest α) :
    (F.map f).map g = F.map (g ∘ f) := by
  induction F with
  | nil => rfl
  | cons a kids next ihk ihn => rw [map, map, map, ihk, ihn, Function.comp_apply]

theorem map_eq_self {f : α → α} (h : ∀ a, f a = a) (F : Forest α) : F.map f = F := by
  induction F with
  | nil => rfl
  | cons a kids next ihk ihn => rw [map, h, ihk, ihn]

theorem all_map {P : α' → Prop} {f : α → α'} {F : Forest α} :
    (F.map f).All P ↔ F.All fun a => P (f a) := by
  induction F with
  | nil => rfl
  | cons a kids next ihk ihn => rw [map, All, All, ihk, ihn]

theorem All.imp {P Q : α → Prop} (h : ∀ a, P a → Q a) {F : Forest α} (hF : F.All P) : F.All Q := by
  induction F with
  | nil => trivial
  | cons a kids next ihk ihn => exact ⟨h a hF.1, ihk hF.2.1, ihn hF.2.2⟩

theorem All.and {P Q : α → Prop} {F : Forest α} (hP : F.All P) (hQ : F.All Q) :
    F.All fun a => P a ∧ Q a := by
  induction F with
  | nil => trivial
  | cons a kids next ihk ihn => exact ⟨⟨hP.1, hQ.1⟩, ihk hP.2.1 hQ.2.1, ihn hP.2.2 hQ.2.2⟩

section Key

variable {key : α → β}

theorem keep_append (p : β → Bool) (F G : Forest α) :
    (F.append G).keep key p = (F.keep key p).append (G.keep key p) := by
  induction F with
  | nil => rfl
  | cons a kids next _ ih =>
    rw [append, keep, keep, ih]
    split_ifs <;> rfl

theorem keep_keep (p q : β → Bool) (F : Forest α) :
    (F.keep key p).keep key q = F.keep key fun b => p b && q b := by
  induction F with
  | nil => rfl
  | cons a kids next _ ih =>
    rw [keep, keep]
    by_cases hp : p (key a) = true <;> by_cases hq : q (key a) = true <;> simp [hp, hq, keep, ih]

theorem keep_keep_self (p : β → Bool) (F : Forest α) :
    (F.keep key p).keep key p = F.keep key p := by
  rw [keep_keep]
  simp only [Bool.and_self]

theorem keep_true (F : Forest α) : F.keep key (fun _ => true) = F := by
  induction F with
  | nil => rfl
  | cons a kids next _ ih => rw [keep, if_pos rfl, ih]

theorem size_keep_le (key : α → β) (p : β → Bool) (F : Forest α) : (F.keep key p).size ≤ F.size := by
  induction F with
  | nil => exact le_rfl
  | cons a kids next _ ih =>
    rw [keep]
    split_ifs <;> simp only [size] <;> omega

/-- A tree that is kept when nothing is dropped. -/
theorem keep_eq_cons {p : β → Bool} {a : α} {kids next : Forest α}
    (h : (cons a kids next).keep key p = cons a kids next) :
    p (key a) = true ∧ next.keep key p = next := by
  rw [keep] at h
  by_cases hp : p (key a) = true
  · rw [if_pos hp] at h
    injection h with _ _ h
    exact ⟨hp, h⟩
  · rw [if_neg hp] at h
    have := size_keep_le key p next
    rw [h] at this
    simp only [size] at this
    omega

theorem keep_keep_of_keep {p : β → Bool} {F : Forest α} (h : F.keep key p = F) (q : β → Bool) :
    (F.keep key q).keep key (fun b => p b && q b) = F.keep key q := by
  conv_rhs => rw [← h, keep_keep]
  conv_lhs => rw [← h, keep_keep, keep_keep]
  congr 1
  funext b
  cases p b <;> cases q b <;> rfl

variable [DecidableEq β]

/-- Without a key that does not pass, nothing is dropped. -/
theorem keep_ne_of_keep {p : β → Bool} {F : Forest α} (h : F.keep key p = F) {b : β}
    (hb : p b = false) : F.keep key (· ≠ b) = F := by
  conv_rhs => rw [← h]
  conv_lhs => rw [← h, keep_keep]
  congr 1
  funext c
  by_cases hc : c = b
  · rw [hc, hb]
    rfl
  · simp [hc]

theorem kidsOf_eq_nil {b : β} {F : Forest α} (h : F.keep key (· ≠ b) = F) :
    F.kidsOf key b = nil := by
  induction F with
  | nil => rfl
  | cons a kids next _ ih =>
    obtain ⟨ha, hnext⟩ := keep_eq_cons h
    rw [kidsOf, if_neg (by simpa using ha), ih hnext]

theorem size_append (F G : Forest α) : (F.append G).size = F.size + G.size := by
  induction F with
  | nil => rw [append, size, Nat.zero_add]
  | cons a kids next _ ih =>
    rw [append, size, size, ih]
    omega

theorem size_kidsOf_le (key : α → β) (b : β) (F : Forest α) : (F.kidsOf key b).size ≤ F.size := by
  induction F with
  | nil => exact le_rfl
  | cons a kids next _ ih =>
    rw [kidsOf]
    split_ifs <;> simp only [size, size_append] <;> omega

/-- The tree that is acted on, behind trees with other keys. -/
theorem upsert_append {b : β} {new : α} {f : α → α} {g : Forest α → Forest α} {F : Forest α}
    (hF : F.keep key (· ≠ b) = F) (G : Forest α) :
    (F.append G).upsert key b new f g = F.append (G.upsert key b new f g) := by
  induction F with
  | nil => rfl
  | cons a kids next _ ih =>
    obtain ⟨ha, hnext⟩ := keep_eq_cons hF
    rw [append, upsert, if_neg (by simpa using ha), ih hnext, append]

end Key

end Forest

/-! ### Merging -/

/-- How a tree with a label in `γ` acts on one with a label in `α`. -/
structure Merging (α β γ : Type) where
  key : α → β
  tag : γ → β
  new : γ → α
  act : γ → α → α
  key_new : ∀ e, key (new e) = tag e
  key_act : ∀ e a, key (act e a) = key a

namespace Merging

open Forest

variable [DecidableEq β] (M : Merging α β γ)

/-- The trees of one forest, one after the other, are merged into another forest. -/
def merge : Forest γ → Forest α → Forest α
  | .nil, F => F
  | .cons e kids next, F =>
      merge next (F.upsert M.key (M.tag e) (M.new e) (M.act e) (merge kids))

theorem merge_append (E E' : Forest γ) (F : Forest α) :
    M.merge (E.append E') F = M.merge E' (M.merge E F) := by
  induction E generalizing F with
  | nil => rfl
  | cons e kids next _ ih => rw [append, merge, ih, merge]

/-- Labels may be looked at through functions that keep the keys and the actions. -/
theorem map_merge {M : Merging α β γ} {M' : Merging α' β γ'} {φ : α → α'} {ψ : γ → γ'}
    (hkey : ∀ a, M'.key (φ a) = M.key a) (htag : ∀ e, M'.tag (ψ e) = M.tag e)
    (hnew : ∀ e, M'.new (ψ e) = φ (M.new e)) (hact : ∀ e a, M'.act (ψ e) (φ a) = φ (M.act e a))
    (E : Forest γ) (F : Forest α) : (M.merge E F).map φ = M'.merge (E.map ψ) (F.map φ) := by
  have hupsert : ∀ (e : γ) (g : Forest α → Forest α) (g' : Forest α' → Forest α'),
      (∀ F, (g F).map φ = g' (F.map φ)) → ∀ F : Forest α,
      (F.upsert M.key (M.tag e) (M.new e) (M.act e) g).map φ =
        (F.map φ).upsert M'.key (M'.tag (ψ e)) (M'.new (ψ e)) (M'.act (ψ e)) g' := by
    intro e g g' hg F
    induction F with
    | nil => simp only [upsert, Forest.map, hg, hnew, hact]
    | cons a kids next _ ih =>
      rw [Forest.map, upsert, upsert, hkey, htag]
      split_ifs
      · rw [Forest.map, hg, hact]
      · rw [Forest.map, ih, htag]
  induction E generalizing F with
  | nil => rfl
  | cons e kids next ihk ihn => rw [merge, ihn, hupsert e _ _ ihk, Forest.map, merge]

/-- What all labels have, all labels of the merged forest have. -/
theorem all_merge {P : α → Prop} {Q : γ → Prop} (hnew : ∀ e, Q e → P (M.act e (M.new e)))
    (hact : ∀ e a, Q e → P a → P (M.act e a)) {E : Forest γ} (hE : E.All Q) {F : Forest α}
    (hF : F.All P) : (M.merge E F).All P := by
  have hupsert : ∀ e, Q e → ∀ g : Forest α → Forest α, (∀ F, F.All P → (g F).All P) →
      ∀ F : Forest α, F.All P → (F.upsert M.key (M.tag e) (M.new e) (M.act e) g).All P := by
    intro e he g hg F hF
    induction F with
    | nil => exact ⟨hnew e he, hg _ trivial, trivial⟩
    | cons a kids next _ ih =>
      rw [upsert]
      split_ifs
      · exact ⟨hact e a he hF.1, hg _ hF.2.1, hF.2.2⟩
      · exact ⟨hF.1, hF.2.1, ih hF.2.2⟩
  induction E generalizing F with
  | nil => exact hF
  | cons e kids next ihk ihn =>
    exact ihn hE.2.2 (hupsert e hE.1 _ (fun F hF => ihk hE.2.1 hF) F hF)

end Merging

/-! ### Keys with values -/

section Overlay

open Forest

/-- A value that is given takes the place of the one before. -/
def overlay (β ω : Type) : Merging (β × Option ω) β (β × Option ω) where
  key := Prod.fst
  tag := Prod.fst
  new e := (e.1, none)
  act e a := (a.1, e.2.or a.2)
  key_new _ := rfl
  key_act _ _ := rfl

namespace Forest

/-- The path is there. -/
def Has : Forest (β × Option ω) → List β → Prop
  | nil, _ => False
  | cons _ _ _, [] => False
  | cons a kids next, b :: p => (a.1 = b ∧ (p = [] ∨ kids.Has p)) ∨ next.Has (b :: p)

variable {E E' F G : Forest (β × Option ω)} {b c : β} {p : List β}

@[simp] theorem not_has_nil : ¬ F.Has [] := by
  cases F <;> exact fun h => h

theorem has_append : (F.append G).Has p ↔ F.Has p ∨ G.Has p := by
  cases p with
  | nil => simp
  | cons b p =>
    induction F with
    | nil => simp [append, Has]
    | cons a kids next _ ih => rw [append, Has, Has, ih, or_assoc]

variable [DecidableEq β]

/-- The last value that is given for a path. -/
def given : Forest (β × Option ω) → List β → Option ω
  | nil, _ => none
  | cons _ _ _, [] => none
  | cons a kids next, b :: p =>
      (next.given (b :: p)).or (if a.1 = b then if p = [] then a.2 else kids.given p else none)

/-- The label at a path; at each step the first tree with the key is taken. -/
def look : Forest (β × Option ω) → List β → Option (β × Option ω)
  | nil, _ => none
  | cons _ _ _, [] => none
  | cons a kids next, b :: p =>
      if a.1 = b then if p = [] then some a else kids.look p else next.look (b :: p)

/-- Each path of `E` leads to a label of `F`, with the last value that `E` gives for the path. -/
def Agrees (F E : Forest (β × Option ω)) : Prop :=
  ∀ p, E.Has p → ∃ a, F.look p = some a ∧ a.2 = E.given p

theorem given_append : (F.append G).given p = (G.given p).or (F.given p) := by
  cases p with
  | nil => cases F <;> cases G <;> rfl
  | cons b p =>
    induction F with
    | nil => simp [append, given]
    | cons a kids next _ ih => rw [append, given, given, ih, Option.or_assoc]

/-- A value is given for a path that is there. -/
theorem given_eq_none (h : ¬ E.Has p) : E.given p = none := by
  induction E generalizing p with
  | nil => rfl
  | cons a kids next ihk ihn =>
    cases p with
    | nil => rfl
    | cons b p =>
      rw [Has, not_or, not_and_or, not_or] at h
      rw [given, ihn h.2, Option.none_or]
      split_ifs with ha hp
      · exact absurd hp (h.1.resolve_left (not_not.2 ha)).1
      · exact ihk (h.1.resolve_left (not_not.2 ha)).2
      · rfl

theorem has_kidsOf : E.Has (b :: p) ↔ (p = [] ∧ E.Has [b]) ∨ (E.kidsOf Prod.fst b).Has p := by
  induction E with
  | nil => simp [Has, kidsOf]
  | cons a kids next _ ih =>
    rw [Has, Has, ih, kidsOf]
    by_cases ha : a.1 = b
    · rw [if_pos ha, has_append]
      simp only [ha, true_and, true_or, and_true]
      tauto
    · rw [if_neg ha]
      simp [ha]

theorem given_kidsOf (hp : p ≠ []) : E.given (b :: p) = (E.kidsOf Prod.fst b).given p := by
  induction E with
  | nil => rfl
  | cons a kids next _ ih =>
    rw [given, ih, kidsOf]
    by_cases ha : a.1 = b
    · rw [if_pos ha, if_pos ha, if_neg hp, given_append]
    · rw [if_neg ha, if_neg ha, Option.or_none]

theorem has_keep_ne : (E.keep Prod.fst (· ≠ b)).Has (c :: p) ↔ c ≠ b ∧ E.Has (c :: p) := by
  induction E with
  | nil => simp [keep, Has]
  | cons a kids next _ ih =>
    rw [keep]
    by_cases ha : a.1 = b
    · rw [if_neg (by simp [ha]), ih, Has]
      refine and_congr_right fun hc => ?_
      simp [ha, Ne.symm hc]
    · rw [if_pos (by simp [ha]), Has, Has, ih]
      constructor
      · rintro (⟨rfl, h⟩ | ⟨hc, h⟩)
        · exact ⟨ha, Or.inl ⟨rfl, h⟩⟩
        · exact ⟨hc, Or.inr h⟩
      · rintro ⟨hc, h⟩
        exact h.imp id fun h => ⟨hc, h⟩

theorem given_keep_ne (hc : c ≠ b) :
    (E.keep Prod.fst (· ≠ b)).given (c :: p) = E.given (c :: p) := by
  induction E with
  | nil => rfl
  | cons a kids next _ ih =>
    rw [keep]
    by_cases ha : a.1 = b
    · have hac : a.1 ≠ c := by rw [ha]; exact hc.symm
      rw [if_neg (by simp [ha]), ih, given, if_neg hac, Option.or_none]
    · rw [if_pos (by simp [ha]), given, given, ih]

/-- Agreement, for the first tree and for the others. -/
theorem agrees_cons {v : Option ω} {kids next : Forest (β × Option ω)} (hb : E.Has [b]) :
    Agrees (cons (b, v) kids next) E ↔
      v = E.given [b] ∧ Agrees kids (E.kidsOf Prod.fst b) ∧ Agrees next (E.keep Prod.fst (· ≠ b)) := by
  have hlook : ∀ c p, (cons (b, v) kids next).look (c :: p) =
      if b = c then if p = [] then some (b, v) else kids.look p else next.look (c :: p) :=
    fun _ _ => rfl
  constructor
  · intro h
    refine ⟨?_, fun p hp => ?_, fun p hp => ?_⟩
    · obtain ⟨a, ha, hv⟩ := h [b] hb
      rw [hlook, if_pos rfl, if_pos rfl] at ha
      rw [← hv, ← Option.some.inj ha]
    · have hne : p ≠ [] := by
        rintro rfl
        exact not_has_nil hp
      obtain ⟨a, ha, hv⟩ := h (b :: p) (has_kidsOf.2 (Or.inr hp))
      rw [hlook, if_pos rfl, if_neg hne] at ha
      rw [given_kidsOf hne] at hv
      exact ⟨a, ha, hv⟩
    · cases p with
      | nil => exact absurd hp not_has_nil
      | cons c p =>
        obtain ⟨hc, hp⟩ := has_keep_ne.1 hp
        obtain ⟨a, ha, hv⟩ := h (c :: p) hp
        rw [hlook, if_neg hc.symm] at ha
        refine ⟨a, ha, ?_⟩
        rw [hv, given_keep_ne hc]
  · rintro ⟨hv, hkids, hnext⟩ p hp
    cases p with
    | nil => exact absurd hp not_has_nil
    | cons c p =>
      by_cases hc : b = c
      · subst hc
        rw [hlook, if_pos rfl]
        by_cases hne : p = []
        · subst hne
          exact ⟨_, if_pos rfl, hv⟩
        · rw [if_neg hne, given_kidsOf hne]
          exact hkids p ((has_kidsOf.1 hp).resolve_left fun h => hne h.1)
      · rw [hlook, if_neg hc, ← given_keep_ne (Ne.symm hc)]
        exact hnext (c :: p) (has_keep_ne.2 ⟨Ne.symm hc, hp⟩)

/-- Agreement, where the first tree has another key than all of `E`. -/
theorem agrees_cons_of_not_has {v : Option ω} {kids next : Forest (β × Option ω)}
    (hb : E.keep Prod.fst (· ≠ b) = E) : Agrees (cons (b, v) kids next) E ↔ Agrees next E := by
  have hne : ∀ c p, E.Has (c :: p) → b ≠ c := by
    intro c p hp
    rw [← hb, has_keep_ne] at hp
    exact hp.1.symm
  refine forall_congr' fun p => imp_congr_right fun hp => ?_
  cases p with
  | nil => exact absurd hp not_has_nil
  | cons c p => rw [look, if_neg (hne c p hp)]

end Forest

variable [DecidableEq β]

/-- Merging acts on the first tree with all trees that have its key, and on the others with the rest. -/
theorem overlay_merge_cons (E kids next : Forest (β × Option ω)) (b : β) (v : Option ω) :
    (overlay β ω).merge E (cons (b, v) kids next) =
      cons (b, (E.given [b]).or v) ((overlay β ω).merge (E.kidsOf Prod.fst b) kids)
        ((overlay β ω).merge (E.keep Prod.fst (· ≠ b)) next) := by
  induction E generalizing v kids next with
  | nil => rfl
  | cons e es rest _ ih =>
    obtain ⟨c, w⟩ := e
    have hupsert : ∀ g, (cons (b, v) kids next).upsert (overlay β ω).key c (c, none)
        ((overlay β ω).act (c, w)) g = if b = c then cons (b, w.or v) (g kids) next
          else cons (b, v) kids (next.upsert (overlay β ω).key c (c, none)
            ((overlay β ω).act (c, w)) g) := fun _ => rfl
    change (overlay β ω).merge rest ((cons (b, v) kids next).upsert (overlay β ω).key c (c, none)
        ((overlay β ω).act (c, w)) ((overlay β ω).merge es)) = _
    rw [hupsert]
    by_cases hc : b = c
    · subst hc
      have hgiven : (cons (b, w) es rest).given [b] = (rest.given [b]).or w := by simp [given]
      rw [if_pos rfl, ih, hgiven, kidsOf, if_pos rfl, keep, if_neg (by simp),
        Merging.merge_append, Option.or_assoc]
    · have hcb : c ≠ b := Ne.symm hc
      have hgiven : (cons (c, w) es rest).given [b] = rest.given [b] := by simp [given, hcb]
      rw [if_neg hc, ih, hgiven, kidsOf, if_neg hcb, keep, if_pos (by simpa using hcb),
        Merging.merge]
      rfl

/-- A new tree, at first without a value. -/
theorem overlay_merge_nil (E kids : Forest (β × Option ω)) (b : β) (v : Option ω) :
    (overlay β ω).merge (cons (b, v) kids E) nil =
      (overlay β ω).merge (cons (b, v) kids E) (cons (b, none) nil nil) := by
  have hkey : (overlay β ω).key (b, none) = (overlay β ω).tag (b, v) := rfl
  rw [Merging.merge, Merging.merge, upsert, upsert, if_pos hkey]
  rfl

theorem overlay_merge_absent {E : Forest (β × Option ω)} {b : β}
    (hE : E.keep Prod.fst (· ≠ b) = E) (v : Option ω) (kids next : Forest (β × Option ω)) :
    (overlay β ω).merge E (cons (b, v) kids next) =
      cons (b, v) kids ((overlay β ω).merge E next) := by
  have hgiven : E.given [b] = none := given_eq_none fun h => by
    rw [← hE, has_keep_ne] at h
    exact h.1 rfl
  rw [overlay_merge_cons, hgiven, kidsOf_eq_nil hE, hE, Option.none_or, Merging.merge]

/-- What `overlay_again` says about `F`, `C`, `X` and `p`. -/
def Again (F C X : Forest (β × Option ω)) (p : β → Bool) : Prop :=
  (overlay β ω).merge ((((overlay β ω).merge C F).keep Prod.fst p).append X) F =
      (overlay β ω).merge C F ↔
    Agrees ((overlay β ω).merge C F) ((((overlay β ω).merge C F).keep Prod.fst p).append X)

/-- The step at the first tree, when its key passes. -/
theorem again_cons {C X : Forest (β × Option ω)} {p : β → Bool} {b : β} {v : Option ω}
    {kids next : Forest (β × Option ω)} (hb : p b = true)
    (hkids : ∀ X, Again kids (C.kidsOf Prod.fst b) X fun _ => true)
    (hnext : Again next (C.keep Prod.fst (· ≠ b)) (X.keep Prod.fst (· ≠ b))
      fun c => p c && decide (c ≠ b)) :
    Again (cons (b, v) kids next) C X p := by
  have hnext' := hnext
  unfold Again at hnext' ⊢
  rw [overlay_merge_cons C]
  generalize hnx : (overlay β ω).merge (C.keep Prod.fst (· ≠ b)) next = nx at hnext'
  have hkids' := hkids (((nx.keep Prod.fst p).append X).kidsOf Prod.fst b)
  unfold Again at hkids'
  generalize hks : (overlay β ω).merge (C.kidsOf Prod.fst b) kids = ks at hkids'
  rw [keep_true] at hkids'
  generalize hw : (C.given [b]).or v = w
  have hv : w = none → v = none := fun h => by
    rw [h] at hw
    exact (Option.or_eq_none_iff.1 hw).2
  rw [keep, if_pos hb, append]
  have hkidsOf : (cons (b, w) ks ((nx.keep Prod.fst p).append X)).kidsOf Prod.fst b =
      ks.append (((nx.keep Prod.fst p).append X).kidsOf Prod.fst b) := by
    rw [kidsOf, if_pos rfl]
  have hkeep : (cons (b, w) ks ((nx.keep Prod.fst p).append X)).keep Prod.fst (· ≠ b) =
      (nx.keep Prod.fst fun c => p c && decide (c ≠ b)).append (X.keep Prod.fst (· ≠ b)) := by
    rw [keep, if_neg (by simp), keep_append, keep_keep]
  have hgiven : (cons (b, w) ks ((nx.keep Prod.fst p).append X)).given [b] =
      (((nx.keep Prod.fst p).append X).given [b]).or w := by
    simp [given]
  rw [overlay_merge_cons, agrees_cons (by simp [Has]), hkidsOf, hkeep, hgiven, ← hkids', ← hnext']
  simp only [cons.injEq, Prod.mk.injEq, true_and]
  -- the value: an older one only matters where there is none
  refine and_congr_left fun _ => ?_
  rcases hu : ((nx.keep Prod.fst p).append X).given [b] with _ | u
  · cases w with
    | none => simp [hv rfl]
    | some w => simp
  · simp [eq_comm]

/-- What is not empty has a path. -/
theorem again_nil (X : Forest (β × Option ω)) (p : β → Bool) : Again nil nil X p := by
  unfold Again
  rw [Merging.merge, keep, append]
  cases X with
  | nil => exact iff_of_true rfl fun p hp => absurd hp (by cases p <;> exact fun h => h)
  | cons a kids next =>
    obtain ⟨b, v⟩ := a
    refine iff_of_false (fun h => ?_) fun h => ?_
    · rw [overlay_merge_nil, overlay_merge_cons] at h
      cases h
    · obtain ⟨a, ha, -⟩ := h [b] (Or.inl ⟨rfl, Or.inl rfl⟩)
      cases ha

/-- A forest that has taken in `C`, but for the trees with keys outside `p`, and `X`: merging it again
gives the same forest exactly when the forest agrees with what is merged. -/
theorem overlay_again (n : ℕ) : ∀ (F C X : Forest (β × Option ω)) (p : β → Bool),
    F.size + C.size ≤ n → C.keep Prod.fst p = C → X.keep Prod.fst p = X → Again F C X p := by
  induction n with
  | zero =>
    intro F C X p hn _ _
    cases F with
    | cons a kids next =>
      simp only [size] at hn
      omega
    | nil =>
      cases C with
      | cons a kids next =>
        simp only [size] at hn
        omega
      | nil => exact again_nil X p
  | succ n ih =>
    intro F C X p hn hC hX
    -- the step, where the key of the first tree passes
    have step : ∀ b v (kids next : Forest (β × Option ω)), p b = true →
        kids.size + (C.kidsOf Prod.fst b).size ≤ n →
        next.size + (C.keep Prod.fst (· ≠ b)).size ≤ n → Again (cons (b, v) kids next) C X p := by
      intro b v kids next hb h1 h2
      refine again_cons hb (fun X => ih _ _ _ _ h1 (keep_true _) (keep_true _)) ?_
      exact ih _ _ _ _ h2 (keep_keep_of_keep hC _) (keep_keep_of_keep hX _)
    cases F with
    | cons a kids next =>
      obtain ⟨b, v⟩ := a
      have h1 := size_kidsOf_le Prod.fst b C
      have h2 := size_keep_le Prod.fst (fun c => decide (c ≠ b)) C
      simp only [size] at hn
      by_cases hb : p b = true
      · exact step b v kids next hb (by omega) (by omega)
      · rw [Bool.not_eq_true] at hb
        have hE : ∀ nx : Forest (β × Option ω), ((nx.keep Prod.fst p).append X).keep Prod.fst
            (· ≠ b) = (nx.keep Prod.fst p).append X := by
          intro nx
          rw [keep_append, keep_ne_of_keep hX hb, keep_ne_of_keep (keep_keep_self ..) hb]
        have hrest := ih next C X p (by omega) hC hX
        unfold Again at hrest ⊢
        rw [overlay_merge_absent (keep_ne_of_keep hC hb), keep, if_neg (by simp [hb]),
          overlay_merge_absent (hE _), agrees_cons_of_not_has (hE _), ← hrest]
        simp
    | nil =>
      cases C with
      | nil => exact again_nil X p
      | cons a kids next =>
        obtain ⟨b, v⟩ := a
        have hb := (keep_eq_cons hC).1
        have h1 := size_kidsOf_le Prod.fst b next
        have h2 := size_keep_le Prod.fst (fun c => decide (c ≠ b)) next
        simp only [size, Nat.zero_add] at hn
        -- a new tree is like one without a value that was there
        have hnew := step b none nil nil hb
          (by rw [kidsOf, if_pos rfl, size_append, size]; omega)
          (by rw [keep, if_neg (by simp), size]; omega)
        unfold Again at hnew ⊢
        obtain ⟨w, ks, nx, hF⟩ : ∃ w ks nx, (overlay β ω).merge (cons (b, v) kids next)
            (cons (b, none) nil nil) = cons (b, w) ks nx := ⟨_, _, _, overlay_merge_cons ..⟩
        rw [hF, keep, if_pos hb, append] at hnew
        rw [overlay_merge_nil next, hF, keep, if_pos hb, append, overlay_merge_nil]
        exact hnew

/-- **A forest `F` that has taken in `C` can be merged into `F` again, with the same result, exactly
when each of its paths leads to a label with the last value that it gives for the path.** -/
theorem overlay_again_iff (F C : Forest (β × Option ω)) :
    (overlay β ω).merge ((overlay β ω).merge C F) F = (overlay β ω).merge C F ↔
      Agrees ((overlay β ω).merge C F) ((overlay β ω).merge C F) := by
  have h := overlay_again _ F C nil (fun _ => true) le_rfl (keep_true C) (keep_true nil)
  unfold Again at h
  rwa [keep_true, append_nil] at h

end Overlay

end ZRouter
