import ZRouter.Web.ConfPath

/-!
# The address of an element (`getNode`)

Every element below the root has an address: the names on the way to it, each with its number among
the elements of that name next to it.

* `Elem.steps`: the names and numbers on the way to a position;
* `follow_eq_some_iff`: a path leads to a position if and only if these are its names and numbers;
* `address`: how they are written; `address_resolves`: it leads to that element, and to no other.
-/

namespace ZRouter.Web

open Pattern

/-- The number of the child `i` among the elements of that name. -/
def number (name : Bytes) (cs : List Node) (i : ℕ) : ℕ := (cs.take (i + 1)).countP (Node.named name)

/-- The names and numbers of the elements on the way to a position, if there is an element. -/
def Elem.steps : Elem → List ℕ → Option Steps
  | _, [] => some []
  | e, i :: pos =>
      match e.children[i]? with
      | some (.element name attr children) =>
          (Elem.steps ⟨attr, children⟩ pos).map ((name, number name e.children i) :: ·)
      | _ => none

mutual

/-- The names of an element and of the elements below it are made of `[%w_-]`. -/
def Node.wellNamed : Node → Bool
  | .element name _ children => !name.isEmpty && name.all isName && wellNamed children
  | _ => true

/-- The names of all elements are made of `[%w_-]`. -/
def wellNamed : List Node → Bool
  | [] => true
  | c :: cs => c.wellNamed && wellNamed cs

end

/-- A name with its number, as in `user[2]`. -/
def stepText (s : Bytes × ℕ) : Bytes := s.1 ++ 91 :: (decimal s.2 ++ [93])

/-- The address with these names and numbers. -/
def address (q : Steps) : Bytes := [46].intercalate (q.map stepText)

/-! ### Names and numbers -/

theorem number_zero (name : Bytes) (c : Node) (cs : List Node) :
    number name (c :: cs) 0 = if c.named name then 1 else 0 := by
  simp [number, List.countP_cons]

theorem number_succ (name : Bytes) (c : Node) (cs : List Node) (i : ℕ) :
    number name (c :: cs) (i + 1) = number name cs i + if c.named name then 1 else 0 := by
  simp [number, List.countP_cons]

/-- The number of an element is not zero. -/
theorem number_pos {name : Bytes} {attr : Option Attrs} {children cs : List Node} {i : ℕ}
    (h : cs[i]? = some (.element name attr children)) : 0 < number name cs i := by
  induction cs generalizing i with
  | nil => cases h
  | cons c cs ih =>
    cases i with
    | zero =>
      cases h
      simp [number_zero, Node.named]
    | succ i =>
      have hpos := ih h
      rw [number_succ]
      omega

/-- `findChild` finds the element with that number. -/
theorem findChild_number {name : Bytes} {attr : Option Attrs} {children cs : List Node} {i : ℕ}
    (h : cs[i]? = some (.element name attr children)) :
    findChild name (number name cs i) cs = some i := by
  induction cs generalizing i with
  | nil => cases h
  | cons c cs ih =>
    cases i with
    | zero =>
      cases h
      simp [findChild_cons, number_zero, Node.named]
    | succ i =>
      have hpos := number_pos h
      rw [List.getElem?_cons_succ] at h
      have hi := ih h
      have hne : number name cs i ≠ 0 := (number_pos h).ne'
      rw [findChild_cons, number_succ]
      by_cases hc : c.named name = true
      · rw [if_pos hc, if_pos hc, if_neg (by omega), Nat.add_sub_cancel, hi]
        rfl
      · rw [if_neg hc, if_neg hc, Nat.add_zero, hi]
        rfl

/-- The child that `findChild` finds, with its number. -/
theorem findChild_eq_some_iff {name : Bytes} {cs : List Node} {k i : ℕ} :
    findChild name k cs = some i ↔
      (∃ attr children, cs[i]? = some (.element name attr children)) ∧ k = number name cs i := by
  constructor
  · intro h
    obtain ⟨attr, children, hi⟩ := findChild_eq_some h
    exact ⟨⟨attr, children, hi⟩, (findChild_inj h (findChild_number hi)).2⟩
  · rintro ⟨⟨attr, children, hi⟩, rfl⟩
    exact findChild_number hi

/-- **A path leads to a position if and only if it has the names and numbers on the way to it.** -/
theorem follow_eq_some_iff {q : Steps} : ∀ {t : Elem} {pos : List ℕ},
    follow t q = some pos ↔ t.steps pos = some q := by
  induction q with
  | nil =>
    intro t pos
    cases pos with
    | nil => exact iff_of_true rfl rfl
    | cons i pos =>
      rw [follow, Elem.steps]
      refine iff_of_false (fun h => by cases h) fun h => ?_
      split at h
      · obtain ⟨q, -, hq⟩ := Option.map_eq_some_iff.1 h
        cases hq
      · cases h
  | cons s q ih =>
    intro t pos
    obtain ⟨name, k⟩ := s
    rw [follow]
    constructor
    · intro h
      obtain ⟨i, hi, h⟩ := Option.bind_eq_some_iff.1 h
      obtain ⟨c, hc, h⟩ := Option.bind_eq_some_iff.1 h
      obtain ⟨r, hr, rfl⟩ := Option.map_eq_some_iff.1 h
      obtain ⟨⟨attr, children, hchild⟩, rfl⟩ := findChild_eq_some_iff.1 hi
      rw [child_of_getElem? hchild, Option.some.injEq] at hc
      subst hc
      rw [Elem.steps, hchild]
      dsimp only
      rw [ih.1 hr]
      rfl
    · intro h
      cases pos with
      | nil => cases h
      | cons i pos =>
        rw [Elem.steps] at h
        split at h
        · rename_i name' attr children hchild
          obtain ⟨q', hq', heq⟩ := Option.map_eq_some_iff.1 h
          obtain ⟨hs, rfl⟩ := List.cons.inj heq
          obtain ⟨rfl, rfl⟩ := Prod.mk.inj hs
          rw [findChild_number hchild, Option.bind_some, child_of_getElem? hchild, Option.bind_some,
            ih.2 hq']
          rfl
        · cases h

/-- An element has names and numbers. -/
theorem steps_of_at : ∀ {pos : List ℕ} {t e : Elem}, t.at pos = some e → ∃ q, t.steps pos = some q := by
  intro pos
  induction pos with
  | nil => exact fun _ => ⟨[], rfl⟩
  | cons i pos ih =>
    intro t e h
    rw [Elem.at, Elem.child] at h
    split at h
    · rename_i name attr children hchild
      obtain ⟨q, hq⟩ := ih h
      exact ⟨(name, number name t.children i) :: q, by simp only [Elem.steps, hchild, hq]; rfl⟩
    · cases h

/-! ### Written addresses -/

theorem wellNamed_getElem {cs : List Node} (h : wellNamed cs = true) {i : ℕ} {c : Node}
    (hc : cs[i]? = some c) : c.wellNamed = true := by
  induction cs generalizing i with
  | nil => cases hc
  | cons d cs ih =>
    rw [wellNamed, Bool.and_eq_true] at h
    cases i with
    | zero =>
      cases hc
      exact h.1
    | succ i => exact ih h.2 hc

/-- The names and numbers of an address can be written. -/
theorem steps_wellNamed : ∀ {pos : List ℕ} {t : Elem} {q : Steps}, wellNamed t.children = true →
    t.steps pos = some q → ∀ s ∈ q, (s.1 ≠ [] ∧ ∀ c ∈ s.1, isName c = true) ∧ 0 < s.2 := by
  intro pos
  induction pos with
  | nil =>
    intro t q _ h
    cases h
    simp
  | cons i pos ih =>
    intro t q hnames h
    rw [Elem.steps] at h
    split at h
    · rename_i name attr children hchild
      obtain ⟨q, hq, rfl⟩ := Option.map_eq_some_iff.1 h
      have hc := wellNamed_getElem hnames hchild
      rw [Node.wellNamed, Bool.and_eq_true, Bool.and_eq_true] at hc
      refine List.forall_mem_cons.2 ⟨⟨⟨?_, ?_⟩, number_pos hchild⟩, ih hc.2 hq⟩
      · simpa using hc.1.1
      · exact List.all_eq_true.1 hc.1.2
    · cases h

/-- An address is a path that the pages could write. -/
theorem exists_parts : ∀ {q : Steps},
    (∀ s ∈ q, (s.1 ≠ [] ∧ ∀ c ∈ s.1, isName c = true) ∧ 0 < s.2) →
    ∃ ps, renderPath ps = address q ∧ stepsOf ps = q := by
  intro q
  induction q with
  | nil => exact fun _ => ⟨[], rfl, rfl⟩
  | cons s q ih =>
    intro h
    obtain ⟨hs, hq⟩ := List.forall_mem_cons.1 h
    obtain ⟨ps, hrender, hsteps⟩ := ih hq
    let p : Part := ⟨s.1, some (decimal s.2), hs.1.1, hs.1.2, by
      intro id hid
      rw [← Option.some.inj hid]
      exact ⟨decimal_ne_nil hs.2, decimal_isdigit s.2⟩⟩
    have hstep : p.step = s := by
      change (s.1, digitsVal (decimal s.2)) = s
      rw [digitsVal_decimal]
    refine ⟨p :: ps, ?_, by rw [stepsOf, List.map_cons, hstep]; exact congrArg _ hsteps⟩
    cases q with
    | nil =>
      have hps : ps = [] := List.map_eq_nil_iff.1 hsteps
      subst hps
      simp [renderPath, address, Part.text, stepText, p]
    | cons s' q =>
      have hps : ps ≠ [] := by
        rintro rfl
        cases hsteps
      rw [renderPath_cons p hps, hrender]
      simp [address, Part.text, stepText, p, List.intercalate]

/-! ### Addresses of elements -/

/-- The element at a position has an address, which leads to that position and is not the one of another
position. -/
def Addressed (t : Elem) (pos : List ℕ) (e : Elem) : Prop :=
  ∃ q, t.steps pos = some q ∧ locate ((address q).length + 1) t (address q) = some pos ∧
    getNode t (address q) = some e ∧ ∀ pos', t.steps pos' = some q → pos' = pos

/-- **Every element has one address**, and a path of names and numbers leads nowhere if and only if no
element has these names and numbers. -/
theorem address_resolves (t : Elem) (h : wellNamed t.children = true) :
    (∀ pos e, t.at pos = some e → Addressed t pos e) ∧
      ∀ ps, getNode t (renderPath ps) = none ↔ ¬ ∃ pos, t.steps pos = some (stepsOf ps) := by
  constructor
  · intro pos e he
    obtain ⟨q, hq⟩ := steps_of_at he
    obtain ⟨ps, hrender, hsteps⟩ := exists_parts (steps_wellNamed h hq)
    have hfollow : follow t q = some pos := follow_eq_some_iff.2 hq
    have hlocate : locate ((address q).length + 1) t (address q) = some pos := by
      rw [← hrender, locate_render ps (Nat.lt_succ_of_le (length_le_renderPath ps)), hsteps, hfollow]
    refine ⟨q, hq, hlocate, by rw [getNode, hlocate, Option.bind_some, he], fun pos' hq' => ?_⟩
    have hfollow' := follow_eq_some_iff.2 hq'
    rw [hfollow, Option.some.injEq] at hfollow'
    exact hfollow'.symm
  · intro ps
    rw [getNode_render, Elem.look, Option.bind_eq_none_iff]
    constructor
    · rintro hnone ⟨pos, hpos⟩
      have hfollow := follow_eq_some_iff.2 hpos
      obtain ⟨c, hc⟩ := at_of_follow hfollow
      rw [hnone pos hfollow] at hc
      cases hc
    · intro hnone pos hpos
      exact absurd ⟨pos, follow_eq_some_iff.1 hpos⟩ hnone

/-- Two hosts with a comment between them. -/
def hostsTree : Elem :=
  .root [.element (str "lan") none
    [.element (str "host") none [], .comment (str "spare"), .element (str "host") none []]]

/-- The second host of the tree. -/
theorem address_resolves_host : Addressed hostsTree [0, 2] ⟨none, []⟩ ∧
    getNode hostsTree (address [(str "lan", 1), (str "host", 2)]) = some ⟨none, []⟩ := by
  have haddressed := (address_resolves hostsTree (by decide +kernel)).1 [0, 2] ⟨none, []⟩ rfl
  obtain ⟨q, hq, -, hget, -⟩ := id haddressed
  have hsteps : hostsTree.steps [0, 2] = some [(str "lan", 1), (str "host", 2)] := by decide +kernel
  rw [hsteps, Option.some.injEq] at hq
  exact ⟨haddressed, by rw [hq]; exact hget⟩

end ZRouter.Web
