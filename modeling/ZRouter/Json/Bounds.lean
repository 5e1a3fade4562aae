import ZRouter.Json.Search

/-!
# The bounds of a path record

The arrays of a record have `MAX_TREE_PATH` entries.  `splitpath` does not look at the limit, `create`
looks for the empty entry behind the last component, `process` takes the component before the last one
even if there is none, and `find` goes as deep as the tree.

* `Path.Counted`, `InBounds`: the accesses of `process` and of what it calls;
* `find_room`, `splitpath_room`, `create_room`: what each of them needs;
* `inBounds_iff`.
-/

namespace ZRouter.Json

/-- The count is the number of the components that are stored. -/
def Path.Counted (p : Path) : Prop := p.count = p.part.countP Option.isSome

/-- Every access to the arrays of the record is inside them, and the record is counted. -/
def InBounds (E : Libraries) (s : State) (arg : Bytes) : Prop :=
  if s.flags.searchMode then
    ∃ out p, find E s.flags.ignoreCase arg [] 0 s.root (allocatePath maxTreePath) = some (out, p) ∧
      p.Counted
  else
    let (key, value) := strsep (· = 61) arg
    ∃ p r, splitpath key maxTreePath = some p ∧ p.Counted ∧
      get E.ulongMax (p.count - 1) s.root [] p 0 = some r ∧ r.p.Counted ∧
      (1 < r.p.count → r.p.count - 2 < r.p.obj.length ∧ r.p.count - 2 < r.p.part.length) ∧
      r.p.count - 1 < r.p.part.length ∧
      ∀ v ∈ value, s.flags.deleteMode = false → r.child = none →
        (createNew E (s.print r.out) key v r.p).isSome = true

variable {E : Libraries} {s : State}

/-! ### `find` -/

theorem store_length {α : Type*} {a b : List (Option α)} {i : ℕ} {x : Option α}
    (h : store a i x = some b) : i < a.length ∧ b.length = a.length := by
  rw [store] at h
  split_ifs at h with hi
  cases h
  exact ⟨hi, List.length_set⟩

theorem enter_length {p p' : Path} {level : ℕ} {child : Ptr} {name : Bytes}
    (h : p.enter level child name = some p') :
    level < p.part.length ∧ p'.part.length = p.part.length := by
  simp only [Path.enter, Option.bind_eq_bind, Option.bind_eq_some_iff] at h
  obtain ⟨part, hpart, obj, -, heq⟩ := h
  cases heq
  exact store_length hpart

theorem leave_length {p p' : Path} {level : ℕ} (h : p.leave level = some p') :
    p'.part.length = p.part.length := by
  simp only [Path.leave, Option.bind_eq_bind, Option.bind_eq_some_iff] at h
  obtain ⟨part, hpart, obj, -, heq⟩ := h
  cases heq
  exact (store_length hpart).2

/-- A tree with so many levels has room in the record; one without any needs none. -/
def Room (p : Path) (level depth : ℕ) : Prop := 0 < depth → level + depth ≤ p.part.length

theorem Room.max {p : Path} {level a b : ℕ} (ha : Room p level a) (hb : Room p level b) :
    Room p level (max a b) := by
  intro h
  rcases le_total a b with hab | hab
  · rw [max_eq_right hab] at h ⊢
    exact hb h
  · rw [max_eq_left hab] at h ⊢
    exact ha h

/-- A child needs an entry for itself, and those of the levels below it. -/
theorem room_child {p p' : Path} {level d : ℕ} {child : Ptr} {name : Bytes}
    (h : p.enter level child name = some p') (hd : Room p' (level + 1) d) :
    Room p level (d + 1) := by
  obtain ⟨hlt, hlen⟩ := enter_length h
  intro _
  rcases Nat.eq_zero_or_pos d with rfl | hpos
  · exact hlt
  · have := hd hpos
    omega

/-- A child, and the loop after it. -/
theorem room_step {p p₁ p₂ p₃ p₄ : Path} {level d d' : ℕ} {child : Ptr} {name : Bytes}
    (henter : p.enter level child name = some p₁)
    (hfind : p₂.part.length = p₁.part.length ∧ Room p₁ (level + 1) d)
    (hleave : p₂.leave level = some p₃)
    (hrest : p₄.part.length = p₃.part.length ∧ Room p₃ level d') :
    p₄.part.length = p.part.length ∧ Room p level (max (d + 1) d') := by
  have hlen : p₃.part.length = p.part.length := by
    rw [leave_length hleave, hfind.1, (enter_length henter).2]
  refine ⟨hrest.1.trans hlen, Room.max (room_child henter hfind.2) fun h => ?_⟩
  rw [← hlen]
  exact hrest.2 h

mutual

/-- If `find` comes to an end, there was room for all levels of the tree. -/
theorem find_room (E : Libraries) (ic : Bool) (key : Bytes) : ∀ (v : Value) {pos : Ptr} {level : ℕ}
    {p : Path} {r : Bytes × Path}, find E ic key pos level v p = some r →
      r.2.part.length = p.part.length ∧ Room p level v.depth
  | .array es, pos, level, p, r, h => findElems_room E ic key es h
  | .object fs, pos, level, p, r, h => findFields_room E ic key fs h
  | .null, _, _, _, _, h => by cases h; exact ⟨rfl, fun h => absurd h (lt_irrefl 0)⟩
  | .boolean _, _, _, _, _, h => by cases h; exact ⟨rfl, fun h => absurd h (lt_irrefl 0)⟩
  | .double _, _, _, _, _, h => by cases h; exact ⟨rfl, fun h => absurd h (lt_irrefl 0)⟩
  | .int _, _, _, _, _, h => by cases h; exact ⟨rfl, fun h => absurd h (lt_irrefl 0)⟩
  | .string _, _, _, _, _, h => by cases h; exact ⟨rfl, fun h => absurd h (lt_irrefl 0)⟩

/-- The same for the loop over an array. -/
theorem findElems_room (E : Libraries) (ic : Bool) (key : Bytes) : ∀ (es : List Value) {pos : Ptr}
    {level l : ℕ} {i : ℤ} {p : Path} {r : Bytes × Path},
    findElems E ic key pos level i es l p = some r →
      r.2.part.length = p.part.length ∧ Room p level (depthElems es)
  | [], _, _, _, _, _, _, h => by cases h; exact ⟨rfl, fun h => absurd h (lt_irrefl 0)⟩
  | c :: es, pos, level, l, i, p, r, h => by
    rw [findElems] at h
    rw [depthElems]
    by_cases hlive : c.live = true
    · rw [if_pos hlive] at h ⊢
      by_cases hi : (l : ℤ) = i
      all_goals
        simp only [hi, if_true, if_false, Option.bind_eq_bind, Option.bind_eq_some_iff] at h
        obtain ⟨line, -, p₁, henter, x, hfind, p₃, hleave, y, hrest, heq⟩ := h
        cases heq
        have hend := findElems_room E ic key es hrest
        exact room_step henter (find_room E ic key c hfind) hleave hend
    · rw [if_neg hlive] at h ⊢
      obtain ⟨hlen, hroom⟩ := findElems_room E ic key es h
      exact ⟨hlen, Room.max (fun h => absurd h (lt_irrefl 0)) hroom⟩

/-- The same for the loop over an object. -/
theorem findFields_room (E : Libraries) (ic : Bool) (key : Bytes) : ∀ (fs : List (Bytes × Value))
    {pos : Ptr} {level l : ℕ} {p : Path} {r : Bytes × Path},
    findFields E ic key pos level fs l p = some r →
      r.2.part.length = p.part.length ∧ Room p level (depthFields fs)
  | [], _, _, _, _, _, h => by cases h; exact ⟨rfl, fun h => absurd h (lt_irrefl 0)⟩
  | (k, c) :: fs, pos, level, l, p, r, h => by
    rw [findFields] at h
    rw [depthFields]
    by_cases hlive : c.live = true
    · rw [if_pos hlive] at h ⊢
      by_cases hmatch : keyMatches ic key k = true
      all_goals
        simp only [hmatch, if_true, if_false, Bool.false_eq_true, Option.bind_eq_bind,
          Option.bind_eq_some_iff] at h
        obtain ⟨line, -, p₁, henter, x, hfind, p₃, hleave, y, hrest, heq⟩ := h
        cases heq
        have hend := findFields_room E ic key fs hrest
        exact room_step henter (find_room E ic key c hfind) hleave hend
    · rw [if_neg hlive] at h ⊢
      obtain ⟨hlen, hroom⟩ := findFields_room E ic key fs h
      exact ⟨hlen, Room.max (fun h => absurd h (lt_irrefl 0)) hroom⟩

end

/-! ### `splitpath` and `create` -/

theorem storeParts_room {cs : List Bytes} : ∀ {part part' : List (Option Bytes)} {i : ℕ},
    storeParts part i cs = some part' → i ≤ part.length → i + cs.length ≤ part.length := by
  induction cs with
  | nil => exact fun _ hi => hi
  | cons c cs ih =>
    intro part part' i h _
    obtain ⟨b, hb, h⟩ := Option.bind_eq_some_iff.1 h
    obtain ⟨hlt, hlen⟩ := store_length hb
    have := ih h (by omega)
    rw [List.length_cons]
    omega

/-- `splitpath` has room for as many components as there are entries. -/
theorem splitpath_room {key : Bytes} {max : ℕ} {p : Path} (h : splitpath key max = some p) :
    (components key).length ≤ max := by
  obtain ⟨part, hpart, -⟩ := Option.bind_eq_some_iff.1 h
  have := storeParts_room hpart (Nat.zero_le _)
  simpa [allocatePath] using this

section Create

variable {p : Path} {cs : List Bytes} {rest : List (Option Bytes)} {value : Bytes}

theorem part_component (hpart : p.part = cs.map some ++ rest) {level : ℕ} (h : level < cs.length) :
    p.part[level]? = some (some cs[level]) := by
  rw [hpart, List.getElem?_append_left (by simpa using h), List.getElem?_map,
    List.getElem?_eq_getElem h]
  rfl

/-- A child can be attached on every level, or the path up to there can be printed. -/
theorem attach_isSome (hpart : p.part = cs.map some ++ rest) {level : ℕ} (h : level ≤ cs.length)
    (root : Value) (pos : Option Ptr) (part : Bytes) (i : ℤ) (child : Value) :
    (attach E p level root pos part i child).isSome = true := by
  have hcannot : (cannotAttach p level).isSome = true := by
    rw [cannotAttach, mapM_part (fun part => str "." ++ part) hpart h]
    rfl
  cases pos with
  | none =>
    rw [attach]
    split_ifs <;> rfl
  | some pos =>
    rw [attach]
    split
    · split_ifs
      · rfl
      · rwa [Option.isSome_map]
    · rfl
    · rwa [Option.isSome_map]

/-- `create` stops at an empty entry behind the components. -/
theorem create_isSome (hpart : p.part = cs.map some ++ none :: rest)
    (hobj : p.part.length ≤ p.obj.length) : ∀ (left level : ℕ) (root : Value),
    left + level = p.part.length → level ≤ cs.length →
      (create E p value left level root).isSome = true := by
  intro left
  induction left with
  | zero =>
    intro level root hleft hlevel
    rw [hpart, List.length_append, List.length_map, List.length_cons] at hleft
    omega
  | succ left ih =>
    intro level root hleft hlevel
    rw [create]
    rcases hlevel.lt_or_eq with hlt | rfl
    · obtain ⟨r, hr⟩ := Option.isSome_iff_exists.1 (ih (level + 1) root (by omega) hlt)
      obtain ⟨o, hget⟩ : ∃ o, p.obj[level]? = some o := ⟨_, List.getElem?_eq_getElem (by omega)⟩
      simp only [part_component hpart hlt, hr, hget, Option.bind_eq_bind, Option.bind_some]
      split_ifs
      · obtain ⟨a, ha⟩ := Option.isSome_iff_exists.1 (attach_isSome (E := E) hpart hlevel r.root
          o cs[level] (indexOrNone E.ulongMax cs[level]) r.obj)
        rw [ha]
        rfl
      · rfl
    · have hnone : p.part[cs.length]? = some none := by
        rw [hpart, List.getElem?_append_right (by simp), List.length_map, Nat.sub_self]
        rfl
      simp only [hnone, Option.bind_eq_bind, Option.bind_some, Option.isSome_some]

/-- Without such an entry it goes on behind the array. -/
theorem create_eq_none (hpart : p.part = cs.map some) : ∀ (left level : ℕ) (root : Value),
    left + level = p.part.length → create E p value left level root = none := by
  intro left
  induction left with
  | zero => exact fun _ _ _ => rfl
  | succ left ih =>
    intro level root hleft
    have hlt : level < cs.length := by
      rw [hpart, List.length_map] at hleft
      omega
    have hpart' : p.part = cs.map some ++ [] := by rw [hpart, List.append_nil]
    have hcomp := part_component hpart' hlt
    rw [create]
    simp only [hcomp, ih (level + 1) root (by omega), Option.bind_eq_bind, Option.bind_some,
      Option.bind_none]

end Create

/-! ### `process` -/

theorem counted_recordOf (ulongMax : ℕ) (t : Value) (key : Bytes) :
    (recordOf ulongMax t key).Counted := by
  rw [Path.Counted]
  simp [recordOf, List.countP_map, List.countP_replicate, Function.comp_def]

/-- The elements of a record that `process` looks at stand in a record with `n` components. -/
theorem createNew_isSome_iff {key : Bytes} (hlen : (components key).length ≤ maxTreePath)
    (k v : Bytes) : (createNew E s k v (recordOf E.ulongMax s.root key)).isSome = true ↔
      2 ≤ (components key).length ∧ (components key).length < maxTreePath := by
  have hcount : (recordOf E.ulongMax s.root key).count = (components key).length := rfl
  have hparts : (recordOf E.ulongMax s.root key).part.length = maxTreePath := by
    simp [recordOf]
    omega
  have hobjs : (recordOf E.ulongMax s.root key).obj.length = maxTreePath := by
    simp [recordOf, length_places]
    omega
  rw [createNew, hcount]
  by_cases h2 : (components key).length < 2
  · simp only [h2, if_true, Option.bind_eq_bind, Option.bind_none, Option.isSome_none,
      Bool.false_eq_true, false_iff]
    omega
  obtain ⟨o, hobj⟩ : ∃ o, (recordOf E.ulongMax s.root key).obj[(components key).length - 2]? = some o :=
    ⟨_, List.getElem?_eq_getElem (by omega)⟩
  simp only [h2, if_false, hobj, Option.bind_eq_bind, Option.bind_some]
  rcases hlen.lt_or_eq with hlt | heq
  · obtain ⟨m, hm⟩ : ∃ m, maxTreePath - (components key).length = m + 1 :=
      ⟨maxTreePath - (components key).length - 1, by omega⟩
    have hpart : (recordOf E.ulongMax s.root key).part =
        (components key).map some ++ none :: List.replicate m none := by
      rw [recordOf, hm, List.replicate_succ]
    have hcreate := @create_isSome E _ _ _ v hpart (by omega)
      ((recordOf E.ulongMax s.root key).part.length - 1) 1 s.root (by omega) (by omega)
    obtain ⟨r, hr⟩ := Option.isSome_iff_exists.1 hcreate
    rw [hr]
    exact iff_of_true rfl ⟨by omega, hlt⟩
  · have hpart : (recordOf E.ulongMax s.root key).part = (components key).map some := by
      rw [recordOf, heq, Nat.sub_self, List.replicate_zero, List.append_nil]
    rw [create_eq_none hpart _ _ _ (by omega)]
    refine iff_of_false Bool.false_ne_true fun h => ?_
    omega

/-- What a run outside the search mode needs. -/
theorem InBounds.components {arg key : Bytes} {value : Option Bytes} (h : InBounds E s arg)
    (hsearch : ¬ s.flags.searchMode = true)
    (harg : strsep (fun c => decide (c = 61)) arg = (key, value)) :
    (components key).length ≤ maxTreePath ∧
      (value.isSome = true → s.flags.deleteMode = false →
        locate E.ulongMax s.root (components key) = none →
          2 ≤ (components key).length ∧ (components key).length < maxTreePath) := by
  rw [InBounds, if_neg hsearch, harg] at h
  obtain ⟨p, r, hp, -, hget, -, -, -, hnew⟩ := h
  have hlen := splitpath_room hp
  refine ⟨hlen, fun hvalue hdelete hnone => ?_⟩
  obtain ⟨v, rfl⟩ := Option.isSome_iff_exists.1 hvalue
  obtain ⟨p', out, hp', hget'⟩ := splitpath_get E.ulongMax s.root hlen
  rw [hp, Option.some.injEq] at hp'
  subst hp'
  rw [hget, Option.some.injEq] at hget'
  subst hget'
  exact (createNew_isSome_iff (s := s.print out) hlen key v).1 (hnew v rfl hdelete hnone)

/-- **When all accesses are inside the arrays.**  A search needs a tree with at most as many levels as
the arrays have entries.  Otherwise the key has at most as many components, and if a value is to be set
at a path that leads nowhere, at least two of them and fewer than there are entries. -/
theorem inBounds_iff (E : Libraries) (s : State) (arg : Bytes) :
    InBounds E s arg ↔
      if s.flags.searchMode then s.root.depth ≤ maxTreePath
      else
        let (key, value) := strsep (· = 61) arg
        (components key).length ≤ maxTreePath ∧
          (value.isSome = true → s.flags.deleteMode = false →
            locate E.ulongMax s.root (components key) = none →
              2 ≤ (components key).length ∧ (components key).length < maxTreePath) := by
  rw [InBounds]
  by_cases hsearch : s.flags.searchMode = true
  · rw [if_pos hsearch, if_pos hsearch]
    constructor
    · rintro ⟨out, p, hfind, -⟩
      have hroom := (find_room E s.flags.ignoreCase arg s.root hfind).2
      rcases Nat.eq_zero_or_pos s.root.depth with h0 | hpos
      · rw [h0]
        exact Nat.zero_le _
      · simpa [allocatePath] using hroom hpos
    · intro hdepth
      obtain ⟨qs, -, hrun⟩ := find_spec E s.flags.ignoreCase arg s.root
      have hfind := hrun [] [] _ holds_allocatePath (by simpa using hdepth)
      exact ⟨_, _, hfind, by simp [Path.Counted, allocatePath, List.countP_replicate]⟩
  rw [if_neg hsearch, if_neg hsearch]
  cases harg : strsep (fun c => decide (c = 61)) arg with
  | mk key value =>
    dsimp only
    constructor
    · intro h
      refine InBounds.components ?_ hsearch harg
      rw [InBounds, if_neg hsearch, harg]
      exact h
    · rintro ⟨hlen, hnew⟩
      obtain ⟨p, out, hp, hget⟩ := splitpath_get E.ulongMax s.root hlen
      have hpos := length_components_pos key
      have hparts : (recordOf E.ulongMax s.root key).part.length = maxTreePath := by
        simp [recordOf]
        omega
      have hobjs : (recordOf E.ulongMax s.root key).obj.length = maxTreePath := by
        simp [recordOf, length_places]
        omega
      have hcount : (recordOf E.ulongMax s.root key).count = (components key).length := rfl
      refine ⟨p, _, hp, ?_, hget, counted_recordOf _ _ _, fun h => ?_, ?_, ?_⟩
      · rw [splitpath_eq hlen, Option.some.injEq] at hp
        rw [← hp, Path.Counted]
        simp [List.countP_map, List.countP_replicate, Function.comp_def]
      · dsimp only
        rw [hparts, hobjs]
        omega
      · dsimp only
        rw [hparts]
        omega
      · intro v hv hdelete hnone
        exact (createNew_isSome_iff hlen key v).2
          (hnew (Option.isSome_iff_exists.2 ⟨v, hv⟩) hdelete hnone)

/-- A new value at the top of the file: there is no component before the last one. -/
theorem not_inBounds_hostname :
    ¬ ∀ (E : Libraries) (s : State) (arg : Bytes), InBounds E s arg := by
  intro h
  have hkey : strsep (fun c => decide (c = 61)) (str "hostname=zrouter") =
      (str "hostname", some (str "zrouter")) := rfl
  have hbounds := (h .inOrder ⟨.object [], {}, [], []⟩ _).components Bool.false_ne_true hkey
  have htwo := (hbounds.2 rfl rfl (rfl)).1
  revert htwo
  decide

end ZRouter.Json
