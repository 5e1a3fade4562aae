import ZRouter.Json.Value

/-!
# Paths of `conf` (`splitpath`, `get`)

A path record has two arrays of the same size: the components of the key, and the nodes found for
them.  An access outside an array is `none`.

* `Path`, `allocatePath`, `splitpath`, `get`;
* `locate`: where a list of components leads;
* `splitpath_eq`, `get_eq`: the record after splitting, and after the lookup.
-/

namespace ZRouter.Json

/-- `MAX_TREE_PATH`. -/
def maxTreePath : ℕ := 15

/-- `struct path`. -/
structure Path where
  part : List (Option Bytes)
  obj : List (Option Ptr)
  count : ℕ

/-- `allocate_path`. -/
def allocatePath (max : ℕ) : Path := ⟨List.replicate max none, List.replicate max none, 0⟩

/-- A store into an array. -/
def store {α : Type*} (a : List (Option α)) (i : ℕ) (x : Option α) : Option (List (Option α)) :=
  if i < a.length then some (a.set i x) else none

/-- The loop of `splitpath` over the components.  The limit in its body is only looked at when
`path` stands at the end of the string, which it never does there. -/
def storeParts (part : List (Option Bytes)) (i : ℕ) : List Bytes → Option (List (Option Bytes))
  | [] => some part
  | c :: cs => do storeParts (← store part i (some c)) (i + 1) cs

/-- The components of a key. -/
def components (key : Bytes) : List Bytes := key.splitOn 46

/-- `splitpath`. -/
def splitpath (path : Bytes) (max : ℕ) : Option Path := do
  let p := allocatePath max
  let part ← storeParts p.part 0 (components path)
  some { p with part, count := (components path).length }

/-- `json_object_array_get_idx`, as json-c documents it: the place of the element, and the element; `NULL`
outside the array. -/
def arrayGetIdx (es : List Value) (i : ℤ) : Option (ℕ × Value) :=
  if 0 ≤ i then (es[i.toNat]?.filter Value.live).map fun e => (i.toNat, e) else none

/-- `json_object_object_get`, as json-c documents it: the place of the entry, and its value; `NULL` for a
key that is not there. -/
def objectGet (fs : Fields) (key : Bytes) : Option (ℕ × Value) := do
  let i ← (keys fs).idxOf? key
  let v ← (fs[i]?.map Prod.snd).filter Value.live
  some (i, v)

/-- What `get` prints for an index that is not a number. -/
def requireInt : Bytes := str "Array require int for index\n"

/-- The child of a node that a component names, and what is printed. -/
def getChild (ulongMax : ℕ) (obj : Value) (part : Bytes) : Option (ℕ × Value) × Bytes :=
  match obj with
  | .array es =>
      let (v, check) := strtoulEnd ulongMax part
      if check then (arrayGetIdx es (toInt (v % 2 ^ 32)), []) else (none, requireInt)
  | .object fs => (objectGet fs part, [])
  | _ => (none, [])

/-- What `get` returns, with the record afterwards and what is printed. -/
structure Found where
  p : Path
  child : Option (Ptr × Value)
  out : Bytes

/-- `get` on the node `obj` at `pos`; `left` components stand behind the one at `idx`. -/
def get (ulongMax : ℕ) : ℕ → Value → Ptr → Path → ℕ → Option Found
  | left, obj, pos, p, idx => do
    let part ← ← p.part[idx]?
    match getChild ulongMax obj part with
    | (none, out) => some ⟨p, none, out⟩
    | (some (i, child), out) =>
        let p := { p with obj := ← store p.obj idx (some (pos ++ [i])) }
        match left with
        | 0 => some ⟨p, some (pos ++ [i], child), out⟩
        | left + 1 => do
            let r ← get ulongMax left child (pos ++ [i]) p (idx + 1)
            some { r with out := out ++ r.out }

/-- Where a list of components leads: the pointer, and the node. -/
def locate (ulongMax : ℕ) : Value → List Bytes → Option (Ptr × Value)
  | t, [] => some ([], t)
  | t, c :: cs => do
      let (i, child) ← (getChild ulongMax t c).1
      let (q, n) ← locate ulongMax child cs
      some (i :: q, n)

/-! ### The record after `splitpath` -/

theorem storeParts_eq (pre : List (Option Bytes)) (cs : List Bytes) {m : ℕ} (h : cs.length ≤ m) :
    storeParts (pre ++ List.replicate m none) pre.length cs =
      some (pre ++ cs.map some ++ List.replicate (m - cs.length) none) := by
  induction cs generalizing pre m with
  | nil => simp [storeParts]
  | cons c cs ih =>
    obtain ⟨m, rfl⟩ : ∃ m', m = m' + 1 := ⟨m - 1, by simp at h; omega⟩
    have hstore : store (pre ++ List.replicate (m + 1) none) pre.length (some c) =
        some ((pre ++ [some c]) ++ List.replicate m none) := by
      rw [store, if_pos (by simp), List.set_append_right _ _ le_rfl, List.replicate_succ]
      simp
    have hlen : cs.length ≤ m := by simpa using h
    have hrest := ih (pre ++ [some c]) hlen
    rw [List.length_append, List.length_singleton] at hrest
    rw [storeParts, hstore, Option.bind_eq_bind, Option.bind_some, hrest]
    simp

/-- The record of a key that has not too many components. -/
theorem splitpath_eq {key : Bytes} {max : ℕ} (h : (components key).length ≤ max) :
    splitpath key max = some
      ⟨(components key).map some ++ List.replicate (max - (components key).length) none,
        List.replicate max none, (components key).length⟩ := by
  have hstore := storeParts_eq [] (components key) h
  rw [List.nil_append, List.length_nil, List.nil_append] at hstore
  simp [splitpath, allocatePath, hstore]

theorem components_ne_nil (key : Bytes) : components key ≠ [] := List.splitOn_ne_nil _ _

/-! ### The record after `get` -/

/-- The nodes found for the components, as far as the lookup comes. -/
def places (ulongMax : ℕ) : Value → Ptr → List Bytes → List (Option Ptr)
  | _, _, [] => []
  | t, pos, c :: cs =>
      match (getChild ulongMax t c).1 with
      | none => List.replicate (cs.length + 1) none
      | some (i, child) => some (pos ++ [i]) :: places ulongMax child (pos ++ [i]) cs

theorem length_places (ulongMax : ℕ) (t : Value) (pos : Ptr) (cs : List Bytes) :
    (places ulongMax t pos cs).length = cs.length := by
  induction cs generalizing t pos with
  | nil => rfl
  | cons c cs ih =>
    rw [places]
    cases (getChild ulongMax t c).1 with
    | none => simp
    | some r => simp [ih]

/-- The node found for a component is where the components up to it lead. -/
theorem places_getElem? (ulongMax : ℕ) (t : Value) (pos : Ptr) (cs : List Bytes) {k : ℕ}
    (hk : k < cs.length) :
    (places ulongMax t pos cs)[k]? =
      some ((locate ulongMax t (cs.take (k + 1))).map fun r => pos ++ r.1) := by
  induction cs generalizing t pos k with
  | nil => simp at hk
  | cons c cs ih =>
    rw [places, List.take_succ_cons, locate]
    cases hc : (getChild ulongMax t c).1 with
    | none =>
      have hrep : k < cs.length + 1 := hk
      simp [hrep]
    | some r =>
      cases k with
      | zero => simp [locate]
      | succ k =>
        have := ih r.2 (pos ++ [r.1]) (by simpa using hk)
        simp only [List.getElem?_cons_succ, this, Option.bind_eq_bind, Option.bind_some,
          Option.some.injEq]
        cases locate ulongMax r.2 (cs.take (k + 1)) with
        | none => rfl
        | some q => simp

theorem store_append {α : Type*} (pre post : List (Option α)) (x y : Option α) :
    store (pre ++ y :: post) pre.length x = some (pre ++ x :: post) := by
  rw [store, if_pos (by simp), List.set_append_right _ _ le_rfl]
  simp

/-- **The lookup** puts down the nodes it finds, and returns the one the components lead to. -/
theorem get_eq (ulongMax : ℕ) (cs : List Bytes) {c : Bytes} (obj : Value) (pos : Ptr)
    (pre post : List (Option Bytes)) (opre : List (Option Ptr)) (hpre : opre.length = pre.length)
    (count m : ℕ) (hm : cs.length ≤ m) :
    ∃ out, get ulongMax cs.length obj pos
      ⟨pre ++ (c :: cs).map some ++ post, opre ++ List.replicate (m + 1) none, count⟩ pre.length =
      some ⟨⟨pre ++ (c :: cs).map some ++ post,
          opre ++ places ulongMax obj pos (c :: cs) ++ List.replicate (m - cs.length) none, count⟩,
        (locate ulongMax obj (c :: cs)).map fun r => (pos ++ r.1, r.2), out⟩ := by
  induction cs generalizing c obj pos pre opre m with
  | nil =>
    rw [List.length_nil, get, places, locate]
    cases hc : getChild ulongMax obj c with
    | mk r out =>
      refine ⟨out, ?_⟩
      cases r with
      | none => simp [hc, List.replicate_succ]
      | some r =>
        have hstore := store_append opre (List.replicate m none) (some (pos ++ [r.1])) none
        rw [hpre] at hstore
        simp [hc, List.replicate_succ, hstore, places, locate]
  | cons d cs ih =>
    obtain ⟨m, rfl⟩ : ∃ m', m = m' + 1 := ⟨m - 1, by simp at hm; omega⟩
    rw [List.length_cons, get, places, locate]
    cases hc : getChild ulongMax obj c with
    | mk r out =>
      cases r with
      | none =>
        refine ⟨out, ?_⟩
        have hrep : List.replicate (m + 1 + 1) (none : Option Ptr) =
            List.replicate (cs.length + 1 + 1) none ++ List.replicate (m - cs.length) none := by
          rw [List.replicate_append_replicate]
          congr 1
          simp at hm
          omega
        simp [hc, hrep]
      | some r =>
        have hstore := store_append opre (List.replicate (m + 1) none) (some (pos ++ [r.1])) none
        rw [hpre] at hstore
        obtain ⟨out', hrest⟩ := ih (c := d) r.2 (pos ++ [r.1]) (pre ++ [some c])
          (opre ++ [some (pos ++ [r.1])]) (by simp [hpre]) m (by simpa using hm)
        refine ⟨out ++ out', ?_⟩
        simp only [List.append_assoc, List.cons_append, List.nil_append, List.length_append,
          List.length_singleton, List.map_cons] at hrest
        have hrep : List.replicate (m + 1 + 1) (none : Option Ptr) =
            none :: List.replicate (m + 1) none := List.replicate_succ
        simp [hc, hrep, hstore, hrest]
        cases locate ulongMax r.2 (d :: cs) with
        | none => rfl
        | some q => simp

end ZRouter.Json
