import ZRouter.Json.Process

/-!
# What a lookup finds

A component of a path leads to a live child (`getChild_child`), a list of components to a node
(`locate_node`), and a list in two parts to a node in two steps (`locate_append`).  A lookup in a
tree with another node in one place is the lookup in the tree as it was (`getChild_replaceAt`,
`locate_replaceAt_self`), and what differs at that place differs nowhere else
(`Unchanged.replaceAt`).

* `objectGet_eq_some`: the value of a key, in an object without a key twice;
* `Unchanged`: no path shows a difference, except those to one node;
* `resolve`, `process_eq`: the lookup of `process`.
-/

namespace ZRouter.Json

/-! ### Nodes -/

@[simp] theorem node_nil (t : Value) : t.node [] = some t := rfl

@[simp] theorem node_cons (t : Value) (i : ℕ) (q : Ptr) :
    t.node (i :: q) = (t.child i).bind (·.node q) := rfl

theorem node_append (t : Value) (p q : Ptr) :
    t.node (p ++ q) = (t.node p).bind (·.node q) := by
  induction p generalizing t with
  | nil => rfl
  | cons i p ih =>
    rw [List.cons_append, node_cons, node_cons]
    cases t.child i with
    | none => rfl
    | some c => exact ih c

@[simp] theorem replaceAt_nil (t n : Value) : t.replaceAt [] n = n := by
  rw [Value.replaceAt]

/-- The child through which a node is replaced, and the others. -/
theorem child_replaceAt (t : Value) (i : ℕ) (q : Ptr) (n : Value) (j : ℕ) :
    (t.replaceAt (i :: q) n).child j =
      (t.child j).map fun c => if i = j then c.replaceAt q n else c := by
  cases t with
  | array es =>
    rw [Value.replaceAt, Value.child, List.getElem?_modify]
    rfl
  | object fs =>
    rw [Value.replaceAt, Value.child, List.getElem?_modify, Value.child]
    cases fs[j]? with
    | none => rfl
    | some f => by_cases h : i = j <;> simp [h]
  | _ => rfl

theorem node_replaceAt_self {t m n : Value} {q : Ptr} (h : t.node q = some m) :
    (t.replaceAt q n).node q = some n := by
  induction q generalizing t with
  | nil => rw [replaceAt_nil, node_nil]
  | cons i q ih =>
    obtain ⟨c, hc, hm⟩ := Option.bind_eq_some_iff.1 h
    rw [node_cons, child_replaceAt, hc]
    simpa using ih hm

@[simp] theorem keys_modify (fs : Fields) (i : ℕ) (g : Value → Value) :
    keys (fs.modify i fun f => (f.1, g f.2)) = keys fs := by
  apply List.ext_getElem?
  intro j
  simp only [keys, List.getElem?_map, List.getElem?_modify]
  cases fs[j]? with
  | none => rfl
  | some f => by_cases h : i = j <;> simp [h]

/-- The head of a node does not show what is replaced below it. -/
theorem head_replaceAt (t : Value) (i : ℕ) (q : Ptr) (n : Value) :
    (t.replaceAt (i :: q) n).head = t.head := by
  cases t with
  | array es => simp [Value.replaceAt, Value.head]
  | object fs =>
    rw [Value.replaceAt, Value.head, keys_modify fs i (Value.replaceAt · q n), Value.head]
  | _ => rfl

theorem live_replaceAt {t m n : Value} {q : Ptr} (h : t.node q = some m) (hlive : n.live = m.live) :
    (t.replaceAt q n).live = t.live := by
  cases q with
  | nil =>
    cases h
    rwa [replaceAt_nil]
  | cons i q => cases t <;> rfl

/-! ### One step of a lookup -/

theorem arrayGetIdx_eq_some {es : List Value} {i : ℤ} {j : ℕ} {v : Value} :
    arrayGetIdx es i = some (j, v) ↔ i = j ∧ es[j]? = some v ∧ v.live = true := by
  rw [arrayGetIdx]
  constructor
  · intro h
    split_ifs at h with hi
    obtain ⟨e, he, hj⟩ := Option.map_eq_some_iff.1 h
    obtain ⟨he, hlive⟩ := Option.filter_eq_some_iff.1 he
    cases hj
    exact ⟨(Int.toNat_of_nonneg hi).symm, he, hlive⟩
  · rintro ⟨rfl, he, hlive⟩
    simp [he, hlive]

theorem toInt_mod (n : ℕ) : toInt (n % 2 ^ 32) = toInt n := by
  unfold toInt
  simp only [Int.natCast_mod, Int.emod_bmod]

/-- The element that a component names: `get` and `process` read the number in the same way, one
as an `unsigned int` and the other as an `int`. -/
theorem getChild_array (ulongMax : ℕ) (es : List Value) (part : Bytes) :
    (getChild ulongMax (.array es) part).1 =
      if (strtoulEnd ulongMax part).2 then arrayGetIdx es (toInt (strtoulEnd ulongMax part).1)
      else none := by
  cases hcheck : (strtoulEnd ulongMax part).2 with
  | false => simp only [getChild, hcheck, Bool.false_eq_true, if_false]
  | true => simp only [getChild, hcheck, toInt_mod, if_true]

theorem getChild_object (ulongMax : ℕ) (fs : Fields) (part : Bytes) :
    (getChild ulongMax (.object fs) part).1 = objectGet fs part := rfl

/-- The value of a key, in an object without a key twice. -/
theorem objectGet_eq_some {fs : Fields} (hnodup : (keys fs).Nodup) {key : Bytes} {i : ℕ}
    {v : Value} : objectGet fs key = some (i, v) ↔ fs[i]? = some (key, v) ∧ v.live = true := by
  constructor
  · intro h
    simp only [objectGet, Option.bind_eq_bind, Option.bind_eq_some_iff] at h
    obtain ⟨j, hj, w, hw, heq⟩ := h
    cases heq
    obtain ⟨hw, hlive⟩ := Option.filter_eq_some_iff.1 hw
    obtain ⟨f, hf, rfl⟩ := Option.map_eq_some_iff.1 hw
    obtain ⟨hlen, hkey, -⟩ := List.idxOf?_eq_some_iff.1 hj
    have hfst : (keys fs)[i]? = some f.1 := by rw [keys, List.getElem?_map, hf, Option.map_some]
    rw [List.getElem?_eq_getElem hlen, hkey, Option.some_inj] at hfst
    exact ⟨by rw [hf, hfst], hlive⟩
  · rintro ⟨hf, hlive⟩
    have hfst : (keys fs)[i]? = some key := by rw [keys, List.getElem?_map, hf, Option.map_some]
    obtain ⟨hlen, hkey⟩ := List.getElem?_eq_some_iff.1 hfst
    have hidx : (keys fs).idxOf? key = some i := by
      refine List.idxOf?_eq_some_iff.2 ⟨hlen, hkey, fun j hj heq => ?_⟩
      exact absurd ((hnodup.getElem_inj_iff).1 (heq.trans hkey.symm)) hj.ne
    simp [objectGet, hidx, hf, Option.filter, hlive]

/-- A component leads to a live child. -/
theorem getChild_child {ulongMax : ℕ} {t c : Value} {part : Bytes} {i : ℕ}
    (h : (getChild ulongMax t part).1 = some (i, c)) : t.child i = some c ∧ c.live = true := by
  cases t with
  | array es =>
    rw [getChild_array] at h
    split_ifs at h
    exact (arrayGetIdx_eq_some.1 h).2
  | object fs =>
    simp only [getChild_object, objectGet, Option.bind_eq_bind, Option.bind_eq_some_iff] at h
    obtain ⟨j, -, w, hw, heq⟩ := h
    cases heq
    exact Option.filter_eq_some_iff.1 hw
  | _ => cases h

/-- A component leads to the same place after a node has been replaced below the place `i`, if a
live node stands there as before. -/
theorem getChild_replaceAt (ulongMax : ℕ) {t c m n : Value} {i : ℕ} {q : Ptr}
    (hc : t.child i = some c) (hm : c.node q = some m) (hlive : n.live = m.live) (part : Bytes) :
    (getChild ulongMax (t.replaceAt (i :: q) n) part).1 =
      (getChild ulongMax t part).1.map fun r =>
        (r.1, if i = r.1 then r.2.replaceAt q n else r.2) := by
  have hlive' : (c.replaceAt q n).live = c.live := live_replaceAt hm hlive
  -- what stands at a place is live if and only if it was
  have hfilter : ∀ j, ((t.replaceAt (i :: q) n).child j).filter Value.live =
      ((t.child j).filter Value.live).map fun e => if i = j then e.replaceAt q n else e := by
    intro j
    rw [child_replaceAt]
    cases hj : t.child j with
    | none => rfl
    | some e =>
      by_cases h : i = j
      · subst h
        rw [hc, Option.some_inj] at hj
        subst hj
        cases hl : c.live <;> simp [Option.filter, hlive', hl]
      · cases hl : e.live <;> simp [Option.filter, h, hl]
  cases t with
  | array es =>
    rw [Value.replaceAt] at hfilter ⊢
    rw [getChild_array, getChild_array]
    split_ifs
    · rw [arrayGetIdx, arrayGetIdx]
      split_ifs
      · have := hfilter (toInt (strtoulEnd ulongMax part).1).toNat
        simp only [Value.child] at this
        rw [this, Option.map_map, Option.map_map]
        simp only [Function.comp_def]
      · rfl
    · rfl
  | object fs =>
    rw [Value.replaceAt] at hfilter ⊢
    simp only [getChild_object, objectGet, Option.bind_eq_bind,
      keys_modify fs i (Value.replaceAt · q n)]
    cases (keys fs).idxOf? part with
    | none => rfl
    | some j =>
      have := hfilter j
      simp only [Value.child] at this
      rw [Option.bind_some, Option.bind_some, this]
      cases (fs[j]?.map Prod.snd).filter Value.live <;> rfl
  | _ => cases hc

/-! ### Lookups -/

theorem locate_append (ulongMax : ℕ) (t : Value) (as bs : List Bytes) :
    locate ulongMax t (as ++ bs) =
      (locate ulongMax t as).bind fun r =>
        (locate ulongMax r.2 bs).map fun s => (r.1 ++ s.1, s.2) := by
  induction as generalizing t with
  | nil =>
    simp [locate]
  | cons a as ih =>
    rw [List.cons_append, locate, locate]
    cases (getChild ulongMax t a).1 with
    | none => rfl
    | some r =>
      simp only [Option.bind_eq_bind, Option.bind_some, ih]
      cases locate ulongMax r.2 as with
      | none => rfl
      | some s =>
        simp only [Option.bind_some]
        cases locate ulongMax s.2 bs <;> rfl

/-- A list of components leads to a node. -/
theorem locate_node {ulongMax : ℕ} {t n : Value} {cs : List Bytes} {q : Ptr}
    (h : locate ulongMax t cs = some (q, n)) : t.node q = some n := by
  induction cs generalizing t q with
  | nil =>
    cases h
    rfl
  | cons c cs ih =>
    simp only [locate, Option.bind_eq_bind, Option.bind_eq_some_iff] at h
    obtain ⟨r, hr, s, hs, heq⟩ := h
    cases heq
    rw [node_cons, (getChild_child hr).1]
    exact ih hs

/-- Where the components led, they lead to the node that now stands there. -/
theorem locate_replaceAt_self {ulongMax : ℕ} {t m n : Value} {cs : List Bytes} {q : Ptr}
    (h : locate ulongMax t cs = some (q, m)) (hlive : n.live = m.live) :
    locate ulongMax (t.replaceAt q n) cs = some (q, n) := by
  induction cs generalizing t q with
  | nil =>
    cases h
    rw [replaceAt_nil, locate]
  | cons c cs ih =>
    simp only [locate, Option.bind_eq_bind, Option.bind_eq_some_iff] at h ⊢
    obtain ⟨r, hr, s, hs, heq⟩ := h
    cases heq
    have hstep := getChild_replaceAt ulongMax (getChild_child hr).1 (locate_node hs) hlive c
    rw [hr, Option.map_some] at hstep
    exact ⟨_, hstep, (s.1, n), by simpa using ih hs, rfl⟩

/-- Any path shows in `t'` what it shows in `t`, unless it leads to the node at `pos`. -/
def Unchanged (ulongMax : ℕ) (pos : Ptr) (t t' : Value) : Prop :=
  ∀ cs, (locate ulongMax t cs).map Prod.fst ≠ some pos →
    (locate ulongMax t' cs).map (fun r => r.2.head) = (locate ulongMax t cs).map fun r => r.2.head

/-- What differs at one place differs nowhere else. -/
theorem Unchanged.replaceAt {ulongMax : ℕ} {t m n : Value} {q pos : Ptr}
    (h : Unchanged ulongMax pos m n) (hm : t.node q = some m) (hlive : n.live = m.live) :
    Unchanged ulongMax (q ++ pos) t (t.replaceAt q n) := by
  induction q generalizing t with
  | nil =>
    cases hm
    rwa [replaceAt_nil]
  | cons i q ih =>
    obtain ⟨c, hc, hm⟩ := Option.bind_eq_some_iff.1 hm
    intro cs hcs
    cases cs with
    | nil => simp only [locate, Option.map_some, head_replaceAt]
    | cons d ds =>
      have hstep := getChild_replaceAt ulongMax hc hm hlive d
      rw [locate, Option.bind_eq_bind] at hcs ⊢
      rw [locate, Option.bind_eq_bind, hstep]
      cases hd : (getChild ulongMax t d).1 with
      | none => rfl
      | some r =>
        simp only [hd, Option.map_some, Option.bind_some, Option.bind_eq_bind] at hcs ⊢
        by_cases hi : i = r.1
        · have hr : r.2 = c := by
            have := (getChild_child hd).1
            rw [← hi, hc] at this
            exact (Option.some_inj.1 this).symm
          rw [if_pos hi]
          have hds : (locate ulongMax c ds).map Prod.fst ≠ some (q ++ pos) := by
            intro heq
            obtain ⟨s, hs, hq⟩ := Option.map_eq_some_iff.1 heq
            exact hcs (by simp [hr, hs, hq, hi])
          have hsame := ih hm ds hds
          rw [hr]
          cases hl : locate ulongMax c ds <;>
            cases hl' : locate ulongMax (c.replaceAt q n) ds <;> simp_all
        · rw [if_neg hi]

/-! ### The lookup of `process` -/

/-- What a key resolves to: the result of `get` on the record of the key. -/
def resolve (ulongMax : ℕ) (t : Value) (key : Bytes) : Option (Ptr × Value) := do
  let p ← splitpath key maxTreePath
  let r ← get ulongMax (p.count - 1) t [] p 0
  r.child

/-- The container that is found for the components before the last one. -/
def parentOf (ulongMax : ℕ) (t : Value) (key : Bytes) : Option Ptr :=
  if 1 < (components key).length then
    (locate ulongMax t (components key).dropLast).map Prod.fst
  else none

/-- The last component. -/
def lastOf (key : Bytes) : Bytes := (components key).getLast (components_ne_nil key)

theorem length_components_pos (key : Bytes) : 0 < (components key).length :=
  List.length_pos_of_ne_nil (components_ne_nil key)

/-- The record after the lookup of a key. -/
def recordOf (ulongMax : ℕ) (t : Value) (key : Bytes) : Path :=
  let n := maxTreePath - (components key).length
  ⟨(components key).map some ++ List.replicate n none,
    places ulongMax t [] (components key) ++ List.replicate n none, (components key).length⟩

theorem splitpath_get (ulongMax : ℕ) (t : Value) {key : Bytes}
    (h : (components key).length ≤ maxTreePath) :
    ∃ p out, splitpath key maxTreePath = some p ∧ get ulongMax (p.count - 1) t [] p 0 =
      some ⟨recordOf ulongMax t key, locate ulongMax t (components key), out⟩ := by
  obtain ⟨c, cs, hcs⟩ := List.exists_cons_of_ne_nil (components_ne_nil key)
  have hm : cs.length ≤ maxTreePath - 1 := by
    rw [hcs, List.length_cons] at h
    omega
  obtain ⟨out, hget⟩ := get_eq ulongMax cs (c := c) t [] []
    (List.replicate (maxTreePath - (components key).length) none) [] rfl
    (components key).length (maxTreePath - 1) hm
  refine ⟨_, out, splitpath_eq h, ?_⟩
  have hid : (locate ulongMax t (c :: cs)).map (fun r => (([] : Ptr) ++ r.1, r.2)) =
      locate ulongMax t (c :: cs) := by
    simp
  rw [hid] at hget
  have hcount : (components key).length - 1 = cs.length := by rw [hcs, List.length_cons]; omega
  have hmax : maxTreePath - (components key).length = maxTreePath - 1 - cs.length := by
    rw [hcs, List.length_cons]
    omega
  rw [hcount, recordOf, hmax, hcs]
  rw [hmax] at hget
  simpa [maxTreePath, hcs] using hget

theorem resolve_eq (ulongMax : ℕ) (t : Value) {key : Bytes}
    (h : (components key).length ≤ maxTreePath) :
    resolve ulongMax t key = locate ulongMax t (components key) := by
  obtain ⟨p, out, hp, hget⟩ := splitpath_get ulongMax t h
  simp [resolve, hp, hget]

theorem recordOf_obj (ulongMax : ℕ) (t : Value) (key : Bytes) :
    (if 1 < (recordOf ulongMax t key).count then
      (recordOf ulongMax t key).obj[(recordOf ulongMax t key).count - 2]? else some none) =
      some (parentOf ulongMax t key) := by
  by_cases h : 1 < (components key).length
  · rw [if_pos (show 1 < (recordOf ulongMax t key).count from h), parentOf, if_pos h]
    simp only [recordOf]
    have hk : (components key).length - 2 < (components key).length := by omega
    have htake : (components key).take ((components key).length - 2 + 1) =
        (components key).dropLast := by
      rw [List.dropLast_eq_take]
      congr 1
      omega
    rw [List.getElem?_append_left (by rwa [length_places]), places_getElem? _ _ _ _ hk, htake]
    simp
  · rw [if_neg (show ¬ 1 < (recordOf ulongMax t key).count from h), parentOf, if_neg h]

theorem recordOf_part (ulongMax : ℕ) (t : Value) (key : Bytes) :
    (recordOf ulongMax t key).part[(recordOf ulongMax t key).count - 1]? =
      some (some (lastOf key)) := by
  have hpos := length_components_pos key
  have hk : (components key).length - 1 < ((components key).map some).length := by
    rw [List.length_map]
    omega
  simp only [recordOf]
  rw [List.getElem?_append_left hk, List.getElem?_map, lastOf, List.getLast_eq_getElem,
    List.getElem?_eq_getElem (by omega)]
  rfl

/-- **`process` after the lookup**, outside the search mode. -/
theorem process_eq (E : Libraries) {s : State} {arg key : Bytes} {value : Option Bytes}
    (hsearch : s.flags.searchMode = false)
    (harg : strsep (fun c => decide (c = 61)) arg = (key, value))
    (h : (components key).length ≤ maxTreePath) :
    ∃ out parent, process E s arg =
      dispatch E (s.print out) key value (recordOf E.ulongMax s.root key)
        ⟨(locate E.ulongMax s.root (components key)).map Prod.snd,
          parentOf E.ulongMax s.root key, parent, lastOf key⟩ := by
  obtain ⟨p, out, hp, hget⟩ := splitpath_get E.ulongMax s.root h
  have hcount : (recordOf E.ulongMax s.root key).count ≠ 0 := (length_components_pos key).ne'
  have hparent : ∃ parent, (if 1 < (recordOf E.ulongMax s.root key).count then
      (recordOf E.ulongMax s.root key).part[(recordOf E.ulongMax s.root key).count - 2]?
      else some none) = some parent := by
    split_ifs with h1
    · refine ⟨_, List.getElem?_eq_getElem ?_⟩
      simp only [recordOf, List.length_append, List.length_map] at h1 ⊢
      omega
    · exact ⟨_, rfl⟩
  obtain ⟨parent, hparent⟩ := hparent
  refine ⟨out, parent, ?_⟩
  rw [process, hsearch]
  simp only [Bool.false_eq_true, if_false, harg, hp, Option.bind_eq_bind, Option.bind_some, hget,
    if_neg hcount, recordOf_obj, hparent, recordOf_part]

end ZRouter.Json
