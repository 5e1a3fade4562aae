import Mathlib

/-!
# Trees of linked cells

A cell of a heap points to its parent, to its neighbours and to its first child; the children of a
cell are the chain that starts there.

* `Heap`, `Heap.modify`, `Heap.alloc`, `Heap.find`: cells and the loop along a chain;
* `Cell.hung`: a cell when a new child hangs behind the last one;
* `Chain`: the cells that such a loop visits;
* `Linked`: the heap holds a tree, with lists of children;
* `Linked.congr`, `Linked.graft`: writing data, and hanging a new cell behind the last child;
* `reach`: the cell at a path of keys.
-/

namespace ZRouter.Cells

variable {α β : Type}

/-- A cell with its data and its pointers. -/
structure Cell (α : Type) where
  data : α
  parent : Option ℕ
  prev : Option ℕ
  next : Option ℕ
  firstChild : Option ℕ

/-- The cells up to `size` are allocated. -/
@[ext]
structure Heap (α : Type) where
  size : ℕ
  cell : ℕ → Cell α

/-- Writing to a cell. -/
def Heap.modify (h : Heap α) (i : ℕ) (f : Cell α → Cell α) : Heap α :=
  { h with cell := Function.update h.cell i (f (h.cell i)) }

/-- A new cell; its address is the old `size`. -/
def Heap.alloc (h : Heap α) (c : Cell α) : Heap α := ⟨h.size + 1, Function.update h.cell h.size c⟩

/-- The cell at `j` when `new` has become a child of `p`, behind the child `last` if there is one. -/
def Cell.hung (p new : ℕ) (last : Option ℕ) (j : ℕ) (c : Cell α) : Cell α :=
  { c with
    parent := if j = new then some p else c.parent
    prev := if j = new then last else c.prev
    next := if last = some j then some new else c.next
    firstChild := if j = p ∧ last = none then some new else c.firstChild }

/-- The loop along a chain, up to the first cell with `p`.  The first argument bounds it. -/
def Heap.find (h : Heap α) (p : Cell α → Bool) : ℕ → Option ℕ → Option ℕ
  | _, none => none
  | 0, some _ => none
  | n + 1, some i => if p (h.cell i) then some i else h.find p n (h.cell i).next

@[simp] theorem Heap.modify_size (h : Heap α) (i : ℕ) (f : Cell α → Cell α) :
    (h.modify i f).size = h.size := rfl

@[simp] theorem Heap.modify_self (h : Heap α) (i : ℕ) (f : Cell α → Cell α) :
    (h.modify i f).cell i = f (h.cell i) := Function.update_self ..

theorem Heap.modify_of_ne (h : Heap α) {i j : ℕ} (f : Cell α → Cell α) (hij : j ≠ i) :
    (h.modify i f).cell j = h.cell j := Function.update_of_ne hij ..

/-- A cell after writing. -/
theorem Heap.modify_cell (h : Heap α) (i : ℕ) (f : Cell α → Cell α) (j : ℕ) :
    (h.modify i f).cell j = if j = i then f (h.cell j) else h.cell j := by
  split_ifs with hj
  · rw [hj, h.modify_self]
  · exact h.modify_of_ne f hj

@[simp] theorem Heap.alloc_size (h : Heap α) (c : Cell α) : (h.alloc c).size = h.size + 1 := rfl

@[simp] theorem Heap.alloc_self (h : Heap α) (c : Cell α) : (h.alloc c).cell h.size = c :=
  Function.update_self ..

theorem Heap.alloc_of_ne (h : Heap α) (c : Cell α) {j : ℕ} (hj : j ≠ h.size) :
    (h.alloc c).cell j = h.cell j := Function.update_of_ne hj ..

/-! ### Chains -/

/-- The cells of a list are linked by `next`, from `p` on. -/
def Chain (h : Heap α) : Option ℕ → List ℕ → Prop
  | p, [] => p = none
  | p, i :: l => p = some i ∧ Chain h (h.cell i).next l

theorem Chain.congr {h h' : Heap α} {p : Option ℕ} {l : List ℕ} (hc : Chain h p l)
    (hnext : ∀ i ∈ l, (h'.cell i).next = (h.cell i).next) : Chain h' p l := by
  induction l generalizing p with
  | nil => exact hc
  | cons i l ih =>
    refine ⟨hc.1, ?_⟩
    rw [hnext i List.mem_cons_self]
    exact ih hc.2 fun j hj => hnext j (List.mem_cons_of_mem i hj)

/-- The chain behind one of its cells. -/
theorem Chain.behind {h : Heap α} {p : Option ℕ} {l l' : List ℕ} {i : ℕ} (hc : Chain h p (l ++ i :: l')) :
    Chain h (h.cell i).next l' := by
  induction l generalizing p with
  | nil => exact hc.2
  | cons j l ih => exact ih hc.2

/-- The loop finds what a search in the list finds. -/
theorem Chain.find {h : Heap α} {p : Option ℕ} {l : List ℕ} (hc : Chain h p l)
    (q : Cell α → Bool) {n : ℕ} (hn : l.length ≤ n) :
    h.find q n p = l.find? fun i => q (h.cell i) := by
  induction l generalizing p n with
  | nil =>
    rw [Chain] at hc
    subst hc
    rw [Heap.find]
    rfl
  | cons i l ih =>
    obtain ⟨rfl, hc⟩ := hc
    cases n with
    | zero => simp at hn
    | succ n =>
      rw [Heap.find, List.find?_cons, ih hc (by simpa using hn)]
      cases q (h.cell i) <;> rfl

/-- The only cell of a chain without a successor is the last one. -/
theorem Chain.find_last {h : Heap α} {p : Option ℕ} {l : List ℕ} {i : ℕ}
    (hc : Chain h p (l ++ [i])) :
    ((l ++ [i]).find? fun j => (h.cell j).next.isNone) = some i := by
  induction l generalizing p with
  | nil =>
    have hnone : (h.cell i).next = none := hc.2
    simp [hnone]
  | cons j l ih =>
    obtain ⟨-, hc⟩ := hc
    have hsome : (h.cell j).next.isNone = false := by
      cases l with
      | nil => rw [hc.1]; rfl
      | cons j' l => rw [hc.1]; rfl
    rw [List.cons_append, List.find?_cons, hsome]
    exact ih hc

/-- A chain grows at its end. -/
theorem Chain.concat {h h' : Heap α} {p : Option ℕ} {l : List ℕ} {i new : ℕ}
    (hc : Chain h p (l ++ [i])) (hi : (h'.cell i).next = some new)
    (hnew : (h'.cell new).next = none)
    (hnext : ∀ j ∈ l, (h'.cell j).next = (h.cell j).next) : Chain h' p (l ++ [i] ++ [new]) := by
  induction l generalizing p with
  | nil => exact ⟨hc.1, hi, hnew⟩
  | cons j l ih =>
    refine ⟨hc.1, ?_⟩
    rw [hnext j List.mem_cons_self]
    exact ih hc.2 fun j hj => hnext j (List.mem_cons_of_mem _ hj)

/-! ### Trees -/

/-- The heap holds trees, one of them at `root`; `kids` are the children.  No cell stands twice among
the children of a cell, and children point back to their parent. -/
structure Linked (h : Heap α) (root : ℕ) (kids : ℕ → List ℕ) : Prop where
  root_lt : root < h.size
  root_parent : (h.cell root).parent = none
  chain : ∀ i < h.size, Chain h (h.cell i).firstChild (kids i)
  nodup : ∀ i < h.size, (kids i).Nodup
  kid_lt : ∀ i < h.size, ∀ c ∈ kids i, c < h.size
  kid_parent : ∀ i < h.size, ∀ c ∈ kids i, (h.cell c).parent = some i

namespace Linked

variable {h h' : Heap α} {root : ℕ} {kids : ℕ → List ℕ}

/-- A list of children is not longer than the heap, so that the loop along it ends. -/
theorem length_le (hl : Linked h root kids) {i : ℕ} (hi : i < h.size) :
    (kids i).length ≤ h.size := by
  have hsub : kids i ⊆ List.range h.size := fun c hc => List.mem_range.2 (hl.kid_lt i hi c hc)
  have hle := ((hl.nodup i hi).subperm hsub).length_le
  rwa [List.length_range] at hle

theorem find (hl : Linked h root kids) {i : ℕ} (hi : i < h.size) (q : Cell α → Bool) :
    h.find q h.size (h.cell i).firstChild = (kids i).find? fun c => q (h.cell c) :=
  (hl.chain i hi).find q (hl.length_le hi)

/-- Writing data leaves the tree. -/
theorem congr (hl : Linked h root kids) (hsize : h'.size = h.size)
    (hparent : ∀ i, (h'.cell i).parent = (h.cell i).parent)
    (hnext : ∀ i, (h'.cell i).next = (h.cell i).next)
    (hfirst : ∀ i, (h'.cell i).firstChild = (h.cell i).firstChild) : Linked h' root kids where
  root_lt := by rw [hsize]; exact hl.root_lt
  root_parent := by rw [hparent]; exact hl.root_parent
  chain i hi := by
    rw [hsize] at hi
    rw [hfirst]
    exact (hl.chain i hi).congr fun j _ => hnext j
  nodup i hi := hl.nodup i (by rwa [hsize] at hi)
  kid_lt i hi c hc := by rw [hsize] at hi ⊢; exact hl.kid_lt i hi c hc
  kid_parent i hi c hc := by rw [hsize] at hi; rw [hparent]; exact hl.kid_parent i hi c hc

/-- The lists of children with `new` behind the last child of `p`. -/
def grown (kids : ℕ → List ℕ) (p new : ℕ) : ℕ → List ℕ :=
  Function.update (Function.update kids new []) p (kids p ++ [new])

@[simp] theorem grown_self (p new : ℕ) : grown kids p new p = kids p ++ [new] :=
  Function.update_self ..

theorem grown_new {p new : ℕ} (hne : new ≠ p) : grown kids p new new = [] := by
  rw [grown, Function.update_of_ne hne, Function.update_self]

theorem grown_of_ne {p new i : ℕ} (hp : i ≠ p) (hnew : i ≠ new) : grown kids p new i = kids i := by
  rw [grown, Function.update_of_ne hp, Function.update_of_ne hnew]

/-- Only the new child was not there before. -/
theorem mem_grown {p new i c : ℕ} (hne : new ≠ p) (hc : c ∈ grown kids p new i) :
    (i ≠ new ∧ c ∈ kids i) ∨ (i = p ∧ c = new) := by
  by_cases hp : i = p
  · subst hp
    rw [grown_self, List.mem_append, List.mem_singleton] at hc
    exact hc.imp (fun hc => ⟨hne.symm, hc⟩) fun hc => ⟨rfl, hc⟩
  · by_cases hnew : i = new
    · rw [hnew, grown_new hne] at hc
      exact absurd hc List.not_mem_nil
    · rw [grown_of_ne hp hnew] at hc
      exact Or.inl ⟨hnew, hc⟩

/-- A new cell behind the last child of `p`. -/
theorem graft (hl : Linked h root kids) {p : ℕ} (hp : p < h.size) (hsize : h'.size = h.size + 1)
    (hparent : ∀ i < h.size, (h'.cell i).parent = (h.cell i).parent)
    (hfirst : ∀ i < h.size, (h'.cell i).firstChild =
      if i = p ∧ kids p = [] then some h.size else (h.cell i).firstChild)
    (hnext : ∀ i < h.size, (h'.cell i).next =
      if (kids p).getLast? = some i then some h.size else (h.cell i).next)
    (hnew : (h'.cell h.size).parent = some p ∧ (h'.cell h.size).next = none ∧
      (h'.cell h.size).firstChild = none) :
    Linked h' root (grown kids p h.size) := by
  have hne : h.size ≠ p := (Nat.ne_of_lt hp).symm
  have hold : ∀ i < h'.size, i ≠ h.size → i < h.size := by
    intro i hi hinew
    omega
  refine ⟨by have := hl.root_lt; omega, ?_, ?_, ?_, ?_, ?_⟩
  · rw [hparent root hl.root_lt]
    exact hl.root_parent
  · intro i hi
    by_cases hinew : i = h.size
    · rw [hinew, grown_new hne, hnew.2.2]
      exact rfl
    have hi := hold i hi hinew
    by_cases hip : i = p
    · subst hip
      rw [grown_self, hfirst i hi]
      rcases List.eq_nil_or_concat (kids i) with hnil | ⟨l, j, hlj⟩
      · rw [if_pos ⟨rfl, hnil⟩, hnil]
        exact ⟨rfl, hnew.2.1⟩
      · rw [List.concat_eq_append] at hlj
        have hj : j < h.size := hl.kid_lt i hi j (by rw [hlj]; simp)
        have hnodup := hl.nodup i hi
        have hc := hl.chain i hi
        rw [hlj] at hnodup hc ⊢
        rw [if_neg (by simp)]
        refine hc.concat (by rw [hnext j hj, hlj]; simp) hnew.2.1 fun j' hj' => ?_
        have hne' : j' ≠ j := by
          rintro rfl
          exact (List.nodup_append.1 hnodup).2.2 j' hj' j' (by simp) rfl
        rw [hnext j' (hl.kid_lt i hi j' (by rw [hlj]; simp [hj'])), hlj, if_neg]
        simpa using hne'.symm
    · rw [grown_of_ne hip hinew, hfirst i hi, if_neg (by simp [hip])]
      refine (hl.chain i hi).congr fun j hj => ?_
      rw [hnext j (hl.kid_lt i hi j hj), if_neg]
      -- a child of another cell is not the last child of `p`
      intro hlast
      have h1 := hl.kid_parent i hi j hj
      rw [hl.kid_parent p hp j (List.mem_of_getLast? hlast), Option.some.injEq] at h1
      exact hip h1.symm
  · intro i hi
    by_cases hinew : i = h.size
    · rw [hinew, grown_new hne]
      exact List.nodup_nil
    have hi := hold i hi hinew
    by_cases hip : i = p
    · subst hip
      rw [grown_self, List.nodup_append]
      refine ⟨hl.nodup i hi, by simp, fun c hc d hd => ?_⟩
      rw [List.mem_singleton.1 hd]
      exact (hl.kid_lt i hi c hc).ne
    · rw [grown_of_ne hip hinew]
      exact hl.nodup i hi
  · intro i hi c hc
    rcases mem_grown hne hc with ⟨hinew, hc⟩ | ⟨-, rfl⟩
    · have := hl.kid_lt i (hold i hi hinew) c hc
      omega
    · omega
  · intro i hi c hc
    rcases mem_grown hne hc with ⟨hinew, hc⟩ | ⟨rfl, rfl⟩
    · have hi := hold i hi hinew
      rw [hparent c (hl.kid_lt i hi c hc)]
      exact hl.kid_parent i hi c hc
    · exact hnew.1

end Linked

/-! ### Paths -/

section Reach

variable [DecidableEq β] (key : ℕ → β) (kids : ℕ → List ℕ) (root : ℕ)

/-- The cell at a path of keys; at each step the first child with the key is taken. -/
def reach (path : List β) : Option ℕ :=
  path.foldlM (fun i a => (kids i).find? (key · = a)) root

@[simp] theorem reach_nil : reach key kids root [] = some root := rfl

theorem reach_concat (path : List β) (a : β) : reach key kids root (path ++ [a]) =
    (reach key kids root path).bind fun i => (kids i).find? (key · = a) := by
  simp [reach, List.foldlM_append]

variable {key kids root} {h : Heap α}

/-- The last step of a path. -/
theorem reach_concat_eq_some {path : List β} {a : β} {n : ℕ}
    (hr : reach key kids root (path ++ [a]) = some n) :
    ∃ i, reach key kids root path = some i ∧ (kids i).find? (key · = a) = some n := by
  rwa [reach_concat, Option.bind_eq_some_iff] at hr

theorem reach_lt (hl : Linked h root kids) {path : List β} {n : ℕ}
    (hr : reach key kids root path = some n) : n < h.size := by
  induction path using List.reverseRecOn generalizing n with
  | nil =>
    rw [reach_nil, Option.some.injEq] at hr
    rw [← hr]
    exact hl.root_lt
  | append_singleton path a ih =>
    obtain ⟨i, hi, hn⟩ := reach_concat_eq_some hr
    exact hl.kid_lt i (ih hi) n (List.mem_of_find?_eq_some hn)

/-- A cell is reached by one path only. -/
theorem reach_inj (hl : Linked h root kids) {p q : List β} {n : ℕ}
    (hp : reach key kids root p = some n) (hq : reach key kids root q = some n) : p = q := by
  have hroot : ∀ (q : List β) (a : β), reach key kids root (q ++ [a]) ≠ some root := by
    intro q a hq
    obtain ⟨i, hi, hn⟩ := reach_concat_eq_some hq
    have hpar := hl.kid_parent i (reach_lt hl hi) root (List.mem_of_find?_eq_some hn)
    rw [hl.root_parent] at hpar
    cases hpar
  induction p using List.reverseRecOn generalizing q n with
  | nil =>
    rw [reach_nil, Option.some.injEq] at hp
    subst hp
    rcases List.eq_nil_or_concat q with rfl | ⟨q, b, rfl⟩
    · rfl
    · rw [List.concat_eq_append] at hq
      exact absurd hq (hroot q b)
  | append_singleton p a ih =>
    rcases List.eq_nil_or_concat q with rfl | ⟨q, b, rfl⟩
    · rw [reach_nil, Option.some.injEq] at hq
      subst hq
      exact absurd hp (hroot p a)
    · rw [List.concat_eq_append] at hq ⊢
      obtain ⟨i, hi, hn⟩ := reach_concat_eq_some hp
      obtain ⟨j, hj, hm⟩ := reach_concat_eq_some hq
      -- both paths go through the parent of the cell
      have hpar := hl.kid_parent i (reach_lt hl hi) n (List.mem_of_find?_eq_some hn)
      rw [hl.kid_parent j (reach_lt hl hj) n (List.mem_of_find?_eq_some hm),
        Option.some.injEq] at hpar
      subst hpar
      rw [ih hi hj]
      have ha : key n = a := by simpa using List.find?_some hn
      have hb : key n = b := by simpa using List.find?_some hm
      rw [← ha, ← hb]

/-- A path leads where it led before if children are only appended. -/
theorem reach_mono (hl : Linked h root kids) {key' : ℕ → β} {kids' : ℕ → List ℕ}
    (hkey : ∀ i < h.size, key' i = key i) (hkids : ∀ i < h.size, kids i <+: kids' i)
    {path : List β} {n : ℕ} (hr : reach key kids root path = some n) :
    reach key' kids' root path = some n := by
  induction path using List.reverseRecOn generalizing n with
  | nil => exact hr
  | append_singleton path a ih =>
    obtain ⟨i, hi, hn⟩ := reach_concat_eq_some hr
    have hilt := reach_lt hl hi
    obtain ⟨new, hnew⟩ := hkids i hilt
    have hcongr : (kids i).find? (key' · = a) = (kids i).find? (key · = a) := by
      refine List.find?_congr fun c hc => ?_
      rw [hkey c (hl.kid_lt i hilt c hc)]
    rw [reach_concat, ih hi, Option.bind_some, ← hnew, List.find?_append, hcongr, hn]
    rfl

/-- After a graft a path leads where it led before, or to the new cell. -/
theorem reach_graft (hl : Linked h root kids) {key' : ℕ → β}
    (hkey : ∀ i < h.size, key' i = key i) {path : List β} {p m : ℕ}
    (hp : reach key kids root path = some p) {q : List β}
    (hr : reach key' (Linked.grown kids p h.size) root q = some m) :
    reach key kids root q = some m ∨ (q = path ++ [key' h.size] ∧ m = h.size) := by
  have hne : h.size ≠ p := (reach_lt hl hp).ne'
  induction q using List.reverseRecOn generalizing m with
  | nil => exact Or.inl hr
  | append_singleton q a ih =>
    obtain ⟨i, hi, hm⟩ := reach_concat_eq_some hr
    rcases ih hi with hq | ⟨-, rfl⟩
    · have hilt := reach_lt hl hq
      have hcongr : (kids i).find? (key' · = a) = (kids i).find? (key · = a) := by
        refine List.find?_congr fun c hc => ?_
        rw [hkey c (hl.kid_lt i hilt c hc)]
      by_cases hip : i = p
      · subst hip
        rw [Linked.grown_self, List.find?_append, hcongr, Option.or_eq_some_iff] at hm
        rcases hm with hm | ⟨-, hm⟩
        · left
          rw [reach_concat, hq, Option.bind_some, hm]
        · right
          have hmem := List.mem_singleton.1 (List.mem_of_find?_eq_some hm)
          have ha : key' m = a := by simpa using List.find?_some hm
          rw [← ha, hmem, reach_inj hl hq hp]
          exact ⟨rfl, rfl⟩
      · left
        rw [Linked.grown_of_ne hip hilt.ne, hcongr] at hm
        rw [reach_concat, hq, Option.bind_some, hm]
    · rw [Linked.grown_new hne] at hm
      cases hm

end Reach

end ZRouter.Cells
