import ZRouter.Lib.Linked

/-!
# Doubly linked lists that share their cells

Any number of lists runs through the cells of a heap; a cell is in one of them at most, or loose.  A list
has a head somewhere else, and its cells are linked in both directions.

* `Threads`: the heads, and the cells of each list;
* `Threads.append`, `Threads.prepend`: a loose cell becomes the last, or the first, of a list;
* `Depth`: the number of steps that lead down to a cell; `Depth.append`: what a new child changes.
-/

namespace ZRouter.Cells

variable {α ι : Type}

/-- The lists of cells; `head i` leads to the first cell of `list i`. -/
structure Threads (h : Heap α) (head : ι → Option ℕ) (list : ι → List ℕ) : Prop where
  chain : ∀ i, Chain h (head i) (list i)
  nodup : ∀ i, (list i).Nodup
  unique : ∀ i j c, c ∈ list i → c ∈ list j → i = j
  inverse : ∀ a b, (h.cell a).next = some b ↔ (h.cell b).prev = some a
  first : ∀ i b, head i = some b → (h.cell b).prev = none
  loose : ∀ c, (∀ i, c ∉ list i) → (h.cell c).next = none ∧ (h.cell c).prev = none

/-- The head of a chain is its first cell. -/
theorem Chain.head_eq {h : Heap α} {p : Option ℕ} {l : List ℕ} (hc : Chain h p l) : p = l.head? := by
  cases l with
  | nil => exact hc
  | cons i l => exact hc.1

/-- A chain ends at a cell without a successor. -/
theorem Chain.next_last {h : Heap α} {p : Option ℕ} {l : List ℕ} {i : ℕ} (hc : Chain h p l)
    (hi : l.getLast? = some i) : (h.cell i).next = none := by
  induction l generalizing p with
  | nil => cases hi
  | cons j l ih =>
    cases l with
    | nil =>
      rw [List.getLast?_singleton, Option.some.injEq] at hi
      rw [← hi]
      exact hc.2
    | cons k l =>
      rw [List.getLast?_cons_cons] at hi
      exact ih hc.2 hi

namespace Threads

variable {h h' : Heap α} {head head' : ι → Option ℕ} {list : ι → List ℕ} {i : ι} {c : ℕ}

/-- The first cell of a list. -/
theorem mem_of_head (ht : Threads h head list) {b : ℕ} (hb : head i = some b) : b ∈ list i := by
  rw [(ht.chain i).head_eq] at hb
  exact List.mem_of_mem_head? hb

/-- A cell that no head leads to, and no other cell, is loose. -/
theorem notMem (ht : Threads h head list) (hhead : head i ≠ some c) (hprev : (h.cell c).prev = none) :
    c ∉ list i := by
  have key : ∀ (l : List ℕ) (p : Option ℕ), Chain h p l → p ≠ some c → c ∉ l := by
    intro l
    induction l with
    | nil => intro p _ _; exact List.not_mem_nil
    | cons j l ih =>
      intro p hc hp
      obtain ⟨rfl, hc⟩ := hc
      have hnext : (h.cell j).next ≠ some c := by
        intro hnext
        rw [(ht.inverse j c).1 hnext] at hprev
        cases hprev
      rw [List.mem_cons, not_or]
      exact ⟨fun heq => hp (by rw [heq]), ih _ hc hnext⟩
  exact key (list i) (head i) (ht.chain i) hhead

/-- Where the links are the same, the lists are. -/
theorem congr (ht : Threads h head list) (hnext : ∀ j, (h'.cell j).next = (h.cell j).next)
    (hprev : ∀ j, (h'.cell j).prev = (h.cell j).prev) (hhead : ∀ i, head' i = head i) :
    Threads h' head' list where
  chain i := by
    rw [hhead]
    exact (ht.chain i).congr fun j _ => hnext j
  nodup := ht.nodup
  unique := ht.unique
  inverse a b := by
    rw [hnext, hprev]
    exact ht.inverse a b
  first i b hb := by
    rw [hhead] at hb
    rw [hprev]
    exact ht.first i b hb
  loose c hc := by
    rw [hnext, hprev]
    exact ht.loose c hc

variable [DecidableEq ι]

/-- The cells of the lists, with one more in one of them. -/
theorem mem_update {l : List ℕ} {j : ι} {b : ℕ} (hl : ∀ b, b ∈ l ↔ b = c ∨ b ∈ list i) :
    b ∈ Function.update list i l j ↔ (b = c ∧ j = i) ∨ b ∈ list j := by
  by_cases hj : j = i
  · subst hj
    rw [Function.update_self, hl]
    simp
  · rw [Function.update_of_ne hj]
    simp [hj]

/-- A loose cell in one list is there only. -/
theorem unique_update (ht : Threads h head list) (hc : ∀ j, c ∉ list j) {l : List ℕ}
    (hl : ∀ b, b ∈ l ↔ b = c ∨ b ∈ list i) (j k : ι) (b : ℕ) (hj : b ∈ Function.update list i l j)
    (hk : b ∈ Function.update list i l k) : j = k := by
  rw [mem_update hl] at hj hk
  rcases hj with ⟨rfl, rfl⟩ | hj
  · rcases hk with ⟨-, rfl⟩ | hk
    · rfl
    · exact absurd hk (hc k)
  · rcases hk with ⟨rfl, rfl⟩ | hk
    · exact absurd hj (hc j)
    · exact ht.unique j k b hj hk

/-- **A loose cell becomes the last of a list.** -/
theorem append (ht : Threads h head list) (hc : ∀ j, c ∉ list j)
    (hhead : ∀ j, head' j = if j = i ∧ list i = [] then some c else head j)
    (hnext : ∀ j, (h'.cell j).next = if (list i).getLast? = some j then some c else (h.cell j).next)
    (hprev : ∀ j, (h'.cell j).prev = if j = c then (list i).getLast? else (h.cell j).prev) :
    Threads h' head' (Function.update list i (list i ++ [c])) := by
  have hmem : ∀ b, b ∈ list i ++ [c] ↔ b = c ∨ b ∈ list i := by
    intro b
    rw [List.mem_append, List.mem_singleton, or_comm]
  obtain ⟨hcnext, hcprev⟩ := ht.loose c hc
  have hlast : (list i).getLast? ≠ some c := fun hlast => hc i (List.mem_of_getLast? hlast)
  have hcnext' : (h'.cell c).next = none := by rw [hnext, if_neg hlast, hcnext]
  refine ⟨?_, ?_, ht.unique_update hc hmem, ?_, ?_, ?_⟩
  · intro j
    rw [hhead]
    by_cases hj : j = i
    · subst hj
      rw [Function.update_self]
      rcases List.eq_nil_or_concat (list j) with hnil | ⟨l, last, hl⟩
      · rw [if_pos ⟨rfl, hnil⟩, hnil]
        exact ⟨rfl, hcnext'⟩
      · have hnodup := ht.nodup j
        have hchain := ht.chain j
        rw [List.concat_eq_append] at hl
        rw [hl] at hnodup hchain hnext ⊢
        rw [if_neg (by simp)]
        refine hchain.concat (by rw [hnext]; simp) hcnext' fun k hk => ?_
        have hne : k ≠ last := by
          rintro rfl
          exact (List.nodup_append.1 hnodup).2.2 k hk k (by simp) rfl
        rw [hnext, if_neg (by simpa using hne.symm)]
    · rw [Function.update_of_ne hj, if_neg fun hif => hj hif.1]
      refine (ht.chain j).congr fun k hk => ?_
      rw [hnext, if_neg fun hlast => hj (ht.unique j i k hk (List.mem_of_getLast? hlast))]
  · intro j
    by_cases hj : j = i
    · subst hj
      rw [Function.update_self, List.nodup_append]
      refine ⟨ht.nodup j, List.nodup_singleton c, ?_⟩
      rintro b hb d hd rfl
      exact hc j (List.mem_singleton.1 hd ▸ hb)
    · rw [Function.update_of_ne hj]
      exact ht.nodup j
  · intro a b
    rw [hnext, hprev]
    by_cases hb : b = c
    · subst hb
      rw [if_pos rfl]
      by_cases ha : (list i).getLast? = some a
      · simp [ha]
      · rw [if_neg ha, ht.inverse, hcprev]
        simp [ha]
    · rw [if_neg hb, ← ht.inverse]
      by_cases ha : (list i).getLast? = some a
      · rw [if_pos ha, (ht.chain i).next_last ha]
        simpa using Ne.symm hb
      · rw [if_neg ha]
  · intro j b hb
    rw [hhead] at hb
    rw [hprev]
    split_ifs at hb with hj
    · cases hb
      rw [if_pos rfl, hj.2, List.getLast?_nil]
    · have hne : b ≠ c := fun heq => hc j (heq ▸ ht.mem_of_head hb)
      rw [if_neg hne]
      exact ht.first j b hb
  · intro b hb
    have hout : ∀ j, b ∉ list j := fun j hj => hb j ((mem_update hmem).2 (Or.inr hj))
    have hne : b ≠ c := fun heq => hb i ((mem_update hmem).2 (Or.inl ⟨heq, rfl⟩))
    rw [hnext, hprev, if_neg hne, if_neg fun hlast => hout i (List.mem_of_getLast? hlast)]
    exact ht.loose b hout

/-- **A loose cell becomes the first of a list.** -/
theorem prepend (ht : Threads h head list) (hc : ∀ j, c ∉ list j)
    (hhead : ∀ j, head' j = if j = i then some c else head j)
    (hnext : ∀ j, (h'.cell j).next = if j = c then head i else (h.cell j).next)
    (hprev : ∀ j, (h'.cell j).prev = if head i = some j then some c else (h.cell j).prev) :
    Threads h' head' (Function.update list i (c :: list i)) := by
  have hmem : ∀ b, b ∈ c :: list i ↔ b = c ∨ b ∈ list i := fun b => List.mem_cons
  obtain ⟨hcnext, hcprev⟩ := ht.loose c hc
  have hkeep : ∀ j, ∀ k ∈ list j, (h'.cell k).next = (h.cell k).next := by
    intro j k hk
    rw [hnext, if_neg]
    rintro rfl
    exact hc j hk
  refine ⟨?_, ?_, ht.unique_update hc hmem, ?_, ?_, ?_⟩
  · intro j
    rw [hhead]
    by_cases hj : j = i
    · subst hj
      rw [Function.update_self, if_pos rfl]
      refine ⟨rfl, ?_⟩
      rw [hnext, if_pos rfl]
      exact (ht.chain j).congr (hkeep j)
    · rw [Function.update_of_ne hj, if_neg hj]
      exact (ht.chain j).congr (hkeep j)
  · intro j
    by_cases hj : j = i
    · subst hj
      rw [Function.update_self]
      exact List.nodup_cons.2 ⟨hc j, ht.nodup j⟩
    · rw [Function.update_of_ne hj]
      exact ht.nodup j
  · intro a b
    rw [hnext, hprev]
    by_cases ha : a = c
    · subst ha
      rw [if_pos rfl]
      by_cases hb : head i = some b
      · simp [hb]
      · rw [if_neg hb, ← ht.inverse, hcnext]
        simp [hb]
    · rw [if_neg ha]
      by_cases hb : head i = some b
      · rw [if_pos hb, ht.inverse, ht.first i b hb]
        simpa using Ne.symm ha
      · rw [if_neg hb, ht.inverse]
  · intro j b hb
    rw [hhead] at hb
    rw [hprev]
    split_ifs at hb with hj
    · cases hb
      rw [if_neg fun heq => hc i (ht.mem_of_head heq), hcprev]
    · rw [if_neg fun heq => hj (ht.unique j i b (ht.mem_of_head hb) (ht.mem_of_head heq))]
      exact ht.first j b hb
  · intro b hb
    have hout : ∀ j, b ∉ list j := fun j hj => hb j ((mem_update hmem).2 (Or.inr hj))
    have hne : b ≠ c := fun heq => hb i ((mem_update hmem).2 (Or.inl ⟨heq, rfl⟩))
    rw [hnext, hprev, if_neg hne, if_neg fun heq => hout i (ht.mem_of_head heq)]
    exact ht.loose b hout

end Threads

/-! ### Depth -/

/-- So many steps lead down to a cell, from one that is nobody's child. -/
inductive Depth (kids : ℕ → List ℕ) : ℕ → ℕ → Prop
  | top {n : ℕ} : (∀ p, n ∉ kids p) → Depth kids n 0
  | child {p n d : ℕ} : Depth kids p d → n ∈ kids p → Depth kids n (d + 1)

/-- A new child of `p` that has no children itself. -/
theorem Depth.append {kids : ℕ → List ℕ} {p new n d : ℕ} (hd : Depth kids n d) (hne : n ≠ new)
    (hnew : kids new = []) : Depth (Function.update kids p (kids p ++ [new])) n d := by
  induction hd with
  | @top n htop =>
    refine .top fun q hq => ?_
    by_cases hqp : q = p
    · subst hqp
      rw [Function.update_self, List.mem_append, List.mem_singleton] at hq
      exact hq.elim (htop q) hne
    · rw [Function.update_of_ne hqp] at hq
      exact htop q hq
  | @child q n d _ hn ih =>
    have hq : q ≠ new := by
      rintro rfl
      rw [hnew] at hn
      exact absurd hn List.not_mem_nil
    refine .child (ih hq) ?_
    by_cases hqp : q = p
    · subst hqp
      rw [Function.update_self]
      exact List.mem_append_left _ hn
    · rw [Function.update_of_ne hqp]
      exact hn

end ZRouter.Cells
