import ZRouter.Lib.Linked

/-!
# Heaps with other addresses

Two heaps hold the same linked cells at different addresses, with data of different kinds.  A map takes the
live addresses of the one to those of the other, and the pointers follow it.

* `Cell.pointers`, `Cell.moved`: where a cell points to, and the cell elsewhere;
* `Relocated`: the live cells of a heap, elsewhere;
* `Relocated.chain`, `Relocated.length_le`: chains, and their lengths;
* `Relocated.alloc`, `Relocated.modify`, `Relocated.hung`: new cells, new data, new children;
* `reach_moved`: paths.
-/

namespace ZRouter.Cells

variable {α β : Type}

/-- The addresses in a cell. -/
def Cell.pointers (c : Cell α) : List ℕ :=
  c.parent.toList ++ c.prev.toList ++ c.next.toList ++ c.firstChild.toList

/-- The cell at other addresses, with other data. -/
def Cell.moved (σ : ℕ → ℕ) (d : β) (c : Cell α) : Cell β :=
  ⟨d, c.parent.map σ, c.prev.map σ, c.next.map σ, c.firstChild.map σ⟩

/-- Only one list is the chain from a pointer on. -/
theorem Chain.unique {h : Heap α} {p : Option ℕ} {l l' : List ℕ} (hc : Chain h p l) (hc' : Chain h p l') :
    l = l' := by
  induction l generalizing p l' with
  | nil =>
    cases l' with
    | nil => rfl
    | cons i l' => cases hc.symm.trans hc'.1
  | cons i l ih =>
    cases l' with
    | nil => cases hc.1.symm.trans hc'
    | cons j l' =>
      obtain rfl := Option.some.inj (hc.1.symm.trans hc'.1)
      rw [ih hc.2 hc'.2]

theorem Cell.mem_pointers {c : Cell α} {p : ℕ} : p ∈ c.pointers ↔
    c.parent = some p ∨ c.prev = some p ∨ c.next = some p ∨ c.firstChild = some p := by
  simp [Cell.pointers]

/-- Only the addresses in the cell count. -/
theorem Cell.moved_congr {σ σ' : ℕ → ℕ} {c : Cell α} (h : ∀ p ∈ c.pointers, σ' p = σ p) (d : β) :
    c.moved σ' d = c.moved σ d := by
  have hmap : ∀ x : Option ℕ, (∀ p, x = some p → p ∈ c.pointers) → x.map σ' = x.map σ := by
    intro x hx
    cases x with
    | none => rfl
    | some p => exact congrArg some (h p (hx p rfl))
  rw [Cell.moved, Cell.moved, hmap c.parent, hmap c.prev, hmap c.next, hmap c.firstChild]
  · exact fun p hp => Cell.mem_pointers.2 (.inr (.inr (.inr hp)))
  · exact fun p hp => Cell.mem_pointers.2 (.inr (.inr (.inl hp)))
  · exact fun p hp => Cell.mem_pointers.2 (.inr (.inl hp))
  · exact fun p hp => Cell.mem_pointers.2 (.inl hp)

/-- The live cells of `h` are in `t`, at the addresses that `σ` gives, with the data `data`. -/
structure Relocated (σ : ℕ → ℕ) (live : Set ℕ) (data : ℕ → β) (h : Heap α) (t : Heap β) : Prop where
  lt : ∀ n ∈ live, n < h.size
  moved_lt : ∀ n ∈ live, σ n < t.size
  inj : Set.InjOn σ live
  closed : ∀ n ∈ live, ∀ p ∈ (h.cell n).pointers, p ∈ live
  cell : ∀ n ∈ live, t.cell (σ n) = (h.cell n).moved σ (data n)

namespace Relocated

variable {σ : ℕ → ℕ} {live : Set ℕ} {data : ℕ → β} {h h' : Heap α} {t t' : Heap β}

theorem chain (hr : Relocated σ live data h t) {p : Option ℕ} {l : List ℕ} (hc : Chain h p l)
    (hl : ∀ i ∈ l, i ∈ live) : Chain t (p.map σ) (l.map σ) := by
  induction l generalizing p with
  | nil =>
    rw [show p = none from hc]
    exact rfl
  | cons j l ih =>
    obtain ⟨rfl, hc⟩ := hc
    obtain ⟨hj, hl⟩ := List.forall_mem_cons.1 hl
    refine ⟨rfl, ?_⟩
    rw [hr.cell j hj]
    exact ih hc hl

theorem nodup (hr : Relocated σ live data h t) {l : List ℕ} (hl : ∀ i ∈ l, i ∈ live) (hnodup : l.Nodup) :
    (l.map σ).Nodup :=
  (List.nodup_map_iff_inj_on hnodup).2 fun i hi j hj heq => hr.inj (hl i hi) (hl j hj) heq

/-- A list of live cells is no longer than the other heap, so that a loop along it ends there, too. -/
theorem length_le (hr : Relocated σ live data h t) {l : List ℕ} (hl : ∀ i ∈ l, i ∈ live)
    (hnodup : l.Nodup) : l.length ≤ t.size := by
  have hsub : l.map σ ⊆ List.range t.size := by
    intro j hj
    obtain ⟨i, hi, rfl⟩ := List.mem_map.1 hj
    exact List.mem_range.2 (hr.moved_lt i (hl i hi))
  have hle := ((hr.nodup hl hnodup).subperm hsub).length_le
  rwa [List.length_map, List.length_range] at hle

/-- Only the data of live cells counts. -/
theorem congr_data (hr : Relocated σ live data h t) {data' : ℕ → β}
    (hdata : ∀ n ∈ live, data' n = data n) : Relocated σ live data' h t := by
  refine ⟨hr.lt, hr.moved_lt, hr.inj, hr.closed, fun n hn => ?_⟩
  rw [hdata n hn]
  exact hr.cell n hn

/-- New data in some of the cells, and anything in the cells that are not live. -/
theorem modify (hr : Relocated σ live data h t) (hsize : h.size ≤ h'.size)
    (hcell : ∀ n ∈ live, ∃ x, h'.cell n = { h.cell n with data := x }) {m : ℕ} (hm : m ∈ live) (f : β → β) :
    Relocated σ live (Function.update data m (f (data m))) h'
      (t.modify (σ m) fun c => { c with data := f c.data }) := by
  refine ⟨fun n hn => (hr.lt n hn).trans_le hsize, hr.moved_lt, hr.inj, fun n hn => ?_, fun n hn => ?_⟩
  · obtain ⟨x, hx⟩ := hcell n hn
    rw [hx]
    exact hr.closed n hn
  · obtain ⟨x, hx⟩ := hcell n hn
    rw [hx, Heap.modify_cell, hr.cell n hn]
    by_cases hnm : n = m
    · rw [hnm, if_pos rfl, Function.update_self]
      rfl
    · rw [if_neg fun heq => hnm (hr.inj hn hm heq), Function.update_of_ne hnm]
      rfl

/-- A new cell in both heaps. -/
theorem alloc (hr : Relocated σ live data h t) (c : Cell α) (hc : c.pointers = []) (d : β) :
    Relocated (Function.update σ h.size t.size) (insert h.size live) (Function.update data h.size d)
      (h.alloc c) (t.alloc ⟨d, none, none, none, none⟩) := by
  have hne : ∀ n ∈ live, n ≠ h.size := fun n hn => (hr.lt n hn).ne
  have hold : ∀ n ∈ live, Function.update σ h.size t.size n = σ n :=
    fun n hn => Function.update_of_ne (hne n hn) _ _
  have hnew : Function.update σ h.size t.size h.size = t.size := Function.update_self _ _ _
  refine ⟨?_, ?_, ?_, ?_, ?_⟩
  · rintro n (rfl | hn)
    · exact Nat.lt_succ_self _
    · exact (hr.lt n hn).trans (Nat.lt_succ_self _)
  · rintro n (rfl | hn)
    · rw [hnew]
      exact Nat.lt_succ_self _
    · rw [hold n hn]
      exact (hr.moved_lt n hn).trans (Nat.lt_succ_self _)
  · refine (Set.injOn_insert fun hmem => hne _ hmem rfl).2 ⟨?_, ?_⟩
    · intro m hm n hn heq
      rw [hold m hm, hold n hn] at heq
      exact hr.inj hm hn heq
    · rintro ⟨n, hn, heq⟩
      rw [hnew, hold n hn] at heq
      exact absurd heq (hr.moved_lt n hn).ne
  · rintro n (rfl | hn) p hp
    · rw [Heap.alloc_self, hc] at hp
      exact absurd hp List.not_mem_nil
    · rw [h.alloc_of_ne c (hne n hn)] at hp
      exact Or.inr (hr.closed n hn p hp)
  · rintro n (rfl | hn)
    · rw [hnew, Heap.alloc_self, Heap.alloc_self, Function.update_self]
      have hnone : ∀ x : Option ℕ, (∀ p, x = some p → p ∈ c.pointers) → x = none := by
        intro x hx
        cases x with
        | none => rfl
        | some p =>
          have hp := hx p rfl
          rw [hc] at hp
          exact absurd hp List.not_mem_nil
      rw [Cell.moved, hnone c.parent, hnone c.prev, hnone c.next, hnone c.firstChild]
      · rfl
      · exact fun p hp => Cell.mem_pointers.2 (.inr (.inr (.inr hp)))
      · exact fun p hp => Cell.mem_pointers.2 (.inr (.inr (.inl hp)))
      · exact fun p hp => Cell.mem_pointers.2 (.inr (.inl hp))
      · exact fun p hp => Cell.mem_pointers.2 (.inl hp)
    · rw [hold n hn, h.alloc_of_ne c (hne n hn), t.alloc_of_ne _ (hr.moved_lt n hn).ne, hr.cell n hn,
        Function.update_of_ne (hne n hn)]
      exact (Cell.moved_congr (fun p hp => hold p (hr.closed n hn p hp)) _).symm

/-- **A live cell becomes a child of another one**, in both heaps. -/
theorem hung (hr : Relocated σ live data h t) {p new : ℕ} {last : Option ℕ} (hp : p ∈ live)
    (hnew : new ∈ live) (hlast : ∀ l, last = some l → l ∈ live) (hsize : h'.size = h.size)
    (hsize' : t'.size = t.size) (hcell : ∀ j, h'.cell j = (h.cell j).hung p new last j)
    (hcell' : ∀ j, t'.cell j = (t.cell j).hung (σ p) (σ new) (last.map σ) j) :
    Relocated σ live data h' t' := by
  refine ⟨?_, ?_, hr.inj, fun n hn q hq => ?_, fun n hn => ?_⟩
  · rw [hsize]
    exact hr.lt
  · rw [hsize']
    exact hr.moved_lt
  · rw [hcell, Cell.mem_pointers] at hq
    have hold := hr.closed n hn q
    rw [Cell.mem_pointers] at hold
    simp only [Cell.hung] at hq
    rcases hq with hq | hq | hq | hq
    · split_ifs at hq
      · exact Option.some.inj hq ▸ hp
      · exact hold (.inl hq)
    · split_ifs at hq
      · exact hlast q hq
      · exact hold (.inr (.inl hq))
    · split_ifs at hq
      · exact Option.some.inj hq ▸ hnew
      · exact hold (.inr (.inr (.inl hq)))
    · split_ifs at hq
      · exact Option.some.inj hq ▸ hnew
      · exact hold (.inr (.inr (.inr hq)))
  · have hiff : ∀ m ∈ live, (σ n = σ m ↔ n = m) := fun m hm => ⟨hr.inj hn hm, congrArg σ⟩
    have hlastiff : last.map σ = some (σ n) ↔ last = some n := by
      cases last with
      | none => simp
      | some l =>
        have hl := hlast l rfl
        simp only [Option.map_some, Option.some.injEq]
        exact ⟨hr.inj hl hn, congrArg σ⟩
    rw [hcell', hcell, hr.cell n hn]
    simp only [Cell.hung, Cell.moved, hiff new hnew, hiff p hp, hlastiff, Option.map_eq_none_iff]
    split_ifs <;> simp
end Relocated

/-- The same paths lead to the same cells, where keys and children are the same. -/
theorem reach_moved {δ : Type} [DecidableEq δ] {σ : ℕ → ℕ} {live : Set ℕ} {key key' : ℕ → δ}
    {kids kids' : ℕ → List ℕ} (hkey : ∀ n ∈ live, key' (σ n) = key n)
    (hkids : ∀ n ∈ live, kids' (σ n) = (kids n).map σ) (hlive : ∀ n ∈ live, ∀ c ∈ kids n, c ∈ live)
    {root : ℕ} (hroot : root ∈ live) (path : List δ) :
    reach key' kids' (σ root) path = (reach key kids root path).map σ ∧
      ∀ n, reach key kids root path = some n → n ∈ live := by
  induction path using List.reverseRecOn with
  | nil => exact ⟨rfl, fun n hn => Option.some.inj hn ▸ hroot⟩
  | append_singleton path a ih =>
    obtain ⟨hsame, hin⟩ := ih
    rw [reach_concat, reach_concat, hsame]
    cases hi : reach key kids root path with
    | none => exact ⟨rfl, fun n hn => nomatch hn⟩
    | some i =>
      have hilive := hin i hi
      have hfind : ((kids i).map σ).find? (key' · = a) = ((kids i).find? (key · = a)).map σ := by
        rw [List.find?_map]
        congr 1
        refine List.find?_congr fun c hc => ?_
        rw [Function.comp_apply, hkey c (hlive i hilive c hc)]
      refine ⟨?_, fun n hn => hlive i hilive n (List.mem_of_find?_eq_some hn)⟩
      rw [Option.map_some, Option.bind_some, Option.bind_some, hkids i hilive, hfind]

end ZRouter.Cells
