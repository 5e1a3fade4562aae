import ZRouter.Json.Lookup

/-!
# Searching (`find`)

One path record is written and cleared again on the way through the tree.  While `find` is in a node, the
record holds the names on the way there and nothing behind them.

* `Value.labels`: the names on the way to a node; `Value.depth`;
* `Wanted`: the nodes that a search string asks for;
* `Holds`: the record in a node, `Holds.enter`: in its child, and after it;
* `find_spec`: a line for each wanted node, in pre-order;
* `search_exact`.
-/

namespace ZRouter.Json

/-! ### What is searched for -/

/-- The name of what stands at a place of a container: the index, or the key. -/
def Value.label : Value → ℕ → Option Bytes
  | .array es, i => if i < es.length then some (formatInt i) else none
  | .object fs, i => fs[i]?.map Prod.fst
  | _, _ => none

/-- The names on the way to a node. -/
def Value.labels : Value → Ptr → Option (List Bytes)
  | _, [] => some []
  | t, i :: q => (t.label i).bind fun name => (t.child i).bind fun c => (c.labels q).map (name :: ·)

mutual

/-- The number of levels below a node; a null pointer is no node. -/
def Value.depth : Value → ℕ
  | .array es => depthElems es
  | .object fs => depthFields fs
  | _ => 0

/-- The levels of the elements of an array. -/
def depthElems : List Value → ℕ
  | [] => 0
  | e :: es => max (if e.live then e.depth + 1 else 0) (depthElems es)

/-- The levels of the values of an object. -/
def depthFields : List (Bytes × Value) → ℕ
  | [] => 0
  | (_, v) :: fs => max (if v.live then v.depth + 1 else 0) (depthFields fs)

end

/-- The place in a container has a key that contains the search string, or an index that the string
is, read whole by `strtoul` and truncated to an `int`. -/
def Named (E : Libraries) (s : Bytes) : Value → ℕ → Prop
  | .array _, i => (strtoulEnd E.ulongMax s).2 = true ∧ (i : ℤ) = toInt (strtoulEnd E.ulongMax s).1
  | .object fs, i => ∃ f, fs[i]? = some f ∧ s <:+: f.1
  | _, _ => False

/-- The place in a container is one that `find` prints a line for. -/
def Asks (E : Libraries) (ignoreCase : Bool) (s : Bytes) : Value → ℕ → Prop
  | .array _, i => (i : ℤ) = indexOrNone E.ulongMax s
  | .object fs, i => ∃ f, fs[i]? = some f ∧ keyMatches ignoreCase s f.1 = true
  | _, _ => False

/-- The node that a pointer leads to is not null, and its place is asked for. -/
def Wanted (asks : Value → ℕ → Prop) (t : Value) (q : Ptr) : Prop :=
  ∃ q' i c node, q = q' ++ [i] ∧ t.node q' = some c ∧ c.child i = some node ∧ node.live = true ∧
    asks c i

/-- The line for the node at `q`, below a node with these names on the way to it. -/
def searchLine (E : Libraries) (names : List Bytes) (t : Value) (q : Ptr) : Bytes :=
  (str ".").intercalate (names ++ (t.labels q).getD []) ++ str ": " ++
    E.toJsonString ((t.node q).getD .null) ++ str "\n"

variable {E : Libraries} {asks : Value → ℕ → Prop} {t : Value}

theorem not_wanted_nil : ¬ Wanted asks t [] := by
  rintro ⟨q', i, c, node, h, -⟩
  exact absurd h.symm (List.append_ne_nil_of_right_ne_nil _ (List.cons_ne_nil _ _))

/-- A child is asked for itself, or something below it is. -/
theorem wanted_cons {l : ℕ} {q : Ptr} : Wanted asks t (l :: q) ↔
    ∃ c, t.child l = some c ∧
      (q = [] ∧ c.live = true ∧ asks t l ∨ Wanted asks c q) := by
  constructor
  · rintro ⟨q', i, c, node, hq, hc, hnode, hlive, hasks⟩
    cases q' with
    | nil =>
      obtain ⟨rfl, rfl⟩ := List.cons.inj hq
      cases hc
      exact ⟨node, hnode, Or.inl ⟨rfl, hlive, hasks⟩⟩
    | cons j q' =>
      obtain ⟨rfl, rfl⟩ := List.cons.inj hq
      obtain ⟨d, hd, hc⟩ := Option.bind_eq_some_iff.1 hc
      exact ⟨d, hd, Or.inr ⟨q', i, c, node, rfl, hc, hnode, hlive, hasks⟩⟩
  · rintro ⟨c, hc, ⟨rfl, hlive, hasks⟩ | ⟨q', i, d, node, rfl, hd, hnode, hlive, hasks⟩⟩
    · exact ⟨[], l, t, c, rfl, rfl, hc, hlive, hasks⟩
    · refine ⟨l :: q', i, d, node, rfl, ?_, hnode, hlive, hasks⟩
      rw [Value.node, hc, Option.bind_some, hd]

/-- The pointers to the wanted nodes at the places from `l` on, in pre-order. -/
def Lists (asks : Value → ℕ → Prop) (t : Value) (l : ℕ) (qs : List Ptr) : Prop :=
  qs.Pairwise (· < ·) ∧
    ∀ q, q ∈ qs ↔ Wanted asks t q ∧ ∃ i r, q = i :: r ∧ l ≤ i

/-- There is nothing behind the last place. -/
theorem lists_nil {l : ℕ} (h : ∀ i ≥ l, t.child i = none) : Lists asks t l [] := by
  refine ⟨List.Pairwise.nil, fun q => iff_of_false List.not_mem_nil ?_⟩
  rintro ⟨hq, i, r, rfl, hi⟩
  obtain ⟨c, hc, -⟩ := wanted_cons.1 hq
  rw [h i hi] at hc
  cases hc

/-- A null pointer is passed over. -/
theorem Lists.skip {l : ℕ} {c : Value} {qs : List Ptr} (h : Lists asks t (l + 1) qs)
    (hc : t.child l = some c) (hlive : c.live = false) : Lists asks t l qs := by
  refine ⟨h.1, fun q => (h.2 q).trans (and_congr_right fun hq => ?_)⟩
  constructor
  · rintro ⟨i, r, rfl, hi⟩
    exact ⟨i, r, rfl, by omega⟩
  · rintro ⟨i, r, rfl, hi⟩
    refine ⟨i, r, rfl, ?_⟩
    rcases hi.lt_or_eq with hi | rfl
    · exact hi
    obtain ⟨d, hd, hor⟩ := wanted_cons.1 hq
    rw [hc, Option.some.injEq] at hd
    subst hd
    have hnull : c = .null := by
      cases c <;> first | rfl | cases hlive
    subst hnull
    rcases hor with ⟨-, h, -⟩ | hw
    · cases h
    · cases r with
      | nil => exact absurd hw not_wanted_nil
      | cons j r =>
        obtain ⟨d, hd, -⟩ := wanted_cons.1 hw
        cases hd

open Classical in
/-- A child, what is below it, and the places behind it. -/
theorem Lists.cons {l : ℕ} {c : Value} {qc qs : List Ptr}
    (hqc : Lists asks c 0 qc) (h : Lists asks t (l + 1) qs)
    (hc : t.child l = some c) (hlive : c.live = true) :
    Lists asks t l
      ((if asks t l then [[l]] else []) ++ qc.map (l :: ·) ++ qs) := by
  have hfirst : ∀ q ∈ (if asks t l then [[l]] else []), q = [l] := by
    intro q hq
    split_ifs at hq
    · exact List.mem_singleton.1 hq
    · cases hq
  constructor
  · rw [List.pairwise_append, List.pairwise_append]
    refine ⟨⟨?_, ?_, ?_⟩, h.1, ?_⟩
    · split_ifs
      · exact List.pairwise_singleton _ _
      · exact List.Pairwise.nil
    · rw [List.pairwise_map]
      exact hqc.1.imp fun hab => List.cons_lt_cons_iff.2 (Or.inr ⟨rfl, hab⟩)
    · intro a ha b hb
      obtain ⟨r, hr, rfl⟩ := List.mem_map.1 hb
      obtain ⟨-, i, r', rfl, -⟩ := (hqc.2 r).1 hr
      rw [hfirst a ha]
      exact List.cons_lt_cons_iff.2 (Or.inr ⟨rfl, List.nil_lt_cons _ _⟩)
    · intro a ha b hb
      obtain ⟨-, i, r, rfl, hi⟩ := (h.2 b).1 hb
      have hhead : ∃ r, a = l :: r := by
        rcases List.mem_append.1 ha with ha | ha
        · exact ⟨[], hfirst a ha⟩
        · obtain ⟨r, -, rfl⟩ := List.mem_map.1 ha
          exact ⟨r, rfl⟩
      obtain ⟨r', rfl⟩ := hhead
      exact List.cons_lt_cons_iff.2 (Or.inl hi)
  · intro q
    rw [List.mem_append, List.mem_append, h.2]
    constructor
    · rintro ((hq | hq) | ⟨hq, i, r, rfl, hi⟩)
      · have hasks : asks t l := by
          by_contra hno
          rw [if_neg hno] at hq
          cases hq
        rw [hfirst q hq]
        exact ⟨wanted_cons.2 ⟨c, hc, Or.inl ⟨rfl, hlive, hasks⟩⟩, l, [], rfl, le_rfl⟩
      · obtain ⟨r, hr, rfl⟩ := List.mem_map.1 hq
        exact ⟨wanted_cons.2 ⟨c, hc, Or.inr ((hqc.2 r).1 hr).1⟩, l, r, rfl, le_rfl⟩
      · exact ⟨hq, i, r, rfl, by omega⟩
    · rintro ⟨hq, i, r, rfl, hi⟩
      rcases hi.lt_or_eq with hi | rfl
      · exact Or.inr ⟨hq, i, r, rfl, hi⟩
      refine Or.inl ?_
      obtain ⟨d, hd, hor⟩ := wanted_cons.1 hq
      rw [hc, Option.some.injEq] at hd
      subst hd
      rcases hor with ⟨rfl, -, hasks⟩ | hw
      · rw [if_pos hasks]
        exact Or.inl (List.mem_singleton.2 rfl)
      · refine Or.inr (List.mem_map.2 ⟨r, (hqc.2 r).2 ⟨hw, ?_⟩, rfl⟩)
        cases r with
        | nil => exact absurd hw not_wanted_nil
        | cons j r => exact ⟨j, r, rfl, Nat.zero_le j⟩

/-! ### The record -/

/-- In a node, the record holds the names on the way there. -/
structure Holds (p : Path) (names : List Bytes) : Prop where
  part : p.part = names.map some ++ List.replicate (maxTreePath - names.length) none
  obj : ∃ os, os.length = names.length ∧
    p.obj = os ++ List.replicate (maxTreePath - names.length) none
  count : p.count = names.length

theorem holds_allocatePath : Holds (allocatePath maxTreePath) [] := ⟨rfl, ⟨[], rfl, rfl⟩, rfl⟩

/-- There is room for one name more, and the record is the same after it was taken away. -/
theorem Holds.enter {p : Path} {names : List Bytes} (h : Holds p names)
    (hroom : names.length < maxTreePath) (child : Ptr) (name : Bytes) :
    ∃ p', p.enter names.length child name = some p' ∧ Holds p' (names ++ [name]) ∧
      p'.leave names.length = some p := by
  obtain ⟨hpart, ⟨os, hos, hobj⟩, hcount⟩ := h
  obtain ⟨part, obj, count⟩ := p
  dsimp only at hpart hobj hcount
  subst hpart hobj hcount
  obtain ⟨m, hm⟩ : ∃ m, maxTreePath - names.length = m + 1 :=
    ⟨maxTreePath - names.length - 1, by omega⟩
  have hm' : maxTreePath - (names.length + 1) = m := by omega
  have hnames : (names.map some).length = names.length := List.length_map _
  have hpart := @store_append Bytes (names.map some) (List.replicate m none)
  have hobj := @store_append Ptr os (List.replicate m none)
  rw [hnames] at hpart
  rw [hos] at hobj
  rw [hm, List.replicate_succ, List.replicate_succ]
  refine ⟨⟨names.map some ++ some name :: List.replicate m none,
    os ++ some child :: List.replicate m none, names.length + 1⟩, ?_, ⟨?_, ?_, ?_⟩, ?_⟩
  · rw [Path.enter, hpart, hobj]
    rfl
  · rw [List.length_append, List.length_singleton, hm', List.map_append, List.append_assoc]
    rfl
  · refine ⟨os ++ [some child], by simp [hos], ?_⟩
    rw [List.length_append, List.length_singleton, hm', List.append_assoc]
    rfl
  · rw [List.length_append, List.length_singleton]
  · rw [Path.leave, hpart, hobj]
    rfl

/-- The names and a last one, joined by dots. -/
theorem intercalate_concat (names : List Bytes) (name : Bytes) :
    (str ".").intercalate (names ++ [name]) = (names.map (· ++ str ".")).flatten ++ name := by
  induction names with
  | nil => simp [List.intercalate]
  | cons n names ih =>
    obtain ⟨m, ms, hms⟩ := List.exists_cons_of_ne_nil
      (List.append_ne_nil_of_right_ne_nil names (List.cons_ne_nil name []))
    rw [List.cons_append, hms, List.intercalate_cons_cons, ← hms, ih]
    simp

theorem mapM_some {α β : Type} {f : α → Option β} {g : α → β} {l : List α}
    (h : ∀ x ∈ l, f x = some (g x)) : l.mapM f = some (l.map g) := by
  induction l with
  | nil => rfl
  | cons x l ih =>
    have hall := List.forall_mem_cons.1 h
    rw [List.mapM_cons, hall.1, ih hall.2]
    rfl

/-- Something is printed for each of the first parts of a record. -/
theorem mapM_part {p : Path} {names : List Bytes} {rest : List (Option Bytes)} {n : ℕ}
    (f : Bytes → Bytes) (hpart : p.part = names.map some ++ rest) (hn : n ≤ names.length) :
    (List.range n).mapM (fun x => do some (f (← ← p.part[x]?))) = some ((names.take n).map f) := by
  have hx : ∀ x ∈ List.range n, (do some (f (← ← p.part[x]?))) = some (f (names.getD x [])) := by
    intro x hx
    have hlt : x < names.length := (List.mem_range.1 hx).trans_le hn
    rw [hpart, List.getElem?_append_left (by simpa using hlt), List.getElem?_map,
      List.getElem?_eq_getElem hlt, List.getD_eq_getElem _ _ hlt]
    rfl
  rw [mapM_some hx]
  congr 1
  refine List.ext_getElem (by simp [hn]) fun i hi hi' => ?_
  have hlt : i < names.length := (by simpa using hi : i < n).trans_le hn
  simp [List.getElem?_eq_getElem hlt]

/-- The line that is printed for a child. -/
theorem Holds.line {p : Path} {names : List Bytes} (h : Holds p names) {l : ℕ} {name : Bytes}
    {c : Value} (hname : t.label l = some name) (hc : t.child l = some c) :
    findLine E p names.length name c = some (searchLine E names t [l]) := by
  have hpath := mapM_part (· ++ str ".") h.part le_rfl
  rw [List.take_length] at hpath
  have hlabels : t.labels [l] = some [name] := by
    rw [Value.labels, hname, Option.bind_some, hc]
    rfl
  rw [findLine, hpath, searchLine, hlabels, Value.node, hc]
  rw [Option.getD_some, intercalate_concat]
  rfl

/-! ### The search -/

theorem label_of_child {l : ℕ} {c : Value} (hc : t.child l = some c) : ∃ name, t.label l = some name := by
  cases t with
  | array es =>
    have hlt : l < es.length := (List.getElem?_eq_some_iff.1 hc).1
    exact ⟨formatInt l, if_pos hlt⟩
  | object fs =>
    obtain ⟨f, hf, -⟩ := Option.map_eq_some_iff.1 hc
    exact ⟨f.1, by rw [Value.label, hf]; rfl⟩
  | _ => cases hc

theorem labels_of_node (q : Ptr) : ∀ {t c : Value}, t.node q = some c →
    ∃ names, t.labels q = some names := by
  induction q with
  | nil => exact fun _ => ⟨[], rfl⟩
  | cons i q ih =>
    intro t c h
    obtain ⟨d, hd, hc⟩ := Option.bind_eq_some_iff.1 h
    obtain ⟨name, hname⟩ := label_of_child hd
    obtain ⟨names, hnames⟩ := ih hc
    exact ⟨name :: names, by rw [Value.labels, hname, Option.bind_some, hd, Option.bind_some, hnames]; rfl⟩

theorem Wanted.node {q : Ptr} (h : Wanted asks t q) : ∃ c, t.node q = some c := by
  obtain ⟨q', i, c, node, rfl, hc, hnode, -⟩ := h
  exact ⟨node, by rw [node_append, hc, Option.bind_some, Value.node, hnode]; rfl⟩

/-- A line below a child. -/
theorem searchLine_cons (names : List Bytes) {l : ℕ} {name : Bytes} {c : Value} {q : Ptr}
    (hname : t.label l = some name) (hc : t.child l = some c) (hq : Wanted asks c q) :
    searchLine E (names ++ [name]) c q = searchLine E names t (l :: q) := by
  obtain ⟨d, hd⟩ := hq.node
  obtain ⟨ls, hls⟩ := labels_of_node q hd
  rw [searchLine, searchLine, Value.labels, Value.node, hname, hc, Option.bind_some, Option.bind_some,
    Option.bind_some, hls]
  simp

/-- What `find` does in a child, with the record before and after it. -/
theorem find_child {ignoreCase : Bool} {s : Bytes} {names : List Bytes} {p : Path} (hp : Holds p names)
    {l : ℕ} {name : Bytes} {c : Value} (hname : t.label l = some name) (hc : t.child l = some c)
    (hroom : names.length + (c.depth + 1) ≤ maxTreePath) {qc : List Ptr}
    (hqc : Lists asks c 0 qc)
    (hrun : ∀ pos names p, Holds p names → names.length + c.depth ≤ maxTreePath →
      find E ignoreCase s pos names.length c p =
        some (qc.flatMap (searchLine E names c), p)) (pos : Ptr) :
    ∃ p', p.enter names.length (pos ++ [l]) name = some p' ∧
      find E ignoreCase s (pos ++ [l]) (names.length + 1) c p' =
        some ((qc.map (l :: ·)).flatMap (searchLine E names t), p') ∧
      p'.leave names.length = some p := by
  obtain ⟨p', henter, hp', hleave⟩ := hp.enter (by omega) (pos ++ [l]) name
  refine ⟨p', henter, ?_, hleave⟩
  have hfind := hrun (pos ++ [l]) (names ++ [name]) p' hp' (by simp; omega)
  rw [List.length_append, List.length_singleton] at hfind
  rw [hfind, List.flatMap_map]
  congr 2
  exact List.flatMap_congr fun q hq => searchLine_cons names hname hc ((hqc.2 q).1 hq).1

open Classical in
mutual

/-- **What `find` prints**: a line for each wanted node, in pre-order; the record is the same
afterwards. -/
theorem find_spec (E : Libraries) (ignoreCase : Bool) (s : Bytes) : ∀ t : Value,
    ∃ qs, Lists (Asks E ignoreCase s) t 0 qs ∧ ∀ pos names p, Holds p names →
      names.length + t.depth ≤ maxTreePath →
        find E ignoreCase s pos names.length t p = some (qs.flatMap (searchLine E names t), p)
  | .array es => findElems_spec E ignoreCase s es es 0 rfl
  | .object fs => findFields_spec E ignoreCase s fs fs 0 rfl
  | .null => ⟨[], lists_nil fun _ _ => rfl, fun _ _ _ _ _ => rfl⟩
  | .boolean _ => ⟨[], lists_nil fun _ _ => rfl, fun _ _ _ _ _ => rfl⟩
  | .double _ => ⟨[], lists_nil fun _ _ => rfl, fun _ _ _ _ _ => rfl⟩
  | .int _ => ⟨[], lists_nil fun _ _ => rfl, fun _ _ _ _ _ => rfl⟩
  | .string _ => ⟨[], lists_nil fun _ _ => rfl, fun _ _ _ _ _ => rfl⟩

/-- The loop over an array, from the element `l` on. -/
theorem findElems_spec (E : Libraries) (ignoreCase : Bool) (s : Bytes) (all : List Value) :
    ∀ (es : List Value) (l : ℕ), all.drop l = es →
    ∃ qs, Lists (Asks E ignoreCase s) (.array all) l qs ∧ ∀ pos names p, Holds p names →
      names.length + depthElems es ≤ maxTreePath →
        findElems E ignoreCase s pos names.length (indexOrNone E.ulongMax s) es l p =
          some (qs.flatMap (searchLine E names (.array all)), p)
  | [], l, h => by
    refine ⟨[], lists_nil fun i hi => ?_, fun _ _ _ _ _ => rfl⟩
    exact List.getElem?_eq_none ((List.drop_eq_nil_iff.1 h).trans hi)
  | c :: es, l, h => by
    have hc : (Value.array all).child l = some c := by
      rw [Value.child, ← List.head?_drop, h]
      rfl
    have hrest : all.drop (l + 1) = es := by rw [← List.tail_drop, h]; rfl
    obtain ⟨qs, hqs, hruns⟩ := findElems_spec E ignoreCase s all es (l + 1) hrest
    by_cases hlive : c.live = true
    · obtain ⟨qc, hqc, hrunc⟩ := find_spec E ignoreCase s c
      refine ⟨_, Lists.cons hqc hqs hc hlive, fun pos names p hp hroom => ?_⟩
      rw [depthElems, if_pos hlive] at hroom
      have hlabel : (Value.array all).label l = some (formatInt l) :=
        if_pos (List.getElem?_eq_some_iff.1 hc).1
      obtain ⟨p', henter, hfind, hleave⟩ :=
        find_child hp hlabel hc (by omega) hqc hrunc pos
      have hrest := hruns pos names p hp (by omega)
      rw [findElems, if_pos hlive]
      by_cases hasks : (l : ℤ) = indexOrNone E.ulongMax s
      · have hwanted : Asks E ignoreCase s (.array all) l := hasks
        simp only [if_pos hasks, if_pos hwanted, hp.line hlabel hc, Option.bind_eq_bind,
          Option.bind_some, henter, hfind, hleave, hrest, List.flatMap_append, List.flatMap_singleton]
      · have hwanted : ¬ Asks E ignoreCase s (.array all) l := hasks
        simp only [if_neg hasks, if_neg hwanted, Option.bind_eq_bind, Option.bind_some, henter, hfind,
          hleave, hrest, List.flatMap_append, List.flatMap_nil]
    · have hnull : c.live = false := by simpa using hlive
      refine ⟨qs, hqs.skip hc hnull, fun pos names p hp hroom => ?_⟩
      rw [depthElems] at hroom
      rw [findElems, if_neg hlive]
      exact hruns pos names p hp (by omega)

/-- The loop over an object, from the entry `l` on. -/
theorem findFields_spec (E : Libraries) (ignoreCase : Bool) (s : Bytes) (all : Fields) :
    ∀ (fs : List (Bytes × Value)) (l : ℕ), all.drop l = fs →
    ∃ qs, Lists (Asks E ignoreCase s) (.object all) l qs ∧ ∀ pos names p, Holds p names →
      names.length + depthFields fs ≤ maxTreePath →
        findFields E ignoreCase s pos names.length fs l p =
          some (qs.flatMap (searchLine E names (.object all)), p)
  | [], l, h => by
    refine ⟨[], lists_nil fun i hi => ?_, fun _ _ _ _ _ => rfl⟩
    rw [Value.child, List.getElem?_eq_none ((List.drop_eq_nil_iff.1 h).trans hi)]
    rfl
  | (k, c) :: fs, l, h => by
    have hget : all[l]? = some (k, c) := by
      rw [← List.head?_drop, h]
      rfl
    have hc : (Value.object all).child l = some c := by
      rw [Value.child, hget]
      rfl
    have hrest : all.drop (l + 1) = fs := by rw [← List.tail_drop, h]; rfl
    obtain ⟨qs, hqs, hruns⟩ := findFields_spec E ignoreCase s all fs (l + 1) hrest
    by_cases hlive : c.live = true
    · obtain ⟨qc, hqc, hrunc⟩ := find_spec E ignoreCase s c
      refine ⟨_, Lists.cons hqc hqs hc hlive, fun pos names p hp hroom => ?_⟩
      rw [depthFields, if_pos hlive] at hroom
      have hlabel : (Value.object all).label l = some k := by
        rw [Value.label, hget]
        rfl
      obtain ⟨p', henter, hfind, hleave⟩ :=
        find_child hp hlabel hc (by omega) hqc hrunc pos
      have hasks : Asks E ignoreCase s (.object all) l ↔ keyMatches ignoreCase s k = true := by
        constructor
        · rintro ⟨f, hf, hmatch⟩
          rw [hget, Option.some.injEq] at hf
          rwa [← hf] at hmatch
        · exact fun hmatch => ⟨(k, c), hget, hmatch⟩
      have hrest := hruns pos names p hp (by omega)
      rw [findFields, if_pos hlive]
      by_cases hmatch : keyMatches ignoreCase s k = true
      · simp only [if_pos hmatch, if_pos (hasks.2 hmatch), hp.line hlabel hc, Option.bind_eq_bind,
          Option.bind_some, henter, hfind, hleave, hrest, List.flatMap_append, List.flatMap_singleton]
      · have hno : ¬ Asks E ignoreCase s (.object all) l := fun ha => hmatch (hasks.1 ha)
        simp only [if_neg hmatch, if_neg hno, Option.bind_eq_bind, Option.bind_some, henter, hfind,
          hleave, hrest, List.flatMap_append, List.flatMap_nil]
    · have hnull : c.live = false := by simpa using hlive
      refine ⟨qs, hqs.skip hc hnull, fun pos names p hp hroom => ?_⟩
      rw [depthFields] at hroom
      rw [findFields, if_neg hlive]
      exact hruns pos names p hp (by omega)

end

/-- In the mode that is case-sensitive, the lines are those for the nodes with the string in their
name. -/
theorem asks_eq_named (E : Libraries) (s : Bytes) : Asks E false s = Named E s := by
  funext t i
  refine propext ?_
  cases t with
  | array es =>
    rw [Asks, Named, indexOrNone]
    by_cases hend : (strtoulEnd E.ulongMax s).2 = true
    · simp only [hend, if_true, true_and]
    · have hpos : (i : ℤ) ≠ -1 := by omega
      simp only [hend, if_false, false_and, iff_false, Bool.false_eq_true]
      exact hpos
  | object fs =>
    have hmatch : ∀ k, keyMatches false s k = true ↔ s <:+: k := by
      intro k
      rw [keyMatches, ← strstr_ne_none, Option.isSome_iff_ne_none]
      rfl
    simp only [Asks, Named, hmatch]
  | _ => rfl

/-- **The search is complete and exact**: the lines are those of the nodes that the string asks for,
each once and in pre-order, and the record is empty again. -/
theorem search_exact (E : Libraries) (s : Bytes) (root : Value) (h : root.depth ≤ maxTreePath) :
    ∃ qs : List Ptr, qs.Pairwise (· < ·) ∧ (∀ q, q ∈ qs ↔ Wanted (Named E s) root q) ∧
      find E false s [] 0 root (allocatePath maxTreePath) =
        some (qs.flatMap (searchLine E [] root), allocatePath maxTreePath) := by
  obtain ⟨qs, hqs, hrun⟩ := find_spec E false s root
  rw [asks_eq_named] at hqs
  refine ⟨qs, hqs.1, fun q => ?_, ?_⟩
  · rw [hqs.2]
    refine and_iff_left_of_imp fun hq => ?_
    cases q with
    | nil => exact absurd hq not_wanted_nil
    | cons i r => exact ⟨i, r, rfl, Nat.zero_le i⟩
  · exact hrun [] [] _ holds_allocatePath (by simpa using h)

/-- An array with a null pointer between a text and an object. -/
def menu : Value :=
  .object [(str "items", .array [.string (str "a"), .null, .object [(str "title", .int 1)]])]

theorem search_exact_menu : ∃ qs : List Ptr, qs.Pairwise (· < ·) ∧
    (∀ q, q ∈ qs ↔ Wanted (Named .inOrder (str "t")) menu q) ∧
      find .inOrder false (str "t") [] 0 menu (allocatePath maxTreePath) =
        some (qs.flatMap (searchLine .inOrder [] menu), allocatePath maxTreePath) :=
  search_exact .inOrder (str "t") menu (by decide)

example : (find .inOrder false (str "t") [] 0 menu (allocatePath maxTreePath)).map Prod.fst =
    some (str "items: \nitems.2.title: \n") := rfl

example : (find .inOrder false (str "0x2") [] 0 menu (allocatePath maxTreePath)).map Prod.fst =
    some (str "items.2: \n") := rfl

end ZRouter.Json
