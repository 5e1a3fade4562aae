import ZRouter.Conf.Export

/-!
# The two dumps (`dump_text`, `dump_xml`)

Both dumps carry along which nodes they show with a value.  The dump as text looks for a value only in
the first node of a list of siblings.

* `Nodes`: the nodes that the pointers lead to;
* `dumpNodesAttr`, `dumpText`; `tracedXmlNodesAttr`: `dump_xml` with the nodes that get a value;
* `shown`, `values`: what the dumps show of a forest;
* `sameDumps_iff`: when the dumps show the same.
-/

namespace ZRouter.Conf

open Cells Forest

/-! ### The nodes of a tree -/

/-- The addresses that the pointers `firstChild` and `next` lead to. -/
inductive Nodes (h : Tree) : Option ℕ → Forest ℕ → Prop
  | nil : Nodes h none .nil
  | cons {i ks nx} (hk : Nodes h (h.cell i).firstChild ks) (hn : Nodes h (h.cell i).next nx) :
      Nodes h (some i) (.cons i ks nx)

section Nodes

variable {h : Tree} {root : ℕ} {kids : ℕ → List ℕ} {p : Option ℕ} {G : Forest ℕ} {F : Forest Node}

theorem Holds.nodes (hF : Holds h p F) : ∃ G, Nodes h p G ∧ F = G.map fun i => (h.cell i).data := by
  induction hF with
  | nil => exact ⟨.nil, .nil, rfl⟩
  | @cons i _ _ _ _ ihk ihn =>
    obtain ⟨ks, hks, rfl⟩ := ihk
    obtain ⟨nx, hnx, rfl⟩ := ihn
    exact ⟨.cons i ks nx, .cons hks hnx, rfl⟩

theorem Nodes.grows (hs : Sound h root kids) (hG : Nodes h p G) {l : List ℕ} (hp : Chain h p l)
    (hl : ∀ i ∈ l, i < h.size) : Grows h kids l (G.map fun i => (h.cell i).data) := by
  induction hG generalizing l with
  | nil =>
    cases l with
    | nil => exact .nil
    | cons i l => cases hp.1
  | @cons i ks nx _ _ ihk ihn =>
    cases l with
    | nil => cases hp
    | cons j l =>
      obtain ⟨hij, hp⟩ := hp
      cases hij
      have hi := hl i List.mem_cons_self
      exact .cons rfl (ihk (hs.chain i hi) fun c hc => hs.kid_lt i hi c hc)
        (ihn hp fun j hj => hl j (List.mem_cons_of_mem i hj))

end Nodes

namespace Text

/-! ### The dump as text -/

/-- The nodes that are shown, with their values. -/
abbrev Pairs := List (ℕ × Bytes)

/-- What `print_indent` prints. -/
def printIndent (l : ℕ) : Bytes := (List.replicate l INDENT).flatten

/-- The line of a node that has the attribute; `printf` gets the value as it is. -/
def dumpLine (h : Tree) (name : Bytes) (n : ℕ) (out : Bytes × Pairs) (root : ℕ) :
    Exec (Bytes × Pairs) :=
  if nodeHasAttr (attrsOf h root) name then
    nodeGetLevel h n root >>= fun level =>
    match getAttr (attrsOf h root) name with
    | none => .undefined
    | some v =>
        .ret (out.1 ++ (printIndent level ++ nameOf h root ++ str " = " ++ v ++ str "\n"),
          out.2 ++ [(root, v)])
  else .ret out

mutual

/-- `dump_nodes_attr`; the number bounds the recursion. -/
def dumpNodesAttr (h : Tree) (name : Bytes) : ℕ → Bytes × Pairs → Option ℕ → Exec (Bytes × Pairs)
  | _, out, none => .ret out
  | 0, _, some _ => .stuck
  | n + 1, out, some root =>
      dumpLine h name n out root >>= fun out => dumpSiblings h name n out (some root)

/-- The loop over the siblings, from one of them on. -/
def dumpSiblings (h : Tree) (name : Bytes) : ℕ → Bytes × Pairs → Option ℕ → Exec (Bytes × Pairs)
  | _, out, none => .ret out
  | 0, _, some _ => .stuck
  | n + 1, out, some node =>
      dumpNodesAttr h name n out (h.cell node).firstChild >>= fun out =>
      dumpSiblings h name n out (h.cell node).next

end

theorem dumpLine_mono (h : Tree) (name : Bytes) {n m : ℕ} (hnm : n ≤ m) (out : Bytes × Pairs) (root : ℕ) :
    dumpLine h name n out root ≤ dumpLine h name m out root := by
  rw [dumpLine, dumpLine]
  split_ifs
  · exact Exec.bind_le_bind (nodeGetLevel_mono h hnm root) fun _ => le_rfl
  · exact le_rfl

/-- The dump with a larger bound. -/
theorem dumpNodesAttr_mono (h : Tree) (name : Bytes) {n m : ℕ} (hnm : n ≤ m) :
    (∀ out p, dumpNodesAttr h name n out p ≤ dumpNodesAttr h name m out p) ∧
      ∀ out p, dumpSiblings h name n out p ≤ dumpSiblings h name m out p := by
  induction n generalizing m with
  | zero =>
    constructor <;> rintro out (- | i)
    · rw [dumpNodesAttr, dumpNodesAttr]
    · rw [dumpNodesAttr]
      exact Exec.stuck_le _
    · rw [dumpSiblings, dumpSiblings]
    · rw [dumpSiblings]
      exact Exec.stuck_le _
  | succ n ih =>
    obtain ⟨m, rfl⟩ : ∃ k, m = k + 1 := ⟨m - 1, by omega⟩
    have hle : n ≤ m := by omega
    obtain ⟨hnode, hsiblings⟩ := ih hle
    constructor <;> rintro out (- | i)
    · rw [dumpNodesAttr, dumpNodesAttr]
    · rw [dumpNodesAttr, dumpNodesAttr]
      exact Exec.bind_le_bind (dumpLine_mono h name hle out i) fun out => hsiblings out (some i)
    · rw [dumpSiblings, dumpSiblings]
    · rw [dumpSiblings, dumpSiblings]
      exact Exec.bind_le_bind (hnode out _) fun out => hsiblings out _

/-- The name of the attribute of a configuration. -/
def confName (confId : ℤ) : Bytes := if 1 < confId then valueName confId.toNat else str "value"

/-- `dump_text`: what is printed, and the nodes that are shown. -/
def dumpText (h : Tree) (n : ℕ) (root : Option ℕ) (confId : ℤ) : Exec (Bytes × Pairs) :=
  dumpNodesAttr h (confName confId) n ([], []) root

/-! ### The dump as XML -/

/-- What the start tag of a node adds to the nodes shown. -/
def emitted (h : Tree) (name : Bytes) (i : ℕ) : Pairs :=
  ((getAttr (attrsOf h i) name).map fun v => (i, v)).toList

mutual

/-- `dump_xml_nodes_attr`, with the nodes that get a value attribute. -/
def tracedXmlNodesAttr (h : Tree) (name : Bytes) :
    ℕ → Strbuf × Pairs → Option ℕ → Exec (Strbuf × Pairs)
  | _, s, none => .ret s
  | 0, _, some _ => .stuck
  | n + 1, s, some root =>
      nodeGetLevel h n root >>= fun level =>
      strIndent level s.1 >>= fun b =>
      dumpStart b (h.cell root).data name >>= fun b =>
      (match (h.cell root).firstChild with
        | none => .ret (b, s.2 ++ emitted h name root)
        | some child =>
            strAppend b (some (str "\n")) >>= fun b =>
            tracedXmlChildren h name n (b, s.2 ++ emitted h name root) (some child) >>= fun s =>
            strIndent level s.1 >>= fun b => .ret (b, s.2)) >>= fun s =>
      dumpEnd s.1 (h.cell root).data >>= fun b => .ret (b, s.2)

/-- The loop over the children, from a child on. -/
def tracedXmlChildren (h : Tree) (name : Bytes) :
    ℕ → Strbuf × Pairs → Option ℕ → Exec (Strbuf × Pairs)
  | _, s, none => .ret s
  | 0, _, some _ => .stuck
  | n + 1, s, some node =>
      tracedXmlNodesAttr h name n s (some node) >>= fun s =>
      tracedXmlChildren h name n s (h.cell node).next

end

/-- `dump_xml`, with the nodes that get a value attribute. -/
def tracedXml (h : Tree) (n : ℕ) (root : Option ℕ) (confId : ℤ) : Exec (Strbuf × Pairs) :=
  tracedXmlNodesAttr h (confName confId) n (strInit, []) root

/-! ### What the dumps show -/

/-- The nodes with a value, in the order of the document. -/
def values (h : Tree) (name : Bytes) : Forest ℕ → Pairs
  | .nil => []
  | .cons i ks nx => emitted h name i ++ values h name ks ++ values h name nx

/-- What `dump_nodes_attr` shows: the value of the first sibling, if `first` is given, and what is below
each of the siblings. -/
def shown (h : Tree) (name : Bytes) : Bool → Forest ℕ → Pairs
  | _, .nil => []
  | first, .cons i ks nx =>
      (if first then emitted h name i else []) ++ shown h name true ks ++ shown h name false nx

/-- Only first siblings have a value; the first tree of the forest is one if `first` is given. -/
def FirstOnly (k : ℕ) : Bool → Forest Node → Prop
  | _, .nil => True
  | first, .cons d ks nx =>
      (first = true ∨ getAttr d.attrs (valueName k) = none) ∧ FirstOnly k true ks ∧ FirstOnly k false nx

instance FirstOnly.decidable (k : ℕ) : (first : Bool) → (F : Forest Node) → Decidable (FirstOnly k first F)
  | _, .nil => isTrue trivial
  | _, .cons _ ks nx =>
      have := FirstOnly.decidable k true ks
      have := FirstOnly.decidable k false nx
      inferInstanceAs (Decidable (_ ∧ _ ∧ _))

section Shows

variable {h : Tree} {name : Bytes} {n : ℕ} {p : Option ℕ} {G : Forest ℕ}

theorem dumpLine_pairs {out out' : Bytes × Pairs} {i : ℕ} (hret : dumpLine h name n out i = .ret out') :
    out'.2 = out.2 ++ emitted h name i := by
  rw [dumpLine] at hret
  cases hget : getAttr (attrsOf h i) name with
  | none =>
    split_ifs at hret
    · obtain ⟨level, -, hret⟩ := Exec.bind_eq_ret hret
      rw [hget] at hret
      cases hret
    · cases hret
      simp [emitted, hget]
  | some v =>
    rw [if_pos (nodeHasAttr_of_getAttr hget)] at hret
    obtain ⟨level, -, hret⟩ := Exec.bind_eq_ret hret
    rw [hget] at hret
    cases hret
    simp [emitted, hget]

/-- The first sibling adds its value. -/
theorem dumpNodesAttr_pairs_of (hG : Nodes h p G)
    (hsiblings : ∀ n (out out' : Bytes × Pairs), dumpSiblings h name n out p = .ret out' →
      out'.2 = out.2 ++ shown h name false G) {out out' : Bytes × Pairs}
    (hret : dumpNodesAttr h name n out p = .ret out') : out'.2 = out.2 ++ shown h name true G := by
  cases hG with
  | nil => cases n <;> cases hret <;> simp [shown]
  | @cons i ks nx hk hn =>
    cases n with
    | zero => cases hret
    | succ n =>
      obtain ⟨out₁, hline, hret⟩ := Exec.bind_eq_ret hret
      rw [hsiblings n out₁ out' hret, dumpLine_pairs hline]
      simp [shown]

/-- What the loop over the siblings has shown when it returns. -/
theorem dumpSiblings_pairs (hG : Nodes h p G) : ∀ n (out out' : Bytes × Pairs),
    dumpSiblings h name n out p = .ret out' → out'.2 = out.2 ++ shown h name false G := by
  induction hG with
  | nil =>
    intro n out out' hret
    cases n <;> cases hret <;> simp [shown]
  | @cons i ks nx hk hn ihk ihn =>
    intro n out out' hret
    cases n with
    | zero => cases hret
    | succ n =>
      obtain ⟨out₁, hkids, hret⟩ := Exec.bind_eq_ret hret
      rw [ihn n out₁ out' hret, dumpNodesAttr_pairs_of hk ihk hkids]
      simp [shown]

/-- **What the dump as text has shown when it returns.** -/
theorem dumpNodesAttr_pairs (hG : Nodes h p G) {out out' : Bytes × Pairs}
    (hret : dumpNodesAttr h name n out p = .ret out') : out'.2 = out.2 ++ shown h name true G :=
  dumpNodesAttr_pairs_of hG (dumpSiblings_pairs hG) hret

/-- What the dump of a node as XML has shown when it returns. -/
theorem tracedXmlNodesAttr_pairs_of {i : ℕ} {ks : Forest ℕ}
    (hkids : ∀ n (s s' : Strbuf × Pairs), tracedXmlChildren h name n s (h.cell i).firstChild = .ret s' →
      s'.2 = s.2 ++ values h name ks) (hnil : (h.cell i).firstChild = none → ks = .nil)
    {s s' : Strbuf × Pairs} (hret : tracedXmlNodesAttr h name n s (some i) = .ret s') :
    s'.2 = s.2 ++ (emitted h name i ++ values h name ks) := by
  cases n with
  | zero => cases hret
  | succ n =>
    obtain ⟨level, -, hret⟩ := Exec.bind_eq_ret hret
    obtain ⟨b₁, -, hret⟩ := Exec.bind_eq_ret hret
    obtain ⟨b₂, -, hret⟩ := Exec.bind_eq_ret hret
    obtain ⟨s₁, hbody, hret⟩ := Exec.bind_eq_ret hret
    obtain ⟨b₃, -, hret⟩ := Exec.bind_eq_ret hret
    cases hret
    cases hfirst : (h.cell i).firstChild with
    | none =>
      rw [hfirst] at hbody
      cases hbody
      simp [hnil hfirst, values]
    | some child =>
      rw [hfirst] at hbody
      obtain ⟨b₄, -, hbody⟩ := Exec.bind_eq_ret hbody
      obtain ⟨s₂, hloop, hbody⟩ := Exec.bind_eq_ret hbody
      obtain ⟨b₅, -, hbody⟩ := Exec.bind_eq_ret hbody
      cases hbody
      rw [hkids n _ s₂ (hfirst ▸ hloop), List.append_assoc]

theorem Nodes.eq_nil (hG : Nodes h p G) (hp : p = none) : G = .nil := by
  cases hG with
  | nil => rfl
  | cons => cases hp

/-- What the loop over the children has shown when it returns. -/
theorem tracedXmlChildren_pairs (hG : Nodes h p G) : ∀ n (s s' : Strbuf × Pairs),
    tracedXmlChildren h name n s p = .ret s' → s'.2 = s.2 ++ values h name G := by
  induction hG with
  | nil =>
    intro n s s' hret
    cases n <;> cases hret <;> simp [values]
  | @cons i ks nx hk hn ihk ihn =>
    intro n s s' hret
    cases n with
    | zero => cases hret
    | succ n =>
      obtain ⟨s₁, hnode, hret⟩ := Exec.bind_eq_ret hret
      rw [ihn n s₁ s' hret, tracedXmlNodesAttr_pairs_of ihk (Nodes.eq_nil hk) hnode]
      simp [values]

end Shows

/-! ### The trace of the dump as XML -/

section Erase

variable (h : Tree) (name : Bytes)

/-- Without the nodes shown the traced dump is `dump_xml_nodes_attr`. -/
theorem traced_erase : ∀ n (s : Strbuf) (t : Pairs) (p : Option ℕ),
    (tracedXmlNodesAttr h name n (s, t) p >>= fun r => .ret r.1) = dumpXmlNodesAttr h name n s p ∧
      (tracedXmlChildren h name n (s, t) p >>= fun r => .ret r.1) = dumpXmlChildren h name n s p := by
  intro n
  induction n with
  | zero =>
    intro s t p
    cases p <;> exact ⟨rfl, rfl⟩
  | succ n ih =>
    intro s t p
    cases p with
    | none => exact ⟨rfl, rfl⟩
    | some i =>
      constructor
      · rw [tracedXmlNodesAttr, dumpXmlNodesAttr, Exec.bind_assoc]
        refine bind_congr fun level => ?_
        rw [Exec.bind_assoc]
        refine bind_congr fun b => ?_
        rw [Exec.bind_assoc]
        refine bind_congr fun b => ?_
        rw [Exec.bind_assoc]
        cases (h.cell i).firstChild with
        | none =>
          simp only [Exec.ret_bind, Exec.bind_assoc]
          cases dumpEnd b (h.cell i).data <;> rfl
        | some child =>
          simp only [Exec.bind_assoc]
          refine bind_congr fun b => ?_
          rw [← (ih b (t ++ emitted h name i) (some child)).2, Exec.bind_assoc]
          refine bind_congr fun r => ?_
          rw [Exec.ret_bind]
          refine bind_congr fun b => ?_
          rw [Exec.ret_bind]
          cases dumpEnd b (h.cell i).data <;> rfl
      · rw [tracedXmlChildren, dumpXmlChildren, Exec.bind_assoc, ← (ih s t (some i)).1, Exec.bind_assoc]
        refine bind_congr fun r => ?_
        rw [Exec.ret_bind]
        exact (ih r.1 r.2 _).2

end Erase

/-! ### The dump as text returns -/

section Returns

variable {h : Tree} {root k : ℕ} {kids : ℕ → List ℕ}

theorem dumpLine_returns {i level : ℕ} (hlevel : AtLevel h i level) (hi : i < h.size)
    (hprint : Printable k (h.cell i).data) :
    ∃ f : Bytes × Pairs → Bytes × Pairs, ∀ n ≥ h.size, ∀ out,
      dumpLine h (valueName k) n out i = .ret (f out) := by
  by_cases hhas : nodeHasAttr (attrsOf h i) (valueName k) = true
  · obtain ⟨v, hv⟩ := Option.ne_none_iff_exists'.1 (hprint hhas)
    refine ⟨fun out => (out.1 ++ (printIndent level ++ nameOf h i ++ str " = " ++ v ++ str "\n"),
      out.2 ++ [(i, v)]), fun n hn out => ?_⟩
    have hget : getAttr (attrsOf h i) (valueName k) = some v := hv
    rw [dumpLine, if_pos hhas, hlevel n (by omega), Exec.ret_bind, hget]
  · exact ⟨id, fun n _ out => by rw [dumpLine, if_neg hhas, id]⟩

theorem dumpNodesAttr_returns_of {p : Option ℕ} {G : Forest ℕ} {N : ℕ} (hG : Nodes h p G)
    (hN : h.size ≤ N) (hlevel : ∀ i, p = some i → i < h.size ∧ ∃ level, AtLevel h i level)
    (hprint : (G.map fun i => (h.cell i).data).All (Printable k))
    (hsiblings : ∃ f : Bytes × Pairs → Bytes × Pairs, ∀ n ≥ N, ∀ out,
      dumpSiblings h (valueName k) n out p = .ret (f out)) :
    ∃ f : Bytes × Pairs → Bytes × Pairs, ∀ n ≥ N + 1, ∀ out,
      dumpNodesAttr h (valueName k) n out p = .ret (f out) := by
  cases hG with
  | nil => exact ⟨id, fun n _ out => by cases n <;> rfl⟩
  | @cons i ks nx _ _ =>
    obtain ⟨hi, level, hlevel⟩ := hlevel i rfl
    obtain ⟨f, hf⟩ := hsiblings
    obtain ⟨g, hg⟩ := dumpLine_returns hlevel hi hprint.1
    refine ⟨f ∘ g, fun n hn out => ?_⟩
    obtain ⟨n, rfl⟩ : ∃ m, n = m + 1 := ⟨n - 1, by omega⟩
    rw [dumpNodesAttr, hg n (by omega), Exec.ret_bind, hf n (by omega)]
    rfl

/-- The loop over the siblings returns if no null pointer is printed. -/
theorem dumpSiblings_returns (hs : Sound h root kids) {p : Option ℕ} {G : Forest ℕ}
    (hG : Nodes h p G) : ∀ {l : List ℕ}, Chain h p l →
      (∀ i ∈ l, i < h.size ∧ ∃ level, AtLevel h i level) →
      (G.map fun i => (h.cell i).data).All (Printable k) →
      ∃ f : Bytes × Pairs → Bytes × Pairs, ∀ n ≥ 2 * G.size + h.size, ∀ out,
        dumpSiblings h (valueName k) n out p = .ret (f out) := by
  induction hG with
  | nil => exact fun _ _ _ => ⟨id, fun n _ out => by cases n <;> rfl⟩
  | @cons i ks nx hk hn ihk ihn =>
    intro l hp hl hprint
    cases l with
    | nil => cases hp
    | cons j l =>
      obtain ⟨hij, hp⟩ := hp
      cases hij
      obtain ⟨hi, level, hlevel⟩ := hl i List.mem_cons_self
      have hchain := hs.chain i hi
      have hkid : ∀ c ∈ kids i, c < h.size ∧ ∃ level, AtLevel h c level := fun c hc =>
        ⟨hs.kid_lt i hi c hc, level + 1, hlevel.kid (hs.kid_parent i hi c hc)
          (hs.older c (hs.kid_lt i hi c hc) i (hs.kid_parent i hi c hc))⟩
      have hhead : ∀ c, (h.cell i).firstChild = some c → c ∈ kids i := fun c hc => by
        rw [chain_head hchain] at hc
        exact List.mem_of_mem_head? hc
      obtain ⟨f, hf⟩ := dumpNodesAttr_returns_of hk (by omega) (fun c hc => hkid c (hhead c hc))
        hprint.2.1 (ihk hchain hkid hprint.2.1)
      obtain ⟨g, hg⟩ := ihn hp (fun j hj => hl j (List.mem_cons_of_mem i hj)) hprint.2.2
      refine ⟨g ∘ f, fun n hn out => ?_⟩
      rw [Forest.size] at hn
      obtain ⟨n, rfl⟩ : ∃ m, n = m + 1 := ⟨n - 1, by omega⟩
      rw [dumpSiblings, hf n (by omega), Exec.ret_bind, hg n (by omega)]
      rfl

end Returns

/-! ### The same nodes -/

section Same

variable {h : Tree} {name : Bytes} {k : ℕ}

theorem emitted_eq_nil {i : ℕ} : emitted h name i = [] ↔ getAttr (attrsOf h i) name = none := by
  rw [emitted]
  cases getAttr (attrsOf h i) name <;> simp

theorem length_shown_le (first : Bool) (G : Forest ℕ) :
    (shown h name first G).length ≤ (values h name G).length := by
  induction G generalizing first with
  | nil => rfl
  | cons i ks nx ihk ihn =>
    have hk := ihk true
    have hn := ihn false
    have hi : (if first = true then emitted h name i else []).length ≤ (emitted h name i).length := by
      split_ifs <;> simp
    simp only [shown, values, List.length_append]
    omega

/-- Nothing is left out exactly when only first siblings have a value. -/
theorem shown_eq_values_iff (first : Bool) (G : Forest ℕ) :
    shown h (valueName k) first G = values h (valueName k) G ↔
      FirstOnly k first (G.map fun i => (h.cell i).data) := by
  induction G generalizing first with
  | nil => exact iff_of_true rfl trivial
  | cons i ks nx ihk ihn =>
    rw [Forest.map, FirstOnly, ← ihk, ← ihn]
    change _ ↔ (first = true ∨ getAttr (attrsOf h i) (valueName k) = none) ∧ _ ∧ _
    rw [← emitted_eq_nil]
    constructor
    · intro heq
      have hlen := congrArg List.length heq
      have hk := @length_shown_le h (valueName k) true ks
      have hn := @length_shown_le h (valueName k) false nx
      simp only [shown, values, List.length_append] at hlen
      have hfirst : first = true ∨ emitted h (valueName k) i = [] := by
        cases first with
        | true => exact Or.inl rfl
        | false =>
          refine Or.inr (List.length_eq_zero_iff.1 ?_)
          simp only [Bool.false_eq_true, if_false, List.length_nil] at hlen
          omega
      have hif : (if first = true then emitted h (valueName k) i else []) = emitted h (valueName k) i := by
        rcases hfirst with rfl | hnil
        · rfl
        · rw [hnil, ite_self]
      rw [shown, values, hif, List.append_assoc, List.append_assoc, List.append_cancel_left_eq] at heq
      rw [hif] at hlen
      obtain ⟨hks, hnx⟩ := List.append_inj heq (by omega)
      exact ⟨hfirst, hks, hnx⟩
    · rintro ⟨hfirst, hks, hnx⟩
      rw [shown, values, hks, hnx]
      rcases hfirst with rfl | hnil
      · rfl
      · rw [hnil, ite_self]

/-- The number of a configuration, where those up to 1 have the attribute `value`. -/
def layerOf (confId : ℤ) : ℕ := if 1 < confId then confId.toNat else 0

theorem confName_eq (confId : ℤ) : confName confId = valueName (layerOf confId) := by
  rw [confName, layerOf]
  split_ifs
  · rfl
  · rw [valueName]
    simp [decimal]

/-- Both dumps return, and show the same nodes with the same values in the same order. -/
def SameDumps (h : Tree) (root : ℕ) (confId : ℤ) : Prop :=
  ∃ out s pairs, Exec.Eventually (fun n => dumpText h n (some root) confId) (.ret (out, pairs)) ∧
    Exec.Eventually (fun n => tracedXml h n (some root) confId) (.ret (s, pairs))

/-- What the dumps show when both return. -/
theorem SameDumps.firstOnly {root : ℕ} {confId : ℤ} {F : Forest Node} (hF : Holds h (some root) F)
    (hroot : (h.cell root).next = none) (hsame : SameDumps h root confId) :
    FirstOnly (layerOf confId) true F := by
  obtain ⟨G, hG, rfl⟩ := hF.nodes
  obtain ⟨out, s, pairs, ⟨N, htext⟩, ⟨M, hxml⟩⟩ := hsame
  have htext : dumpText h N (some root) confId = _ := htext N le_rfl
  have hxml : tracedXml h M (some root) confId = _ := hxml M le_rfl
  rw [dumpText, confName_eq] at htext
  rw [tracedXml, confName_eq] at hxml
  have hshown := dumpNodesAttr_pairs hG htext
  cases hG with
  | @cons _ ks nx hk hn =>
    have hnx : nx = .nil := Nodes.eq_nil hn hroot
    have hvalues := tracedXmlNodesAttr_pairs_of (tracedXmlChildren_pairs hk) (Nodes.eq_nil hk) hxml
    rw [← shown_eq_values_iff]
    rw [List.nil_append] at hshown hvalues
    rw [← hshown, hvalues, hnx]
    simp [values]

/-- **The two dumps show the same configuration exactly when** no null pointer is printed, the text of
`dump_xml` fits, and of the siblings only the first ones have a value. -/
theorem sameDumps_iff {root : ℕ} {kids : ℕ → List ℕ} (hs : Sound h root kids)
    (hroot : (h.cell root).next = none) {F : Forest Node} (hF : Holds h (some root) F) (confId : ℤ) :
    SameDumps h root confId ↔ F.All (Printable (layerOf confId)) ∧
      exportSize 0 (F.map (view (layerOf confId))) < 4096 ∧ FirstOnly (layerOf confId) true F := by
  obtain ⟨G, hG, hFG⟩ := hF.nodes
  have hchain : Chain h (some root) [root] := ⟨rfl, hroot⟩
  obtain ⟨ks, hks, hFks⟩ : ∃ ks, Grows h kids (kids root) ks ∧
      F = .cons (h.cell root).data ks .nil := by
    have hg := hG.grows hs hchain (by simpa using hs.root_lt)
    rw [← hFG] at hg
    cases hg with
    | cons hd hk hn =>
      cases hn
      exact ⟨_, hk, by rw [hd]⟩
  have hlevel := atLevel_root hs.root_parent
  have hxml := dumpXmlNodesAttr_eq (k := layerOf confId) hs hs.root_lt hlevel hks strInit
  have herase : (fun n => tracedXml h n (some root) confId >>= fun r => .ret r.1) =
      fun n => dumpXmlNodesAttr h (valueName (layerOf confId)) n strInit (some root) := by
    funext n
    rw [tracedXml, confName_eq]
    exact (traced_erase h _ n strInit [] (some root)).1
  rw [← hFks, ← herase] at hxml
  have hfits := strAppend_dumpText (k := layerOf confId) 0 F fun _ => True
  simp only [and_true] at hfits
  constructor
  · intro hsame
    have hfirst := hsame.firstOnly hF hroot
    obtain ⟨out, s, pairs, -, htraced⟩ := hsame
    have hret := (htraced.bind (Exec.Eventually.of_eq fun _ => rfl)).unique hxml
    obtain ⟨hprint, hsize⟩ := hfits.1 ⟨s, hret.symm⟩
    exact ⟨hprint, hsize, hfirst⟩
  · rintro ⟨hprint, hsize, hfirst⟩
    obtain ⟨s, hs'⟩ := hfits.2 ⟨hprint, hsize⟩
    rw [hs'] at hxml
    rw [hFG] at hprint
    have hroots : ∀ i ∈ [root], i < h.size ∧ ∃ level, AtLevel h i level := by
      simpa using ⟨hs.root_lt, 0, hlevel⟩
    obtain ⟨f, hf⟩ := dumpNodesAttr_returns_of hG (by omega) (by simpa using hroots) hprint
      (dumpSiblings_returns hs hG hchain hroots hprint)
    have htext : ∀ n ≥ 2 * G.size + h.size + 1, dumpText h n (some root) confId = .ret (f ([], [])) :=
      fun n hn => by rw [dumpText, confName_eq, hf n hn]
    have hpairs : (f ([], [])).2 = values h (valueName (layerOf confId)) G := by
      have h1 := htext _ le_rfl
      rw [dumpText, confName_eq] at h1
      rw [dumpNodesAttr_pairs hG h1, List.nil_append, shown_eq_values_iff, ← hFG]
      exact hfirst
    refine ⟨(f ([], [])).1, s, values h (valueName (layerOf confId)) G,
      ⟨_, fun n hn => (htext n hn).trans (by rw [← hpairs])⟩, ?_⟩
    obtain ⟨N, hN⟩ := hxml
    refine ⟨N, fun n hn => ?_⟩
    obtain ⟨⟨s₁, t⟩, htraced, hret⟩ := Exec.bind_eq_ret (hN n hn)
    cases hret
    change tracedXml h n (some root) confId = _
    rw [htraced]
    rw [tracedXml, confName_eq] at htraced
    cases hG with
    | @cons _ gs nx hk hn =>
      have hnx : nx = .nil := Nodes.eq_nil hn hroot
      have hvalues := tracedXmlNodesAttr_pairs_of (tracedXmlChildren_pairs hk) (Nodes.eq_nil hk) htraced
      have ht : t = values h (valueName (layerOf confId)) (.cons root gs nx) := by
        rw [hnx]
        simpa [values] using hvalues
      rw [ht]

end Same

/-! ### Two interfaces -/

/-- A root with the children `lan` and `wan`, which have these values. -/
def twoNodes (lan wan : List Attr) : Tree where
  size := 3
  cell
    | 0 => ⟨⟨str "root", none, none, []⟩, none, none, none, some 1⟩
    | 1 => ⟨⟨str "lan", none, none, lan⟩, some 0, none, some 2, none⟩
    | _ => ⟨⟨str "wan", none, none, wan⟩, some 0, some 1, none, none⟩

/-- The children of the nodes. -/
def twoKids : ℕ → List ℕ
  | 0 => [1, 2]
  | _ => []

theorem sound_twoNodes (lan wan : List Attr) : Sound (twoNodes lan wan) 0 twoKids where
  root_lt := Nat.succ_pos 2
  root_parent := rfl
  chain i hi := by
    have hi : i < 3 := hi
    interval_cases i
    · exact ⟨rfl, rfl, rfl⟩
    · rfl
    · rfl
  nodup i hi := by
    have hi : i < 3 := hi
    interval_cases i <;> decide
  kid_lt i hi c hc := by
    have hi : i < 3 := hi
    interval_cases i <;> simp [twoKids] at hc
    rcases hc with rfl | rfl
    · exact (by decide : 1 < 3)
    · exact (by decide : 2 < 3)
  kid_parent i hi c hc := by
    have hi : i < 3 := hi
    interval_cases i <;> simp [twoKids] at hc
    rcases hc with rfl | rfl <;> rfl
  older i hi p hp := by
    have hi : i < 3 := hi
    interval_cases i <;> simp [twoNodes] at hp <;> omega

/-- The forest of the nodes. -/
def twoForest (lan wan : List Attr) : Forest Node :=
  .cons ⟨str "root", none, none, []⟩
    (.cons ⟨str "lan", none, none, lan⟩ .nil (.cons ⟨str "wan", none, none, wan⟩ .nil .nil)) .nil

theorem holds_twoNodes (lan wan : List Attr) :
    Holds (twoNodes lan wan) (some 0) (twoForest lan wan) :=
  .cons (.cons .nil (.cons .nil .nil)) .nil

/-- One value. -/
def oneValue : List Attr := [⟨str "value", some (str "1")⟩]

theorem sameDumps_lan : SameDumps (twoNodes oneValue []) 0 1 :=
  (sameDumps_iff (sound_twoNodes _ _) rfl (holds_twoNodes _ _) 1).2
    ⟨by decide, by decide, by decide⟩

/-- The value of a second child is not in the dump as text. -/
theorem not_sameDumps_wan : ¬ SameDumps (twoNodes oneValue oneValue) 0 1 := by
  intro h
  have hfirst := h.firstOnly (holds_twoNodes _ _) rfl
  revert hfirst
  decide

end Text

end ZRouter.Conf
