import ZRouter.Conf.Text

/-!
# Looking up a path (`findNodePath`)

The search goes through the siblings and comes back from those below which it finds nothing; then it looks
at the attributes of the first sibling, whatever its name.

* `Hit`, `findNodePath`;
* `Leads`: a chain of nodes with the names of the path;
* `search`: the search on lists of siblings, with `findNodePath_eq`;
* `Straight`: nothing leads the search astray;
* `findsPath_iff`: when the lookup finds what the path names.
-/

namespace ZRouter.Conf

open Cells

/-! ### The lookup -/

/-- What a lookup returns: a node, or an attribute of a node by its place. -/
inductive Hit where
  | node (i : ℕ)
  | attr (i k : ℕ)
deriving DecidableEq

/-- The name in front of the first dot. -/
def headName (path : Bytes) : Bytes := path.takeWhile (· ≠ 46)

/-- What stands behind the first dot. -/
def subPath (path : Bytes) : Option Bytes :=
  match path.dropWhile (· ≠ 46) with
  | _ :: s => some s
  | [] => none

/-- `findNodePath` on attributes: these have neither children nor attributes. -/
def findAttrPath (attrs : List Attr) (path : Bytes) : Option ℕ :=
  match attrs with
  | [] => none
  | a :: _ =>
      if a.name = path then some 0
      else if subPath path = none then attrs.findIdx? (·.name = path)
      else none

mutual

/-- `findNodePath`; the number bounds the recursion. -/
def findNodePath (h : Tree) : ℕ → Option ℕ → Option Bytes → Exec (Option Hit)
  | _, none, _ => .ret none
  | _, some _, none => .ret none
  | 0, some _, some _ => .stuck
  | n + 1, some root, some path =>
      if nameOf h root = path then .ret (some (.node root))
      else
        findLoop h n (some root) (headName path) (subPath path) >>= fun new =>
        match new with
        | some x => .ret (some x)
        | none => .ret (((subPath path).bind (findAttrPath (attrsOf h root))).map (.attr root))

/-- The loop over the siblings, from one of them on. -/
def findLoop (h : Tree) : ℕ → Option ℕ → Bytes → Option Bytes → Exec (Option Hit)
  | _, none, _, _ => .ret none
  | 0, some _, _, _ => .stuck
  | n + 1, some node, name, subpath =>
      if nameOf h node = name then
        findNodePath h n (h.cell node).firstChild subpath >>= fun new =>
        match new with
        | some x => .ret (some x)
        | none =>
            if subpath = none then .ret (some (.node node))
            else findLoop h n (h.cell node).next name subpath
      else findLoop h n (h.cell node).next name subpath

end

/-- The lookup with a larger bound. -/
theorem findNodePath_mono (h : Tree) {n m : ℕ} (hnm : n ≤ m) :
    (∀ p path, findNodePath h n p path ≤ findNodePath h m p path) ∧
      ∀ p name subpath, findLoop h n p name subpath ≤ findLoop h m p name subpath := by
  induction n generalizing m with
  | zero =>
    constructor
    · rintro (- | i) (- | path)
      · rw [findNodePath, findNodePath]
      · rw [findNodePath, findNodePath]
      · rw [findNodePath, findNodePath]
      · rw [findNodePath]
        exact Exec.stuck_le _
    · rintro (- | i) name subpath
      · rw [findLoop, findLoop]
      · rw [findLoop]
        exact Exec.stuck_le _
  | succ n ih =>
    obtain ⟨m, rfl⟩ : ∃ k, m = k + 1 := ⟨m - 1, by omega⟩
    obtain ⟨hfind, hloop⟩ := ih (Nat.le_of_succ_le_succ hnm)
    constructor
    · rintro (- | i) (- | path)
      · rw [findNodePath, findNodePath]
      · rw [findNodePath, findNodePath]
      · rw [findNodePath, findNodePath]
      · rw [findNodePath, findNodePath]
        split_ifs
        · exact le_rfl
        · exact Exec.bind_le_bind (hloop _ _ _) fun _ => le_rfl
    · rintro (- | i) name subpath
      · rw [findLoop, findLoop]
      · rw [findLoop, findLoop]
        split_ifs
        · refine Exec.bind_le_bind (hfind _ _) fun new => ?_
          cases new with
          | some x => exact le_rfl
          | none => exact le_rfl
        · refine Exec.bind_le_bind (hfind _ _) fun new => ?_
          cases new with
          | some x => exact le_rfl
          | none => exact hloop _ _ _
        · exact hloop _ _ _

/-! ### Paths -/

/-- A path of names. -/
def join (names : List Bytes) : Bytes := [46].intercalate names

/-- The path that is left, which is null behind the last name. -/
def pathOf (names : List Bytes) : Option Bytes := if names = [] then none else some (join names)

theorem join_cons_cons (n a : Bytes) (ns : List Bytes) :
    join (n :: a :: ns) = n ++ 46 :: join (a :: ns) := by
  simp [join, List.intercalate]

@[simp] theorem join_singleton (n : Bytes) : join [n] = n := by
  simp [join, List.intercalate]

/-- A path is taken apart at its first dot. -/
theorem split_join {n : Bytes} (hn : 46 ∉ n) (ns : List Bytes) :
    headName (join (n :: ns)) = n ∧ subPath (join (n :: ns)) = pathOf ns := by
  have hall : ∀ c ∈ n, decide (c ≠ 46) = true := fun c hc =>
    decide_eq_true (ne_of_mem_of_not_mem hc hn)
  cases ns with
  | nil =>
    rw [join_singleton, headName, subPath, List.takeWhile_eq_self_iff.2 hall,
      List.dropWhile_eq_nil_iff.2 hall]
    exact ⟨rfl, rfl⟩
  | cons a ns =>
    rw [join_cons_cons, headName, subPath, List.takeWhile_append_of_pos hall,
      List.dropWhile_append_of_pos hall]
    simp [pathOf]

/-! ### What a path names -/

/-- A chain of nodes with the names of the path, or one that ends with an attribute. -/
inductive Leads (h : Tree) (kids : ℕ → List ℕ) : List ℕ → List Bytes → Hit → Prop
  | node {l c n} (hc : c ∈ l) (hn : nameOf h c = n) : Leads h kids l [n] (.node c)
  | attr {l c n k a} (hc : c ∈ l) (hn : nameOf h c = n) (hk : (attrsOf h c)[k]? = some a) :
      Leads h kids l [n, a.name] (.attr c k)
  | step {l c n ns x} (hc : c ∈ l) (hn : nameOf h c = n) (hx : Leads h kids (kids c) ns x) :
      Leads h kids l (n :: ns) x

/-- The lookup returns; what it finds is what the path names, and it finds something if there is
anything that the path names. -/
def FindsPath (h : Tree) (kids : ℕ → List ℕ) (p : Option ℕ) (l : List ℕ) (path : Bytes) : Prop :=
  ∃ r, Exec.Eventually (fun n => findNodePath h n p (some path)) (.ret r) ∧
    (∀ x, r = some x → Leads h kids l (path.splitOn 46) x) ∧
    (r = none → ∀ x, ¬ Leads h kids l (path.splitOn 46) x)

/-! ### The search -/

section Search

variable (h : Tree) (kids : ℕ → List ℕ)

/-- What the search finds in the attributes of a node for the names behind its own. -/
def attrHit (f : ℕ) (ns : List Bytes) : Option Hit :=
  ((pathOf ns).bind (findAttrPath (attrsOf h f))).map (.attr f)

/-- The search on a list of siblings. -/
def search : List Bytes → List ℕ → Option Hit
  | [], _ => none
  | _, [] => none
  | n :: ns, f :: l =>
      if nameOf h f = join (n :: ns) then some (.node f)
      else
        ((f :: l).findSome? fun c =>
          if nameOf h c = n then
            (search ns (kids c)).or (if ns = [] then some (.node c) else none)
          else none).or (attrHit h f ns)

/-- Something stops the search: a node with the rest of the path as its name, a node at the end of the
path, or an attribute. -/
def stops : List Bytes → List ℕ → Bool
  | [], _ => false
  | _, [] => false
  | n :: ns, f :: l =>
      nameOf h f = join (n :: ns) ||
        ((f :: l).any fun c => nameOf h c = n && (ns = [] || stops ns (kids c))) ||
        (attrHit h f ns).isSome

/-- Nothing leads the search astray.  The first sibling does not have the rest of the path as its name.
If something stops the search below a node with the next name, nothing does so wrongly below the first
of these nodes.  Otherwise, an attribute of the first sibling counts only if this has the next name and
one name is left; without one, nothing has been missed below a node with the next name, and no such node
has the attribute. -/
def Straight : List Bytes → List ℕ → Prop
  | [], _ => True
  | [_], _ => True
  | _, [] => True
  | n :: a :: ns, f :: l =>
      nameOf h f ≠ join (n :: a :: ns) ∧
        match (f :: l).find? fun c => nameOf h c = n && stops h kids (a :: ns) (kids c) with
        | some c => Straight (a :: ns) (kids c)
        | none =>
            if (attrHit h f (a :: ns)).isSome then nameOf h f = n ∧ ns = []
            else ∀ c ∈ f :: l, nameOf h c = n → Straight (a :: ns) (kids c) ∧
              (ns = [] → ∀ b ∈ attrsOf h c, b.name ≠ a)

end Search

section Lookup

variable {h : Tree} {root : ℕ} {kids : ℕ → List ℕ}

/-- The loop, when the lookup below each of the siblings does what it should. -/
theorem findLoop_eq {ns : List Bytes} {N : ℕ}
    (hkids : ∀ c < h.size, ∀ n ≥ N, findNodePath h n (h.cell c).firstChild (pathOf ns) =
      .ret (search h kids ns (kids c))) (name : Bytes) {l : List ℕ} :
    ∀ {p : Option ℕ}, Chain h p l → (∀ i ∈ l, i < h.size) → ∀ n ≥ N + l.length,
      findLoop h n p name (pathOf ns) = .ret (l.findSome? fun c =>
        if nameOf h c = name then
          (search h kids ns (kids c)).or (if ns = [] then some (.node c) else none)
        else none) := by
  induction l with
  | nil =>
    intro p hp _ n _
    rw [Chain] at hp
    subst hp
    cases n <;> rfl
  | cons c l ih =>
    rintro p ⟨rfl, hp⟩ hl n hn
    rw [List.length_cons] at hn
    obtain ⟨n, rfl⟩ : ∃ m, n = m + 1 := ⟨n - 1, by omega⟩
    have hc := hl c List.mem_cons_self
    have hrest := ih hp (fun j hj => hl j (List.mem_cons_of_mem c hj)) n (by omega)
    have hpath : pathOf ns = none ↔ ns = [] := by
      rw [pathOf]
      split_ifs with h0 <;> simp [h0]
    rw [findLoop, List.findSome?_cons]
    by_cases hname : nameOf h c = name
    · simp only [if_pos hname]
      rw [hkids c hc n (by omega), Exec.ret_bind]
      cases search h kids ns (kids c) with
      | some x => rfl
      | none =>
        simp only [Option.none_or, hpath]
        by_cases hns : ns = []
        · simp [hns]
        · simp [hns, hrest]
    · simp only [if_neg hname]
      exact hrest

/-- **The lookup is the search.** -/
theorem findNodePath_eq (hs : Sound h root kids) {names : List Bytes} (hdots : ∀ n ∈ names, 46 ∉ n) :
    ∀ {p : Option ℕ} {l : List ℕ}, Chain h p l → (∀ i ∈ l, i < h.size) → l.length ≤ h.size →
      ∀ n ≥ names.length * (h.size + 2),
        findNodePath h n p (pathOf names) = .ret (search h kids names l) := by
  induction names with
  | nil =>
    intro p l _ _ _ n _
    cases p <;> cases n <;> rfl
  | cons name ns ih =>
    intro p l hp hl hlen n hn
    obtain ⟨hname, hns⟩ := List.forall_mem_cons.1 hdots
    obtain ⟨hhead, hsub⟩ := split_join hname ns
    have hpath : pathOf (name :: ns) = some (join (name :: ns)) := if_neg (by simp)
    rw [List.length_cons, Nat.succ_mul] at hn
    obtain ⟨n, rfl⟩ : ∃ m, n = m + 1 := ⟨n - 1, by omega⟩
    cases l with
    | nil =>
      rw [Chain] at hp
      subst hp
      rfl
    | cons f l =>
      have hf : p = some f := hp.1
      have hloop := findLoop_eq (fun c hc n hn => ih hns (hs.chain c hc)
        (fun i hi => hs.kid_lt c hc i hi) (hs.length_le hc) n hn) name hp hl n (by omega)
      rw [hpath, hf, findNodePath, hhead, hsub, search, ← hf, hloop]
      by_cases hwhole : nameOf h f = join (name :: ns)
      · rw [if_pos hwhole, if_pos hwhole]
      · rw [if_neg hwhole, if_neg hwhole, Exec.ret_bind]
        cases List.findSome? _ (f :: l) <;> rfl

/-! ### What the search finds -/

/-- The node of a hit. -/
def Hit.addr : Hit → ℕ
  | .node i => i
  | .attr i _ => i

theorem stops_eq (names : List Bytes) (l : List ℕ) :
    stops h kids names l = (search h kids names l).isSome := by
  induction names generalizing l with
  | nil => cases l <;> rfl
  | cons n ns ih =>
    cases l with
    | nil => rfl
    | cons f l =>
      have hany : ∀ m : List ℕ, (m.any fun c => nameOf h c = n && (ns = [] || stops h kids ns (kids c))) =
          (m.findSome? fun c => if nameOf h c = n then
            (search h kids ns (kids c)).or (if ns = [] then some (.node c) else none)
          else none).isSome := by
        intro m
        induction m with
        | nil => rfl
        | cons c m ihm =>
          rw [List.any_cons, List.findSome?_cons, ihm, ih]
          by_cases hc : nameOf h c = n
          · by_cases hns : ns = []
            · simp [hc, hns, search]
            · cases search h kids ns (kids c) <;> simp [hc, hns]
          · simp [hc]
      rw [stops, search, hany]
      by_cases hwhole : nameOf h f = join (n :: ns)
      · simp [hwhole]
      · simp [hwhole]

theorem attrHit_addr {f : ℕ} {ns : List Bytes} {x : Hit} (hx : attrHit h f ns = some x) : x.addr = f := by
  obtain ⟨k, -, rfl⟩ := Option.map_eq_some_iff.1 hx
  rfl

/-- What is found is under one of the siblings. -/
theorem search_under (hs : Sound h root kids) {names : List Bytes} {l : List ℕ} {x : Hit}
    (hl : ∀ i ∈ l, i < h.size) (hx : search h kids names l = some x) :
    ∃ c ∈ l, Under h c x.addr ∧ x.addr < h.size := by
  induction names generalizing l x with
  | nil => cases hx
  | cons n ns ih =>
    cases l with
    | nil => cases hx
    | cons f l =>
      have hf := hl f List.mem_cons_self
      rw [search] at hx
      by_cases hwhole : nameOf h f = join (n :: ns)
      · rw [if_pos hwhole] at hx
        cases hx
        exact ⟨f, List.mem_cons_self, .refl, hf⟩
      rw [if_neg hwhole] at hx
      rcases Option.or_eq_some_iff.1 hx with hx | ⟨-, hx⟩
      · obtain ⟨c, hc, hx⟩ := List.exists_of_findSome?_eq_some hx
        have hclt := hl c hc
        by_cases hname : nameOf h c = n
        · rw [if_pos hname] at hx
          rcases Option.or_eq_some_iff.1 hx with hx | ⟨-, hx⟩
          · obtain ⟨d, hd, hu, hlt⟩ := ih (fun i hi => hs.kid_lt c hclt i hi) hx
            exact ⟨c, hc, (hs.under_kid hclt hd).trans hu, hlt⟩
          · split_ifs at hx
            cases hx
            exact ⟨c, hc, .refl, hclt⟩
        · rw [if_neg hname] at hx
          cases hx
      · rw [attrHit_addr hx]
        exact ⟨f, List.mem_cons_self, .refl, hf⟩

/-- What a path leads to is under one of the siblings. -/
theorem Leads.under (hs : Sound h root kids) {names : List Bytes} {l : List ℕ} {x : Hit}
    (hx : Leads h kids l names x) (hl : ∀ i ∈ l, i < h.size) :
    ∃ c ∈ l, Under h c x.addr ∧ x.addr < h.size := by
  induction hx with
  | node hc _ => exact ⟨_, hc, .refl, hl _ hc⟩
  | attr hc _ _ => exact ⟨_, hc, .refl, hl _ hc⟩
  | step hc _ _ ih =>
    have hclt := hl _ hc
    obtain ⟨d, hd, hu, hlt⟩ := ih fun i hi => hs.kid_lt _ hclt i hi
    exact ⟨_, hc, (hs.under_kid hclt hd).trans hu, hlt⟩

/-- A path of two names or more leads below a node with the first name, or to an attribute of it. -/
theorem leads_cons_cons {n a : Bytes} {ns : List Bytes} {l : List ℕ} {x : Hit} :
    Leads h kids l (n :: a :: ns) x ↔ ∃ c ∈ l, nameOf h c = n ∧ (Leads h kids (kids c) (a :: ns) x ∨
      ∃ k b, (attrsOf h c)[k]? = some b ∧ b.name = a ∧ ns = [] ∧ x = .attr c k) := by
  constructor
  · intro hx
    cases hx with
    | attr hc hn hk => exact ⟨_, hc, hn, Or.inr ⟨_, _, hk, rfl, rfl, rfl⟩⟩
    | step hc hn hx => exact ⟨_, hc, hn, Or.inl hx⟩
  · rintro ⟨c, hc, hn, hx | ⟨k, b, hk, rfl, rfl, rfl⟩⟩
    · exact .step hc hn hx
    · exact .attr hc hn hk

theorem not_leads_nil {l : List ℕ} {x : Hit} : ¬ Leads h kids l [] x := fun hx => by cases hx

theorem leads_singleton {n : Bytes} {l : List ℕ} {x : Hit} :
    Leads h kids l [n] x ↔ ∃ c ∈ l, nameOf h c = n ∧ x = .node c := by
  constructor
  · intro hx
    cases hx with
    | node hc hn => exact ⟨_, hc, hn, rfl⟩
    | step _ _ hx => exact absurd hx not_leads_nil
  · rintro ⟨c, hc, hn, rfl⟩
    exact .node hc hn

/-- Nothing is under two of the nodes. -/
def Apart (h : Tree) (l : List ℕ) : Prop :=
  ∀ c ∈ l, ∀ d ∈ l, c ≠ d → ∀ m < h.size, Under h c m → ¬ Under h d m

/-- What is below a node has another address than each of the siblings. -/
theorem Leads.addr_ne (hs : Sound h root kids) {names : List Bytes} {l : List ℕ} {x : Hit} {c d : ℕ}
    (hl : ∀ i ∈ l, i < h.size) (hapart : Apart h l) (hc : c ∈ l) (hd : d ∈ l)
    (hx : Leads h kids (kids c) names x) : x.addr ≠ d := by
  rintro rfl
  have hclt := hl c hc
  obtain ⟨e, he, hu, hlt⟩ := hx.under hs fun i hi => hs.kid_lt c hclt i hi
  by_cases hcd : c = x.addr
  · exact hs.not_under hclt he (hcd ▸ hu)
  · exact hapart c hc _ hd hcd _ hlt ((hs.under_kid hclt he).trans hu) .refl

/-- What the search finds below a node is what the path names exactly when it is so below the node. -/
theorem leads_found (hs : Sound h root kids) {n a : Bytes} {ns : List Bytes} {l : List ℕ} {x : Hit}
    {c : ℕ} (hl : ∀ i ∈ l, i < h.size) (hapart : Apart h l) (hc : c ∈ l) (hn : nameOf h c = n)
    (hx : search h kids (a :: ns) (kids c) = some x) :
    Leads h kids l (n :: a :: ns) x ↔ Leads h kids (kids c) (a :: ns) x := by
  have hclt := hl c hc
  obtain ⟨e, he, hu, hlt⟩ := search_under hs (fun i hi => hs.kid_lt c hclt i hi) hx
  have huc : Under h c x.addr := (hs.under_kid hclt he).trans hu
  rw [leads_cons_cons]
  constructor
  · rintro ⟨d, hd, -, hbelow | ⟨k, b, -, -, -, rfl⟩⟩
    · by_cases hdc : d = c
      · exact hdc ▸ hbelow
      · obtain ⟨e', he', hu', -⟩ := hbelow.under hs fun i hi => hs.kid_lt d (hl d hd) i hi
        exact absurd ((hs.under_kid (hl d hd) he').trans hu') (hapart c hc d hd (Ne.symm hdc) _ hlt huc)
    · exfalso
      by_cases hdc : d = c
      · exact hs.not_under hclt he (hdc ▸ hu)
      · exact hapart c hc d hd (Ne.symm hdc) _ hlt huc .refl
  · exact fun hbelow => ⟨c, hc, hn, Or.inl hbelow⟩

/-- The search goes below the first node with the next name below which something stops it. -/
theorem search_cons_cons {n a : Bytes} {ns : List Bytes} {f : ℕ} {l : List ℕ}
    (hwhole : nameOf h f ≠ join (n :: a :: ns)) :
    search h kids (n :: a :: ns) (f :: l) =
      (((f :: l).find? fun c => nameOf h c = n && stops h kids (a :: ns) (kids c)).bind fun c =>
        search h kids (a :: ns) (kids c)).or (attrHit h f (a :: ns)) := by
  have hfind : ∀ m : List ℕ, (m.findSome? fun c =>
      if nameOf h c = n then
        (search h kids (a :: ns) (kids c)).or (if a :: ns = [] then some (.node c) else none)
      else none) = (m.find? fun c => nameOf h c = n && stops h kids (a :: ns) (kids c)).bind fun c =>
        search h kids (a :: ns) (kids c) := by
    intro m
    induction m with
    | nil => rfl
    | cons c m ihm =>
      rw [List.findSome?_cons, List.find?_cons, ihm, stops_eq]
      by_cases hc : nameOf h c = n
      · cases hx : search h kids (a :: ns) (kids c) <;> simp [hc, hx]
      · simp [hc]
  rw [search, if_neg hwhole, hfind]

theorem findAttrPath_name {attrs : List Attr} {a : Bytes} {k : ℕ}
    (hk : findAttrPath attrs a = some k) : ∃ b, attrs[k]? = some b ∧ b.name = a := by
  cases attrs with
  | nil => cases hk
  | cons b attrs =>
    rw [findAttrPath] at hk
    split_ifs at hk with hb
    · cases hk
      exact ⟨b, rfl, hb⟩
    · obtain ⟨hlt, hname, -⟩ := List.findIdx?_eq_some_iff_getElem.1 hk
      exact ⟨_, List.getElem?_eq_getElem hlt, by simpa using hname⟩

/-- The search finds what the path names, and something if there is anything. -/
def Correct (h : Tree) (kids : ℕ → List ℕ) (names : List Bytes) (l : List ℕ) : Prop :=
  (∀ x, search h kids names l = some x → Leads h kids l names x) ∧
    (search h kids names l = none → ∀ x, ¬ Leads h kids l names x)

theorem correct_some {names : List Bytes} {l : List ℕ} {x : Hit} (hx : search h kids names l = some x) :
    Correct h kids names l ↔ Leads h kids l names x := by
  simp [Correct, hx]

theorem correct_none {names : List Bytes} {l : List ℕ} (hx : search h kids names l = none) :
    Correct h kids names l ↔ ∀ x, ¬ Leads h kids l names x := by
  simp [Correct, hx]

theorem search_singleton (n : Bytes) (l : List ℕ) :
    search h kids [n] l = (l.find? fun c => nameOf h c = n).map .node := by
  cases l with
  | nil => rfl
  | cons f l =>
    have hfind : ∀ m : List ℕ, (m.findSome? fun c => if nameOf h c = n then
        (search h kids [] (kids c)).or (if ([] : List Bytes) = [] then some (Hit.node c) else none)
          else none) = (m.find? fun c => nameOf h c = n).map .node := by
      intro m
      induction m with
      | nil => rfl
      | cons c m ihm =>
        rw [List.findSome?_cons, List.find?_cons, ihm]
        by_cases hc : nameOf h c = n <;> simp [hc, search]
    have hattr : attrHit h f [] = none := rfl
    rw [search, hfind, hattr, join_singleton, Option.or_none]
    by_cases hf : nameOf h f = n <;> simp [hf]

/-- One name is found wherever it is. -/
theorem correct_singleton (n : Bytes) (l : List ℕ) : Correct h kids [n] l := by
  constructor
  · intro x hx
    rw [search_singleton] at hx
    obtain ⟨c, hc, rfl⟩ := Option.map_eq_some_iff.1 hx
    exact .node (List.mem_of_find?_eq_some hc) (by simpa using List.find?_some hc)
  · intro hx x hlead
    rw [search_singleton, Option.map_eq_none_iff, List.find?_eq_none] at hx
    obtain ⟨c, hc, hn, -⟩ := leads_singleton.1 hlead
    exact hx c hc (by simpa using hn)

theorem apart_kids (hs : Sound h root kids) {c : ℕ} (hc : c < h.size) : Apart h (kids c) :=
  fun _ hi _ hj hij _ hm hui => hs.disjoint hc hi hj hij hm hui

/-- **When the search is right**: when nothing leads it astray. -/
theorem correct_iff (hs : Sound h root kids) {names : List Bytes} (hdots : ∀ n ∈ names, 46 ∉ n) :
    ∀ {l : List ℕ}, (∀ i ∈ l, i < h.size) → Apart h l →
      (Correct h kids names l ↔ Straight h kids names l) := by
  induction names with
  | nil =>
    intro l _ _
    refine iff_of_true ((correct_none ?_).2 fun x => not_leads_nil) ?_
    · cases l <;> rfl
    · cases l <;> trivial
  | cons n ns ih =>
    intro l hl hapart
    obtain ⟨-, hdots⟩ := List.forall_mem_cons.1 hdots
    cases ns with
    | nil =>
      refine iff_of_true (correct_singleton n l) ?_
      cases l <;> trivial
    | cons a ns =>
      have ha : 46 ∉ a := (List.forall_mem_cons.1 hdots).1
      cases l with
      | nil =>
        refine iff_of_true ((correct_none rfl).2 fun x hx => ?_) trivial
        obtain ⟨c, hc, -⟩ := leads_cons_cons.1 hx
        cases hc
      | cons f l =>
        have hf : f ∈ f :: l := List.mem_cons_self
        -- below another node, or above: no chain ends at the node `f` or at its attributes
        have hbelow : ∀ {x : Hit}, x.addr = f → ∀ c ∈ f :: l, ¬ Leads h kids (kids c) (a :: ns) x :=
          fun hx c hc hlead => hlead.addr_ne hs hl hapart hc hf hx
        rw [Straight]
        by_cases hwhole : nameOf h f = join (n :: a :: ns)
        · have hsearch : search h kids (n :: a :: ns) (f :: l) = some (.node f) := by
            rw [search, if_pos hwhole]
          refine iff_of_false ?_ fun h => h.1 hwhole
          rw [correct_some hsearch, leads_cons_cons]
          rintro ⟨c, hc, -, hlead | ⟨k, b, -, -, -, heq⟩⟩
          · exact hbelow rfl c hc hlead
          · cases heq
        rw [and_iff_right hwhole]
        have hsearch := @search_cons_cons h kids n a ns f l hwhole
        cases hfind : (f :: l).find? fun c => nameOf h c = n && stops h kids (a :: ns) (kids c) with
        | some c =>
          have hc := List.mem_of_find?_eq_some hfind
          obtain ⟨hn, hstop⟩ : nameOf h c = n ∧ stops h kids (a :: ns) (kids c) = true := by
            simpa using List.find?_some hfind
          rw [stops_eq] at hstop
          obtain ⟨x, hx⟩ := Option.isSome_iff_exists.1 hstop
          rw [hfind, Option.bind_some, hx, Option.some_or] at hsearch
          rw [correct_some hsearch, leads_found hs hl hapart hc hn hx, ← correct_some hx]
          exact ih hdots (fun i hi => hs.kid_lt c (hl c hc) i hi) (apart_kids hs (hl c hc))
        | none =>
          rw [hfind, Option.bind_none, Option.none_or] at hsearch
          cases hattr : attrHit h f (a :: ns) with
          | some x =>
            obtain ⟨k, hk, rfl⟩ := Option.map_eq_some_iff.1 hattr
            rw [hattr] at hsearch
            simp only [Option.isSome_some, if_true]
            rw [correct_some hsearch, leads_cons_cons]
            constructor
            · rintro ⟨c, hc, hn, hlead | ⟨k', b, -, -, hns, heq⟩⟩
              · exact absurd hlead (hbelow rfl c hc)
              · cases heq
                exact ⟨hn, hns⟩
            · rintro ⟨hn, rfl⟩
              have hk' : findAttrPath (attrsOf h f) a = some k := by simpa [pathOf] using hk
              obtain ⟨b, hb, hba⟩ := findAttrPath_name hk'
              exact ⟨f, hf, hn, Or.inr ⟨k, b, hb, hba, rfl, rfl⟩⟩
          | none =>
            rw [hattr] at hsearch
            simp only [Option.isSome_none, Bool.false_eq_true, if_false]
            rw [correct_none hsearch]
            have hnone : ∀ c ∈ f :: l, nameOf h c = n → search h kids (a :: ns) (kids c) = none := by
              intro c hc hn
              have hnot := List.find?_eq_none.1 hfind c hc
              rw [stops_eq] at hnot
              simpa [hn] using hnot
            have hrec : ∀ c ∈ f :: l, nameOf h c = n → (Straight h kids (a :: ns) (kids c) ↔
                ∀ x, ¬ Leads h kids (kids c) (a :: ns) x) := fun c hc hn => by
              rw [← correct_none (hnone c hc hn)]
              exact (ih hdots (fun i hi => hs.kid_lt c (hl c hc) i hi) (apart_kids hs (hl c hc))).symm
            constructor
            · intro hno c hc hn
              refine ⟨(hrec c hc hn).2 fun x hx => hno x (leads_cons_cons.2 ⟨c, hc, hn, Or.inl hx⟩), ?_⟩
              rintro hns b hb hba
              obtain ⟨k, hk⟩ := List.mem_iff_getElem?.1 hb
              exact hno (.attr c k) (leads_cons_cons.2 ⟨c, hc, hn, Or.inr ⟨k, b, hk, hba, hns, rfl⟩⟩)
            · intro hall x hx
              obtain ⟨c, hc, hn, hlead | ⟨k, b, hk, hba, hns, -⟩⟩ := leads_cons_cons.1 hx
              · exact (hrec c hc hn).1 (hall c hc hn).1 x hlead
              · exact (hall c hc hn).2 hns b (List.mem_of_getElem? hk) hba

/-! ### Lists of siblings -/

/-- The nodes from `p` on: the root of the tree, or some of the children of a node, up to the last. -/
def IsSiblings (h : Tree) (root : ℕ) (kids : ℕ → List ℕ) (p : Option ℕ) (l : List ℕ) : Prop :=
  Chain h p l ∧ (l = [root] ∨ ∃ q < h.size, l <:+ kids q)

theorem IsSiblings.spec (hs : Sound h root kids) {p : Option ℕ} {l : List ℕ}
    (hp : IsSiblings h root kids p l) : (∀ i ∈ l, i < h.size) ∧ l.length ≤ h.size ∧ Apart h l := by
  obtain ⟨-, rfl | ⟨q, hq, hl⟩⟩ := hp
  · have hlt := hs.root_lt
    refine ⟨by simpa using hlt, by simpa using Nat.succ_le_of_lt ((Nat.zero_le _).trans_lt hlt), ?_⟩
    simp [Apart]
  · have hmem : ∀ i ∈ l, i ∈ kids q := fun i hi => hl.subset hi
    exact ⟨fun i hi => hs.kid_lt q hq i (hmem i hi), hl.length_le.trans (hs.length_le hq),
      fun i hi j hj => apart_kids hs hq i (hmem i hi) j (hmem j hj)⟩

/-- The lookup of a path returns what the search for its names finds. -/
theorem findNodePath_search (hs : Sound h root kids) {p : Option ℕ} {l : List ℕ}
    (hp : IsSiblings h root kids p l) (path : Bytes) :
    Exec.Eventually (fun n => findNodePath h n p (some path))
      (.ret (search h kids (path.splitOn 46) l)) := by
  obtain ⟨hl, hlen, -⟩ := hp.spec hs
  have hdots : ∀ n ∈ path.splitOn 46, 46 ∉ n := fun n hn => notMem_of_mem_splitOn hn
  have hpath : pathOf (path.splitOn 46) = some path := by
    rw [pathOf, if_neg (List.splitOn_ne_nil 46 path), join, List.intercalate_splitOn]
  have heq := fun n hn => findNodePath_eq hs hdots hp.1 hl hlen n hn
  rw [hpath] at heq
  exact ⟨_, heq⟩

/-- **The lookup finds what the path names exactly when nothing leads it astray.** -/
theorem findsPath_iff (hs : Sound h root kids) {p : Option ℕ} {l : List ℕ}
    (hp : IsSiblings h root kids p l) (path : Bytes) :
    FindsPath h kids p l path ↔ Straight h kids (path.splitOn 46) l := by
  obtain ⟨hl, -, hapart⟩ := hp.spec hs
  have hret := findNodePath_search hs hp path
  rw [← correct_iff hs (fun n hn => notMem_of_mem_splitOn hn) hl hapart]
  constructor
  · rintro ⟨r, hr, hright⟩
    rwa [Exec.ret.inj (hr.unique hret)] at hright
  · exact fun hright => ⟨_, hret, hright⟩

end Lookup

/-! ### The attribute of the first sibling -/

theorem siblings_twoNodes (lan wan : List Attr) :
    IsSiblings (Text.twoNodes lan wan) 0 Text.twoKids (some 1) [1, 2] :=
  ⟨⟨rfl, rfl, rfl⟩, Or.inr ⟨0, Nat.succ_pos 2, List.suffix_rfl⟩⟩

theorem findsPath_lan :
    FindsPath (Text.twoNodes Text.oneValue []) Text.twoKids (some 1) [1, 2] (str "lan.value") := by
  refine (findsPath_iff (Text.sound_twoNodes _ _) (siblings_twoNodes _ _) _).2 ?_
  have hsplit : (str "lan.value").splitOn 46 = [str "lan", str "value"] := rfl
  rw [hsplit]
  refine ⟨by decide, ?_⟩
  have hfind : ([1, 2].find? fun c => nameOf (Text.twoNodes Text.oneValue []) c = str "lan" &&
      stops (Text.twoNodes Text.oneValue []) Text.twoKids [str "value"] (Text.twoKids c)) = none := by
    rfl
  rw [hfind]
  exact ⟨rfl, rfl⟩

/-- `wan.value` leads to the value of `lan`. -/
theorem not_findsPath_wan :
    ¬ FindsPath (Text.twoNodes Text.oneValue []) Text.twoKids (some 1) [1, 2] (str "wan.value") := by
  rintro ⟨r, hr, hright, -⟩
  have hret := findNodePath_search (Text.sound_twoNodes Text.oneValue [])
    (siblings_twoNodes Text.oneValue []) (str "wan.value")
  have hsplit : (str "wan.value").splitOn 46 = [str "wan", str "value"] := rfl
  have hsearch : search (Text.twoNodes Text.oneValue []) Text.twoKids [str "wan", str "value"] [1, 2] =
      some (.attr 1 0) := rfl
  rw [hsplit, hsearch] at hret
  have hlead := hright _ (Exec.ret.inj (hr.unique hret))
  rw [hsplit] at hlead
  obtain ⟨c, hc, hn, hbelow | ⟨k, b, -, -, -, heq⟩⟩ := leads_cons_cons.1 hlead
  · have hkids : Text.twoKids c = [] := by
      rcases List.mem_pair.1 hc with rfl | rfl <;> rfl
    rw [hkids] at hbelow
    obtain ⟨d, hd, -⟩ := leads_singleton.1 hbelow
    cases hd
  · cases heq
    revert hn
    decide

end ZRouter.Conf
