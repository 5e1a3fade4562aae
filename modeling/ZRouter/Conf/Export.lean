import ZRouter.Conf.Dump

/-!
# Loading an exported configuration

The text of a configuration is meant to be loaded again, over the same defaults.  The parser is that
of the system; what is used of it is a subset of XML that it reads as XML says.

* `readXml`: the subset; `readXml_xmlText`: the text of a configuration belongs to it;
* `Expat`: what the parser does with the subset;
* `Config`, `initDefaults`, `loadConfig`;
* `Reloads`: the exported text leads to the same configuration;
* `reloads_iff`: when it does.
-/

namespace ZRouter.Conf

open Cells Forest

/-! ### A subset of XML -/

/-- White space between tags. -/
def isWhite (c : UInt8) : Bool := c = 32 || c = 9 || c = 10 || c = 13

/-- The bytes that no name contains. -/
def isDelimiter (c : UInt8) : Bool :=
  isWhite c || c = 34 || c = 38 || c = 39 || c = 47 || c = 60 || c = 61 || c = 62

/-- The bytes that do not stand for themselves in a value between double quotes. -/
def isSpecial (c : UInt8) : Bool := c = 34 || c = 38 || c = 60 || c = 9 || c = 10 || c = 13

/-- Where the reader is: between tags, or in a tag, with what has been read of it. -/
inductive Mode
  | text
  | opened
  | tag (el : Bytes)
  | attr (el name : Bytes)
  | equals (el name : Bytes)
  | value (el name v : Bytes)
  | quoted (el name v : Bytes)
  | closing (el : Bytes)

section Reader

variable (name text : Bytes → Bool)

/-- One byte.  `name` and `text` say what is a name and what may stand in a value. -/
def readByte : Mode × List Event → UInt8 → Option (Mode × List Event)
  | (.text, es), c =>
      if c = 60 then some (.opened, es) else if isWhite c then some (.text, es) else none
  | (.opened, es), c =>
      if c = 47 then some (.closing [], es)
      else if isDelimiter c then none else some (.tag [c], es)
  | (.tag el, es), c =>
      if c = 62 then if name el then some (.text, es ++ [.start el []]) else none
      else if c = 32 then some (.attr el [], es)
      else if isDelimiter c then none else some (.tag (el ++ [c]), es)
  | (.attr el n, es), c =>
      if c = 61 then some (.equals el n, es)
      else if isDelimiter c then none else some (.attr el (n ++ [c]), es)
  | (.equals el n, es), c => if c = 34 then some (.value el n [], es) else none
  | (.value el n v, es), c =>
      if c = 34 then some (.quoted el n v, es)
      else if isSpecial c then none else some (.value el n (v ++ [c]), es)
  | (.quoted el n v, es), c =>
      if c = 62 ∧ name el ∧ name n ∧ text v then some (.text, es ++ [.start el [(n, v)]]) else none
  | (.closing el, es), c =>
      if c = 62 then some (.text, es ++ [.ends el])
      else if isDelimiter c then none else some (.closing (el ++ [c]), es)

/-- The rest of a document with open elements: each end belongs to the last start, and nothing
follows the end of the first one. -/
def closes : List Bytes → List Event → Bool
  | [], es => es.isEmpty
  | opens, .start el _ :: es => closes (el :: opens) es
  | el :: opens, .ends el' :: es => el = el' && closes opens es
  | _ :: _, [] => false

/-- A document has one element that contains all others. -/
def isDocument : List Event → Bool
  | .start el _ :: es => closes [el] es
  | _ => false

/-- The elements of a text of the subset: elements with one attribute at most, and white space. -/
def readXml (t : Bytes) : Option (List Event) :=
  match t.foldlM (readByte name text) (.text, []) with
  | some (.text, es) => if isDocument es then some es else none
  | _ => none

end Reader

/-! ### Reading what was written -/

/-- The element of a node with a value. -/
def toElement (d : Bytes × Option Bytes) : Bytes × List (Bytes × Bytes) :=
  (d.1, d.2.elim [] fun v => [(str "value", v)])

/-- A value that stands for itself between double quotes. -/
def PlainValue (v : Bytes) : Prop := ∀ c ∈ v, isSpecial c = false

section Written

variable {name text : Bytes → Bool} {es : List Event} {rest n el v : Bytes}

/-- A name is not empty and has no delimiters. -/
def IsToken (n : Bytes) : Prop := n ≠ [] ∧ ∀ c ∈ n, isDelimiter c = false

theorem foldlM_readByte_cons (st : Mode × List Event) (c : UInt8) (xs : Bytes) :
    (c :: xs).foldlM (readByte name text) st =
      (readByte name text st c).bind fun st => xs.foldlM (readByte name text) st := rfl

theorem read_white {ws : Bytes} (hws : ∀ c ∈ ws, isWhite c = true) :
    (ws ++ rest).foldlM (readByte name text) (.text, es) =
      rest.foldlM (readByte name text) (.text, es) := by
  induction ws with
  | nil => rfl
  | cons c ws ih =>
    obtain ⟨hc, hws⟩ := List.forall_mem_cons.1 hws
    have hne : c ≠ 60 := by
      rintro rfl
      revert hc
      decide
    have hstep : readByte name text (.text, es) c = some (.text, es) := by simp [readByte, hne, hc]
    rw [List.cons_append, foldlM_readByte_cons, hstep, Option.bind_some, ih hws]

/-- The bytes of a name. -/
theorem read_name {step : Bytes → Mode} (hstep : ∀ acc c, isDelimiter c = false →
      readByte name text (step acc, es) c = some (step (acc ++ [c]), es))
    (hn : ∀ c ∈ n, isDelimiter c = false) (acc : Bytes) :
    (n ++ rest).foldlM (readByte name text) (step acc, es) =
      rest.foldlM (readByte name text) (step (acc ++ n), es) := by
  induction n generalizing acc with
  | nil => rw [List.nil_append, List.append_nil]
  | cons c n ih =>
    obtain ⟨hc, hn⟩ := List.forall_mem_cons.1 hn
    rw [List.cons_append, foldlM_readByte_cons, hstep acc c hc, Option.bind_some, ih hn]
    simp

theorem ne_of_not_delimiter {c d : UInt8} (hc : isDelimiter c = false)
    (hd : isDelimiter d = true) : c ≠ d := by
  rintro rfl
  rw [hc] at hd
  cases hd

/-- A start tag up to its name. -/
theorem read_open (hn : IsToken n) :
    (str "<" ++ n ++ rest).foldlM (readByte name text) (.text, es) =
      rest.foldlM (readByte name text) (.tag n, es) := by
  obtain ⟨c, n, rfl⟩ := List.exists_cons_of_ne_nil hn.1
  obtain ⟨hc, hn⟩ := List.forall_mem_cons.1 hn.2
  have hfirst : readByte name text (.opened, es) c = some (.tag [c], es) := by
    simp [readByte, hc, ne_of_not_delimiter hc (d := 47) (by decide)]
  have hstep : ∀ (acc : Bytes) c, isDelimiter c = false →
      readByte name text (.tag acc, es) c = some (.tag (acc ++ [c]), es) := fun acc c hc => by
    simp [readByte, hc, ne_of_not_delimiter hc (d := 62) (by decide),
      ne_of_not_delimiter hc (d := 32) (by decide)]
  change (60 :: c :: (n ++ rest)).foldlM (readByte name text) (.text, es) = _
  rw [foldlM_readByte_cons]
  change (c :: (n ++ rest)).foldlM (readByte name text) (.opened, es) = _
  rw [foldlM_readByte_cons, hfirst, Option.bind_some, read_name hstep hn]
  rfl

/-- A value and its quotes. -/
theorem read_value (hv : PlainValue v) (acc : Bytes) :
    (v ++ str "\"" ++ rest).foldlM (readByte name text) (.value el n acc, es) =
      rest.foldlM (readByte name text) (.quoted el n (acc ++ v), es) := by
  induction v generalizing acc with
  | nil =>
    rw [List.nil_append, List.append_nil]
    rfl
  | cons c v ih =>
    obtain ⟨hc, hv⟩ := List.forall_mem_cons.1 hv
    have hne : c ≠ 34 := by
      rintro rfl
      revert hc
      decide
    have hstep : readByte name text (.value el n acc, es) c =
        some (.value el n (acc ++ [c]), es) := by
      simp [readByte, hne, hc]
    rw [List.cons_append, List.cons_append, foldlM_readByte_cons, hstep, Option.bind_some, ih hv]
    simp

/-- A start tag. -/
theorem read_start {d : Bytes × Option Bytes} (htoken : IsToken d.1) (hname : name d.1 = true)
    (hvalue : name (str "value") = true)
    (htext : ∀ v ∈ d.2, text v = true ∧ PlainValue v) :
    (str "<" ++ d.1 ++ (valueText d.2 ++ str ">" ++ rest)).foldlM (readByte name text) (.text, es) =
      rest.foldlM (readByte name text)
        (.text, es ++ [.start (toElement d).1 (toElement d).2]) := by
  rw [read_open htoken]
  obtain ⟨el, v⟩ := d
  cases v with
  | none =>
    have hstep : readByte name text (.tag el, es) 62 = some (.text, es ++ [.start el []]) := by
      simp [readByte, hname]
    change (62 :: rest).foldlM (readByte name text) (.tag el, es) = _
    rw [foldlM_readByte_cons, hstep]
    rfl
  | some v =>
    obtain ⟨ht, hp⟩ := htext v rfl
    have hattr : ∀ rest, (str " value=\"" ++ rest).foldlM (readByte name text) (.tag el, es) =
        rest.foldlM (readByte name text) (.value el (str "value") [], es) := fun rest => rfl
    have hstep : readByte name text (.quoted el (str "value") v, es) 62 =
        some (.text, es ++ [.start el [(str "value", v)]]) := by
      simp [readByte, hname, hvalue, ht]
    have hsplit : valueText (some v) ++ str ">" ++ rest =
        str " value=\"" ++ (v ++ str "\"" ++ (62 :: rest)) := by
      simp [valueText, str]
    rw [hsplit, hattr, read_value hp, List.nil_append, foldlM_readByte_cons, hstep]
    rfl

/-- An end tag. -/
theorem read_end (hn : IsToken n) :
    (str "</" ++ n ++ str ">\n" ++ rest).foldlM (readByte name text) (.text, es) =
      rest.foldlM (readByte name text) (.text, es ++ [.ends n]) := by
  have hstep : ∀ (acc : Bytes) c, isDelimiter c = false →
      readByte name text (.closing acc, es) c = some (.closing (acc ++ [c]), es) := fun acc c hc => by
    simp [readByte, hc, ne_of_not_delimiter hc (d := 62) (by decide)]
  have hopen : ∀ rest, (str "</" ++ rest).foldlM (readByte name text) (.text, es) =
      rest.foldlM (readByte name text) (.closing [], es) := fun rest => rfl
  have hclose : ∀ rest, (str ">\n" ++ rest).foldlM (readByte name text) (.closing n, es) =
      rest.foldlM (readByte name text) (.text, es ++ [.ends n]) := fun rest => rfl
  rw [List.append_assoc, List.append_assoc, hopen, read_name hstep hn.2, List.nil_append, hclose]

/-- What a node must be like to be read again. -/
def Legible (name text : Bytes → Bool) (d : Bytes × Option Bytes) : Prop :=
  name d.1 = true ∧ ∀ v ∈ d.2, text v = true ∧ PlainValue v

theorem read_xmlText (htoken : ∀ n, name n = true → IsToken n) (hvalue : name (str "value") = true) :
    ∀ {V : Forest (Bytes × Option Bytes)}, V.All (Legible name text) → ∀ (level : ℕ)
      (es : List Event) (rest : Bytes),
      (xmlText level V ++ rest).foldlM (readByte name text) (.text, es) =
        rest.foldlM (readByte name text) (.text, es ++ events (V.map toElement)) := by
  have hspaces : ∀ c ∈ INDENT, isWhite c = true := by decide +kernel
  have hindent : ∀ level, ∀ c ∈ (List.replicate level INDENT).flatten, isWhite c = true := by
    intro level c hc
    obtain ⟨l, hl, hc⟩ := List.mem_flatten.1 hc
    exact hspaces c ((List.mem_replicate.1 hl).2 ▸ hc)
  intro V
  induction V with
  | nil =>
    intro _ level es rest
    rw [xmlText, List.nil_append, Forest.map, events, List.append_nil]
  | cons d ks nx ihk ihn =>
    rintro ⟨⟨hname, htext⟩, hks, hnx⟩ level es rest
    have htok := htoken d.1 hname
    have hinner : ∀ es rest, ((if ks = .nil then []
        else str "\n" ++ xmlText (level + 1) ks ++ (List.replicate level INDENT).flatten) ++
          rest).foldlM (readByte name text) (.text, es) =
        rest.foldlM (readByte name text) (.text, es ++ events (ks.map toElement)) := by
      intro es rest
      by_cases hk : ks = .nil
      · rw [if_pos hk, hk, Forest.map, events, List.nil_append, List.append_nil]
      · rw [if_neg hk, List.append_assoc, List.append_assoc, read_white (by decide +kernel),
          ihk hks, read_white (hindent level)]
    rw [xmlText]
    have hsplit : (List.replicate level INDENT).flatten ++ str "<" ++ d.1 ++ valueText d.2 ++
        str ">" ++ (if ks = .nil then []
          else str "\n" ++ xmlText (level + 1) ks ++ (List.replicate level INDENT).flatten) ++
        (str "</" ++ d.1 ++ str ">\n") ++ xmlText level nx ++ rest =
      (List.replicate level INDENT).flatten ++ (str "<" ++ d.1 ++ (valueText d.2 ++ str ">" ++
        ((if ks = .nil then []
          else str "\n" ++ xmlText (level + 1) ks ++ (List.replicate level INDENT).flatten) ++
        (str "</" ++ d.1 ++ str ">\n" ++ (xmlText level nx ++ rest))))) := by
      simp only [List.append_assoc]
    rw [hsplit, read_white (hindent level), read_start htok hname hvalue htext, hinner, read_end htok,
      ihn hnx, Forest.map, events]
    simp only [List.append_assoc, List.cons_append, List.nil_append]
    rfl

/-- The elements of a forest come and go. -/
theorem closes_events (E : Doc) : ∀ (el : Bytes) (opens : List Bytes) (es : List Event),
    closes (el :: opens) (events E ++ es) = closes (el :: opens) es := by
  induction E with
  | nil => exact fun _ _ _ => rfl
  | cons e ks nx ihk ihn =>
    intro el opens es
    rw [events, List.cons_append, List.cons_append, closes, List.append_assoc, ihk, List.cons_append,
      closes, ihn]
    · simp
    · exact fun h => List.cons_ne_nil _ _ h

/-- **The text of a configuration is read as its elements.** -/
theorem readXml_xmlText (htoken : ∀ n, name n = true → IsToken n)
    (hvalue : name (str "value") = true) {d : Bytes × Option Bytes}
    {V : Forest (Bytes × Option Bytes)} (hV : (Forest.cons d V .nil).All (Legible name text))
    (level : ℕ) : readXml name text (xmlText level (.cons d V .nil)) =
      some (events ((Forest.cons d V .nil).map toElement)) := by
  have hread := read_xmlText htoken hvalue hV level [] []
  rw [List.append_nil, List.nil_append] at hread
  have hdoc : isDocument (events ((Forest.cons d V .nil).map toElement)) = true := by
    rw [Forest.map, events, List.cons_append, isDocument, closes_events, Forest.map, events, closes]
    simp [closes]
  rw [readXml, hread]
  change (if isDocument _ = true then some _ else none) = _
  rw [if_pos hdoc]

end Written

/-! ### The configuration -/

/-- What is used of the parser of the system: names have no delimiters, `value` is one, and documents
of the subset are read as they are. -/
structure Expat (name text : Bytes → Bool) (parse : Bytes → Option (List Event)) : Prop where
  token : ∀ n, name n = true → IsToken n
  value : name (str "value") = true
  reads : ∀ t es, readXml name text t = some es → parse t = some es

/-- What the parser delivers for a document. -/
structure Delivered (name text : Bytes → Bool) (es : List Event) : Prop where
  document : ∃ el attr inner, es = .start el attr :: inner ++ [.ends el] ∧ WellNested inner
  legal : ∀ el attr, .start el attr ∈ es → name el = true ∧ ∀ a ∈ attr, text a.2 = true

/-- The members of `struct config` that lead to nodes, and the memory that they lead to. -/
structure Config where
  heap : Tree
  tree : ℕ
  root : Option ℕ

/-- No node yet. -/
def emptyHeap : Tree := ⟨0, fun _ => ⟨⟨[], none, none, []⟩, none, none, none, none⟩⟩

/-- `init_defaults`, on what the parser delivers for the defaults. -/
def initDefaults (D : List Event) : Option Config :=
  (loadXml (newNode emptyHeap (str "root") []) (some emptyHeap.size) 1 D).map fun st =>
    ⟨st.tree, st.root, (st.tree.cell st.root).firstChild⟩

/-- `load_config`, on what the parser delivers for the file. -/
def loadConfig (c : Config) (confId : ℕ) (es : List Event) : Option Config :=
  (loadXml c.heap (some c.tree) confId es).map fun st => ⟨st.tree, st.root, c.root⟩

/-- The forest that the pointers `firstChild` and `next` make up. -/
inductive Holds (h : Tree) : Option ℕ → Forest Node → Prop
  | nil : Holds h none .nil
  | cons {i ks nx} (hk : Holds h (h.cell i).firstChild ks) (hn : Holds h (h.cell i).next nx) :
      Holds h (some i) (.cons (h.cell i).data ks nx)

/-- The same nodes, with the same values for the configuration `k`. -/
def SameTree (k : ℕ) (c c' : Config) : Prop :=
  ∃ F F', Holds c.heap (c.heap.cell c.tree).firstChild F ∧
    Holds c'.heap (c'.heap.cell c'.tree).firstChild F' ∧ F.map (view k) = F'.map (view k)

/-- The text of the document element is XML, and loading it over the defaults `c₀` leads to the tree
of `c₁`. -/
def Reloads (parse : Bytes → Option (List Event)) (k : ℕ) (c₀ c₁ : Config) : Prop :=
  ∃ s es c₂, Exec.Eventually (fun n => dumpXml c₁.heap n c₁.root k) (.ret s) ∧
    parse s.text = some es ∧ loadConfig c₀ k es = some c₂ ∧ SameTree k c₁ c₂

/-- The number of bytes of an exported forest. -/
def exportSize : ℕ → Forest (Bytes × Option Bytes) → ℕ
  | _, .nil => 0
  | level, .cons d kids next =>
      level + 2 * d.1.length + d.2.elim 6 (·.length + 15) +
        (if kids = .nil then 0 else level + 1 + exportSize (level + 1) kids) +
        exportSize level next

/-- The configurations that can be loaded back: there is one document element, no null pointer is
printed, the text fits the buffer, and each element of the text leads to its own node, or to one that
has the value which the text gives last. -/
structure Reloadable (k : ℕ) (F : Forest Node) : Prop where
  one : ∃ d ks, F = .cons d ks .nil
  printable : F.All (Printable k)
  short : exportSize 1 (F.map (view k)) < 4096
  agrees : Agrees (F.map (view k)) (F.map (view k))

theorem length_xmlText (level : ℕ) (V : Forest (Bytes × Option Bytes)) :
    (xmlText level V).length = exportSize level V := by
  have hindent : ∀ level, (List.replicate level INDENT).flatten.length = level := by
    intro level
    rw [List.length_flatten, List.map_replicate, List.sum_replicate, smul_eq_mul]
    exact Nat.mul_one level
  have hvalue : ∀ v : Option Bytes, (valueText v).length + 6 = v.elim 6 (·.length + 15) := by
    intro v
    cases v with
    | none => rfl
    | some v =>
      rw [valueText, List.length_append, List.length_append, Option.elim_some,
        show (str " value=\"").length = 8 by decide, show (str "\"").length = 1 by decide]
      omega
  induction V generalizing level with
  | nil => rfl
  | cons d kids next ihk ihn =>
    have h1 := hvalue d.2
    rw [xmlText, exportSize]
    simp only [List.length_append, hindent, ihn, show (str "<").length = 1 by decide,
      show (str ">").length = 1 by decide, show (str "</").length = 2 by decide,
      show (str ">\n").length = 2 by decide]
    by_cases hk : kids = .nil
    · simp only [if_pos hk, List.length_nil]
      omega
    · simp only [if_neg hk, List.length_append, ihk, hindent, show (str "\n").length = 1 by decide]
      omega

/-! ### Forests of configurations -/

theorem Holds.unique {h : Tree} {p : Option ℕ} {F F' : Forest Node} (hF : Holds h p F)
    (hF' : Holds h p F') : F = F' := by
  induction hF generalizing F' with
  | nil => cases hF'; rfl
  | cons _ _ ihk ihn =>
    cases hF' with
    | cons hk hn => rw [ihk hk, ihn hn]

theorem Grows.holds {h : Tree} {root : ℕ} {kids : ℕ → List ℕ} (hl : Linked h root kids)
    {l : List ℕ} {F : Forest Node} (hF : Grows h kids l F) :
    ∀ {p}, Chain h p l → (∀ i ∈ l, i < h.size) → Holds h p F := by
  induction hF with
  | nil =>
    intro p hp _
    rw [Chain] at hp
    exact hp ▸ .nil
  | @cons i l d ks nx hd _ _ ihk ihn =>
    rintro p ⟨rfl, hp⟩ hl'
    have hi := hl' i List.mem_cons_self
    exact hd ▸ .cons (ihk (hl.chain i hi) fun c hc => hl.kid_lt i hi c hc)
      (ihn hp fun j hj => hl' j (List.mem_cons_of_mem i hj))

/-- A configuration with the forest below `c->tree`. -/
structure Config.Is (c : Config) (kids : ℕ → List ℕ) (F : Forest Node) : Prop where
  sound : Sound c.heap c.tree kids
  grows : Grows c.heap kids (kids c.tree) F
  root : c.root = (kids c.tree).head?

section Config

variable {c : Config} {k : ℕ} {kids : ℕ → List ℕ} {F : Forest Node}

theorem Config.Is.holds (h : c.Is kids F) :
    Holds c.heap (c.heap.cell c.tree).firstChild F :=
  h.grows.holds h.sound.toLinked (h.sound.chain _ h.sound.root_lt)
    fun i hi => h.sound.kid_lt _ h.sound.root_lt i hi

theorem chain_head {h : Tree} {p : Option ℕ} {l : List ℕ} (hc : Chain h p l) : p = l.head? := by
  cases l with
  | nil => exact hc
  | cons i l => exact hc.1

/-- A file is merged into the forest. -/
theorem loadConfig_is (h : c.Is kids F) (hF : F ≠ .nil) (hk : 2 ≤ k) (E : Doc) :
    ∃ c' kids', loadConfig c k (events E) = some c' ∧ c'.Is kids' ((layering k).merge E F) := by
  obtain ⟨h', kids', hrun, hc⟩ := @run_layer k c.tree (by omega) E
    (XmlState.start c.heap (some c.tree) k) kids c.tree h.sound rfl rfl rfl h.sound.root_lt
  have hrun' : loadXml c.heap (some c.tree) k (events E) = _ := hrun
  refine ⟨⟨h', c.tree, c.root⟩, kids', ?_, hc.sound, hc.grows F h.grows, ?_⟩
  · rw [loadConfig, hrun']
    rfl
  · obtain ⟨new, hnew⟩ := hc.keeps
    rw [← hnew]
    change c.root = _
    rw [h.root]
    cases hkids : kids c.tree with
    | nil =>
      have hg := h.grows
      rw [hkids] at hg
      cases hg
      exact absurd rfl hF
    | cons i l => rfl

/-- The defaults are the elements of their file. -/
theorem initDefaults_is (E : Doc) :
    ∃ c kids, initDefaults (events E) = some c ∧ c.Is kids (E.map defaultNode) := by
  have hs : Sound (newNode emptyHeap (str "root") []) 0 fun _ => [] := by
    refine ⟨linked_newNode _ _ _, fun i hi p hp => ?_⟩
    obtain rfl : i = 0 := Nat.lt_one_iff.1 hi
    cases hp
  obtain ⟨h', kids', hrun, hc⟩ := @run_defaults 0 E
    (XmlState.start (newNode emptyHeap (str "root") []) (some 0) 1) (fun _ => []) 0 hs rfl rfl rfl
      Nat.one_pos
  have hrun' : loadXml (newNode emptyHeap (str "root") []) (some 0) 1 (events E) = _ := hrun
  have hg := hc.grows .nil .nil
  refine ⟨⟨h', 0, (h'.cell 0).firstChild⟩, kids', ?_, hc.sound, hg, ?_⟩
  · rw [initDefaults]
    change (loadXml (newNode emptyHeap (str "root") []) (some 0) 1 (events E)).map _ = _
    rw [hrun']
    rfl
  · exact chain_head (hc.sound.chain 0 hc.sound.root_lt)

/-- The dump from the document element. -/
theorem dumpXml_is {d : Node} {ks nx : Forest Node} (h : c.Is kids (.cons d ks nx)) (hk : 2 ≤ k) :
    Exec.Eventually (fun n => dumpXml c.heap n c.root k)
      (strAppend strInit (dumpText k 1 (.cons d ks .nil))) := by
  have hg := h.grows
  have hroot := h.root
  have hkid := fun i hi => h.sound.kid_lt _ h.sound.root_lt i hi
  have hpar := fun i hi => h.sound.kid_parent _ h.sound.root_lt i hi
  generalize kids c.tree = l at hg hroot hkid hpar
  cases hg with
  | @cons i l _ _ _ hd hks _ =>
    have hi := hkid i List.mem_cons_self
    have hp := hpar i List.mem_cons_self
    have hlevel := (atLevel_root h.sound.root_parent).kid hp (h.sound.older i hi _ hp)
    have hdump := dumpXmlNodesAttr_eq (k := k) h.sound hi hlevel hks strInit
    rw [hd] at hdump
    have hroot' : c.root = some i := hroot
    simp only [dumpXml, if_pos (show 1 < k by omega), hroot']
    exact hdump

end Config

/-! ### Names and values -/

/-- What `startElement` takes from an element of a layer. -/
def elementValue (e : Bytes × List (Bytes × Bytes)) : Bytes × Option Bytes :=
  (e.1, (valuesOf e.2).getLast?)

theorem elementValue_toElement (d : Bytes × Option Bytes) : elementValue (toElement d) = d := by
  obtain ⟨n, v⟩ := d
  cases v with
  | none => rfl
  | some v => simp [toElement, elementValue, valuesOf, str]

theorem getAttr_layered (k : ℕ) (attrs : List Attr) (v : Option Bytes) :
    getAttr (layered k attrs v) (valueName k) = v.or (getAttr attrs (valueName k)) := by
  cases v with
  | none => rfl
  | some v => exact getAttr_setAttr ..

/-- Merging a file, as far as the configuration `k` goes. -/
theorem view_merge (k : ℕ) (E : Doc) (F : Forest Node) :
    ((layering k).merge E F).map (view k) =
      (overlay Bytes Bytes).merge (E.map elementValue) (F.map (view k)) := by
  refine @Merging.map_merge _ _ _ _ _ _ (layering k) (overlay Bytes Bytes) (view k) elementValue
    (fun _ => rfl) (fun _ => rfl) (fun _ => rfl) (fun e d => ?_) E F
  have hvalue := getAttr_layered k d.attrs (valuesOf e.2).getLast?
  exact congrArg (Prod.mk d.name) hvalue.symm

/-- A node whose name and values the parser could have delivered. -/
def Clean (name text : Bytes → Bool) (d : Node) : Prop :=
  name d.name = true ∧ ∀ a ∈ d.attrs, ∀ v ∈ a.value, text v = true

section Clean

variable {name text : Bytes → Bool}

theorem forall_setAttr {attrs : List Attr} (h : ∀ a ∈ attrs, ∀ v ∈ a.value, text v = true)
    (n : Bytes) {v : Bytes} (hv : text v = true) :
    ∀ a ∈ setAttr attrs n v, ∀ v ∈ a.value, text v = true := by
  have hnew : ∀ w ∈ (some v : Option Bytes), text w = true := fun w hw => by
    rw [← Option.some.inj hw]
    exact hv
  rcases setAttr_cases attrs n v with ⟨-, heq⟩ | ⟨pre, a, post, rfl, -, -, heq⟩
  · rw [heq]
    exact List.forall_mem_cons.2 ⟨hnew, h⟩
  · rw [heq]
    rw [List.forall_mem_append, List.forall_mem_cons] at h ⊢
    exact ⟨h.1, hnew, h.2.2⟩

theorem clean_defaultNode {e : Bytes × List (Bytes × Bytes)} (hname : name e.1 = true)
    (he : ∀ a ∈ e.2, text a.2 = true) : Clean name text (defaultNode e) := by
  refine ⟨hname, ?_⟩
  have hfold : ∀ (l : List (Bytes × Bytes)) (attrs : List Attr), (∀ a ∈ l, text a.2 = true) →
      (∀ a ∈ attrs, ∀ v ∈ a.value, text v = true) →
      ∀ a ∈ l.foldl (fun l a => setAttr l a.1 a.2) attrs, ∀ v ∈ a.value, text v = true := by
    intro l
    induction l with
    | nil => exact fun _ _ h => h
    | cons a l ih =>
      intro attrs hl h
      obtain ⟨ha, hl⟩ := List.forall_mem_cons.1 hl
      exact ih _ hl (forall_setAttr h a.1 ha)
  exact hfold _ [] (fun a ha => he a ((List.takeWhile_prefix _).subset ha)) (by simp)

theorem clean_act {k : ℕ} {e : Bytes × List (Bytes × Bytes)} {d : Node}
    (he : ∀ a ∈ e.2, text a.2 = true) (hd : Clean name text d) :
    Clean name text ((layering k).act e d) := by
  refine ⟨hd.1, ?_⟩
  change ∀ a ∈ layered k d.attrs (valuesOf e.2).getLast?, _
  cases hv : (valuesOf e.2).getLast? with
  | none => exact hd.2
  | some v =>
    obtain ⟨a, ha, rfl⟩ := List.mem_map.1 (List.mem_of_getLast? hv)
    have hmem := (List.takeWhile_prefix _).subset (List.mem_of_mem_filter ha)
    exact forall_setAttr hd.2 _ (he a hmem)

/-- A delivered document as an element with others in it. -/
theorem Delivered.doc {es : List Event} (h : Delivered name text es) :
    ∃ e ks, es = events (.cons e ks .nil) ∧ (Forest.cons e ks .nil).All fun e =>
      name e.1 = true ∧ ∀ a ∈ e.2, text a.2 = true := by
  obtain ⟨el, attr, inner, rfl, hinner⟩ := h.document
  obtain ⟨ks, rfl⟩ := hinner.doc
  exact ⟨(el, attr), ks, rfl, all_of_mem_events (d := .cons (el, attr) ks .nil) h.legal⟩

theorem clean_view {k : ℕ} {d : Node} (hd : Clean name text d)
    (hplain : ∀ v ∈ getAttr d.attrs (valueName k), PlainValue v) :
    Legible name text (view k d) := by
  refine ⟨hd.1, fun v hv => ⟨?_, hplain v hv⟩⟩
  obtain ⟨a, ha, hav⟩ := Option.bind_eq_some_iff.1 hv
  exact hd.2 a (List.mem_of_find?_eq_some ha) v hav

end Clean

/-! ### Loading back -/

section Reload

variable {name text : Bytes → Bool} {parse : Bytes → Option (List Event)} {k : ℕ} {c₀ c₁ : Config}
  {kids₀ kids₁ : ℕ → List ℕ} {F₀ F₁ : Forest Node}

/-- The text is in the buffer when it fits and can be printed. -/
theorem strAppend_dumpText (level : ℕ) (F : Forest Node) (P : Bytes → Prop) :
    (∃ s, strAppend strInit (dumpText k level F) = .ret s ∧ P s.text) ↔
      F.All (Printable k) ∧ exportSize level (F.map (view k)) < 4096 ∧ P (xmlText level (F.map (view k))) := by
  rw [← length_xmlText]
  by_cases hp : F.All (Printable k)
  swap
  · rw [dumpText, if_neg hp]
    refine iff_of_false ?_ fun h => hp h.1
    rintro ⟨s, hs, -⟩
    cases hs
  rw [dumpText, if_pos hp]
  by_cases hl : (xmlText level (F.map (view k))).length < 4096
  · have hfits : strInit.text.length + (xmlText level (F.map (view k))).length < strInit.size := by
      simpa [strInit] using hl
    rw [strAppend_fits hfits]
    constructor
    · rintro ⟨s, hs, h⟩
      obtain rfl := Exec.ret.inj hs
      exact ⟨hp, hl, h⟩
    · exact fun h => ⟨_, rfl, h.2.2⟩
  · have hfull : ¬ strInit.text.length + (xmlText level (F.map (view k))).length < strInit.size := by
      simpa [strInit] using hl
    rw [strAppend_full hfull]
    refine iff_of_false ?_ fun h => hl h.2.1
    rintro ⟨s, hs, -⟩
    cases hs

/-- What loading the text back amounts to. -/
theorem reloads_iff_merge (hx : Expat name text parse) (hk : 2 ≤ k) {d₁ : Node} {ks₁ nx₁ : Forest Node}
    (h₀ : c₀.Is kids₀ F₀) (hF₀ : F₀ ≠ .nil) (h₁ : c₁.Is kids₁ (.cons d₁ ks₁ nx₁))
    (hlegible : ((Forest.cons d₁ ks₁ .nil).map (view k)).All (Legible name text)) :
    Reloads parse k c₀ c₁ ↔ (Forest.cons d₁ ks₁ .nil).All (Printable k) ∧
      exportSize 1 ((Forest.cons d₁ ks₁ .nil).map (view k)) < 4096 ∧
      (overlay Bytes Bytes).merge ((Forest.cons d₁ ks₁ .nil).map (view k)) (F₀.map (view k)) =
        (Forest.cons d₁ ks₁ nx₁).map (view k) := by
  have hdump := dumpXml_is h₁ hk
  generalize hG : Forest.cons d₁ ks₁ Forest.nil = G at hdump hlegible ⊢
  have hparse : parse (xmlText 1 (G.map (view k))) =
      some (events ((G.map (view k)).map toElement)) := by
    refine hx.reads _ _ ?_
    rw [← hG] at hlegible ⊢
    exact readXml_xmlText hx.token hx.value hlegible 1
  obtain ⟨c₂, kids₂, hload, h₂⟩ := loadConfig_is h₀ hF₀ hk ((G.map (view k)).map toElement)
  have hview : ((layering k).merge ((G.map (view k)).map toElement) F₀).map (view k) =
      (overlay Bytes Bytes).merge (G.map (view k)) (F₀.map (view k)) := by
    rw [view_merge, Forest.map_map, Forest.map_eq_self (f := elementValue ∘ toElement) elementValue_toElement]
  have hsame : SameTree k c₁ c₂ ↔ (overlay Bytes Bytes).merge (G.map (view k)) (F₀.map (view k)) =
      (Forest.cons d₁ ks₁ nx₁).map (view k) := by
    rw [← hview]
    constructor
    · rintro ⟨F, F', hF, hF', heq⟩
      rw [h₁.holds.unique hF, h₂.holds.unique hF', heq]
    · exact fun h => ⟨_, _, h₁.holds, h₂.holds, h.symm⟩
  rw [← strAppend_dumpText 1 G fun t => (overlay Bytes Bytes).merge (G.map (view k))
    (F₀.map (view k)) = (Forest.cons d₁ ks₁ nx₁).map (view k), ← hsame]
  constructor
  · rintro ⟨s, es, c, hs, hes, hc, h⟩
    have hret := hdump.unique hs
    have htext := (strAppend_dumpText (k := k) 1 G fun t => s.text = t).1 ⟨s, hret, rfl⟩
    rw [htext.2.2, hparse] at hes
    rw [← Option.some.inj hes, hload] at hc
    exact ⟨s, hret, Option.some.inj hc ▸ h⟩
  · rintro ⟨s, hret, h⟩
    have htext := (strAppend_dumpText (k := k) 1 G fun t => s.text = t).1 ⟨s, hret, rfl⟩
    exact ⟨s, _, c₂, hret ▸ hdump, htext.2.2 ▸ hparse, hload, h⟩

/-- Loading back, after a file has been merged into defaults with one document element. -/
theorem reloads_iff_reloadable (hx : Expat name text parse) (hk : 2 ≤ k) {d₀ : Node}
    {ks₀ : Forest Node} (h₀ : c₀.Is kids₀ (.cons d₀ ks₀ .nil)) {E : Doc}
    (h₁ : c₁.Is kids₁ F₁) (hF₁ : F₁ = (layering k).merge E (.cons d₀ ks₀ .nil))
    (hclean : F₁.All (Clean name text))
    (hplain : F₁.All fun d => ∀ v ∈ getAttr d.attrs (valueName k), PlainValue v) :
    Reloads parse k c₀ c₁ ↔ Reloadable k F₁ := by
  have hV := view_merge k E (.cons d₀ ks₀ .nil)
  rw [← hF₁] at hV
  have hcons := hV
  rw [Forest.map, Forest.map, view, overlay_merge_cons] at hcons
  -- the first tree is that of the document element
  cases F₁ with
  | nil => cases hcons
  | cons d₁ ks₁ nx₁ =>
    have hname : d₁.name = d₀.name := by
      rw [Forest.map] at hcons
      injection hcons with h _ _
      exact congrArg Prod.fst h
    have hlegible : ((Forest.cons d₁ ks₁ .nil).map (view k)).All (Legible name text) :=
      Forest.all_map.2 ⟨clean_view hclean.1 hplain.1, (hclean.2.1.and hplain.2.1).imp
        fun d h => clean_view h.1 h.2, trivial⟩
    rw [reloads_iff_merge hx hk h₀ (by simp) h₁ hlegible]
    by_cases hnx : nx₁ = .nil
    · subst hnx
      have hagain := overlay_again_iff ((Forest.cons d₀ ks₀ .nil).map (view k)) (E.map elementValue)
      rw [← hV] at hagain
      rw [hagain]
      exact ⟨fun h => ⟨⟨d₁, ks₁, rfl⟩, h.1, h.2.1, h.2.2⟩, fun h => ⟨h.printable, h.short, h.agrees⟩⟩
    · refine iff_of_false (fun h => ?_) fun h => ?_
      · -- one element leads to one tree
        have h := h.2.2
        rw [Forest.map, Forest.map, Forest.map, Forest.map, view, view, hname, overlay_merge_cons,
          Forest.keep, if_neg (by simp), Forest.keep, Merging.merge, Forest.map] at h
        injection h with _ _ h
        cases nx₁ with
        | nil => exact hnx rfl
        | cons => cases h
      · obtain ⟨d, ks, h⟩ := h.one
        injection h with _ _ h
        exact hnx h

/-- **Where all values stand for themselves, an exported configuration leads back to itself exactly
when it is `Reloadable`.** -/
theorem reloads_iff (hx : Expat name text parse) {D C : List Event} (hD : Delivered name text D)
    (hC : Delivered name text C) (hk : 2 ≤ k) :
    ∃ c₀ c₁ F, initDefaults D = some c₀ ∧ loadConfig c₀ k C = some c₁ ∧
      Holds c₁.heap (c₁.heap.cell c₁.tree).firstChild F ∧
      ((F.All fun d => ∀ v ∈ getAttr d.attrs (valueName k), PlainValue v) →
        (Reloads parse k c₀ c₁ ↔ Reloadable k F)) := by
  obtain ⟨e, ks, rfl, hlegal⟩ := hD.doc
  obtain ⟨e', ks', rfl, hlegal'⟩ := hC.doc
  obtain ⟨c₀, kids₀, hinit, h₀⟩ := initDefaults_is (.cons e ks .nil)
  obtain ⟨c₁, kids₁, hload, h₁⟩ := loadConfig_is h₀ (by simp [Forest.map]) hk (.cons e' ks' .nil)
  have hclean₀ : ((Forest.cons e ks .nil).map defaultNode).All (Clean name text) :=
    Forest.all_map.2 (hlegal.imp fun e he => clean_defaultNode he.1 he.2)
  have hclean := Merging.all_merge (layering k) (P := Clean name text)
    (fun e (he : name e.1 = true ∧ ∀ a ∈ e.2, text a.2 = true) => clean_act he.2 ⟨he.1, by simp [layering]⟩)
    (fun e d he hd => clean_act he.2 hd) hlegal' hclean₀
  exact ⟨c₀, c₁, _, hinit, hload, h₁.holds, reloads_iff_reloadable hx hk h₀ h₁ rfl hclean⟩

end Reload

/-! ### Examples -/

/-- Names of small letters. -/
def isWord (n : Bytes) : Bool := n ≠ [] && n.all fun c => 97 ≤ c && c ≤ 122

/-- A parser that reads the subset only. -/
theorem expat_readXml : Expat isWord (fun _ => true) (readXml isWord fun _ => true) where
  token n hn := by
    have hletter : ∀ c : UInt8, (97 ≤ c && c ≤ 122) = true → isDelimiter c = false := by
      decide +kernel
    rw [isWord, Bool.and_eq_true, List.all_eq_true] at hn
    exact ⟨by simpa using hn.1, fun c hc => hletter c (hn.2 c hc)⟩
  value := rfl
  reads _ _ h := h

/-- A document with an element `lan`, which has the given attributes. -/
def lanDoc (attr : List (Bytes × Bytes)) : Doc :=
  .cons (str "root", []) (.cons (str "lan", attr) .nil .nil) .nil

theorem delivered_lanDoc (attr : List (Bytes × Bytes)) :
    Delivered isWord (fun _ => true) (events (lanDoc attr)) where
  document := ⟨_, _, _, rfl, .element (str "lan") attr .nil .nil⟩
  legal el attr' h := by
    have hcases : (el = str "root" ∨ el = str "lan") := by
      simp [lanDoc, events] at h
      exact h.imp And.left And.left
    rcases hcases with rfl | rfl <;> exact ⟨rfl, fun _ _ => rfl⟩

/-- What is below `c->tree` when `lan` is set to `v` in the configuration 2. -/
def lanForest (v : Bytes) : Forest Node :=
  .cons ⟨str "root", none, none, []⟩
    (.cons ⟨str "lan", none, none, [⟨valueName 2, some v⟩]⟩ .nil .nil) .nil

/-- The defaults with an empty `lan`, and a configuration that sets it. -/
theorem lan_is (v : Bytes) : ∃ c₀ c₁ kids₀ kids₁, initDefaults (events (lanDoc [])) = some c₀ ∧
    loadConfig c₀ 2 (events (lanDoc [(str "value", v)])) = some c₁ ∧
    c₀.Is kids₀ ((lanDoc []).map defaultNode) ∧ c₁.Is kids₁ (lanForest v) := by
  obtain ⟨c₀, kids₀, hinit, h₀⟩ := initDefaults_is (lanDoc [])
  obtain ⟨c₁, kids₁, hload, h₁⟩ := loadConfig_is h₀ (by simp [lanDoc, Forest.map]) le_rfl
    (lanDoc [(str "value", v)])
  have hforest : (layering 2).merge (lanDoc [(str "value", v)]) ((lanDoc []).map defaultNode) =
      lanForest v := rfl
  exact ⟨c₀, c₁, kids₀, kids₁, hinit, hload, h₀, hforest ▸ h₁⟩

/-- With the value `1`, the configuration is loaded back. -/
theorem reloads_iff_lan : ∃ c₀ c₁, initDefaults (events (lanDoc [])) = some c₀ ∧
    loadConfig c₀ 2 (events (lanDoc [(str "value", str "1")])) = some c₁ ∧
    Reloads (readXml isWord fun _ => true) 2 c₀ c₁ := by
  obtain ⟨c₀, c₁, F, hinit, hload, hF, hiff⟩ := reloads_iff expat_readXml (delivered_lanDoc [])
    (delivered_lanDoc [(str "value", str "1")]) (k := 2) le_rfl
  obtain ⟨c₀', c₁', kids₀, kids₁, hinit', hload', h₀, h₁⟩ := lan_is (str "1")
  obtain rfl := Option.some.inj (hinit.symm.trans hinit')
  obtain rfl := Option.some.inj (hload.symm.trans hload')
  obtain rfl := hF.unique h₁.holds
  have hagain := overlay_again_iff (((lanDoc []).map defaultNode).map (view 2))
    ((lanDoc [(str "value", str "1")]).map elementValue)
  have hagrees : Agrees ((lanForest (str "1")).map (view 2)) ((lanForest (str "1")).map (view 2)) :=
    hagain.1 (rfl)
  have hget : getAttr [⟨valueName 2, some (str "1")⟩] (valueName 2) = some (str "1") := by
    rfl
  have hplain : (lanForest (str "1")).All fun d =>
      ∀ v ∈ getAttr d.attrs (valueName 2), PlainValue v := by
    simp only [lanForest, Forest.All, and_true]
    constructor
    · intro v hv
      cases hv
    · intro v hv
      rw [← Option.some.inj (hget.symm.trans hv), PlainValue]
      decide +kernel
  exact ⟨c₀, c₁, hinit, hload, (hiff hplain).2
    ⟨⟨_, _, rfl⟩, by decide, by decide, hagrees⟩⟩

/-- A double quote in a value is printed as it is, and ends the value. -/
theorem not_reloads_quote :
    ¬ ∀ (name text : Bytes → Bool) (parse : Bytes → Option (List Event)) (D C : List Event) (k : ℕ)
      (c₀ c₁ : Config), Expat name text parse → Delivered name text D → Delivered name text C →
      2 ≤ k → initDefaults D = some c₀ → loadConfig c₀ k C = some c₁ → Reloads parse k c₀ c₁ := by
  intro h
  obtain ⟨c₀, c₁, kids₀, kids₁, hinit, hload, -, h₁⟩ := lan_is (str "\"")
  obtain ⟨s, es, c₂, hs, hes, -⟩ := h _ _ _ _ _ 2 c₀ c₁ expat_readXml (delivered_lanDoc [])
    (delivered_lanDoc [(str "value", str "\"")]) le_rfl hinit hload
  have hdump := dumpXml_is (k := 2) h₁ le_rfl
  have htext := ((strAppend_dumpText (k := 2) 1 (lanForest (str "\"")) fun t => s.text = t).1
    ⟨s, hdump.unique hs, rfl⟩).2.2
  have hnone : (readXml isWord (fun _ => true)
      (xmlText 1 ((lanForest (str "\"")).map (view 2)))).isNone = true := rfl
  rw [← htext, hes] at hnone
  cases hnone

end ZRouter.Conf
