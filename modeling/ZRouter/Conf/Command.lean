import ZRouter.Conf.Find
import ZRouter.Json.Value

/-!
# Command lines (`docmd`)

A command line is cut into words where it has blanks.  The words are looked up one after the other below
`commands`, and the node that is found names a handler, which gets the words that are left.

* `Config`: the tree with the nodes of the commands and of the events;
* `splitLoop`: the loop that cuts the line, with the entries of `argv` that it assigns;
* `docmd`, `Call`, `Call.reads`: the handler that is called, and what it reads of `argv`;
* `CmdLine`: the command lines that are made of words and blanks;
* `Arrives`: the lookups of a command line;
* `splitsWords_iff`: when a command line is split into its words.
-/

namespace ZRouter.Conf.Command

open Cells
open Json (strtoulUsed)

/-! ### The configuration -/

/-- The tree of a configuration; `commands` and `events` are nodes of it.  An attribute gets its value
from the parser, so that none is null. -/
structure Config where
  heap : Tree
  root : ℕ
  kids : ℕ → List ℕ
  sound : Sound heap root kids
  valued : ∀ i, ∀ a ∈ attrsOf heap i, a.value ≠ none
  commands : Option ℕ
  fromCommands : List ℕ
  siblings : IsSiblings heap root kids commands fromCommands
  events : Option ℕ
  events_lt : ∀ e ∈ events, e < heap.size

/-- `MAX_CMD_PATH`. -/
def maxCmdPath : ℕ := 8

/-- The attributes of what was found; an attribute has none. -/
def hitAttrs (h : Tree) : Hit → List Attr
  | .node i => attrsOf h i
  | .attr _ _ => []

/-- `nodeHasAttrVal`: names and values are compared without regard to case, and a null value cannot be
compared. -/
def nodeHasAttrVal : List Attr → Bytes → Bytes → Exec Bool
  | [], _, _ => .ret false
  | a :: attrs, attrName, attrValue =>
      if a.name.map tolower = attrName.map tolower then
        match a.value with
        | none => .undefined
        | some v =>
            nodeHasAttrVal attrs attrName attrValue >>= fun r =>
            .ret (v.map tolower = attrValue.map tolower || r)
      else nodeHasAttrVal attrs attrName attrValue

/-! ### `docmd` -/

/-- The loop that cuts the line: the words that it assigns to `argv`, and `i` behind the loop.  The first
argument is the number of entries that are left. -/
def splitLoop : ℕ → ℕ → Bytes → List Bytes × ℕ
  | 0, i, _ => ([], i)
  | k + 1, i, p =>
      match p, p.dropWhile (· ≠ 32) with
      | [], _ => ([], i)
      | p, [] => ([p.takeWhile (· ≠ 32)], i)
      | p, _ :: rest =>
          let (argv, i) := splitLoop k (i + 1) (rest.dropWhile isspace)
          (p.takeWhile (· ≠ 32) :: argv, i)

/-- Reading an entry of `argv`, which has to be assigned. -/
def readArgv (argv : List Bytes) (i : ℕ) : Exec Bytes :=
  match argv[i]? with
  | some w => .ret w
  | none => .undefined

/-- The loop that looks up the words, with what it has found and `i` behind it; `left` passes are left. -/
def lookupLoop (h : Tree) (commands : Option ℕ) (n : ℕ) (argv : List Bytes) :
    ℕ → ℕ → Strbuf → Option Hit → Exec (Option Hit × ℕ)
  | 0, i, _, node => .ret (node, i)
  | left + 1, i, s, _ =>
      strAppend s (some (str ".")) >>= fun s =>
      readArgv argv i >>= fun w =>
      strAppend s (some w) >>= fun s =>
      findNodePath h n commands (some s.text) >>= fun node =>
      match node with
      | none => lookupLoop h commands n argv left (i + 1) s node
      | some x =>
          nodeHasAttrVal (hitAttrs h x) (str "command") (str "pseudo") >>= fun pseudo =>
          if pseudo then .ret (node, i) else lookupLoop h commands n argv left (i + 1) s node

/-- The handlers in the table of `docmd`. -/
inductive Handler where
  | loadDefault
  | loadConfig
  | showConfig
  | event
deriving DecidableEq

/-- The table of `docmd`. -/
def handlers : List (Bytes × Handler) :=
  [(str "load_default", .loadDefault), (str "load_config", .loadConfig), (str "show_config", .showConfig),
    (str "event", .event)]

/-- A handler with its arguments; `argv` are the entries that are assigned from its `argv` on. -/
structure Call where
  handler : Handler
  argc : ℤ
  argv : List Bytes

/-- The handler that the node of a command names. -/
def handlerAt (h : Tree) (node : Option Hit) : Option Handler := do
  let hname ← getAttr (hitAttrs h (← node)) (str "handler")
  (handlers.find? (·.1 = hname)).map Prod.snd

/-- `docmd`, up to the call of a handler. -/
def docmd (h : Tree) (commands : Option ℕ) (n : ℕ) (cmdline : Bytes) : Exec (Option Call) :=
  let (argv, i) := splitLoop maxCmdPath 0 cmdline
  let argc := i + 1
  if commands = none then .ret none
  else
    strAppend strInit (some (str "commands")) >>= fun s =>
    lookupLoop h commands n argv argc 0 s none >>= fun r =>
    let level := r.2 + 1
    .ret ((handlerAt h r.1).map fun handler => ⟨handler, argc - level, argv.drop level⟩)

/-- `strtol` reads the string to its end. -/
def isNumber (s : Bytes) : Bool := strtoulUsed s = s.length

/-- The entries of its `argv` that a handler reads. -/
def Call.reads (x : Call) : List ℕ :=
  match x.handler with
  | .loadDefault => if x.argc < 2 then [] else if x.argv[0]? = some (str "xml") then [0, 1] else [0]
  | .loadConfig =>
      if x.argc < 2 then []
      else if x.argc = 3 then
        if x.argv[0]?.any isNumber then
          if x.argv[1]? = some (str "xml") then [0, 1, 2] else [0, 1]
        else [0]
      else if x.argv[0]? = some (str "xml") then [0, 1] else [0]
  | .showConfig => if 0 < x.argc then (if x.argv[0]?.any isNumber then [0, 1] else [0]) else [0]
  | .event => []

/-- A handler reads what is assigned. -/
def Call.InBounds (x : Call) : Prop := ∀ k ∈ x.reads, k < x.argv.length

/-! ### Lines of words -/

/-- A line of words, each with the number of blanks behind it; there is a blank between two words. -/
structure CmdLine where
  words : List (Bytes × ℕ)
  word : ∀ w ∈ words, w.1 ≠ [] ∧ 32 ∉ w.1
  gap : ∀ w ∈ words.dropLast, 0 < w.2
  short : words.length ≤ maxCmdPath

/-- The text of words with their blanks. -/
def lineText (ws : List (Bytes × ℕ)) : Bytes := ws.flatMap fun w => w.1 ++ List.replicate w.2 32

/-- The words alone. -/
def CmdLine.names (line : CmdLine) : List Bytes := line.words.map Prod.fst

/-- No blank stands behind the last word, and no later word starts with other white space. -/
def Plain (ws : List (Bytes × ℕ)) : Prop :=
  ws ≠ [] ∧ (∀ w ∈ ws.getLast?, w.2 = 0) ∧ ∀ w ∈ ws.tail, ∀ b ∈ w.1.head?, isspace b = false

section Split

variable {w : Bytes} {g : ℕ} {ws : List (Bytes × ℕ)} {i k : ℕ}

theorem takeWhile_word (hw : 32 ∉ w) (rest : Bytes) :
    (w ++ 32 :: rest).takeWhile (· ≠ 32) = w ∧ (w ++ 32 :: rest).dropWhile (· ≠ 32) = 32 :: rest := by
  have hall : ∀ c ∈ w, decide (c ≠ 32) = true := fun c hc =>
    decide_eq_true (ne_of_mem_of_not_mem hc hw)
  rw [List.takeWhile_append_of_pos hall, List.dropWhile_append_of_pos hall]
  simp

/-- The last word, with no blank behind it. -/
theorem splitLoop_last (hne : w ≠ []) (hw : 32 ∉ w) : splitLoop (k + 1) i w = ([w], i) := by
  have hall : ∀ c ∈ w, decide (c ≠ 32) = true := fun c hc =>
    decide_eq_true (ne_of_mem_of_not_mem hc hw)
  obtain ⟨b, w', rfl⟩ := List.exists_cons_of_ne_nil hne
  unfold splitLoop
  simp only [List.dropWhile_eq_nil_iff.2 hall, List.takeWhile_eq_self_iff.2 hall]

/-- A word with blanks behind it. -/
theorem splitLoop_blank (hne : w ≠ []) (hw : 32 ∉ w) (rest : Bytes) :
    splitLoop (k + 1) i (w ++ 32 :: rest) =
      (w :: (splitLoop k (i + 1) (rest.dropWhile isspace)).1,
        (splitLoop k (i + 1) (rest.dropWhile isspace)).2) := by
  obtain ⟨b, w', rfl⟩ := List.exists_cons_of_ne_nil hne
  obtain ⟨htake, hdrop⟩ := takeWhile_word hw rest
  rw [List.cons_append] at htake hdrop ⊢
  conv_lhs => unfold splitLoop
  simp only [hdrop, htake]

theorem splitLoop_nil (k i : ℕ) : splitLoop k i [] = ([], i) := by
  cases k <;> rfl

/-- A word behind a blank does not start with white space. -/
theorem splitLoop_head {q v : Bytes} {vs : List Bytes}
    (h : (splitLoop k i (q.dropWhile isspace)).1 = v :: vs) : ∀ b ∈ v.head?, isspace b = false := by
  cases hq : q.dropWhile isspace with
  | nil =>
    rw [hq, splitLoop_nil] at h
    cases h
  | cons b p =>
    have hb : isspace b = false := by
      have hhead := List.head_dropWhile_not isspace (l := q) (by simp [hq])
      simpa [hq] using hhead
    have hne : b ≠ 32 := by
      rintro rfl
      exact absurd hb (by decide)
    rw [hq] at h
    cases k with
    | zero => cases h
    | succ k =>
      have hword : v = (b :: p).takeWhile (· ≠ 32) := by
        unfold splitLoop at h
        split at h <;> cases h
        · rfl
        · rfl
      have htake : (b :: p).takeWhile (· ≠ 32) = b :: p.takeWhile (· ≠ 32) := by simp [hne]
      rw [hword, htake]
      simpa using hb

theorem length_splitLoop (k i : ℕ) (p : Bytes) :
    (splitLoop k i p).1.length + i ≤ (splitLoop k i p).2 + 1 := by
  induction k generalizing i p with
  | zero => simp [splitLoop]
  | succ k ih =>
    unfold splitLoop
    split
    · simp
    · simp; omega
    · rename_i rest _ _
      have hrest := ih (i + 1) (rest.dropWhile isspace)
      simp only [List.length_cons]
      omega

theorem lineText_cons (v : Bytes × ℕ) (ws : List (Bytes × ℕ)) :
    lineText (v :: ws) = v.1 ++ (List.replicate v.2 32 ++ lineText ws) := by
  rw [lineText, List.flatMap_cons, List.append_assoc]
  rfl

theorem dropWhile_blanks (g : ℕ) (q : Bytes) :
    (List.replicate g 32 ++ q).dropWhile isspace = q.dropWhile isspace := by
  refine List.dropWhile_append_of_pos fun c hc => ?_
  rw [List.eq_of_mem_replicate hc]
  decide

/-- **The loop assigns the words exactly when the line is plain.** -/
theorem splitLoop_line {ws : List (Bytes × ℕ)} (hne : ws ≠ []) (hword : ∀ w ∈ ws, w.1 ≠ [] ∧ 32 ∉ w.1)
    (hgap : ∀ w ∈ ws.dropLast, 0 < w.2) : ∀ {k i : ℕ}, ws.length ≤ k →
      (splitLoop k i (lineText ws) = (ws.map Prod.fst, i + ws.length - 1) ↔ Plain ws) := by
  induction ws with
  | nil => exact absurd rfl hne
  | cons w ws ih =>
    intro k i hk
    obtain ⟨⟨hw, hw32⟩, hwords⟩ := List.forall_mem_cons.1 hword
    obtain ⟨k, rfl⟩ : ∃ m, k = m + 1 := ⟨k - 1, by simp at hk; omega⟩
    cases ws with
    | nil =>
      obtain ⟨w, g⟩ := w
      have htext : lineText [(w, g)] = w ++ List.replicate g 32 := by simp [lineText]
      rw [htext]
      cases g with
      | zero =>
        refine iff_of_true ?_ ⟨by simp, by simp, by simp⟩
        rw [List.replicate_zero, List.append_nil, splitLoop_last hw hw32]
        rfl
      | succ g =>
        refine iff_of_false ?_ fun h => ?_
        · rw [List.replicate_succ, splitLoop_blank hw hw32]
          have hnil : (List.replicate g 32).dropWhile isspace = [] := by
            have h := dropWhile_blanks g []
            rwa [List.append_nil] at h
          rw [hnil, splitLoop_nil]
          intro h
          have h2 := congrArg Prod.snd h
          simp at h2
        · have := h.2.1 (w, g + 1) (by simp)
          simp at this
    | cons v ws =>
      obtain ⟨w, g⟩ := w
      have hg : 0 < g := hgap (w, g) (by simp)
      obtain ⟨g, rfl⟩ : ∃ m, g = m + 1 := ⟨g - 1, by omega⟩
      have hgap' : ∀ u ∈ (v :: ws).dropLast, 0 < u.2 := fun u hu =>
        hgap u (by rw [List.dropLast_cons_cons]; exact List.mem_cons_of_mem _ hu)
      have hrec := ih (by simp) hwords hgap' (k := k) (i := i + 1) (by simpa using hk)
      rw [lineText_cons]
      dsimp only
      rw [List.replicate_succ, List.cons_append, splitLoop_blank hw hw32, dropWhile_blanks]
      have hv := hwords v List.mem_cons_self
      by_cases hspace : ∀ b ∈ v.1.head?, isspace b = false
      · have hskip : (lineText (v :: ws)).dropWhile isspace = lineText (v :: ws) := by
          obtain ⟨b, v', hv'⟩ := List.exists_cons_of_ne_nil hv.1
          rw [lineText_cons, hv', List.cons_append, List.dropWhile_cons_of_neg]
          rw [hspace b (by rw [hv']; rfl)]
          exact Bool.false_ne_true
        have hplain : Plain ((w, g + 1) :: v :: ws) ↔ Plain (v :: ws) := by
          rw [Plain, Plain, List.getLast?_cons_cons]
          exact ⟨fun h => ⟨by simp, h.2.1, (List.forall_mem_cons.1 h.2.2).2⟩,
            fun h => ⟨by simp, h.2.1, List.forall_mem_cons.2 ⟨hspace, h.2.2⟩⟩⟩
        rw [hskip, hplain, ← hrec, Prod.ext_iff, Prod.ext_iff]
        simp only [List.map_cons, List.cons.injEq, true_and, List.length_cons]
        have hsum : i + (ws.length + 1 + 1) - 1 = i + 1 + (ws.length + 1) - 1 := by omega
        rw [hsum]
      · refine iff_of_false (fun h => ?_) fun h => hspace (h.2.2 v (by simp))
        have h1 := congrArg Prod.fst h
        simp only [List.map_cons, List.cons.injEq] at h1
        exact hspace (splitLoop_head h1.2)

end Split

/-! ### The lookups -/

section Lookups

variable (c : Config)

/-- The path that is looked up for some words. -/
def commandText (ws : List Bytes) : Bytes := str "commands" ++ ws.flatMap (46 :: ·)

/-- What the first words lead to. -/
def nodeAt (ws : List Bytes) (j : ℕ) : Option Hit :=
  search c.heap c.kids ((commandText (ws.take j)).splitOn 46) c.fromCommands

/-- A node with `command="pseudo"`. -/
def IsPseudo (r : Option Hit) : Prop :=
  ∃ x ∈ r, ∃ a ∈ hitAttrs c.heap x, a.name.map tolower = (str "command").map tolower ∧
    a.value.map (List.map tolower) = some ((str "pseudo").map tolower)

/-- The lookups end at a node: the text of the words up to there fits the buffer, no words before lead to
a pseudo command, and these lead to one (which is then the last word of the command) or are all. -/
structure Arrives (ws : List Bytes) (node : Option Hit) (level : ℕ) : Prop where
  node_eq : ∃ j, 0 < j ∧ j ≤ ws.length ∧ nodeAt c ws j = node ∧
    (commandText (ws.take j)).length < 4096 ∧ (∀ i < j, 0 < i → ¬ IsPseudo c (nodeAt c ws i)) ∧
    (IsPseudo c node ∧ level = j ∨ ¬ IsPseudo c node ∧ j = ws.length ∧ level = j + 1)

end Lookups

section Docmd

variable {c : Config}

theorem nodeHasAttrVal_eq {attrs : List Attr} (h : ∀ a ∈ attrs, a.value ≠ none) (name value : Bytes) :
    nodeHasAttrVal attrs name value = .ret (attrs.any fun a => a.name.map tolower = name.map tolower &&
      a.value.map (List.map tolower) = some (value.map tolower)) := by
  induction attrs with
  | nil => rfl
  | cons a attrs ih =>
    obtain ⟨ha, h⟩ := List.forall_mem_cons.1 h
    obtain ⟨v, hv⟩ := Option.ne_none_iff_exists'.1 ha
    rw [nodeHasAttrVal, List.any_cons, ih h]
    by_cases hname : a.name.map tolower = name.map tolower
    · simp [hname, hv]
    · simp [hname]

theorem hitAttrs_valued (c : Config) (x : Hit) : ∀ a ∈ hitAttrs c.heap x, a.value ≠ none := by
  cases x with
  | node i => exact c.valued i
  | attr i k => exact fun a ha => absurd ha List.not_mem_nil

theorem commandText_succ {ws : List Bytes} {i : ℕ} (hi : i < ws.length) :
    commandText (ws.take (i + 1)) = commandText (ws.take i) ++ str "." ++ ws[i] := by
  rw [List.take_succ_eq_append_getElem hi, commandText, commandText, List.flatMap_append]
  simp [str]

/-- The next word is appended to the text. -/
theorem append_word {ws : List Bytes} {i : ℕ} (hi : i < ws.length) {s : Strbuf}
    (hs : s.text = commandText (ws.take i)) (hsize : s.size = 4096) :
    (4096 ≤ (commandText (ws.take (i + 1))).length → ∀ f : Strbuf → Exec (Option Hit × ℕ),
      (strAppend s (some (str ".")) >>= fun s => readArgv ws i >>= fun w => strAppend s (some w) >>= f) =
        .undefined) ∧
    ((commandText (ws.take (i + 1))).length < 4096 →
      ∃ s', s'.text = commandText (ws.take (i + 1)) ∧ s'.size = 4096 ∧
        ∀ f : Strbuf → Exec (Option Hit × ℕ),
          (strAppend s (some (str ".")) >>= fun s => readArgv ws i >>= fun w => strAppend s (some w) >>= f) =
            f s') := by
  have hread : readArgv ws i = .ret ws[i] := by rw [readArgv, List.getElem?_eq_getElem hi]
  have hdot : (str ".").length = 1 := by decide
  have hlen := congrArg List.length (commandText_succ hi)
  simp only [List.length_append, hdot, ← hs] at hlen
  constructor
  · intro hfull f
    by_cases h1 : s.text.length + (str ".").length < s.size
    · rw [strAppend_fits h1, Exec.ret_bind, hread, Exec.ret_bind, strAppend_full]
      · rfl
      · simp only [List.length_append]
        omega
    · rw [strAppend_full h1]
      rfl
  · intro hfit
    have h1 : s.text.length + (str ".").length < s.size := by omega
    have h2 : (s.text ++ str ".").length + ws[i].length < s.size := by
      rw [List.length_append]
      omega
    refine ⟨⟨s.text ++ str "." ++ ws[i], s.size, by rwa [List.length_append]⟩, ?_, hsize, fun f => ?_⟩
    · rw [commandText_succ hi, ← hs]
    · rw [strAppend_fits h1, Exec.ret_bind, hread, Exec.ret_bind, strAppend_fits h2, Exec.ret_bind]

theorem isPseudo_iff {r : Option Hit} : IsPseudo c r ↔ ∃ x ∈ r, (hitAttrs c.heap x).any fun a =>
    a.name.map tolower = (str "command").map tolower &&
      a.value.map (List.map tolower) = some ((str "pseudo").map tolower) := by
  simp [IsPseudo, List.any_eq_true]

/-- One pass over the words. -/
theorem lookupLoop_step {ws : List Bytes} {i left : ℕ} (hi : i < ws.length) {s : Strbuf}
    (hs : s.text = commandText (ws.take i)) (hsize : s.size = 4096) (prev : Option Hit) :
    (4096 ≤ (commandText (ws.take (i + 1))).length →
      ∀ n, lookupLoop c.heap c.commands n ws (left + 1) i s prev = .undefined) ∧
    ((commandText (ws.take (i + 1))).length < 4096 →
      ∃ s', s'.text = commandText (ws.take (i + 1)) ∧ s'.size = 4096 ∧
        ∃ N, ∀ n ≥ N, (IsPseudo c (nodeAt c ws (i + 1)) →
          lookupLoop c.heap c.commands n ws (left + 1) i s prev = .ret (nodeAt c ws (i + 1), i)) ∧
        (¬ IsPseudo c (nodeAt c ws (i + 1)) → lookupLoop c.heap c.commands n ws (left + 1) i s prev =
          lookupLoop c.heap c.commands n ws left (i + 1) s' (nodeAt c ws (i + 1)))) := by
  constructor
  · intro hfull n
    rw [lookupLoop, (append_word hi hs hsize).1 hfull]
  · intro hfit
    obtain ⟨s', hs', hsize', happend⟩ := (append_word hi hs hsize).2 hfit
    obtain ⟨N, hN⟩ := findNodePath_search c.sound c.siblings (commandText (ws.take (i + 1)))
    refine ⟨s', hs', hsize', N, fun n hn => ?_⟩
    have hfind : findNodePath c.heap n c.commands (some (commandText (ws.take (i + 1)))) =
        .ret (nodeAt c ws (i + 1)) := hN n hn
    rw [lookupLoop, happend, hs', hfind, Exec.ret_bind]
    cases hnode : nodeAt c ws (i + 1) with
    | none => exact ⟨fun h => (by obtain ⟨x, hx, -⟩ := h; cases hx), fun _ => rfl⟩
    | some x =>
      dsimp only
      rw [nodeHasAttrVal_eq (hitAttrs_valued c x), Exec.ret_bind]
      constructor
      · intro h
        obtain ⟨y, hy, hany⟩ := isPseudo_iff.1 h
        cases hy
        exact if_pos hany
      · intro h
        exact if_neg fun hany => h (isPseudo_iff.2 ⟨x, rfl, hany⟩)

theorem length_commandText_mono (ws : List Bytes) {i j : ℕ} (hij : i ≤ j) :
    (commandText (ws.take i)).length ≤ (commandText (ws.take j)).length := by
  obtain ⟨rest, hrest⟩ : ws.take i <+: ws.take j := List.take_prefix_take_left hij
  rw [← hrest, commandText, commandText, List.flatMap_append]
  simp only [List.length_append]
  omega

/-- The loop ends where the lookups do, or it comes to a text that does not fit. -/
theorem lookupLoop_arrives {ws : List Bytes} (hne : ws ≠ []) : ∀ {left i : ℕ} {s : Strbuf}
    {prev : Option Hit}, i + left = ws.length → s.text = commandText (ws.take i) → s.size = 4096 →
      (0 < i → prev = nodeAt c ws i) → (∀ j ≤ i, 0 < j → ¬ IsPseudo c (nodeAt c ws j)) →
      (∃ node k, Arrives c ws node (k + 1) ∧
        Exec.Eventually (fun n => lookupLoop c.heap c.commands n ws left i s prev) (.ret (node, k))) ∨
      ((∀ node level, ¬ Arrives c ws node level) ∧
        Exec.Eventually (fun n => lookupLoop c.heap c.commands n ws left i s prev) .undefined) := by
  intro left
  induction left with
  | zero =>
    intro i s prev hi hs hsize hprev hpre
    have hpos : 0 < i := by
      have := List.length_pos_iff.2 hne
      omega
    rw [Nat.add_zero] at hi
    refine Or.inl ⟨prev, i, ⟨i, hpos, hi.le, (hprev hpos).symm, ?_, fun j hj => hpre j hj.le,
      Or.inr ⟨?_, hi, rfl⟩⟩, Exec.Eventually.of_eq fun n => rfl⟩
    · rw [← hs, ← hsize]
      exact s.room
    · rw [hprev hpos]
      exact hpre i le_rfl hpos
  | succ left ih =>
    intro i s prev hi hs hsize hprev hpre
    have hlt : i < ws.length := by omega
    obtain ⟨hfull, hfit⟩ := @lookupLoop_step c ws i left hlt s hs hsize prev
    by_cases hlen : (commandText (ws.take (i + 1))).length < 4096
    · obtain ⟨s', hs', hsize', N, hN⟩ := hfit hlen
      by_cases hp : IsPseudo c (nodeAt c ws (i + 1))
      · exact Or.inl ⟨_, i, ⟨i + 1, Nat.succ_pos i, hlt, rfl, hlen, fun j hj => hpre j (by omega),
          Or.inl ⟨hp, rfl⟩⟩, N, fun n hn => (hN n hn).1 hp⟩
      · have hrec := ih (by omega) hs' hsize' (fun _ => rfl) fun j hj hj0 => by
          rcases Nat.lt_or_ge i j with hij | hij
          · obtain rfl : j = i + 1 := by omega
            exact hp
          · exact hpre j hij hj0
        have hnext : ∀ {x}, Exec.Eventually (fun n => lookupLoop c.heap c.commands n ws left (i + 1) s'
            (nodeAt c ws (i + 1))) x →
            Exec.Eventually (fun n => lookupLoop c.heap c.commands n ws (left + 1) i s prev) x := by
          rintro x ⟨M, hM⟩
          exact ⟨max N M, fun n hn => ((hN n (by omega)).2 hp).trans (hM n (by omega))⟩
        rcases hrec with ⟨node, k, harr, hev⟩ | ⟨hnone, hev⟩
        · exact Or.inl ⟨node, k, harr, hnext hev⟩
        · exact Or.inr ⟨hnone, hnext hev⟩
    · refine Or.inr ⟨?_, Exec.Eventually.of_eq (hfull (by omega))⟩
      rintro node level ⟨j, hj0, hjle, rfl, hjlen, -, hend⟩
      have hij : i < j := by
        by_contra hij
        rcases hend with ⟨hp, -⟩ | ⟨-, rfl, -⟩
        · exact hpre j (by omega) hj0 hp
        · omega
      have := length_commandText_mono ws (show i + 1 ≤ j by omega)
      omega

/-- The lookups end at one node. -/
theorem Arrives.unique {ws : List Bytes} {node node' : Option Hit} {level level' : ℕ}
    (h : Arrives c ws node level) (h' : Arrives c ws node' level') : node = node' ∧ level = level' := by
  obtain ⟨j, hj0, hjle, rfl, -, hpre, hend⟩ := h
  obtain ⟨j', hj0', hjle', rfl, -, hpre', hend'⟩ := h'
  have hjj : j = j' := by
    rcases Nat.lt_trichotomy j j' with hlt | heq | hlt
    · rcases hend with ⟨hp, -⟩ | ⟨-, rfl, -⟩
      · exact absurd hp (hpre' j hlt hj0)
      · omega
    · exact heq
    · rcases hend' with ⟨hp, -⟩ | ⟨-, rfl, -⟩
      · exact absurd hp (hpre j' hlt hj0')
      · omega
  subst hjj
  refine ⟨rfl, ?_⟩
  rcases hend with ⟨hp, rfl⟩ | ⟨hp, -, rfl⟩ <;> rcases hend' with ⟨hp', rfl⟩ | ⟨hp', -, rfl⟩
  · rfl
  · exact absurd hp hp'
  · exact absurd hp' hp
  · rfl

/-! ### Splitting into words -/

/-- `docmd` counts the words, `argv` are the words, and no entry is read that is not assigned. -/
def SplitsWords (c : Config) (line : CmdLine) : Prop :=
  let r := splitLoop maxCmdPath 0 (lineText line.words)
  r.2 + 1 = line.names.length ∧ r.1.take (r.2 + 1) = line.names ∧
    ∃ call, Exec.Eventually (fun n => docmd c.heap c.commands n (lineText line.words)) (.ret call) ∧
      ∀ x ∈ call, x.InBounds

/-- The words behind the command, of which `show_config` reads the first one, and the second one if the
first is a number. -/
def ShowsWhole (ws : List Bytes) (level : ℕ) : Prop :=
  level < ws.length ∧ (ws[level]?.any isNumber = true → level + 1 < ws.length)

/-- The lookups end, and `show_config` is given enough words. -/
def Served (c : Config) (ws : List Bytes) : Prop :=
  ∃ node level, Arrives c ws node level ∧ (handlerAt c.heap node = some .showConfig → ShowsWhole ws level)

/-- What a handler reads is assigned, but for `show_config` without enough words. -/
theorem call_inBounds_iff (handler : Handler) (ws : List Bytes) (level : ℕ) :
    (⟨handler, ws.length - level, ws.drop level⟩ : Call).InBounds ↔
      (handler = .showConfig → ShowsWhole ws level) := by
  have hlen : (ws.drop level).length = ws.length - level := List.length_drop
  have hget : (ws.drop level)[0]? = ws[level]? := by rw [List.getElem?_drop, Nat.add_zero]
  rw [Call.InBounds]
  cases handler with
  | event => simp [Call.reads]
  | loadDefault =>
    refine iff_of_true (fun k hk => ?_) nofun
    simp only [Call.reads] at hk
    split_ifs at hk <;> simp at hk <;> dsimp only <;> omega
  | loadConfig =>
    refine iff_of_true (fun k hk => ?_) nofun
    simp only [Call.reads] at hk
    split_ifs at hk <;> simp at hk <;> dsimp only <;> omega
  | showConfig =>
    simp only [Call.reads, ShowsWhole, forall_const, hget, hlen]
    by_cases hpos : level < ws.length
    · rw [if_pos (by omega)]
      by_cases hnum : ws[level]?.any isNumber = true
      · simp only [hnum, if_true, List.forall_mem_cons]
        simp
        omega
      · simp only [hnum]
        simp [hpos]
    · rw [if_neg (by omega)]
      simp [hpos]

/-- Behind the loop that cuts the line, the lookups start with the name of the node of the commands. -/
theorem docmd_eq (hc : c.commands ≠ none) {cmdline : Bytes} {argv : List Bytes} {i : ℕ}
    (hsplit : splitLoop maxCmdPath 0 cmdline = (argv, i)) :
    ∃ s : Strbuf, s.text = str "commands" ∧ s.size = 4096 ∧
      ∀ n, docmd c.heap c.commands n cmdline =
        lookupLoop c.heap c.commands n argv (i + 1) 0 s none >>= fun r =>
        .ret ((handlerAt c.heap r.1).map fun handler =>
          ⟨handler, (i + 1 : ℕ) - (r.2 + 1 : ℕ), argv.drop (r.2 + 1)⟩) := by
  have hfirst : strInit.text.length + (str "commands").length < strInit.size := by decide
  refine ⟨⟨strInit.text ++ str "commands", strInit.size, by rwa [List.length_append]⟩, rfl, rfl, fun n => ?_⟩
  rw [docmd, hsplit]
  dsimp only
  rw [if_neg hc, strAppend_fits hfirst, Exec.ret_bind]

/-- **`docmd` on words** returns a call that is in bounds exactly when the words are served. -/
theorem docmd_words {line : CmdLine} (hne : line.names ≠ [])
    (hsplit : splitLoop maxCmdPath 0 (lineText line.words) = (line.names, line.names.length - 1)) :
    (∃ call, Exec.Eventually (fun n => docmd c.heap c.commands n (lineText line.words)) (.ret call) ∧
      ∀ x ∈ call, x.InBounds) ↔ c.commands = none ∨ Served c line.names := by
  have hpos := List.length_pos_iff.2 hne
  by_cases hc : c.commands = none
  · refine iff_of_true ⟨none, .of_eq fun n => ?_, fun x hx => by cases hx⟩ (Or.inl hc)
    rw [docmd, hsplit]
    exact if_pos hc
  obtain ⟨s, hs, hsize, hstart⟩ := docmd_eq hc hsplit
  rw [Nat.sub_add_cancel hpos] at hstart
  simp only [hstart, hc, false_or]
  have hlookup := @lookupLoop_arrives c line.names hne line.names.length 0 s none (Nat.zero_add _) hs hsize
    (fun h => absurd h (lt_irrefl 0)) (fun j hj hj0 => absurd hj0 (by omega))
  rcases hlookup with ⟨node, k, harr, hev⟩ | ⟨hnone, hev⟩
  · have hret := hev.bind (g := fun _ r => .ret ((handlerAt c.heap r.1).map fun handler =>
      (⟨handler, line.names.length - ((r.2 + 1 : ℕ) : ℤ), line.names.drop (r.2 + 1)⟩ : Call)))
      (.of_eq fun n => rfl)
    constructor
    · rintro ⟨call, hcall, hin⟩
      refine ⟨node, k + 1, harr, fun hshow => ?_⟩
      have heq := Exec.ret.inj (hcall.unique hret)
      rw [hshow] at heq
      exact (call_inBounds_iff _ _ _).1 (hin _ heq) rfl
    · rintro ⟨node', level, harr', hshow⟩
      obtain ⟨rfl, rfl⟩ := harr.unique harr'
      refine ⟨_, hret, fun x hx => ?_⟩
      obtain ⟨handler, hhandler, rfl⟩ := Option.map_eq_some_iff.1 hx
      exact (call_inBounds_iff _ _ _).2 fun h => hshow (h ▸ hhandler)
  · refine iff_of_false ?_ fun ⟨node, level, harr, _⟩ => hnone node level harr
    rintro ⟨call, hcall, -⟩
    have := hcall.unique (hev.bind_undefined _)
    cases this

/-- **A command line is split into its words exactly when** it has a word, no blank behind the last one, no
later word that starts with other white space, and `show_config` is given enough words. -/
theorem splitsWords_iff (c : Config) (line : CmdLine) :
    SplitsWords c line ↔ Plain line.words ∧ (c.commands = none ∨ Served c line.names) := by
  have hlen : line.names.length = line.words.length := List.length_map _
  have hiff : ∀ hne : line.words ≠ [],
      (splitLoop maxCmdPath 0 (lineText line.words) = (line.names, line.names.length - 1) ↔
        Plain line.words) := fun hne => by
    have h := splitLoop_line hne line.word line.gap line.short (i := 0)
    rwa [Nat.zero_add, ← hlen] at h
  have hbound := length_splitLoop maxCmdPath 0 (lineText line.words)
  rw [Nat.add_zero] at hbound
  constructor
  · rintro ⟨hargc, hargv, hcall⟩
    rw [List.take_of_length_le hbound] at hargv
    have hsplit : splitLoop maxCmdPath 0 (lineText line.words) = (line.names, line.names.length - 1) :=
      Prod.ext hargv (by omega)
    have hne : line.names ≠ [] := List.length_pos_iff.1 (by omega)
    exact ⟨(hiff fun h => hne (by rw [CmdLine.names, h]; rfl)).1 hsplit,
      (docmd_words hne hsplit).1 hcall⟩
  · rintro ⟨hplain, hserved⟩
    have hsplit := (hiff hplain.1).2 hplain
    have hne : line.names ≠ [] := fun h => hplain.1 (List.map_eq_nil_iff.1 h)
    have hpos := List.length_pos_iff.2 hne
    refine ⟨?_, ?_, (docmd_words hne hsplit).2 hserved⟩
    · rw [hsplit]
      exact Nat.sub_add_cancel hpos
    · rw [hsplit]
      exact List.take_of_length_le (by dsimp only; omega)

end Docmd

/-! ### One command and one event -/

/-- A tree with some commands and with an event that is matched by `STARTUP`. -/
def startTree : Tree where
  size := 15
  cell
    | 0 => ⟨⟨str "root", none, none, []⟩, none, none, none, some 1⟩
    | 1 => ⟨⟨str "root", none, none, []⟩, some 0, none, none, some 2⟩
    | 2 => ⟨⟨str "commands", none, none, []⟩, some 1, none, some 8, some 3⟩
    | 3 => ⟨⟨str "load", none, none, []⟩, some 2, none, some 5, some 4⟩
    | 4 => ⟨⟨str "config", none, none,
        [⟨str "handler", some (str "load_config")⟩, ⟨str "command", some (str "pseudo")⟩]⟩,
        some 3, none, none, none⟩
    | 5 => ⟨⟨str "show", none, none, []⟩, some 2, some 3, some 7, some 6⟩
    | 6 => ⟨⟨str "config", none, none,
        [⟨str "handler", some (str "show_config")⟩, ⟨str "command", some (str "pseudo")⟩]⟩,
        some 5, none, none, none⟩
    | 7 => ⟨⟨str "event", none, none,
        [⟨str "handler", some (str "event")⟩, ⟨str "command", some (str "pseudo")⟩]⟩,
        some 2, some 5, none, none⟩
    | 8 => ⟨⟨str "events", none, none, []⟩, some 1, some 2, none, some 9⟩
    | 9 => ⟨⟨str "event", none, none, []⟩, some 8, none, none, some 10⟩
    | 10 => ⟨⟨str "match", none, none, []⟩, some 9, none, some 12, some 11⟩
    | 11 => ⟨⟨str "type", none, none, [⟨str "value", some (str "STARTUP")⟩]⟩, some 10, none, none, none⟩
    | 12 => ⟨⟨str "do", none, none, []⟩, some 9, some 10, none, some 13⟩
    | 13 => ⟨⟨str "command", none, none, [⟨str "value", some (str "load config 2 xml net.xml")⟩]⟩,
        some 12, none, some 14, none⟩
    | _ => ⟨⟨str "command", none, none, [⟨str "value", some (str "show config 2 xml")⟩]⟩,
        some 12, some 13, none, none⟩

/-- The children of the nodes. -/
def startKids : ℕ → List ℕ
  | 0 => [1]
  | 1 => [2, 8]
  | 2 => [3, 5, 7]
  | 3 => [4]
  | 5 => [6]
  | 8 => [9]
  | 9 => [10, 12]
  | 10 => [11]
  | 12 => [13, 14]
  | _ => []

theorem sound_startTree : Sound startTree 0 startKids where
  root_lt := Nat.succ_pos 14
  root_parent := rfl
  chain i hi := by
    have hi : i < 15 := hi
    interval_cases i <;> first | rfl | exact ⟨rfl, rfl⟩ | exact ⟨rfl, rfl, rfl⟩ | exact ⟨rfl, rfl, rfl, rfl⟩
  nodup i hi := by
    have hi : i < 15 := hi
    interval_cases i <;> decide
  kid_lt i hi := by
    have hi : i < 15 := hi
    interval_cases i <;> decide
  kid_parent i hi := by
    have hi : i < 15 := hi
    interval_cases i <;> decide
  older i hi p hp := by
    have hi : i < 15 := hi
    interval_cases i <;> cases hp <;> decide

/-- The configuration with this tree. -/
def startConfig : Config where
  heap := startTree
  root := 0
  kids := startKids
  sound := sound_startTree
  valued i a ha := by
    have hall : ∀ i < 15, ∀ a ∈ attrsOf startTree i, a.value ≠ none := by decide +kernel
    by_cases hi : i < 15
    · exact hall i hi a ha
    · -- every other cell is the last one
      obtain ⟨k, rfl⟩ : ∃ k, i = k + 14 := ⟨i - 14, by omega⟩
      exact hall 14 (by decide) a ha
  commands := some 2
  fromCommands := [2, 8]
  siblings := ⟨⟨rfl, rfl, rfl⟩, Or.inr ⟨1, by decide, List.suffix_rfl⟩⟩
  events := some 8
  events_lt e he := by
    cases he
    decide

/-- The line `event  STARTUP   now`. -/
def startLine : CmdLine where
  words := [(str "event", 2), (str "STARTUP", 3), (str "now", 0)]
  word := by decide
  gap := by decide
  short := by decide

theorem splitsWords_event : SplitsWords startConfig startLine := by
  refine (splitsWords_iff startConfig startLine).2 ⟨⟨List.cons_ne_nil _ _, ?_, by decide +kernel⟩, Or.inr
    ⟨some (.node 7), 1,
      ⟨1, Nat.one_pos, by decide, ?_, ?_, fun i hi hpos => by omega, Or.inl ⟨?_, rfl⟩⟩, fun h => ?_⟩⟩
  · rintro w ⟨⟩
    rfl
  · rfl
  · decide
  · exact isPseudo_iff.2 ⟨.node 7, rfl, rfl⟩
  · have hevent : handlerAt startConfig.heap (some (.node 7)) = some .event := rfl
    rw [hevent] at h
    cases h

/-- The line `event` with a blank behind it. -/
def blankLine : CmdLine where
  words := [(str "event", 1)]
  word := by decide
  gap := by decide
  short := by decide

/-- A blank behind the only word counts as one word more. -/
theorem not_splitsWords_blank : ¬ SplitsWords startConfig blankLine := by
  rintro ⟨hargc, -⟩
  revert hargc
  decide

end ZRouter.Conf.Command
