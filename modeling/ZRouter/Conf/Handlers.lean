import ZRouter.Conf.Command
import ZRouter.Conf.Export

/-!
# The handlers of the commands

`docmd` calls its handlers: two load a file into the tree, one prints it, and `event` runs the commands of
the events, each of them by `docmd` again.  What is printed is left out.

* `Env`, `Pointers`: the files, and the pointers of `struct config`;
* `loadFile` (`loadFile_eq`), `loadDefault`, `loadConfig`, `showConfig`, `event`: the handlers; `event` gets `docmd`
  as an argument;
* `runDocmd`, `runCommand`: `docmd` with its handlers, with a bound on the depth of its calls;
* `eventHandler`: the commands that the handler `event` runs for a name;
* `runCall_undefined`: the entries of `argv` that are not assigned;
* `runCommand_mono`: larger bounds;
* `runCommand_keeps`: what the files keep is kept by every command.
-/

namespace ZRouter.Conf.Command

open Cells
open Json (strtoulUsed)

/-- What the handlers find: the events that the parser delivers for a file, up to its end or to its first
error, if the file can be opened; and the largest `long`. -/
structure Env where
  files : Bytes → Option (List Event)
  longMax : ℕ

/-- The pointers of `struct config` into the memory. -/
structure Pointers where
  tree : ℕ
  commands : Option ℕ
  events : Option ℕ

/-! ### Numbers -/

/-- `strtol` with base zero. -/
def strtol (longMax : ℕ) (s : Bytes) : ℤ :=
  if strtoulUsed s = 0 then 0
  else
    match s.dropWhile isspace with
    | 45 :: t => -(strtoulAuto (longMax + 1) t : ℤ)
    | t => strtoulAuto longMax t

/-- The number of a configuration, a `long` in an `int`. -/
def confIdOf (longMax : ℕ) (w : Bytes) : ℤ := (strtol longMax w).bmod (2 ^ 32)

/-! ### Loading and showing -/

section Files

variable (E : Env) (P : Pointers)

/-- An element with a value, for which `startElement` writes a name to `attrname`. -/
def givesValue : Event → Bool
  | .start _ attr => valuesOf attr ≠ []
  | .ends _ => false

/-- `load_xml` on `c->tree`.  A file that cannot be opened changes nothing; `attrname` has 16 bytes. -/
def loadFile (h : Tree) (file : Bytes) (confId : ℤ) : Exec Tree :=
  match E.files file with
  | none => .ret h
  | some events =>
      if confId ≠ 1 ∧ 16 ≤ (attrName confId).length ∧ events.any givesValue then .undefined
      else
        match loadXml h (some P.tree) confId events with
        | none => .undefined
        | some st => .ret st.tree

/-- A file that can be opened, under a positive number, is loaded as into the configuration around the tree. -/
theorem loadFile_eq {h h' : Tree} {file : Bytes} {events : List Event} (hfile : E.files file = some events)
    {k : ℕ} (hk : 0 < k) (hk31 : k < 2 ^ 31) (root : Option ℕ) :
    loadFile E P h file k = .ret h' ↔ ∃ c, Conf.loadConfig ⟨h, P.tree, root⟩ k events = some c ∧ c.heap = h' := by
  have hfits : ¬ ((k : ℤ) ≠ 1 ∧ 16 ≤ (attrName k).length ∧ events.any givesValue = true) := by
    rintro ⟨-, hlen, -⟩
    rw [attrName_natCast hk] at hlen
    have hlt := valueName_length hk31
    omega
  rw [loadFile, hfile, Conf.loadConfig]
  dsimp only
  rw [if_neg hfits]
  cases loadXml h (some P.tree) k events <;> simp

/-- The last two words of the commands that load: the format and the file. -/
def loadArgs (h : Tree) (argv : List Bytes) (confId : ℤ) : Exec Tree :=
  readArgv argv 0 >>= fun w =>
  if w = str "xml" then readArgv argv 1 >>= fun file => loadFile E P h file confId else .ret h

/-- `load_default`. -/
def loadDefault (h : Tree) (argc : ℤ) (argv : List Bytes) : Exec Tree :=
  if argc < 2 then .ret h else loadArgs E P h argv 1

/-- `load_config`. -/
def loadConfig (h : Tree) (argc : ℤ) (argv : List Bytes) : Exec Tree :=
  if argc < 2 then .ret h
  else if argc = 3 then
    readArgv argv 0 >>= fun w =>
    if isNumber w then loadArgs E P h (argv.drop 1) (confIdOf E.longMax w) else .ret h
  else loadArgs E P h argv 2

/-- The last word of `show_config`; it is looked at before `argc` is. -/
def showArgs (n : ℕ) (h : Tree) (argc : ℤ) (argv : List Bytes) (confId : ℤ) : Exec Tree :=
  readArgv argv 0 >>= fun w =>
  if w = str "text" ∨ argc = 0 then Text.dumpText h n (some P.tree) confId >>= fun _ => .ret h
  else if w = str "xml" then
    dumpXmlNodesAttr h (Text.confName confId) n strInit (some P.tree) >>= fun _ => .ret h
  else .ret h

/-- `show_config`. -/
def showConfig (n : ℕ) (h : Tree) (argc : ℤ) (argv : List Bytes) : Exec Tree :=
  if 0 < argc then
    readArgv argv 0 >>= fun w =>
    if isNumber w then showArgs P n h (argc - 1) (argv.drop 1) (confIdOf E.longMax w) else .ret h
  else showArgs P n h argc argv 0

end Files

/-! ### The handler of events -/

/-- The tree, and the commands that the handler has run. -/
abbrev State := Tree × List Bytes

/-- The loop over the children of a match block. -/
def matchLoop (h : Tree) : ℕ → Option ℕ → Bool → Exec Bool
  | _, none, matched => .ret matched
  | 0, some _, _ => .stuck
  | n + 1, some m, matched =>
      matchLoop h n (h.cell m).next (matched || nodeHasAttr (attrsOf h m) (str "value"))

/-- Whether a node is matched. -/
def isMatched (h : Tree) (n node : ℕ) : Exec Bool :=
  match (h.cell node).firstChild with
  | none => .ret false
  | some first =>
      if nameOf h first = str "match" then matchLoop h n (h.cell first).firstChild false else .ret false

section Event

variable (run : Tree → Bytes → Exec Tree)

/-- The loop over the children of a block of commands, each of which is run; `docmd` cannot copy a null
pointer. -/
def commandLoop : ℕ → Option ℕ → State → Exec State
  | _, none, s => .ret s
  | 0, some _, _ => .stuck
  | n + 1, some m, s =>
      if nodeHasAttr (attrsOf s.1 m) (str "value") then
        match getAttr (attrsOf s.1 m) (str "value") with
        | none => .undefined
        | some cmdline =>
            run s.1 cmdline >>= fun h => commandLoop n (h.cell m).next (h, s.2 ++ [cmdline])
      else commandLoop n (s.1.cell m).next s

/-- What the handler does for one node; an attribute has no children. -/
def runNode (n node : ℕ) (s : State) : Exec State :=
  isMatched s.1 n node >>= fun matched =>
  if matched then
    findNodePath s.1 n (some node) (some (str "event.do")) >>= fun cmds =>
    match cmds with
    | some (.node cmds) => commandLoop run n (s.1.cell cmds).firstChild s
    | some (.attr _ _) => .ret s
    | none => .ret s
  else .ret s

/-- The loop over the nodes below `events`. -/
def eventLoop : ℕ → Option ℕ → State → Exec State
  | _, none, s => .ret s
  | 0, some _, _ => .stuck
  | n + 1, some node, s =>
      runNode run n node s >>= fun s => eventLoop n (s.1.cell node).next s

/-- `event`; it does not look at its arguments. -/
def event (events : Option ℕ) (n : ℕ) (h : Tree) : Exec State :=
  match events with
  | none => .ret (h, [])
  | some events => eventLoop run n (h.cell events).firstChild (h, [])

end Event

/-! ### The commands -/

section Commands

variable (E : Env) (P : Pointers)

/-- A call of a handler; only `event` runs commands. -/
def runCall (run : Tree → Bytes → Exec Tree) (n : ℕ) (h : Tree) (x : Call) : Exec State :=
  match x.handler with
  | .loadDefault => loadDefault E P h x.argc x.argv >>= fun h => .ret (h, [])
  | .loadConfig => loadConfig E P h x.argc x.argv >>= fun h => .ret (h, [])
  | .showConfig => showConfig E P n h x.argc x.argv >>= fun h => .ret (h, [])
  | .event => event run P.events n h

/-- `docmd` with its handlers. -/
def runDocmd (run : Tree → Bytes → Exec Tree) (n : ℕ) (h : Tree) (cmdline : Bytes) : Exec State :=
  docmd h P.commands n cmdline >>= fun call =>
  match call with
  | none => .ret (h, [])
  | some x => runCall E P run n h x

/-- The tree after a command; `docmd` calls itself at most `d` times in each other. -/
def runCommand : ℕ → ℕ → Tree → Bytes → Exec Tree
  | 0, _, _, _ => .stuck
  | d + 1, n, h, cmdline => runDocmd E P (runCommand d n) n h cmdline >>= fun s => .ret s.1

/-- `event_handler`: the tree afterwards, and the commands that the handler `event` has run. -/
def eventHandler (n : ℕ) (h : Tree) (args : Bytes) : Exec State :=
  strAppend strInit (some (str "event ")) >>= fun s =>
  strAppend s (some args) >>= fun s =>
  runDocmd E P (runCommand E P n n) n h s.text

end Commands

/-! ### Entries that are not assigned -/

section InBounds

variable {E : Env} {P : Pointers} {n : ℕ} {h : Tree}

@[simp] theorem readArgv_nil (i : ℕ) : readArgv [] i = .undefined := rfl

@[simp] theorem readArgv_cons_zero (w : Bytes) (argv : List Bytes) : readArgv (w :: argv) 0 = .ret w := rfl

@[simp] theorem readArgv_cons_succ (w : Bytes) (argv : List Bytes) (i : ℕ) :
    readArgv (w :: argv) (i + 1) = readArgv argv i := rfl

/-- The words of the commands that load. -/
theorem loadArgs_undefined {argv : List Bytes} {confId : ℤ}
    (hx : ¬ ∀ k ∈ if argv[0]? = some (str "xml") then [0, 1] else [0], k < argv.length) :
    loadArgs E P h argv confId = .undefined := by
  cases argv with
  | nil => rfl
  | cons w argv =>
    by_cases hxml : w = str "xml"
    · have hnil : argv = [] := by simpa [hxml] using hx
      simp [loadArgs, hxml, hnil]
    · exact absurd hx (by simp [hxml])

/-- **A handler that reads an entry that is not assigned** runs into undefined behaviour. -/
theorem runCall_undefined (run : Tree → Bytes → Exec Tree) {x : Call} (hx : ¬ x.InBounds) :
    runCall E P run n h x = .undefined := by
  obtain ⟨handler, argc, argv⟩ := x
  rw [Call.InBounds] at hx
  cases handler with
  | event => exact absurd (by simp [Call.reads]) hx
  | loadDefault =>
    by_cases hargc : argc < 2
    · exact absurd (by simp [Call.reads, hargc]) hx
    · simp only [Call.reads, if_neg hargc] at hx
      simp only [runCall, loadDefault, if_neg hargc, loadArgs_undefined hx, Exec.undefined_bind]
  | loadConfig =>
    by_cases hargc : argc < 2
    · exact absurd (by simp [Call.reads, hargc]) hx
    simp only [Call.reads, if_neg hargc] at hx
    simp only [runCall, loadConfig, if_neg hargc]
    by_cases hthree : argc = 3
    · simp only [if_pos hthree] at hx ⊢
      cases argv with
      | nil => rfl
      | cons w argv =>
        -- the number comes first, and the format and the file behind it
        by_cases hnum : isNumber w = true
        · have hargs : ¬ ∀ k ∈ if argv[0]? = some (str "xml") then [0, 1] else [0], k < argv.length := by
            refine fun hall => hx ?_
            split_ifs at hall with hxml
            · simpa [hnum, hxml, Nat.succ_le_iff] using hall
            · simpa [hnum, hxml, Nat.succ_le_iff] using hall
          simp [hnum, loadArgs_undefined hargs]
        · exact absurd hx (by simp [hnum])
    · simp only [if_neg hthree] at hx ⊢
      rw [loadArgs_undefined hx]
      rfl
  | showConfig =>
    simp only [Call.reads] at hx
    simp only [runCall, showConfig]
    cases argv with
    | nil => split_ifs <;> rfl
    | cons w argv =>
      by_cases hargc : 0 < argc
      · by_cases hnum : isNumber w = true
        · have hnil : argv = [] := by simpa [hargc, hnum] using hx
          simp [hargc, hnum, hnil, showArgs]
        · exact absurd hx (by simp [hargc, hnum])
      · exact absurd hx (by simp [hargc])

end InBounds

/-! ### Larger bounds -/

section Mono

variable {E : Env} {P : Pointers} {run run' : Tree → Bytes → Exec Tree} {n m : ℕ}

theorem docmd_mono (hnm : n ≤ m) (h : Tree) (commands : Option ℕ) (cmdline : Bytes) :
    docmd h commands n cmdline ≤ docmd h commands m cmdline := by
  have hloop : ∀ argv left i s node, lookupLoop h commands n argv left i s node ≤
      lookupLoop h commands m argv left i s node := by
    intro argv left
    induction left with
    | zero => exact fun i s node => le_rfl
    | succ left ih =>
      intro i s node
      rw [lookupLoop, lookupLoop]
      refine Exec.bind_le_bind le_rfl fun s => Exec.bind_le_bind le_rfl fun w =>
        Exec.bind_le_bind le_rfl fun s => Exec.bind_le_bind ((findNodePath_mono h hnm).1 _ _) fun node => ?_
      cases node with
      | none => exact ih _ _ _
      | some x =>
        refine Exec.bind_le_bind le_rfl fun pseudo => ?_
        cases pseudo with
        | true => exact le_rfl
        | false => exact ih _ _ _
  rw [docmd, docmd]
  dsimp only
  split_ifs
  · exact le_rfl
  · exact Exec.bind_le_bind le_rfl fun s => Exec.bind_le_bind (hloop _ _ _ _ _) fun _ => le_rfl

theorem isMatched_mono (hnm : n ≤ m) (h : Tree) (node : ℕ) : isMatched h n node ≤ isMatched h m node := by
  have hloop : ∀ n m, n ≤ m → ∀ p matched, matchLoop h n p matched ≤ matchLoop h m p matched := by
    intro n
    induction n with
    | zero =>
      rintro m - (- | i) matched
      · rw [matchLoop, matchLoop]
      · exact Exec.stuck_le _
    | succ n ih =>
      rintro m hnm (- | i) matched
      · rw [matchLoop, matchLoop]
      · obtain ⟨m, rfl⟩ : ∃ k, m = k + 1 := ⟨m - 1, by omega⟩
        exact ih m (by omega) _ _
  rw [isMatched, isMatched]
  cases (h.cell node).firstChild with
  | none => exact le_rfl
  | some first =>
    dsimp only
    split_ifs
    · exact hloop n m hnm _ _
    · exact le_rfl

theorem commandLoop_mono (hrun : ∀ h cmdline, run h cmdline ≤ run' h cmdline) (hnm : n ≤ m)
    (p : Option ℕ) (s : State) :
    commandLoop run n p s ≤ commandLoop run' m p s := by
  induction n generalizing m p s with
  | zero =>
    cases p with
    | none => rw [commandLoop, commandLoop]
    | some i => exact Exec.stuck_le _
  | succ n ih =>
    cases p with
    | none => rw [commandLoop, commandLoop]
    | some i =>
      obtain ⟨m, rfl⟩ : ∃ k, m = k + 1 := ⟨m - 1, by omega⟩
      have hle : n ≤ m := by omega
      rw [commandLoop, commandLoop]
      split_ifs
      · cases getAttr (attrsOf s.1 i) (str "value") with
        | none => exact le_rfl
        | some cmdline => exact Exec.bind_le_bind (hrun _ _) fun h => ih hle _ _
      · exact ih hle _ _

theorem runNode_mono (hrun : ∀ h cmdline, run h cmdline ≤ run' h cmdline) (hnm : n ≤ m)
    (node : ℕ) (s : State) :
    runNode run n node s ≤ runNode run' m node s := by
  refine Exec.bind_le_bind (isMatched_mono hnm s.1 node) fun matched => ?_
  cases matched with
  | false => exact le_rfl
  | true =>
    refine Exec.bind_le_bind ((findNodePath_mono s.1 hnm).1 _ _) fun cmds => ?_
    cases cmds with
    | none => exact le_rfl
    | some x =>
      cases x with
      | node cmds => exact commandLoop_mono hrun hnm _ _
      | attr i k => exact le_rfl

theorem eventLoop_mono (hrun : ∀ h cmdline, run h cmdline ≤ run' h cmdline) (hnm : n ≤ m)
    (p : Option ℕ) (s : State) :
    eventLoop run n p s ≤ eventLoop run' m p s := by
  induction n generalizing m p s with
  | zero =>
    cases p with
    | none => rw [eventLoop, eventLoop]
    | some i => exact Exec.stuck_le _
  | succ n ih =>
    cases p with
    | none => rw [eventLoop, eventLoop]
    | some i =>
      obtain ⟨m, rfl⟩ : ∃ k, m = k + 1 := ⟨m - 1, by omega⟩
      have hle : n ≤ m := by omega
      exact Exec.bind_le_bind (runNode_mono hrun hle i s) fun s => ih hle _ _

theorem runDocmd_mono (hrun : ∀ h cmdline, run h cmdline ≤ run' h cmdline) (hnm : n ≤ m)
    (h : Tree) (cmdline : Bytes) :
    runDocmd E P run n h cmdline ≤ runDocmd E P run' m h cmdline := by
  refine Exec.bind_le_bind (docmd_mono hnm h _ _) fun call => ?_
  cases call with
  | none => exact le_rfl
  | some x =>
    obtain ⟨handler, argc, argv⟩ := x
    cases handler with
    | loadDefault => exact le_rfl
    | loadConfig => exact le_rfl
    | showConfig =>
      refine Exec.bind_le_bind ?_ fun _ => le_rfl
      have hargs : ∀ argc argv confId, showArgs P n h argc argv confId ≤ showArgs P m h argc argv confId := by
        intro argc argv confId
        refine Exec.bind_le_bind le_rfl fun w => ?_
        split_ifs
        · exact Exec.bind_le_bind ((Text.dumpNodesAttr_mono h _ hnm).1 _ _) fun _ => le_rfl
        · exact Exec.bind_le_bind ((dumpXml_mono h _ hnm).1 _ _) fun _ => le_rfl
        · exact le_rfl
      rw [showConfig, showConfig]
      split_ifs
      · refine Exec.bind_le_bind le_rfl fun w => ?_
        split_ifs
        · exact hargs _ _ _
        · exact le_rfl
      · exact hargs _ _ _
    | event =>
      show event run P.events n h ≤ event run' P.events m h
      unfold event
      cases P.events with
      | none => exact le_rfl
      | some e => exact eventLoop_mono hrun hnm _ _

/-- A command with larger bounds. -/
theorem runCommand_mono {d d' : ℕ} (hd : d ≤ d') (hnm : n ≤ m) (h : Tree) (cmdline : Bytes) :
    runCommand E P d n h cmdline ≤ runCommand E P d' m h cmdline := by
  induction d generalizing d' h cmdline with
  | zero => exact Exec.stuck_le _
  | succ d ih =>
    obtain ⟨d', rfl⟩ : ∃ k, d' = k + 1 := ⟨d' - 1, by omega⟩
    exact Exec.bind_le_bind (runDocmd_mono (fun h cmdline => ih (by omega) h cmdline) hnm h cmdline)
      fun _ => le_rfl

end Mono

/-! ### What every command keeps -/

section Keeps

variable {E : Env} {P : Pointers} {run : Tree → Bytes → Exec Tree} {I : Tree → Prop} {n : ℕ} {s s' : State}

theorem commandLoop_keeps (hrun : ∀ h cmdline h', I h → run h cmdline = .ret h' → I h') {p : Option ℕ}
    (hs : I s.1) (hret : commandLoop run n p s = .ret s') : I s'.1 := by
  induction n generalizing p s with
  | zero =>
    cases p with
    | none =>
      rw [commandLoop] at hret
      cases hret
      exact hs
    | some i => cases hret
  | succ n ih =>
    cases p with
    | none =>
      rw [commandLoop] at hret
      cases hret
      exact hs
    | some i =>
      rw [commandLoop] at hret
      split_ifs at hret
      · cases hget : getAttr (attrsOf s.1 i) (str "value") with
        | none =>
          rw [hget] at hret
          cases hret
        | some cmdline =>
          rw [hget] at hret
          obtain ⟨h, hh, hret⟩ := Exec.bind_eq_ret hret
          exact ih (hrun s.1 cmdline h hs hh) hret
      · exact ih hs hret

theorem runNode_keeps (hrun : ∀ h cmdline h', I h → run h cmdline = .ret h' → I h') {node : ℕ}
    (hs : I s.1) (hret : runNode run n node s = .ret s') : I s'.1 := by
  obtain ⟨matched, -, hret⟩ := Exec.bind_eq_ret hret
  cases matched with
  | false =>
    rw [if_neg Bool.false_ne_true] at hret
    cases hret
    exact hs
  | true =>
    rw [if_pos rfl] at hret
    obtain ⟨cmds, -, hret⟩ := Exec.bind_eq_ret hret
    cases cmds with
    | none =>
      cases hret
      exact hs
    | some x =>
      cases x with
      | node cmds => exact commandLoop_keeps hrun hs hret
      | attr i k =>
        cases hret
        exact hs

theorem eventLoop_keeps (hrun : ∀ h cmdline h', I h → run h cmdline = .ret h' → I h') {p : Option ℕ}
    (hs : I s.1) (hret : eventLoop run n p s = .ret s') : I s'.1 := by
  induction n generalizing p s with
  | zero =>
    cases p with
    | none =>
      rw [eventLoop] at hret
      cases hret
      exact hs
    | some i => cases hret
  | succ n ih =>
    cases p with
    | none =>
      rw [eventLoop] at hret
      cases hret
      exact hs
    | some i =>
      obtain ⟨t, ht, hret⟩ := Exec.bind_eq_ret hret
      exact ih (runNode_keeps hrun hs ht) hret

/-- What the loading of files keeps, and the commands that are run, `docmd` keeps. -/
theorem runDocmd_keeps (hload : ∀ h file confId h', I h → loadFile E P h file confId = .ret h' → I h')
    (hrun : ∀ h cmdline h', I h → run h cmdline = .ret h' → I h') {h : Tree} {cmdline : Bytes} (hh : I h)
    (hret : runDocmd E P run n h cmdline = .ret s') : I s'.1 := by
  have hargs : ∀ {argv confId h'}, loadArgs E P h argv confId = .ret h' → I h' := by
    intro argv confId h' hret
    obtain ⟨w, -, hret⟩ := Exec.bind_eq_ret hret
    split_ifs at hret
    · obtain ⟨file, -, hret⟩ := Exec.bind_eq_ret hret
      exact hload h file confId h' hh hret
    · cases hret
      exact hh
  have hshow : ∀ {argc argv confId h'}, showArgs P n h argc argv confId = .ret h' → I h' := by
    intro argc argv confId h' hret
    obtain ⟨w, -, hret⟩ := Exec.bind_eq_ret hret
    split_ifs at hret
    · obtain ⟨out, -, hret⟩ := Exec.bind_eq_ret hret
      cases hret
      exact hh
    · obtain ⟨out, -, hret⟩ := Exec.bind_eq_ret hret
      cases hret
      exact hh
    · cases hret
      exact hh
  obtain ⟨call, -, hret⟩ := Exec.bind_eq_ret hret
  cases call with
  | none =>
    cases hret
    exact hh
  | some x =>
    obtain ⟨handler, argc, argv⟩ := x
    cases handler with
    | loadDefault =>
      obtain ⟨h', hh', hret⟩ := Exec.bind_eq_ret hret
      cases hret
      rw [loadDefault] at hh'
      split_ifs at hh'
      · cases hh'
        exact hh
      · exact hargs hh'
    | loadConfig =>
      obtain ⟨h', hh', hret⟩ := Exec.bind_eq_ret hret
      cases hret
      rw [loadConfig] at hh'
      split_ifs at hh'
      · cases hh'
        exact hh
      · obtain ⟨w, -, hh'⟩ := Exec.bind_eq_ret hh'
        split_ifs at hh'
        · exact hargs hh'
        · cases hh'
          exact hh
      · exact hargs hh'
    | showConfig =>
      obtain ⟨h', hh', hret⟩ := Exec.bind_eq_ret hret
      cases hret
      rw [showConfig] at hh'
      split_ifs at hh'
      · obtain ⟨w, -, hh'⟩ := Exec.bind_eq_ret hh'
        split_ifs at hh'
        · exact hshow hh'
        · cases hh'
          exact hh
      · exact hshow hh'
    | event =>
      change event run P.events n h = .ret s' at hret
      unfold event at hret
      cases hevents : P.events with
      | none =>
        rw [hevents] at hret
        cases hret
        exact hh
      | some e =>
        rw [hevents] at hret
        exact eventLoop_keeps hrun (s := (h, [])) hh hret

/-- **What the loading of files keeps, every command keeps.** -/
theorem runCommand_keeps (hload : ∀ h file confId h', I h → loadFile E P h file confId = .ret h' → I h')
    (d n : ℕ) : ∀ h cmdline h', I h → runCommand E P d n h cmdline = .ret h' → I h' := by
  induction d with
  | zero => intro h cmdline h' _ hret; cases hret
  | succ d ih =>
    intro h cmdline h' hh hret
    obtain ⟨s, hs, hret⟩ := Exec.bind_eq_ret hret
    cases hret
    exact runDocmd_keeps hload ih hh hs

end Keeps

end ZRouter.Conf.Command
