import ZRouter.Conf.Handlers
import ZRouter.Conf.Kept

/-!
# Events (`event`, `event_handler`)

An event is a command line that leads to the handler `event`.  For each of the nodes below `events` the
handler looks for a value in the match block, without comparing it with the name of the event, and runs the
commands of the block that the path `event.do` leads to from this node on.  The commands may load files;
what the handler reads of the events stays as it is.

* `EventsTree`, `expected`: the blocks of the events, and the commands for a name;
* `executed`: the nodes whose values are run;
* `hasMatch_kept`, `search_kept`: what the handler reads after some files have been loaded;
* `Ran`: the commands of some nodes have been run, one after the other;
* `commandLoop_iff`, `runNode_iff`, `eventLoop_iff`: when the loops return, and what they have run then;
* `eventHandler_iff`: the whole line;
* `selective_iff`: when the commands for the name are run.
-/

namespace ZRouter.Conf.Command

open Cells

/-! ### The blocks of the events -/

section Blocks

variable (h : Tree) (kids : ℕ → List ℕ)

/-- The values of some nodes, which are command lines. -/
def cmdlines (l : List ℕ) : List Bytes := l.filterMap fun m => getAttr (attrsOf h m) (str "value")

/-- The first child is a match block with a value. -/
def hasMatch (i : ℕ) : Bool :=
  (kids i).head?.any fun m => nameOf h m = str "match" &&
    (kids m).any fun v => nodeHasAttr (attrsOf h v) (str "value")

/-- The nodes that are run for a node, whose later siblings are `l`. -/
def toRun (i : ℕ) (l : List ℕ) : List ℕ :=
  if hasMatch h kids i then
    match search h kids [str "event", str "do"] (i :: l) with
    | some (.node d) => kids d
    | some (.attr _ _) => []
    | none => []
  else []

/-- The nodes that are run. -/
def executed : List ℕ → List ℕ
  | [] => []
  | i :: l => toRun h kids i l ++ executed l

/-- An attribute that counts as a value has the name. -/
def Runnable (m : ℕ) : Prop :=
  nodeHasAttr (attrsOf h m) (str "value") = true → getAttr (attrsOf h m) (str "value") ≠ none

end Blocks

section Names

variable (c : Config)

/-- The nodes below `events`. -/
def eventNodes : List ℕ := (c.events.map c.kids).getD []

/-- The values in the first block of a node. -/
def matchValues (i : ℕ) : List Bytes :=
  ((c.kids i).head?.map fun m => cmdlines c.heap (c.kids m)).getD []

/-- The blocks of commands of a node. -/
def doBlocks (i : ℕ) : List ℕ := (c.kids i).filter (nameOf c.heap · = str "do")

/-- Each event has a match block, which is the first, and a block of commands. -/
def EventsTree : Prop :=
  ∀ i ∈ eventNodes c, nameOf c.heap i = str "event" →
    (∃ m ∈ (c.kids i).head?, nameOf c.heap m = str "match") ∧ ∃ d, doBlocks c i = [d]

/-- An event whose match block has the name as a value. -/
def selected (name : Bytes) (i : ℕ) : Bool :=
  nameOf c.heap i = str "event" && name ∈ matchValues c i

/-- The commands of an event. -/
def commandsOf (i : ℕ) : List Bytes := (doBlocks c i).flatMap fun d => cmdlines c.heap (c.kids d)

/-- The commands for a name. -/
def expected (name : Bytes) (l : List ℕ) : List Bytes := (l.filter (selected c name)).flatMap (commandsOf c)

/-- What is run with a value is run for an event with the name, and the value can be run. -/
def WellMatched (name : Bytes) : List ℕ → Prop
  | [] => True
  | i :: l =>
      (∀ m ∈ toRun c.heap c.kids i l, nodeHasAttr (attrsOf c.heap m) (str "value") = true →
        selected c name i = true ∧ getAttr (attrsOf c.heap m) (str "value") ≠ none) ∧ WellMatched name l

/-- As `init_defaults` leaves the pointers: the command `event` leads to its handler, and the events are
not the root. -/
structure Dispatches : Prop where
  pseudo : IsPseudo c (nodeAt c [str "event"] 1)
  handler : handlerAt c.heap (nodeAt c [str "event"] 1) = some .event
  events_ne : ∀ e ∈ c.events, e ≠ c.root

/-- The pointers of the configuration. -/
def Config.pointers : Pointers := ⟨c.root, c.commands, c.events⟩

variable (E : Env)

/-- Commands one after the other, from a tree on. -/
def runAll (n : ℕ) (h : Tree) (cmds : List Bytes) : Exec Tree :=
  cmds.foldlM (runCommand E c.pointers n n) h

/-- All the commands return, one after the other. -/
def Returns (cmds : List Bytes) : Prop :=
  ∃ h, Exec.Eventually (fun n => runAll c E n c.heap cmds) (.ret h)

/-- Handling an event runs the commands for its name. -/
def Selective (name : Bytes) : Prop :=
  ∃ h, Exec.Eventually (fun n => eventHandler E c.pointers n c.heap name)
    (.ret (h, expected c name (eventNodes c)))

end Names

/-! ### What the handler reads of a tree into which files have been loaded -/

section Kept

variable {root e i j d : ℕ} {h h' : Tree} {kids kids' : ℕ → List ℕ} {l new : List ℕ}

/-- The values that some old nodes have. -/
theorem any_value_kept (hk : Keeps root e h kids h' kids') (hl : ∀ v ∈ l, v < h.size)
    (hnew : ∀ v ∈ new, nodeHasAttr (attrsOf h' v) (str "value") = false) :
    ((l ++ new).any fun v => nodeHasAttr (attrsOf h' v) (str "value")) =
      l.any fun v => nodeHasAttr (attrsOf h v) (str "value") := by
  have hnone : (new.any fun v => nodeHasAttr (attrsOf h' v) (str "value")) = false :=
    List.any_eq_false.2 fun v hv => by rw [hnew v hv]; exact Bool.false_ne_true
  rw [List.any_append, hnone, Bool.or_false, Bool.eq_iff_iff, List.any_eq_true, List.any_eq_true]
  exact exists_congr fun v => and_congr_right fun hv => by rw [(hk.value v (hl v hv)).has]

/-- A new node is not matched. -/
theorem hasMatch_new (hk : Keeps root e h kids h' kids') (hs : Sound h root kids) (hi : h.size ≤ i)
    (hlt : i < h'.size) (hu : Under h' e i) : hasMatch h' kids' i = false := by
  rw [hasMatch]
  cases hkids : kids' i with
  | nil => rfl
  | cons m l =>
    have hm : m ∈ kids' i := by rw [hkids]; exact List.mem_cons_self
    have hmlt := hk.sound.kid_lt i hlt m hm
    have hmu := hu.trans (hk.sound.under_kid hlt hm)
    have hnone : ((kids' m).any fun v => nodeHasAttr (attrsOf h' v) (str "value")) = false :=
      List.any_eq_false.2 fun v hv => by
        rw [hk.kid_fresh hmlt hmu hv (hk.kid_new hs (hk.kid_new hs hi hlt hm) hmlt hv)]
        exact Bool.false_ne_true
    rw [List.head?_cons, Option.any_some, hnone, Bool.and_false]

/-- An old node is matched if it was. -/
theorem hasMatch_kept (hk : Keeps root e h kids h' kids') (hs : Sound h root kids) (hi : i < h.size)
    (hu : Under h e i) : hasMatch h' kids' i = hasMatch h kids i := by
  obtain ⟨new, hnew, hge⟩ := hk.appended i hi
  have hi' : i < h'.size := hi.trans_le hk.size
  have hu' : Under h' e i := (under_congr hs hk.parent hi).2 hu
  cases hkids : kids i with
  | nil =>
    rw [hkids, List.nil_append] at hnew
    have hfalse : hasMatch h kids i = false := by
      rw [hasMatch, hkids]
      rfl
    rw [hfalse, hasMatch]
    cases new with
    | nil =>
      rw [hnew]
      rfl
    | cons m new =>
      have hm : m ∈ kids' i := by rw [hnew]; exact List.mem_cons_self
      have hmlt := hk.sound.kid_lt i hi' m hm
      have hmu := hu'.trans (hk.sound.under_kid hi' hm)
      have hnone : ((kids' m).any fun v => nodeHasAttr (attrsOf h' v) (str "value")) = false :=
        List.any_eq_false.2 fun v hv => by
          rw [hk.kid_fresh hmlt hmu hv (hk.kid_new hs (hge m List.mem_cons_self) hmlt hv)]
          exact Bool.false_ne_true
      rw [hnew, List.head?_cons, Option.any_some, hnone, Bool.and_false]
  | cons m l =>
    have hm : m ∈ kids i := by rw [hkids]; exact List.mem_cons_self
    have hmlt := hs.kid_lt i hi m hm
    obtain ⟨newm, hnewm, hgem⟩ := hk.appended m hmlt
    have hmu : Under h' e m := (under_congr hs hk.parent hmlt).2 (hu.trans (hs.under_kid hi hm))
    have hany := any_value_kept hk (hs.kid_lt m hmlt) fun v hv =>
      hk.kid_fresh (hmlt.trans_le hk.size) hmu (by rw [hnewm]; exact List.mem_append_right _ hv) (hgem v hv)
    rw [hasMatch, hasMatch, hnew, hkids, List.cons_append, List.head?_cons, List.head?_cons, Option.any_some,
      Option.any_some, hk.name m hmlt, hnewm, hany]

/-- The path that the handler looks up. -/
theorem splitOn_eventDo : (str "event.do").splitOn 46 = [str "event", str "do"] := rfl

theorem search_eventDo (hname : nameOf h i ≠ join [str "event", str "do"]) :
    search h kids [str "event", str "do"] (i :: l) =
      ((i :: l).findSome? fun j => if nameOf h j = str "event" then
        ((kids j).find? fun d => nameOf h d = str "do").map .node else none).or
          (attrHit h i [str "do"]) := by
  rw [search, if_neg hname]
  congr 2
  funext j
  rw [search_singleton]
  simp

/-- **The lookup of the commands** from an old node on finds the old block that it found, or no block that
was there. -/
theorem search_kept (hk : Keeps root e h kids h' kids') (hs : Sound h root kids)
    (hl : ∀ j ∈ i :: l, j < h.size ∧ Under h e j)
    (hnew : ∀ j ∈ new, h.size ≤ j ∧ j < h'.size ∧ Under h' e j)
    (hdo : ∀ j ∈ i :: l, nameOf h j = str "event" → ∃ d ∈ kids j, nameOf h d = str "do") :
    (∃ d < h.size, Under h e d ∧ search h kids [str "event", str "do"] (i :: l) = some (.node d) ∧
      search h' kids' [str "event", str "do"] (i :: (l ++ new)) = some (.node d)) ∨
    ((∀ d, search h kids [str "event", str "do"] (i :: l) ≠ some (.node d)) ∧
      ∀ d, search h' kids' [str "event", str "do"] (i :: (l ++ new)) = some (.node d) →
        h.size ≤ d ∧ d < h'.size ∧ Under h' e d) := by
  obtain ⟨hi, hui⟩ := hl i List.mem_cons_self
  by_cases hwhole : nameOf h i = join [str "event", str "do"]
  · have hwhole' : nameOf h' i = join [str "event", str "do"] := (hk.name i hi).trans hwhole
    exact Or.inl ⟨i, hi, hui, by rw [search, if_pos hwhole], by rw [search, if_pos hwhole']⟩
  have hwhole' : nameOf h' i ≠ join [str "event", str "do"] := fun h => hwhole ((hk.name i hi).symm.trans h)
  rw [search_eventDo hwhole, search_eventDo hwhole', ← List.cons_append, List.findSome?_append]
  -- the children of an old event with the name that is looked for
  have hfind : ∀ j ∈ i :: l, nameOf h j = str "event" → ∃ d < h.size, Under h e d ∧
      ((kids j).find? fun d => nameOf h d = str "do") = some d ∧
      ((kids' j).find? fun d => nameOf h' d = str "do") = some d := fun j hj hname => by
    obtain ⟨hjlt, hju⟩ := hl j hj
    obtain ⟨newj, hnewj, -⟩ := hk.appended j hjlt
    obtain ⟨d₀, hd₀, hname₀⟩ := hdo j hj hname
    obtain ⟨d, hd⟩ : ∃ d, ((kids j).find? fun d => nameOf h d = str "do") = some d :=
      Option.isSome_iff_exists.1 (List.find?_isSome.2 ⟨d₀, hd₀, by simpa using hname₀⟩)
    have hdmem := List.mem_of_find?_eq_some hd
    refine ⟨d, hs.kid_lt j hjlt d hdmem, hju.trans (hs.under_kid hjlt hdmem), hd, ?_⟩
    have hsame : ((kids j).find? fun d => nameOf h' d = str "do") = some d := by
      rw [← hd]
      exact List.find?_congr fun x hx => by rw [hk.name x (hs.kid_lt j hjlt x hx)]
    rw [hnewj, List.find?_append, hsame]
    rfl
  by_cases hevent : ∃ j ∈ i :: l, nameOf h j = str "event"
  · -- the first event has the block, before and after
    have hsome : ∀ m : List ℕ, (∀ j ∈ m, j ∈ i :: l) → (∃ j ∈ m, nameOf h j = str "event") →
        ∃ d < h.size, Under h e d ∧
        (m.findSome? fun j => if nameOf h j = str "event" then
          ((kids j).find? fun d => nameOf h d = str "do").map Hit.node else none) = some (.node d) ∧
        (m.findSome? fun j => if nameOf h' j = str "event" then
          ((kids' j).find? fun d => nameOf h' d = str "do").map Hit.node else none) = some (.node d) := by
      intro m hm hex
      induction m with
      | nil =>
        obtain ⟨j, hj, -⟩ := hex
        cases hj
      | cons j m ih =>
        have hjmem := hm j List.mem_cons_self
        have hjname := hk.name j (hl j hjmem).1
        by_cases hj : nameOf h j = str "event"
        · obtain ⟨d, hdlt, hdu, hd, hd'⟩ := hfind j hjmem hj
          refine ⟨d, hdlt, hdu, ?_, ?_⟩
          · rw [List.findSome?_cons, if_pos hj, hd]
            rfl
          · rw [List.findSome?_cons, hjname, if_pos hj, hd']
            rfl
        · have hrest : ∃ k ∈ m, nameOf h k = str "event" := by
            obtain ⟨k, hkmem, hkname⟩ := hex
            rcases List.mem_cons.1 hkmem with rfl | hkmem
            · exact absurd hkname hj
            · exact ⟨k, hkmem, hkname⟩
          obtain ⟨d, hdlt, hdu, hd, hd'⟩ := ih (fun k hk => hm k (List.mem_cons_of_mem j hk)) hrest
          refine ⟨d, hdlt, hdu, ?_, ?_⟩
          · rw [List.findSome?_cons, if_neg hj]
            exact hd
          · rw [List.findSome?_cons, hjname, if_neg hj]
            exact hd'
    obtain ⟨d, hdlt, hdu, hd, hd'⟩ := hsome (i :: l) (fun j hj => hj) hevent
    exact Or.inl ⟨d, hdlt, hdu, by rw [hd]; rfl, by rw [hd']; rfl⟩
  · -- there is no old event: what is found now hangs below a new one
    have hattr : ∀ {t : Tree} {x : Option Hit} {f : ℕ} {ns : List Bytes} {d : ℕ}, x = none →
        x.or (attrHit t f ns) ≠ some (.node d) := by
      rintro t x f ns d rfl heq
      obtain ⟨k, -, hk⟩ := Option.map_eq_some_iff.1 heq
      cases hk
    have hold : ∀ {t : Tree} {ks : ℕ → List ℕ}, (∀ j ∈ i :: l, nameOf t j ≠ str "event") →
        ((i :: l).findSome? fun j => if nameOf t j = str "event" then
          ((ks j).find? fun d => nameOf t d = str "do").map Hit.node else none) = none := fun hno =>
      List.findSome?_eq_none_iff.2 fun j hj => if_neg (hno j hj)
    have hno : ∀ j ∈ i :: l, nameOf h j ≠ str "event" := fun j hj hname => hevent ⟨j, hj, hname⟩
    have hno' : ∀ j ∈ i :: l, nameOf h' j ≠ str "event" := fun j hj => by
      rw [hk.name j (hl j hj).1]
      exact hno j hj
    refine Or.inr ⟨fun d => hattr (hold hno), fun d hd => ?_⟩
    rw [hold hno', Option.none_or] at hd
    cases hsome : (new.findSome? fun j => if nameOf h' j = str "event" then
        ((kids' j).find? fun d => nameOf h' d = str "do").map Hit.node else none) with
    | none => exact absurd hd (hattr hsome)
    | some x =>
      rw [hsome] at hd
      obtain rfl : x = .node d := Option.some.inj hd
      obtain ⟨j, hj, hx⟩ := List.exists_of_findSome?_eq_some hsome
      obtain ⟨hge, hjlt, hju⟩ := hnew j hj
      split_ifs at hx
      obtain ⟨d', hd', hnode⟩ := Option.map_eq_some_iff.1 hx
      obtain rfl : d' = d := Hit.node.inj hnode
      have hmem := List.mem_of_find?_eq_some hd'
      exact ⟨hk.kid_new hs hge hjlt hmem, hk.sound.kid_lt j hjlt d' hmem,
        hju.trans (hk.sound.under_kid hjlt hmem)⟩

end Kept

/-! ### The loops -/

/-- The commands of some nodes of the tree `h₀` are run, one after the other. -/
structure Ran (h₀ : Tree) (run : ℕ → Tree → Bytes → Exec Tree) (l : List ℕ) (s s' : State) : Prop where
  runnable : ∀ m ∈ l, Runnable h₀ m
  ran : s'.2 = s.2 ++ cmdlines h₀ l
  returns : Exec.Eventually (fun n => (cmdlines h₀ l).foldlM (run n) s.1) (.ret s'.1)

section Ran

variable {h₀ : Tree} {run : ℕ → Tree → Bytes → Exec Tree} {m : ℕ} {l l' : List ℕ} {s s' s'' : State}

theorem cmdlines_append (h : Tree) (l l' : List ℕ) : cmdlines h (l ++ l') = cmdlines h l ++ cmdlines h l' :=
  List.filterMap_append

theorem ran_nil_iff : Ran h₀ run [] s s' ↔ s = s' := by
  constructor
  · rintro ⟨-, hran, hret⟩
    have htree : Exec.ret s.1 = Exec.ret s'.1 := (Exec.Eventually.of_eq fun _ => rfl).unique hret
    exact Prod.ext (Exec.ret.inj htree) (hran.trans (List.append_nil _)).symm
  · rintro rfl
    exact ⟨by simp, (List.append_nil _).symm, .of_eq fun _ => rfl⟩

/-- The nodes of two lists. -/
theorem ran_append_iff (hmono : ∀ h cmdline, Monotone fun n => run n h cmdline) :
    Ran h₀ run (l ++ l') s s'' ↔ ∃ s', Ran h₀ run l s s' ∧ Ran h₀ run l' s' s'' := by
  have hfold : Exec.Eventually (fun n => (cmdlines h₀ (l ++ l')).foldlM (run n) s.1) (.ret s''.1) ↔
      ∃ h, Exec.Eventually (fun n => (cmdlines h₀ l).foldlM (run n) s.1) (.ret h) ∧
        Exec.Eventually (fun n => (cmdlines h₀ l').foldlM (run n) h) (.ret s''.1) := by
    rw [← Exec.Eventually.bind_iff (Exec.foldlM_mono hmono _ _)]
    simp only [cmdlines_append, List.foldlM_append]
  constructor
  · rintro ⟨hrun, hran, hret⟩
    obtain ⟨h, hret, hret'⟩ := hfold.1 hret
    rw [cmdlines_append, ← List.append_assoc] at hran
    exact ⟨(h, s.2 ++ cmdlines h₀ l), ⟨fun m hm => hrun m (List.mem_append_left _ hm), rfl, hret⟩,
      fun m hm => hrun m (List.mem_append_right _ hm), hran, hret'⟩
  · rintro ⟨s', ⟨hrun, hran, hret⟩, hrun', hran', hret'⟩
    refine ⟨List.forall_mem_append.2 ⟨hrun, hrun'⟩, ?_, hfold.2 ⟨s'.1, hret, hret'⟩⟩
    rw [hran', hran, cmdlines_append, List.append_assoc]

/-- A node whose value can be run. -/
theorem ran_singleton_iff {cmdline : Bytes} (hget : getAttr (attrsOf h₀ m) (str "value") = some cmdline) :
    Ran h₀ run [m] s s' ↔
      s'.2 = s.2 ++ [cmdline] ∧ Exec.Eventually (fun n => run n s.1 cmdline) (.ret s'.1) := by
  have hcmd : cmdlines h₀ [m] = [cmdline] := List.filterMap_cons_some hget
  have hrunnable : ∀ x ∈ [m], Runnable h₀ x := fun x hx _ => by
    rw [List.mem_singleton.1 hx, hget]
    exact Option.some_ne_none _
  have hone : ∀ n, [cmdline].foldlM (run n) s.1 = run n s.1 cmdline := fun n => by
    rw [List.foldlM_cons]
    cases run n s.1 cmdline <;> rfl
  constructor
  · rintro ⟨-, hran, hret⟩
    rw [hcmd] at hran hret
    simp only [hone] at hret
    exact ⟨hran, hret⟩
  · rintro ⟨hran, hret⟩
    refine ⟨hrunnable, by rw [hcmd, hran], ?_⟩
    rw [hcmd]
    simp only [hone]
    exact hret

/-- A node without a value. -/
theorem ran_idle_iff (hno : ¬ nodeHasAttr (attrsOf h₀ m) (str "value") = true) :
    Ran h₀ run [m] s s' ↔ s = s' := by
  have hget : getAttr (attrsOf h₀ m) (str "value") = none := by
    by_contra hget
    obtain ⟨v, hv⟩ := Option.ne_none_iff_exists'.1 hget
    exact hno (nodeHasAttr_of_getAttr hv)
  have hcmd : cmdlines h₀ [m] = cmdlines h₀ [] := List.filterMap_cons_none hget
  rw [← ran_nil_iff]
  constructor
  · rintro ⟨-, hran, hret⟩
    rw [hcmd] at hran hret
    exact ⟨by simp, hran, hret⟩
  · rintro ⟨-, hran, hret⟩
    refine ⟨fun x hx hhas => absurd (List.mem_singleton.1 hx ▸ hhas) hno, ?_, ?_⟩
    · rw [hcmd]
      exact hran
    · rw [hcmd]
      exact hret

theorem ran_succ_iff : Ran h₀ (fun n => run (n + 1)) l s s' ↔ Ran h₀ run l s s' := by
  constructor
  · rintro ⟨hrun, hran, hret⟩
    exact ⟨hrun, hran, Exec.Eventually.succ_iff.1 hret⟩
  · rintro ⟨hrun, hran, hret⟩
    exact ⟨hrun, hran, Exec.Eventually.succ_iff (f := fun n => (cmdlines h₀ l).foldlM (run n) s.1) |>.2 hret⟩

end Ran

section Loops

variable {root e i d q : ℕ} {h₀ h : Tree} {kids kids' : ℕ → List ℕ} {l new : List ℕ}

theorem matchLoop_eq : ∀ {p : Option ℕ} (matched : Bool), Chain h p l → ∀ n ≥ l.length,
    matchLoop h n p matched =
      .ret (matched || l.any fun v => nodeHasAttr (attrsOf h v) (str "value")) := by
  induction l with
  | nil =>
    intro p matched hp n _
    rw [Chain] at hp
    subst hp
    rw [matchLoop, List.any_nil, Bool.or_false]
  | cons m l ih =>
    rintro p matched ⟨rfl, hp⟩ n hn
    rw [List.length_cons] at hn
    obtain ⟨n, rfl⟩ : ∃ k, n = k + 1 := ⟨n - 1, by omega⟩
    rw [matchLoop, ih _ hp n (by omega), List.any_cons, Bool.or_assoc]

theorem isMatched_eq (hs : Sound h root kids) (hi : i < h.size) {n : ℕ} (hn : h.size ≤ n) :
    isMatched h n i = .ret (hasMatch h kids i) := by
  have hchain := hs.chain i hi
  have hkid := hs.kid_lt i hi
  rw [isMatched, hasMatch, chain_head hchain]
  cases hkids : kids i with
  | nil => rfl
  | cons m l =>
    have hm : m < h.size := hkid m (by rw [hkids]; exact List.mem_cons_self)
    rw [List.head?_cons, Option.any_some]
    dsimp only
    rw [matchLoop_eq false (hs.chain m hm) n ((hs.length_le hm).trans hn)]
    by_cases hname : nameOf h m = str "match"
    · simp [hname]
    · simp [hname]

/-- Nodes without values. -/
theorem commandLoop_idle {run : Tree → Bytes → Exec Tree} (ran : List Bytes) : ∀ {p : Option ℕ},
    Chain h p l → (∀ m ∈ l, nodeHasAttr (attrsOf h m) (str "value") = false) → ∀ n ≥ l.length,
      commandLoop run n p (h, ran) = .ret (h, ran) := by
  induction l with
  | nil =>
    intro p hp _ n _
    rw [Chain] at hp
    subst hp
    rw [commandLoop]
  | cons m l ih =>
    rintro p ⟨rfl, hp⟩ hno n hn
    rw [List.length_cons] at hn
    obtain ⟨n, rfl⟩ : ∃ k, n = k + 1 := ⟨n - 1, by omega⟩
    rw [List.forall_mem_cons] at hno
    rw [commandLoop, hno.1, if_neg Bool.false_ne_true]
    exact ih hp hno.2 n (by omega)

/-- Commands that return with every larger bound what they return with one, and that keep what files keep. -/
structure Commands (root e : ℕ) (h₀ : Tree) (kids : ℕ → List ℕ) (run : ℕ → Tree → Bytes → Exec Tree) :
    Prop where
  mono : ∀ h cmdline, Monotone fun n => run n h cmdline
  keeps : ∀ n h cmdline h', Kept root e h₀ kids h → run n h cmdline = .ret h' → Kept root e h₀ kids h'

theorem Commands.succ {run : ℕ → Tree → Bytes → Exec Tree} (hc : Commands root e h₀ kids run) :
    Commands root e h₀ kids fun n => run (n + 1) where
  mono h cmdline _ _ hnm := hc.mono h cmdline (Nat.succ_le_succ hnm)
  keeps n := hc.keeps (n + 1)

/-- **The loop over a block**, into which files have added nodes without values, runs its commands. -/
theorem commandLoop_iff (hs : Sound h₀ root kids) (hd : d < h₀.size) (hu : Under h₀ e d) :
    ∀ {run : ℕ → Tree → Bytes → Exec Tree}, Commands root e h₀ kids run →
    ∀ {h : Tree} {kids' : ℕ → List ℕ} {pre new : List ℕ} {p : Option ℕ}, Keeps root e h₀ kids h kids' →
      kids d = pre ++ l → kids' d = kids d ++ new → Chain h p (l ++ new) → ∀ (ran : List Bytes) (s' : State),
        Exec.Eventually (fun n => commandLoop (run n) n p (h, ran)) (.ret s') ↔
          Ran h₀ run l (h, ran) s' := by
  induction l with
  | nil =>
    intro run _ h kids' pre new p hk _ hnew hp ran s'
    rw [List.nil_append] at hp
    have hdlt : d < h.size := hd.trans_le hk.size
    have hdu : Under h e d := (under_congr hs hk.parent hd).2 hu
    obtain ⟨new', hnew', hge⟩ := hk.appended d hd
    obtain rfl : new' = new := List.append_cancel_left (hnew'.symm.trans hnew)
    have hno : ∀ m ∈ new', nodeHasAttr (attrsOf h m) (str "value") = false := fun m hm =>
      hk.kid_fresh hdlt hdu (by rw [hnew]; exact List.mem_append_right _ hm) (hge m hm)
    have hidle : Exec.Eventually (fun n => commandLoop (run n) n p (h, ran)) (.ret (h, ran)) :=
      ⟨new'.length, fun n hn => commandLoop_idle ran hp hno n hn⟩
    rw [ran_nil_iff]
    exact ⟨fun hret => Exec.ret.inj (hidle.unique hret), fun heq => heq ▸ hidle⟩
  | cons m l ih =>
    rintro run hc h kids' pre new p hk hpre hnew ⟨rfl, hp⟩ ran s'
    have hm : m < h₀.size := hs.kid_lt d hd m (by rw [hpre]; simp)
    have hvalue := hk.value m hm
    have hpre' : kids d = (pre ++ [m]) ++ l := by rw [hpre, List.append_assoc]; rfl
    have hcons : m :: l = [m] ++ l := rfl
    rw [← Exec.Eventually.succ_iff, hcons, ran_append_iff hc.mono]
    simp only [commandLoop, hvalue.has, hvalue.get]
    by_cases hhas : nodeHasAttr (attrsOf h₀ m) (str "value") = true
    · simp only [hhas, if_true]
      cases hget : getAttr (attrsOf h₀ m) (str "value") with
      | none =>
        -- the value is found only without regard to case
        constructor
        · intro hret
          have := hret.unique (.of_eq fun _ => rfl)
          cases this
        · rintro ⟨t, ht, -⟩
          exact absurd hget (ht.runnable m (List.mem_singleton_self m) hhas)
      | some cmdline =>
        dsimp only
        have hone : ∀ h₁, Exec.Eventually (fun n => run (n + 1) h cmdline) (.ret h₁) ↔
            Exec.Eventually (fun n => run n h cmdline) (.ret h₁) := fun h₁ =>
          Exec.Eventually.succ_iff (f := fun n => run n h cmdline)
        have hrest : ∀ h₁, Exec.Eventually (fun n => run n h cmdline) (.ret h₁) →
            (Exec.Eventually (fun n => commandLoop (run (n + 1)) n (h₁.cell m).next (h₁, ran ++ [cmdline]))
              (.ret s') ↔ Ran h₀ run l (h₁, ran ++ [cmdline]) s') := by
          rintro h₁ ⟨N, hN⟩
          obtain ⟨kids₁, hk₁⟩ := hc.keeps _ h cmdline h₁ ⟨kids', hk⟩ (hN N le_rfl)
          obtain ⟨new₁, hnew₁, hchain⟩ := hk₁.behind hd hpre
          rw [ih hc.succ hk₁ hpre' hnew₁ hchain, ran_succ_iff]
        rw [Exec.Eventually.bind_iff (hc.succ.mono h cmdline)]
        constructor
        · rintro ⟨h₁, hh₁, hret⟩
          have hh₁ := (hone h₁).1 hh₁
          exact ⟨(h₁, ran ++ [cmdline]), (ran_singleton_iff hget).2 ⟨rfl, hh₁⟩, (hrest h₁ hh₁).1 hret⟩
        · rintro ⟨⟨h₁, ran₁⟩, hfirst, hlater⟩
          obtain ⟨hran₁, hh₁⟩ := (ran_singleton_iff hget).1 hfirst
          obtain rfl : ran₁ = ran ++ [cmdline] := hran₁
          exact ⟨h₁, (hone h₁).2 hh₁, (hrest h₁ hh₁).2 hlater⟩
    · simp only [hhas, Bool.false_eq_true, if_false, ran_idle_iff hhas]
      rw [ih hc.succ hk hpre' hnew hp ran s', ran_succ_iff]
      constructor
      · exact fun hret => ⟨_, rfl, hret⟩
      · rintro ⟨_, rfl, hret⟩
        exact hret

/-- The children of a block that was not there have no values. -/
theorem commandLoop_new (hs : Sound h₀ root kids) (hk : Keeps root e h₀ kids h kids') (hd : h₀.size ≤ d)
    (hlt : d < h.size) (hu : Under h e d) (run : ℕ → Tree → Bytes → Exec Tree) (ran : List Bytes) :
    Exec.Eventually (fun n => commandLoop (run n) n (h.cell d).firstChild (h, ran)) (.ret (h, ran)) := by
  have hno : ∀ m ∈ kids' d, nodeHasAttr (attrsOf h m) (str "value") = false := fun m hm =>
    hk.kid_fresh hlt hu hm (hk.kid_new hs hd hlt hm)
  exact ⟨(kids' d).length, fun n hn => commandLoop_idle ran (hk.sound.chain d hlt) hno n hn⟩

/-- A new node is passed over. -/
theorem runNode_new (hs : Sound h₀ root kids) (hk : Keeps root e h₀ kids h kids') (hi : h₀.size ≤ i)
    (hlt : i < h.size) (hu : Under h e i) (run : ℕ → Tree → Bytes → Exec Tree) (ran : List Bytes) :
    Exec.Eventually (fun n => runNode (run n) n i (h, ran)) (.ret (h, ran)) := by
  refine ⟨h.size, fun n hn => ?_⟩
  dsimp only
  rw [runNode, isMatched_eq hk.sound hlt hn, Exec.ret_bind, hasMatch_new hk hs hi hlt hu,
    if_neg Bool.false_ne_true]

/-- **One node**, with the siblings behind it. -/
theorem runNode_iff (hs : Sound h₀ root kids) (he : e < h₀.size) {pre : List ℕ}
    (hpre : kids e = pre ++ i :: l)
    (hdo : ∀ j ∈ kids e, nameOf h₀ j = str "event" → ∃ d ∈ kids j, nameOf h₀ d = str "do")
    {run : ℕ → Tree → Bytes → Exec Tree} (hc : Commands root e h₀ kids run)
    (hk : Keeps root e h₀ kids h kids') (ran : List Bytes) (s' : State) :
    Exec.Eventually (fun n => runNode (run n) n i (h, ran)) (.ret s') ↔
      Ran h₀ run (toRun h₀ kids i l) (h, ran) s' := by
  have hmem : ∀ j ∈ i :: l, j ∈ kids e := fun j hj => by
    rw [hpre]
    exact List.mem_append_right _ hj
  have hold : ∀ j ∈ i :: l, j < h₀.size ∧ Under h₀ e j := fun j hj =>
    ⟨hs.kid_lt e he j (hmem j hj), hs.under_kid he (hmem j hj)⟩
  obtain ⟨hi, hui⟩ := hold i List.mem_cons_self
  have hi' : i < h.size := hi.trans_le hk.size
  have hidle : Exec.Eventually (fun n => runNode (run n) n i (h, ran)) (.ret (h, ran)) →
      (Exec.Eventually (fun n => runNode (run n) n i (h, ran)) (.ret s') ↔ Ran h₀ run [] (h, ran) s') := by
    intro hidle
    rw [ran_nil_iff]
    exact ⟨fun hret => Exec.ret.inj (hidle.unique hret), fun heq => heq ▸ hidle⟩
  have hmatched := fun n hn => isMatched_eq hk.sound hi' (n := n) hn
  rw [hasMatch_kept hk hs hi hui] at hmatched
  by_cases hmatch : hasMatch h₀ kids i = true
  swap
  · rw [toRun, if_neg hmatch]
    refine hidle ⟨h.size, fun n hn => ?_⟩
    dsimp only
    rw [runNode, hmatched n hn, Exec.ret_bind, if_neg hmatch]
  -- the lookup in the tree as it is now
  obtain ⟨new, hnew, hge⟩ := hk.appended e he
  have he' : e < h.size := he.trans_le hk.size
  have hsib : IsSiblings h root kids' (some i) (i :: (l ++ new)) := by
    obtain ⟨new', hnew', hchain⟩ := hk.behind he hpre
    obtain rfl : new' = new := List.append_cancel_left (hnew'.symm.trans hnew)
    exact ⟨⟨rfl, hchain⟩, Or.inr ⟨e, he', pre, by rw [hnew, hpre]; simp⟩⟩
  obtain ⟨N, hN⟩ := findNodePath_search hk.sound hsib (str "event.do")
  rw [splitOn_eventDo] at hN
  have hfind : ∀ n ≥ N, findNodePath h n (some i) (some (str "event.do")) =
      .ret (search h kids' [str "event", str "do"] (i :: (l ++ new))) := hN
  have hstart : ∀ {x : Exec State}, Exec.Eventually (fun n => runNode (run n) n i (h, ran)) x ↔
      Exec.Eventually (fun n =>
        match search h kids' [str "event", str "do"] (i :: (l ++ new)) with
        | some (.node cmds) => commandLoop (run n) n (h.cell cmds).firstChild (h, ran)
        | some (.attr _ _) => .ret (h, ran)
        | none => .ret (h, ran)) x := by
    intro x
    refine Exec.Eventually.congr (max N h.size) fun n hn => ?_
    rw [runNode, hmatched n (le_of_max_le_right hn), Exec.ret_bind, hmatch, if_pos rfl,
      hfind n (le_of_max_le_left hn)]
    exact Exec.ret_bind _ _
  rw [toRun, if_pos hmatch]
  have hnewnode : ∀ j ∈ new, h₀.size ≤ j ∧ j < h.size ∧ Under h e j := fun j hj => by
    have hj' : j ∈ kids' e := by rw [hnew]; exact List.mem_append_right _ hj
    exact ⟨hge j hj, hk.sound.kid_lt e he' j hj', hk.sound.under_kid he' hj'⟩
  rcases search_kept hk hs hold hnewnode fun j hj => hdo j (hmem j hj) with
    ⟨d, hd, hdu, hsearch, hsearch'⟩ | ⟨hsearch, hsearch'⟩
  · rw [hstart, hsearch, hsearch']
    obtain ⟨newd, hnewd, -⟩ := hk.appended d hd
    have hchain := hk.sound.chain d (hd.trans_le hk.size)
    rw [hnewd] at hchain
    exact commandLoop_iff hs hd hdu hc hk (List.nil_append _).symm hnewd hchain ran s'
  · have hrun : (match search h₀ kids [str "event", str "do"] (i :: l) with
        | some (.node d) => kids d
        | some (.attr _ _) => []
        | none => []) = [] := by
      cases hfind : search h₀ kids [str "event", str "do"] (i :: l) with
      | none => rfl
      | some x =>
        cases x with
        | node d => exact absurd hfind (hsearch d)
        | attr j k => rfl
    rw [hrun]
    refine hidle (hstart.2 ?_)
    cases hfind : search h kids' [str "event", str "do"] (i :: (l ++ new)) with
    | none => exact .of_eq fun _ => rfl
    | some x =>
      cases x with
      | node d =>
        obtain ⟨hge, hlt, hdu⟩ := hsearch' d hfind
        exact commandLoop_new hs hk hge hlt hdu run ran
      | attr j k => exact .of_eq fun _ => rfl

/-- The nodes that were not there. -/
theorem eventLoop_new (hs : Sound h₀ root kids) (hk : Keeps root e h₀ kids h kids') (ran : List Bytes) :
    ∀ {run : ℕ → Tree → Bytes → Exec Tree} {p : Option ℕ}, Chain h p new →
      (∀ i ∈ new, h₀.size ≤ i ∧ i < h.size ∧ Under h e i) →
      Exec.Eventually (fun n => eventLoop (run n) n p (h, ran)) (.ret (h, ran)) := by
  induction new with
  | nil =>
    intro run p hp _
    rw [Chain] at hp
    subst hp
    exact .of_eq fun n => by rw [eventLoop]
  | cons i new ih =>
    rintro run p ⟨rfl, hp⟩ hnew
    rw [List.forall_mem_cons] at hnew
    obtain ⟨⟨hi, hlt, hu⟩, hnew⟩ := hnew
    rw [← Exec.Eventually.succ_iff]
    simp only [eventLoop]
    have hnode : Exec.Eventually (fun n => runNode (run (n + 1)) n i (h, ran)) (.ret (h, ran)) :=
      runNode_new hs hk hi hlt hu (fun n => run (n + 1)) ran
    have hrest : Exec.Eventually (fun n => eventLoop (run (n + 1)) n (h.cell i).next (h, ran))
        (.ret (h, ran)) := @ih (fun n => run (n + 1)) _ hp hnew
    exact hnode.bind hrest

/-- **The loop over the nodes**, to which files have added nodes, runs the commands of the blocks. -/
theorem eventLoop_iff (hs : Sound h₀ root kids) (he : e < h₀.size)
    (hdo : ∀ j ∈ kids e, nameOf h₀ j = str "event" → ∃ d ∈ kids j, nameOf h₀ d = str "do") :
    ∀ {run : ℕ → Tree → Bytes → Exec Tree}, Commands root e h₀ kids run →
    ∀ {h : Tree} {kids' : ℕ → List ℕ} {pre new : List ℕ} {p : Option ℕ}, Keeps root e h₀ kids h kids' →
      kids e = pre ++ l → kids' e = kids e ++ new → Chain h p (l ++ new) → ∀ (ran : List Bytes) (s' : State),
        Exec.Eventually (fun n => eventLoop (run n) n p (h, ran)) (.ret s') ↔
          Ran h₀ run (executed h₀ kids l) (h, ran) s' := by
  induction l with
  | nil =>
    intro run _ h kids' pre new p hk _ hnew hp ran s'
    rw [List.nil_append] at hp
    have he' : e < h.size := he.trans_le hk.size
    obtain ⟨new', hnew', hge⟩ := hk.appended e he
    obtain rfl : new' = new := List.append_cancel_left (hnew'.symm.trans hnew)
    have hnodes : ∀ i ∈ new', h₀.size ≤ i ∧ i < h.size ∧ Under h e i := fun i hi => by
      have hi' : i ∈ kids' e := by rw [hnew]; exact List.mem_append_right _ hi
      exact ⟨hge i hi, hk.sound.kid_lt e he' i hi', hk.sound.under_kid he' hi'⟩
    have hidle : Exec.Eventually (fun n => eventLoop (run n) n p (h, ran)) (.ret (h, ran)) :=
      eventLoop_new hs hk ran hp hnodes
    rw [executed, ran_nil_iff]
    exact ⟨fun hret => Exec.ret.inj (hidle.unique hret), fun heq => heq ▸ hidle⟩
  | cons i l ih =>
    rintro run hc h kids' pre new p hk hpre hnew ⟨rfl, hp⟩ ran s'
    have hpre' : kids e = (pre ++ [i]) ++ l := by rw [hpre, List.append_assoc]; rfl
    have hmono : Monotone fun n => runNode (run (n + 1)) n i (h, ran) := fun n m hnm =>
      runNode_mono (fun h cmdline => hc.mono h cmdline (Nat.succ_le_succ hnm)) hnm i (h, ran)
    rw [← Exec.Eventually.succ_iff, executed, ran_append_iff hc.mono]
    simp only [eventLoop]
    rw [Exec.Eventually.bind_iff hmono]
    refine exists_congr fun s₁ => ?_
    rw [runNode_iff hs he hpre hdo hc.succ hk ran s₁, ran_succ_iff]
    refine and_congr_right fun hfirst => ?_
    obtain ⟨N, hN⟩ := (runNode_iff hs he hpre hdo hc hk ran s₁).2 hfirst
    obtain ⟨kids₁, hk₁⟩ : Kept root e h₀ kids s₁.1 :=
      runNode_keeps (I := Kept root e h₀ kids) (hc.keeps N) (s := (h, ran)) ⟨kids', hk⟩ (hN N le_rfl)
    obtain ⟨new₁, hnew₁, hchain⟩ := hk₁.behind he hpre
    rw [ih hc.succ hk₁ hpre' hnew₁ hchain, ran_succ_iff]

end Loops

/-! ### The command line -/

section Line

variable {c : Config} {E : Env} {name : Bytes} {s' : State}

/-- The commands of a configuration. -/
theorem commands_runCommand (c : Config) (E : Env) {e : ℕ} (he : e < c.heap.size) (hne : e ≠ c.root) :
    Commands c.root e c.heap c.kids fun n => runCommand E c.pointers n n where
  mono h cmdline _ _ hnm := runCommand_mono hnm hnm h cmdline
  keeps n := by
    refine runCommand_keeps (fun h file confId h' hh hret => ?_) n n
    rw [loadFile] at hret
    cases hfile : E.files file with
    | none =>
      rw [hfile] at hret
      cases hret
      exact hh
    | some events =>
      obtain ⟨kids', hk⟩ := hh
      obtain ⟨st, kids₂, hst, hk₂⟩ := loadXml_keeps hk he hne confId events
      have hst : loadXml h (some c.pointers.tree) confId events = some st := hst
      rw [hfile] at hret
      dsimp only at hret
      rw [hst] at hret
      split_ifs at hret
      cases hret
      exact ⟨kids₂, hk₂⟩

/-- The handler `event`. -/
theorem event_iff (hd : Dispatches c) (ht : EventsTree c) :
    Exec.Eventually (fun n => event (runCommand E c.pointers n n) c.events n c.heap) (.ret s') ↔
      Ran c.heap (fun n => runCommand E c.pointers n n) (executed c.heap c.kids (eventNodes c))
        (c.heap, []) s' := by
  cases hevents : c.events with
  | none =>
    have hnil : eventNodes c = [] := by rw [eventNodes, hevents]; rfl
    rw [hnil, executed, ran_nil_iff]
    constructor
    · intro hret
      have hone : Exec.ret (c.heap, []) = Exec.ret s' := (Exec.Eventually.of_eq fun _ => rfl).unique hret
      exact Exec.ret.inj hone
    · rintro rfl
      exact .of_eq fun _ => rfl
  | some e =>
    have hnodes : eventNodes c = c.kids e := by rw [eventNodes, hevents]; rfl
    have he := c.events_lt e hevents
    have hdo : ∀ j ∈ c.kids e, nameOf c.heap j = str "event" → ∃ d ∈ c.kids j, nameOf c.heap d = str "do" := by
      intro j hj hname
      obtain ⟨-, d, hblocks⟩ := ht j (by rw [hnodes]; exact hj) hname
      have hmem : d ∈ doBlocks c j := by rw [hblocks]; exact List.mem_singleton_self d
      obtain ⟨hmem, hdname⟩ := List.mem_filter.1 hmem
      exact ⟨d, hmem, of_decide_eq_true hdname⟩
    have hchain : Chain c.heap (c.heap.cell e).firstChild (c.kids e ++ []) := by
      rw [List.append_nil]
      exact c.sound.chain e he
    rw [hnodes]
    exact eventLoop_iff c.sound he hdo (commands_runCommand c E he (hd.events_ne e hevents))
      (Keeps.refl e c.sound) (List.nil_append _).symm (List.append_nil _).symm hchain [] s'

/-- The line of an event leads to the handler, whatever its name is. -/
theorem docmd_event (hd : Dispatches c) (name : Bytes) :
    ∃ argc argv, Exec.Eventually (fun n => docmd c.heap c.commands n (str "event " ++ name))
      (.ret (some ⟨.event, argc, argv⟩)) := by
  have htext : str "event " ++ name = str "event" ++ 32 :: name := by
    have h : str "event " = str "event" ++ [32] := rfl
    rw [h, List.append_assoc]
    rfl
  have hcommands : c.commands ≠ none := by
    intro hnone
    have hchain := c.siblings.1
    rw [hnone] at hchain
    have hnil : c.fromCommands = [] := by
      cases hfrom : c.fromCommands with
      | nil => rfl
      | cons j l =>
        rw [hfrom] at hchain
        cases hchain.1
    obtain ⟨x, hx, -⟩ := hd.pseudo
    rw [nodeAt, hnil] at hx
    cases hsearch : (commandText ([str "event"].take 1)).splitOn 46 <;> rw [hsearch] at hx <;> cases hx
  obtain ⟨ws, i, hsplit⟩ : ∃ ws i,
      splitLoop maxCmdPath 0 (str "event " ++ name) = (str "event" :: ws, i) := by
    rw [htext, maxCmdPath, splitLoop_blank (by decide) (by decide)]
    exact ⟨_, _, rfl⟩
  obtain ⟨s, hs, hsize, hstart⟩ := docmd_eq hcommands hsplit
  -- the first word is a pseudo command
  obtain ⟨-, hfit⟩ := @lookupLoop_step c (str "event" :: ws) 0 i (Nat.succ_pos ws.length) s hs hsize none
  obtain ⟨s', -, -, N, hN⟩ := hfit (show (commandText [str "event"]).length < 4096 by decide)
  have hhandler : handlerAt c.heap (nodeAt c (str "event" :: ws) (0 + 1)) = some .event := hd.handler
  refine ⟨(i + 1 : ℕ) - (0 + 1 : ℕ), ws, N, fun n hn => ?_⟩
  dsimp only
  rw [hstart, (hN n hn).1 hd.pseudo, Exec.ret_bind]
  dsimp only
  rw [hhandler]
  rfl

/-- **The whole line** returns exactly when it fits and the commands return. -/
theorem eventHandler_iff (hd : Dispatches c) (ht : EventsTree c) :
    Exec.Eventually (fun n => eventHandler E c.pointers n c.heap name) (.ret s') ↔
      (str "event ").length + name.length < 4096 ∧
        Ran c.heap (fun n => runCommand E c.pointers n n) (executed c.heap c.kids (eventNodes c))
          (c.heap, []) s' := by
  have hfirst : strInit.text.length + (str "event ").length < strInit.size := by decide
  by_cases hfit : (str "event ").length + name.length < 4096
  · obtain ⟨argc, argv, N, hN⟩ := docmd_event hd name
    rw [← event_iff hd ht, and_iff_right hfit]
    refine Exec.Eventually.congr N fun n hn => ?_
    rw [eventHandler, strAppend_fits hfirst, Exec.ret_bind, strAppend_fits hfit, Exec.ret_bind]
    have hcall : docmd c.heap c.pointers.commands n (str "event " ++ name) = .ret (some ⟨.event, argc, argv⟩) :=
      hN n hn
    show runDocmd E c.pointers _ n c.heap (str "event " ++ name) = _
    rw [runDocmd, hcall]
    rfl
  · refine ⟨fun hret => ?_, fun h => absurd h.1 hfit⟩
    have hundef : Exec.Eventually (fun n => eventHandler E c.pointers n c.heap name) .undefined :=
      .of_eq fun n => by
        rw [eventHandler, strAppend_fits hfirst, Exec.ret_bind, strAppend_full hfit, Exec.undefined_bind]
    have := hret.unique hundef
    cases this

end Line

/-! ### The commands for a name -/

section Compare

variable {c : Config} {i : ℕ} {l : List ℕ} {name : Bytes}

/-- An event is looked up at itself. -/
theorem search_event (hname : nameOf c.heap i = str "event") {d : ℕ} (hdo : doBlocks c i = [d]) :
    search c.heap c.kids [str "event", str "do"] (i :: l) = some (.node d) := by
  have hwhole : nameOf c.heap i ≠ join [str "event", str "do"] := by
    rw [hname]
    decide
  have hfind : (c.kids i).find? (nameOf c.heap · = str "do") = some d := by
    rw [← List.head?_filter]
    exact congrArg List.head? hdo
  rw [search, if_neg hwhole, List.findSome?_cons, if_pos hname, search_singleton, hfind]
  rfl

/-- A selected event is matched. -/
theorem hasMatch_of_selected (ht : ∃ m ∈ (c.kids i).head?, nameOf c.heap m = str "match")
    (hs : selected c name i = true) : hasMatch c.heap c.kids i = true := by
  obtain ⟨m, hm, hname⟩ := ht
  have hvalue : name ∈ matchValues c i := by
    rw [selected, Bool.and_eq_true] at hs
    exact of_decide_eq_true hs.2
  rw [matchValues, hm] at hvalue
  obtain ⟨v, hv, hget⟩ := List.mem_filterMap.1 hvalue
  rw [hasMatch, hm, Option.any_some, decide_eq_true hname, Bool.true_and]
  exact List.any_eq_true.2 ⟨v, hv, nodeHasAttr_of_getAttr hget⟩

/-- For a selected event, its commands are run. -/
theorem cmdlines_toRun (ht : nameOf c.heap i = str "event" →
      (∃ m ∈ (c.kids i).head?, nameOf c.heap m = str "match") ∧ ∃ d, doBlocks c i = [d])
    (hs : selected c name i = true) : cmdlines c.heap (toRun c.heap c.kids i l) = commandsOf c i := by
  have hname : nameOf c.heap i = str "event" := by
    rw [selected, Bool.and_eq_true] at hs
    exact of_decide_eq_true hs.1
  obtain ⟨hmatch, d, hdo⟩ := ht hname
  rw [toRun, if_pos (hasMatch_of_selected hmatch hs), search_event hname hdo, commandsOf, hdo]
  simp

theorem expected_cons (i : ℕ) (l : List ℕ) : expected c name (i :: l) =
    (if selected c name i = true then commandsOf c i else []) ++ expected c name l := by
  rw [expected, List.filter_cons]
  by_cases hs : selected c name i = true
  · rw [if_pos hs, if_pos hs, List.flatMap_cons]
    rfl
  · rw [if_neg hs, if_neg hs]
    rfl

theorem cmdlines_eq_nil : cmdlines c.heap l = [] ↔ ∀ m ∈ l, getAttr (attrsOf c.heap m) (str "value") = none :=
  List.filterMap_eq_nil_iff

/-- Nothing that is run for the name is left out, and the commands for the name are all that is run exactly
when the nodes are well matched. -/
theorem executed_expected (ht : ∀ i ∈ l, nameOf c.heap i = str "event" →
      (∃ m ∈ (c.kids i).head?, nameOf c.heap m = str "match") ∧ ∃ d, doBlocks c i = [d]) :
    (expected c name l).length ≤ (cmdlines c.heap (executed c.heap c.kids l)).length ∧
    (((∀ m ∈ executed c.heap c.kids l, Runnable c.heap m) ∧
        cmdlines c.heap (executed c.heap c.kids l) = expected c name l) ↔
      WellMatched c name l) := by
  induction l with
  | nil => exact ⟨le_rfl, by simp [executed, WellMatched, cmdlines, expected]⟩
  | cons i l ih =>
    obtain ⟨hti, ht⟩ := List.forall_mem_cons.1 ht
    obtain ⟨hle, hiff⟩ := ih ht
    rw [executed, cmdlines_append, expected_cons, List.forall_mem_append, WellMatched, ← hiff]
    by_cases hs : selected c name i = true
    · have hvalues : cmdlines c.heap (toRun c.heap c.kids i l) = commandsOf c i := cmdlines_toRun hti hs
      rw [if_pos hs, hvalues]
      refine ⟨by simpa using hle, ?_⟩
      rw [List.append_cancel_left_eq]
      simp only [hs, true_and]
      exact and_assoc
    · rw [if_neg hs, List.nil_append]
      refine ⟨by rw [List.length_append]; omega, ?_⟩
      constructor
      · rintro ⟨⟨hrun, hrest⟩, heq⟩
        have hlen := congrArg List.length heq
        rw [List.length_append] at hlen
        have hnil : cmdlines c.heap (toRun c.heap c.kids i l) = [] := List.eq_nil_of_length_eq_zero (by omega)
        refine ⟨fun m hm hhas => absurd (cmdlines_eq_nil.1 hnil m hm) (hrun m hm hhas), hrest, ?_⟩
        rwa [hnil, List.nil_append] at heq
      · rintro ⟨hall, hrest, heq⟩
        have hnone : ∀ m ∈ toRun c.heap c.kids i l, ¬ nodeHasAttr (attrsOf c.heap m) (str "value") = true :=
          fun m hm hhas => hs (hall m hm hhas).1
        have hnil : cmdlines c.heap (toRun c.heap c.kids i l) = [] := cmdlines_eq_nil.2 fun m hm => by
          by_contra hget
          obtain ⟨v, hv⟩ := Option.ne_none_iff_exists'.1 hget
          exact hnone m hm (nodeHasAttr_of_getAttr hv)
        refine ⟨⟨fun m hm hhas => absurd hhas (hnone m hm), hrest⟩, ?_⟩
        rw [hnil, List.nil_append, heq]

/-- **The commands for the name are run exactly when** the line fits, the nodes are well matched and the
commands return. -/
theorem selective_iff (hd : Dispatches c) (ht : EventsTree c) (E : Env) (name : Bytes) :
    Selective c E name ↔ (str "event ").length + name.length < 4096 ∧
      WellMatched c name (eventNodes c) ∧ Returns c E (expected c name (eventNodes c)) := by
  obtain ⟨-, hiff⟩ := @executed_expected c (eventNodes c) name ht
  rw [← hiff]
  constructor
  · rintro ⟨h, hsel⟩
    obtain ⟨hfit, hrunnable, hran, hret⟩ := (eventHandler_iff hd ht).1 hsel
    have heq : cmdlines c.heap (executed c.heap c.kids (eventNodes c)) = expected c name (eventNodes c) :=
      hran.symm
    rw [heq] at hret
    exact ⟨hfit, ⟨hrunnable, heq⟩, h, hret⟩
  · rintro ⟨hfit, ⟨hrunnable, heq⟩, h, hret⟩
    refine ⟨h, (eventHandler_iff hd ht).2 ⟨hfit, hrunnable, heq.symm, ?_⟩⟩
    rw [heq]
    exact hret

/-- One file, which adds a node to the block that is run while it is loaded. -/
def netFiles : Env where
  files file :=
    if file = str "net.xml" then
      some [.start (str "root") [], .start (str "events") [], .start (str "event") [], .start (str "do") [],
        .start (str "note") [(str "value", str "show")], .ends (str "note"), .ends (str "do"),
        .ends (str "event"), .ends (str "events"), .ends (str "root")]
    else none
  longMax := 2 ^ 63 - 1

theorem dispatches_startConfig : Dispatches startConfig where
  pseudo := isPseudo_iff.2 ⟨.node 7, rfl, rfl⟩
  handler := rfl
  events_ne := by
    rintro e ⟨⟩
    decide

theorem eventsTree_startConfig : EventsTree startConfig := by
  intro i hi hname
  obtain rfl : i = 9 := List.mem_singleton.1 hi
  exact ⟨⟨10, rfl, rfl⟩, 12, rfl⟩

/-- Both commands return, with a bound of 40. -/
theorem returns_startup :
    Returns startConfig netFiles (expected startConfig (str "STARTUP") (eventNodes startConfig)) := by
  have hret : (runAll startConfig netFiles 40 startTree
      (expected startConfig (str "STARTUP") (eventNodes startConfig))).returns = true := by
    decide +kernel
  have hmono := Exec.foldlM_mono (f := fun n => runCommand netFiles startConfig.pointers n n)
    (fun h cmdline n m hnm => runCommand_mono hnm hnm h cmdline)
  obtain ⟨h, hh⟩ := Exec.returns_iff.1 hret
  exact ⟨h, (Exec.Eventually.ret_iff (hmono _ _)).2 ⟨40, hh⟩⟩

theorem selective_startup : Selective startConfig netFiles (str "STARTUP") := by
  refine (selective_iff dispatches_startConfig eventsTree_startConfig netFiles _).2
    ⟨by decide, ⟨fun m hm _ => ?_, trivial⟩, returns_startup⟩
  have hrun : toRun startTree startKids 9 [] = [13, 14] := rfl
  have hm : m ∈ [13, 14] := hrun ▸ hm
  rcases List.mem_pair.1 hm with rfl | rfl
  · exact ⟨rfl, by decide⟩
  · exact ⟨rfl, by decide⟩

/-- The event of another name runs the commands of the start. -/
theorem not_selective_stop : ¬ Selective startConfig netFiles (str "STOP") := by
  rintro ⟨h, hsel⟩
  obtain ⟨-, hran⟩ := (eventHandler_iff dispatches_startConfig eventsTree_startConfig).1 hsel
  have heq : expected startConfig (str "STOP") (eventNodes startConfig) =
      cmdlines startTree (executed startTree startKids (eventNodes startConfig)) := hran.ran
  revert heq
  decide

end Compare

end ZRouter.Conf.Command
