import ZRouter.Web.Reload
import ZRouter.Web.SetMany

/-!
# Saving after changes (`cmd.xml`, `save_file`)

The requests `set` and `setmany` put values into the tree as they are posted, and the tree is written
without escapes.  What they leave can be read back as long as each value is one that the file can hold.

* `setOne`, `processCmd`, `processAll`: the requests;
* `Inner`: an element whose children can be read back; `Savable.modify`: a change of one element;
* `ValueFits`, `EntryFits`, `RequestFits`: the changes that keep a tree savable;
* `saving_lossless`: after them nothing is lost.
-/

namespace ZRouter.Web

open Pattern

/-! ### Requests -/

/-- The branch `set`; a missing key leads to the root, and without a value nothing is set. -/
def setOne (tree : Elem) (post : List (Bytes × Bytes)) : Elem × Lua Bytes :=
  let key := (post.lookup (str "key")).getD []
  match locate (key.length + 1) tree key with
  | none => (tree, .error .index)
  | some pos =>
      let tree := match post.lookup (str "value") with
        | none => tree
        | some value => tree.modify pos (·.setValue value)
      (tree, do
        let node ← Lua.get .index (getNode tree key)
        Lua.get .concat node.value)

/-- The requests that change the tree. -/
inductive Cmd
  | set
  | setmany

/-- `process`, with the form in the order of `pairs`. -/
def processCmd (tree : Elem) (rq : Cmd × List (Bytes × Bytes)) : Elem × Lua Bytes :=
  match rq.1 with
  | .set => setOne tree rq.2
  | .setmany => setMany tree rq.2

/-- Requests one after the other. -/
def processAll (tree : Elem) (rqs : List (Cmd × List (Bytes × Bytes))) : Elem :=
  rqs.foldl (fun tree rq => (processCmd tree rq).1) tree

/-- What `xmldump` writes is read back. -/
def Lossless (env : Interpreter) (t : Elem) : Prop :=
  ∃ t', loadFile env (xmldump env t) = .ok t' ∧ SameConfig t t'

/-! ### Changes that fit -/

section Fits

variable (env : Interpreter)

/-- The value can stand where `Node:value` puts it in the element at the position. -/
def ValueFits (pos : List ℕ) (e : Elem) (v : Bytes) : Prop :=
  match e.children with
  | .text _ :: _ => TextOk env v
  | .comment _ :: _ => CommentOk v
  | cs => TextOk env v ∧ pos ≠ [] ∧ pending false cs = some false

/-- The path leads to an element, or all its names can be read back. -/
def PathFits (tree : Elem) (path : Bytes) : Prop :=
  locate (path.length + 1) tree path = none → ∀ part ∈ pathParts path, NameOk (splitIndex part).1

/-- An entry of a form, with the path in the field `path`. -/
def EntryFits (path : Bytes) (tree : Elem) (k v : Bytes) : Prop :=
  match exec attrKeyItems k with
  | some ([subpath, attrname], _) =>
      PathFits tree (fullPath path subpath) ∧
        ∀ e ∈ (getOrCreateNode tree (fullPath path subpath)).1.at
            (getOrCreateNode tree (fullPath path subpath)).2,
          e.attr.isSome → AttrOk env (attrname, v)
  | _ =>
      match exec valueKeyItems k with
      | some ([subpath], _) =>
          PathFits tree (fullPath path subpath) ∧
            ∀ e ∈ (getOrCreateNode tree (fullPath path subpath)).1.at
                (getOrCreateNode tree (fullPath path subpath)).2,
              ValueFits env (getOrCreateNode tree (fullPath path subpath)).2 e v
      | _ => True

/-- The entries of a form, each in the tree that those before it leave; an error ends the loop. -/
def EntriesFit (path : Bytes) : Elem → List (Bytes × Bytes) → Prop
  | _, [] => True
  | tree, (k, v) :: post =>
      EntryFits env path tree k v ∧
        ((setEntry path tree k v).2 = .ok () → EntriesFit path (setEntry path tree k v).1 post)

/-- A request. -/
def RequestFits (tree : Elem) (rq : Cmd × List (Bytes × Bytes)) : Prop :=
  match rq.1 with
  | .set => ∀ pos e, locate (((rq.2.lookup (str "key")).getD []).length + 1) tree
      ((rq.2.lookup (str "key")).getD []) = some pos → tree.at pos = some e →
        ∀ v ∈ rq.2.lookup (str "value"), ValueFits env pos e v
  | .setmany => ∀ path ∈ rq.2.lookup (str "path"), EntriesFit env path tree rq.2

/-- Every request fits when its turn comes. -/
def RunFits : Elem → List (Cmd × List (Bytes × Bytes)) → Prop
  | _, [] => True
  | tree, rq :: rqs => RequestFits env tree rq ∧ RunFits (processCmd tree rq).1 rqs

end Fits

/-! ### Elements that can be read back -/

/-- The attributes and the children can be read back. -/
structure Inner (env : Interpreter) (e : Elem) : Prop where
  attr : ∀ l ∈ e.attr, (∀ a ∈ l, AttrOk env a) ∧ (l.map Prod.fst).Nodup
  waits : (pending false e.children).isSome
  every : ∀ c ∈ e.children, c.Every fun n => n.Readable env ∧ n.Tabled

section Inner

variable {env : Interpreter} {t e : Elem} {f : Elem → Elem}

theorem every_element {name : Bytes} {attr : Option Attrs} {children : List Node} :
    (Node.element name attr children).Every (fun n => n.Readable env ∧ n.Tabled) ↔
      NameOk name ∧ Inner env ⟨attr, children⟩ := by
  constructor
  · intro h
    cases h with
    | element h hchildren =>
      obtain ⟨⟨hname, hattr, hwaits⟩, htabled⟩ := h
      exact ⟨hname, fun l hl => ⟨hattr l hl, htabled l hl⟩, hwaits, hchildren⟩
  · rintro ⟨hname, hattr, hwaits, hchildren⟩
    exact .element ⟨⟨hname, fun l hl => (hattr l hl).1, hwaits⟩, fun l hl => (hattr l hl).2⟩ hchildren

theorem child_eq_some {i : ℕ} {c : Elem} (h : t.child i = some c) :
    ∃ name attr children, t.children[i]? = some (.element name attr children) ∧ c = ⟨attr, children⟩ := by
  rw [Elem.child] at h
  split at h
  · rename_i name attr children hi
    exact ⟨name, attr, children, hi, (Option.some.inj h).symm⟩
  · cases h

/-- A change of one element below, which keeps what can be read back. -/
theorem Inner.modify : ∀ {pos : List ℕ} {t : Elem}, Inner env t → t.at pos = some e →
    (Inner env e → Inner env (f e)) → Inner env (t.modify pos f) ∧
      (pos ≠ [] → (t.modify pos f).attr = t.attr ∧
        pending false (t.modify pos f).children = pending false t.children) := by
  intro pos
  induction pos with
  | nil =>
    intro t ht he hf
    cases he
    exact ⟨hf ht, fun hne => absurd rfl hne⟩
  | cons i pos ih =>
    intro t ht he hf
    obtain ⟨c, hc, he⟩ := Option.bind_eq_some_iff.1 he
    obtain ⟨name, attr, children, hi, rfl⟩ := child_eq_some hc
    obtain ⟨hname, hinner⟩ := every_element.1 (ht.every _ (List.mem_of_getElem? hi))
    obtain ⟨hrec, -⟩ := ih hinner he hf
    have hmodify : t.modify (i :: pos) f = ⟨t.attr, t.children.set i
        (.element name (Elem.modify pos f ⟨attr, children⟩).attr
          (Elem.modify pos f ⟨attr, children⟩).children)⟩ := by
      rw [Elem.modify, hi]
    have hpending := fun waits => pending_set name (Elem.modify pos f ⟨attr, children⟩).attr
      (Elem.modify pos f ⟨attr, children⟩).children waits hi
    rw [hmodify]
    refine ⟨⟨ht.attr, ?_, fun d hd => ?_⟩, fun _ => ⟨rfl, hpending false⟩⟩
    · dsimp only
      rw [hpending]
      exact ht.waits
    · rcases List.mem_or_eq_of_mem_set hd with hd | rfl
      · exact ht.every d hd
      · exact every_element.2 ⟨hname, hrec⟩

theorem Savable.inner (h : Savable env t) : Inner env t where
  attr l hl := by
    rw [h.attr] at hl
    cases hl
  waits := by
    rw [h.closed]
    rfl
  every := h.every

/-- A change of one element, which keeps what can be read back; at the root it keeps the rest too. -/
theorem Savable.modify {pos : List ℕ} (h : Savable env t) (he : t.at pos = some e)
    (hf : Inner env e → Inner env (f e))
    (hroot : pos = [] → (f t).attr = none ∧ pending false (f t).children = some false) :
    Savable env (t.modify pos f) := by
  obtain ⟨hinner, hkept⟩ := h.inner.modify he hf
  by_cases hpos : pos = []
  · subst hpos
    exact ⟨(hroot rfl).1, hinner.every, (hroot rfl).2⟩
  · obtain ⟨hattr, hpending⟩ := hkept hpos
    exact ⟨hattr.trans h.attr, hinner.every, hpending.trans h.closed⟩

/-! ### The changes -/

/-- Nothing changes where there is no element. -/
theorem modify_of_none {pos : List ℕ} : ∀ {t : Elem}, t.at pos = none → t.modify pos f = t := by
  induction pos with
  | nil =>
    intro t h
    cases h
  | cons i pos ih =>
    intro t h
    rw [Elem.modify]
    split
    · rename_i name attr children hi
      have hnone : Elem.at ⟨attr, children⟩ pos = none := by
        rwa [Elem.at, child_of_getElem? hi] at h
      have hset : t.children.set i (.element name attr children) = t.children := by
        refine List.ext_getElem? fun j => ?_
        rw [List.getElem?_set]
        split_ifs with hij hlt
        · rw [← hij, hi]
        · rw [← hij, List.getElem?_eq_none (by omega)]
        · rfl
      rw [ih hnone]
      dsimp only
      rw [hset]
    · rfl

/-- A change of the element at a position, if there is one. -/
theorem Savable.modify_at {pos : List ℕ} (h : Savable env t)
    (hf : ∀ e ∈ t.at pos, (Inner env e → Inner env (f e)) ∧
      (pos = [] → (f e).attr = e.attr ∧ pending false (f e).children = some false)) :
    Savable env (t.modify pos f) := by
  cases he : t.at pos with
  | none => rwa [modify_of_none he]
  | some e =>
    obtain ⟨hinner, hroot⟩ := hf e he
    refine h.modify he hinner ?_
    rintro rfl
    cases he
    exact ⟨(hroot rfl).1.trans h.attr, (hroot rfl).2⟩

/-- Another first child, before which and behind which the same texts may stand. -/
theorem Inner.replace_first {c c' : Node} {rest : List Node} (h : Inner env e) (hcs : e.children = c :: rest)
    (hpending : pending false (c' :: rest) = pending false (c :: rest))
    (hc' : c'.Every fun n => n.Readable env ∧ n.Tabled) : Inner env ⟨e.attr, c' :: rest⟩ := by
  have hwaits := h.waits
  have hevery := h.every
  rw [hcs] at hwaits hevery
  exact ⟨h.attr, by rwa [← hpending] at hwaits,
    List.forall_mem_cons.2 ⟨hc', (List.forall_mem_cons.1 hevery).2⟩⟩

/-- `Node:value`. -/
theorem savable_setValue {pos : List ℕ} {v : Bytes} (h : Savable env t)
    (hfit : ∀ e ∈ t.at pos, ValueFits env pos e v) : Savable env (t.modify pos (·.setValue v)) := by
  refine h.modify_at fun e he => ?_
  have hfit := hfit e he
  -- at the root the children are those of the tree
  have hclosed : pos = [] → pending false e.children = some false := by
    rintro rfl
    cases he
    exact h.closed
  rw [ValueFits] at hfit
  split at hfit
  · rename_i s rest hcs
    have hset : e.setValue v = ⟨e.attr, .text v :: rest⟩ := by rw [Elem.setValue, hcs]
    rw [hcs] at hclosed
    rw [hset]
    exact ⟨fun hin => hin.replace_first hcs rfl (.text ⟨hfit, trivial⟩), fun hpos => ⟨rfl, hclosed hpos⟩⟩
  · rename_i s rest hcs
    have hset : e.setValue v = ⟨e.attr, .comment v :: rest⟩ := by rw [Elem.setValue, hcs]
    rw [hcs] at hclosed
    rw [hset]
    exact ⟨fun hin => hin.replace_first hcs rfl (.comment ⟨hfit, trivial⟩), fun hpos => ⟨rfl, hclosed hpos⟩⟩
  · rename_i htext hcomment
    have hset : e.setValue v = ⟨e.attr, e.children ++ [.text v]⟩ := by
      rw [Elem.setValue]
      split
      · rename_i s rest hcs
        exact absurd hcs (htext s rest)
      · rename_i s rest hcs
        exact absurd hcs (hcomment s rest)
      · rfl
    obtain ⟨hv, hpos, hpending⟩ := hfit
    rw [hset]
    refine ⟨fun hin => ⟨hin.attr, ?_, ?_⟩, fun h0 => absurd h0 hpos⟩
    · dsimp only
      rw [pending_append, hpending]
      rfl
    · rw [List.forall_mem_append]
      exact ⟨hin.every, by simpa using .text ⟨hv, trivial⟩⟩

theorem nodup_set {l : Attrs} (h : (l.map Prod.fst).Nodup) (k v : Bytes) :
    ((l.set k v).map Prod.fst).Nodup := by
  rw [Attrs.set]
  split_ifs with hnone
  · rw [List.map_append, List.nodup_append]
    refine ⟨h, by simp, fun a ha b hb => ?_⟩
    obtain rfl : b = k := by simpa using hb
    rintro rfl
    obtain ⟨p, hp, rfl⟩ := List.mem_map.1 ha
    have hsome := (lookup_eq_some_iff_mem h).2 hp
    rw [hnone] at hsome
    cases hsome
  · have hsame : (l.map fun p => if p.1 = k then (k, v) else p).map Prod.fst = l.map Prod.fst := by
      rw [List.map_map]
      refine List.map_congr_left fun p _ => ?_
      rw [Function.comp_apply]
      split_ifs with hp
      · exact hp.symm
      · rfl
    rwa [hsame]

theorem mem_set {l : Attrs} {k v : Bytes} {a : Bytes × Bytes} (h : a ∈ l.set k v) : a = (k, v) ∨ a ∈ l := by
  rw [Attrs.set] at h
  split_ifs at h
  · rcases List.mem_append.1 h with h | h
    · exact Or.inr h
    · exact Or.inl (List.mem_singleton.1 h)
  · obtain ⟨p, hp, rfl⟩ := List.mem_map.1 h
    split_ifs
    · exact Or.inl rfl
    · exact Or.inr hp

/-- `Node:attr`. -/
theorem savable_setAttr {pos : List ℕ} {a v : Bytes} (h : Savable env t)
    (hfit : ∀ e ∈ t.at pos, e.attr.isSome → AttrOk env (a, v)) :
    Savable env (t.modify pos (·.setAttr a v)) := by
  refine h.modify_at fun e he => ⟨fun hin => ⟨fun l hl => ?_, hin.waits, hin.every⟩, fun hpos => ?_⟩
  · obtain ⟨l, hold, rfl⟩ := Option.map_eq_some_iff.1 hl
    obtain ⟨hl, hnodup⟩ := hin.attr l hold
    have hok := hfit e he (by rw [hold]; rfl)
    exact ⟨fun b hb => (mem_set hb).elim (fun heq => heq ▸ hok) (hl b), nodup_set hnodup a v⟩
  · subst hpos
    cases he
    refine ⟨?_, h.closed⟩
    rw [Elem.setAttr, h.attr]
    rfl

/-- `attachNode`. -/
theorem savable_attachNode {pos : List ℕ} {name : Bytes} (h : Savable env t) (hname : NameOk name) :
    Savable env (t.modify pos (attachNode (createNode name))) := by
  have hclosed : ∀ {e : Elem}, (pending false e.children).isSome →
      pending false (e.children ++ [createNode name]) = some false := by
    intro e he
    obtain ⟨w, hw⟩ := Option.isSome_iff_exists.1 he
    rw [pending_append, hw]
    rfl
  have hnew : (createNode name).Every fun n => n.Readable env ∧ n.Tabled :=
    every_element.2 ⟨hname, fun l hl => by cases hl; exact ⟨by simp, List.nodup_nil⟩, rfl, by simp⟩
  refine h.modify_at fun e he => ⟨fun hin => ⟨hin.attr, ?_, ?_⟩, fun hpos => ⟨rfl, ?_⟩⟩
  · rw [attachNode, hclosed hin.waits]
    rfl
  · rw [attachNode, List.forall_mem_append]
    exact ⟨hin.every, by simpa using hnew⟩
  · subst hpos
    cases he
    exact hclosed h.inner.waits

theorem savable_createPart {st : Elem × List ℕ} {part : Bytes} (h : Savable env st.1)
    (hname : NameOk (splitIndex part).1) : Savable env (createPart st part).1 := by
  rw [createPart]
  split
  · exact h
  · split
    · exact h
    · split_ifs
      · exact savable_attachNode h hname
      · exact h

theorem savable_getOrCreateNode {path : Bytes} (h : Savable env t) (hfit : PathFits t path) :
    Savable env (getOrCreateNode t path).1 := by
  rw [getOrCreateNode]
  cases hlocate : locate (path.length + 1) t path with
  | some pos => exact h
  | none =>
    have hnames := hfit hlocate
    dsimp only
    have hfold : ∀ (parts : List Bytes) (st : Elem × List ℕ), (∀ part ∈ parts, NameOk (splitIndex part).1) →
        Savable env st.1 → Savable env (parts.foldl createPart st).1 := by
      intro parts
      induction parts with
      | nil => exact fun st _ hst => hst
      | cons part parts ih =>
        intro st hall hst
        obtain ⟨hpart, hall⟩ := List.forall_mem_cons.1 hall
        exact ih _ hall (savable_createPart hst hpart)
    exact hfold _ _ hnames h

/-! ### Requests that fit -/

theorem savable_setEntry {path k v : Bytes} (h : Savable env t) (hfit : EntryFits env path t k v) :
    Savable env (setEntry path t k v).1 := by
  rw [EntryFits] at hfit
  split at hfit
  · rename_i subpath attrname rest hexec
    rw [setEntry, hexec]
    exact savable_setAttr (savable_getOrCreateNode h hfit.1) hfit.2
  · rename_i hattr
    split at hfit
    · rename_i subpath rest hexec
      rw [setEntry]
      split
      · rename_i subpath' attrname rest' hexec'
        exact absurd hexec' (hattr subpath' attrname rest')
      · rw [hexec]
        exact savable_setValue (savable_getOrCreateNode h hfit.1) hfit.2
    · rename_i hvalue
      rw [setEntry]
      split
      · rename_i subpath' attrname rest' hexec'
        exact absurd hexec' (hattr subpath' attrname rest')
      · split
        · rename_i subpath' rest' hexec'
          exact absurd hexec' (hvalue subpath' rest')
        · exact h

theorem savable_setEntries {path : Bytes} {post : List (Bytes × Bytes)} : ∀ {t : Elem}, Savable env t →
    EntriesFit env path t post → Savable env (setEntries path t post).1 := by
  induction post with
  | nil => exact fun h _ => h
  | cons entry post ih =>
    obtain ⟨k, v⟩ := entry
    intro t h hfit
    have hentry := savable_setEntry h hfit.1
    rw [setEntries]
    split
    · rename_i tree heq
      have hrest := hfit.2
      rw [heq] at hentry hrest
      exact ih hentry (hrest rfl)
    · rename_i tree e heq
      rwa [heq] at hentry

/-- One request. -/
theorem savable_processCmd {rq : Cmd × List (Bytes × Bytes)} (h : Savable env t)
    (hfit : RequestFits env t rq) : Savable env (processCmd t rq).1 := by
  obtain ⟨cmd, post⟩ := rq
  cases cmd with
  | set =>
    change Savable env (setOne t post).1
    rw [setOne]
    dsimp only
    cases hlocate : locate (((post.lookup (str "key")).getD []).length + 1) t
        ((post.lookup (str "key")).getD []) with
    | none => exact h
    | some pos =>
      dsimp only
      cases hvalue : post.lookup (str "value") with
      | none => exact h
      | some v => exact savable_setValue h fun e he => hfit pos e hlocate he v hvalue
  | setmany =>
    change Savable env (setMany t post).1
    rw [setMany]
    cases hpath : post.lookup (str "path") with
    | none => exact h
    | some path => exact savable_setEntries h (hfit path hpath)

/-- **A run whose requests fit leaves a savable tree.** -/
theorem savable_processAll {rqs : List (Cmd × List (Bytes × Bytes))} : ∀ {t : Elem}, Savable env t →
    RunFits env t rqs → Savable env (processAll t rqs) := by
  induction rqs with
  | nil => exact fun h _ => h
  | cons rq rqs ih => exact fun h hfit => ih (savable_processCmd h hfit.1) hfit.2

end Inner

/-- The requests of a run that fits fit up to each of them. -/
theorem RunFits.take {env : Interpreter} {rqs : List (Cmd × List (Bytes × Bytes))} : ∀ {t : Elem},
    RunFits env t rqs → ∀ n, RunFits env t (rqs.take n) := by
  induction rqs with
  | nil =>
    intro t h n
    rwa [List.take_nil]
  | cons rq rqs ih =>
    intro t h n
    cases n with
    | zero => trivial
    | succ n => exact ⟨h.1, ih h.2 n⟩

/-- **Saving and booting lose nothing**, after each of some requests that fit, if the file that was loaded
could be saved. -/
theorem saving_lossless (env : Interpreter) {file : Bytes} {t : Elem} (_hload : loadFile env file = .ok t)
    (h : Savable env t) {rqs : List (Cmd × List (Bytes × Bytes))} (hfit : RunFits env t rqs) (n : ℕ) :
    Lossless env (processAll t (rqs.take n)) := by
  obtain ⟨t', hload, hcontent⟩ := loadFile_xmldump (savable_processAll h (hfit.take n))
  exact ⟨t', hload, sameConfig_of_contents hcontent⟩

/-- An element in an element. -/
def lanTree : Elem := .root [.element (str "lan") none [.element (str "ip") none [.text (str "1")]]]

/-- A value for it. -/
def setIp (v : Bytes) : Cmd × List (Bytes × Bytes) :=
  (.set, [(str "key", str "lan.ip"), (str "value", v)])

/-- Whether a file has been read as this tree. -/
def readsLanTree : Except XmlError Elem → Bool
  | .ok ⟨none, [.element a none [.element b none [.text s]]]⟩ => a = str "lan" && b = str "ip" && s = str "1"
  | _ => false

theorem load_lanTree : loadFile .inOrder (str "<lan><ip>1</ip></lan>") = .ok lanTree := by
  have hshape : readsLanTree (loadFile .inOrder (str "<lan><ip>1</ip></lan>")) = true := by decide +kernel
  unfold readsLanTree at hshape
  split at hshape
  · rename_i a b s hload
    simp only [Bool.and_eq_true, decide_eq_true_eq] at hshape
    obtain ⟨⟨rfl, rfl⟩, rfl⟩ := hshape
    exact hload
  · cases hshape

theorem textOk_digit {c : UInt8} (hc : isdigit c = true) (env : Interpreter) : TextOk env [c] := by
  have hkind : isspace c = false ∧ c ≠ 60 ∧ c ≠ 38 := by
    revert c
    decide +kernel
  refine ⟨by simp, by simpa using hkind.2.1, by simpa using hkind.1, by simpa using hkind.1, ?_⟩
  exact plain_of_no_amp env (by simpa using hkind.2.2)

theorem savable_lanTree (env : Interpreter) : Savable env lanTree := by
  have hlan : NameOk (str "lan") := ⟨rfl, by decide +kernel, by decide +kernel,
    by decide +kernel, by decide, by decide +kernel⟩
  have hip : NameOk (str "ip") := ⟨rfl, by decide +kernel, by decide +kernel,
    by decide +kernel, by decide, by decide +kernel⟩
  have hone : (Node.text (str "1")).Every fun n => n.Readable env ∧ n.Tabled :=
    .text ⟨textOk_digit (by decide) env, trivial⟩
  refine ⟨rfl, fun c hc => ?_, rfl⟩
  rw [List.mem_singleton.1 hc]
  refine every_element.2 ⟨hlan, by simp, rfl, fun c hc => ?_⟩
  rw [List.mem_singleton.1 hc]
  exact every_element.2 ⟨hip, by simp, rfl, by simpa using hone⟩

theorem saving_lossless_digit :
    Lossless .inOrder (processAll lanTree ([setIp (str "2")].take 1)) := by
  have hfit : RunFits .inOrder lanTree [setIp (str "2")] := by
    refine ⟨fun pos e hpos he v hv => ?_, trivial⟩
    have hlocate : locate 7 lanTree (str "lan.ip") = some [0, 0] := rfl
    obtain rfl : [0, 0] = pos := Option.some.inj (hlocate.symm.trans hpos)
    cases he
    obtain rfl : str "2" = v := Option.some.inj hv
    exact textOk_digit (by decide) _
  exact saving_lossless .inOrder load_lanTree (savable_lanTree _) hfit 1

/-- A value with a `<` ends the tag too late. -/
theorem not_saving_lossless_bracket :
    ¬ ∀ (env : Interpreter) (file : Bytes) (t : Elem) (rqs : List (Cmd × List (Bytes × Bytes))),
      loadFile env file = .ok t → Lossless env (processAll t rqs) := by
  intro h
  obtain ⟨t', hload, -⟩ := h .inOrder _ lanTree [setIp (str "<")] load_lanTree
  have hdump : xmldump .inOrder (processAll lanTree [setIp (str "<")]) =
      str "<lan>\n    <ip><</ip>\n</lan>\n" := rfl
  have herror : (loadFile .inOrder (str "<lan>\n    <ip><</ip>\n</lan>\n")).isOk = false := by
    decide +kernel
  rw [hdump] at hload
  rw [hload] at herror
  cases herror

end ZRouter.Web
