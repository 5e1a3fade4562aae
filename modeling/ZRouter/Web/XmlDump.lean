import ZRouter.Web.XmlParse

/-!
# Writing the configuration (`xmldump`)

Nothing is escaped.  What may stand in a tree so that the parser reads it back is said here.

* `xatrdmp`, `xdmp`, `xmldump`;
* `NameOk`, `AttrOk`, `TextOk`, `CommentOk`: what can be read back;
* `exec_start_tag`, `exec_end_tag`: where a tag ends.
-/

namespace ZRouter.Web

open Pattern

/-! ### `xmldump` -/

/-- `%s` of `string.format`: a string of less than 100 bytes ends at a NUL. -/
def formatS (s : Bytes) : Bytes := if s.length < 100 then cstr s else s

/-- One attribute. -/
def renderAttr (a : Bytes × Bytes) : Bytes :=
  str " " ++ formatS a.1 ++ str "=\"" ++ formatS a.2 ++ str "\""

/-- `xatrdmp`. -/
def xatrdmp (env : Interpreter) (attr : Attrs) : Bytes := (env.pairs attr).flatMap renderAttr

/-- `brk`: the tags of the element stand on lines of their own. -/
def breaks : List Node → Bool
  | [] => false
  | [.text _] => false
  | _ => true

/-- `string.rep(" ", l*4)`. -/
def indent (l : ℕ) : Bytes := List.replicate (l * 4) 32

mutual

/-- `xdmp`, for a node below the root. -/
def xdmp (env : Interpreter) (l : ℕ) : Node → Bytes
  | .element name attr children =>
      let attrs := xatrdmp env (attr.getD [])
      let childs := xdmpAll env (l + 1) children
      if breaks children then
        indent l ++ str "<" ++ formatS name ++ formatS attrs ++ str ">\n" ++ childs ++
          (indent l ++ str "</" ++ formatS name ++ str ">\n")
      else
        indent l ++ str "<" ++ formatS name ++ formatS attrs ++ str ">" ++ childs ++
          (str "</" ++ formatS name ++ str ">\n")
  | .text s => s
  | .comment s => indent l ++ str "<!-- " ++ formatS s ++ str " -->\n"
  | .other _ _ => []

/-- The loop over the children. -/
def xdmpAll (env : Interpreter) (l : ℕ) : List Node → Bytes
  | [] => []
  | c :: cs => xdmp env l c ++ xdmpAll env l cs

end

/-- `xmldump`, for the root. -/
def xmldump (env : Interpreter) (t : Elem) : Bytes := xdmpAll env 0 t.children

/-! ### What can be read back -/

/-- No entity is expanded in it. -/
def Plain (env : Interpreter) (s : Bytes) : Prop := ∀ e, env.expand e s = s

/-- A text that is read back: it is not empty, has no blanks at its ends, no `<` and no entity. -/
structure TextOk (env : Interpreter) (s : Bytes) : Prop where
  ne : s ≠ []
  chars : ∀ c ∈ s, c ≠ 60
  head : ∀ c ∈ s.head?, isspace c = false
  last : ∀ c ∈ s.getLast?, isspace c = false
  plain : Plain env s

/-- The name of an element that is read back. -/
structure NameOk (name : Bytes) : Prop where
  format : formatS name = name
  chars : ∀ c ∈ name, isspace c = false ∧ c ≠ 62
  head : ∀ c ∈ name.head?, c ≠ 47 ∧ c ≠ 63
  last : ∀ c ∈ name.getLast?, c ≠ 47
  marks : ∀ mark ∈ [str "!--", str "!DOCTYPE", str "![CDATA["], ¬ mark <+: name
  quotes : ∀ q ∈ [34, 39], ¬ [61, q] <:+: name

/-- An attribute that is read back: its name has small letters, and its value no double quote, no `>`, no
entity, and behind each `=` and the blanks there something else than a single quote or the end. -/
structure AttrOk (env : Interpreter) (a : Bytes × Bytes) : Prop where
  name_ne : a.1 ≠ []
  name_chars : ∀ c ∈ a.1, isAttrName c = true ∧ tolower c = c
  name_mark : a.1 ≠ str "_"
  format : formatS a.2 = a.2
  chars : ∀ c ∈ a.2, c ≠ 34 ∧ c ≠ 62
  equals : ∀ r, 61 :: r <:+ a.2 → ∃ c ∈ (r.dropWhile isspace).head?, c ≠ 39
  plain : Plain env a.2

/-- The text of a comment does not end the comment. -/
def CommentOk (s : Bytes) : Prop := ¬ str "-->" <:+: formatS s

theorem parseEntities_plain {env : Interpreter} {s : Bytes} (h : Plain env s) :
    parseEntities env s = s := by
  have hfold : ∀ l : List Entity, l.foldl (fun s e => env.expand e s) s = s := by
    intro l
    induction l with
    | nil => rfl
    | cons e l ih => rw [List.foldl_cons, h e, ih]
  exact hfold env.entities

/-- Entities start with an ampersand. -/
theorem plain_of_no_amp (env : Interpreter) {s : Bytes} (h : ∀ c ∈ s, c ≠ 38) : Plain env s := by
  intro e
  refine gsub_of_none fun t ht => ?_
  have hfirst : ∀ c r, t = c :: r → c ≠ 38 := fun c r hc => h c (ht.subset (by rw [hc]; simp))
  have hnone : ∀ (w : Bytes) (is : List (Item UInt8)),
      exec (lit (str "&" ++ w) ++ is) t = none := by
    intro w is
    rw [exec, run_lit, if_neg]
    intro hp
    have hstr : str "&" ++ w = 38 :: w := rfl
    rw [hstr] at hp
    obtain ⟨r, hr⟩ := hp
    exact hfirst 38 _ hr.symm rfl
  cases e with
  | lt => exact hnone (str "lt;") []
  | gt => exact hnone (str "gt;") []
  | amp => exact hnone (str "amp;") []
  | quot => exact hnone (str "quot;") []
  | apos => exact hnone (str "apos;") []
  | dec => exact hnone (str "#") _
  | hex => exact hnone (str "#x") _

/-! ### Where a tag ends -/

/-- A tag up to its `>`, and the slash before it. -/
def splitSlash (tag : Bytes) : Bytes × Bytes :=
  if tag.getLast? = some 47 then (tag.dropLast, [47]) else (tag, [])

theorem splitSlash_append (tag : Bytes) : (splitSlash tag).1 ++ (splitSlash tag).2 = tag := by
  rw [splitSlash]
  split_ifs with h
  · exact List.dropLast_append_getLast? 47 h
  · exact List.append_nil tag

/-- The end of the pattern `_XML`. -/
theorem run_tag_end {tag : Bytes} (htag : ∀ c ∈ tag, c ≠ 62) (start s : Bytes)
    (caps : List Bytes) :
    Pattern.run [.opens, .lazy (· ≠ 62), .closes, .opens, .opt (· = 47), .closes, .one (· = 62)] start caps
      (tag ++ 62 :: s) = some (caps ++ [(splitSlash tag).1, (splitSlash tag).2], s) := by
  have happend := splitSlash_append tag
  have hsecond : (splitSlash tag).2 = [47] ∨
      (splitSlash tag).2 = [] ∧ (splitSlash tag).1.getLast? ≠ some 47 := by
    rw [splitSlash]
    split_ifs with h
    · exact Or.inl rfl
    · exact Or.inr ⟨rfl, h⟩
  generalize (splitSlash tag).1 = body at happend hsecond ⊢
  generalize (splitSlash tag).2 = slash at happend hsecond ⊢
  have hbody : ∀ c ∈ body, c ≠ 62 := fun c hc => htag c (by rw [← happend]; simp [hc])
  have hends : ∀ (start : Bytes) (caps : List Bytes),
      Pattern.run [.opens, .opt (· = 47), .closes, .one (· = 62)] start caps (slash ++ 62 :: s) =
        some (caps ++ [slash], s) := by
    intro start caps
    rcases hsecond with rfl | ⟨rfl, -⟩
    · simp [Pattern.run]
    · simp [Pattern.run]
  rw [← happend, List.append_assoc]
  change minExpand _ (Pattern.run [.closes, .opens, .opt (· = 47), .closes, .one (· = 62)]
    (body ++ (slash ++ 62 :: s)) caps) (body ++ (slash ++ 62 :: s)) = _
  refine minExpand_append (fun c hc => by simpa using hbody c hc) ?_ ?_
  · rw [run_closes, hends, List.append_assoc]
    rfl
  · -- a `>` does not come sooner
    intro u v huv hv
    obtain ⟨c, v, rfl⟩ := List.exists_cons_of_ne_nil hv
    have hc : c ≠ 62 := hbody c (by rw [huv]; simp)
    have hnext : ∀ x ∈ (v ++ (slash ++ 62 :: s)).head?, c = 47 → x ≠ 62 := by
      intro x hx hc47
      cases v with
      | nil =>
        rcases hsecond with rfl | ⟨rfl, hlast⟩
        · simp only [List.nil_append, List.cons_append, List.head?_cons, Option.mem_some_iff] at hx
          rw [← hx]
          decide
        · rw [huv, hc47] at hlast
          simp at hlast
      | cons d v =>
        simp only [List.cons_append, List.head?_cons, Option.mem_some_iff] at hx
        rw [← hx]
        exact hbody d (by rw [huv]; simp)
    simp only [Pattern.run, List.cons_append, hc, decide_false, Bool.false_eq_true, if_false,
      Option.or_none, ite_eq_right_iff, decide_eq_true_eq]
    intro hc47
    cases hr : v ++ (slash ++ 62 :: s) with
    | nil => rfl
    | cons x r =>
      have hx := hnext x (by rw [hr]; rfl) hc47
      simp [hx]

/-- The text before a tag. -/
theorem exec_xml {text : Bytes} (htext : ∀ c ∈ text, c ≠ 60) {s : Bytes}
    {m : List Bytes × Bytes}
    (h : Pattern.run [.opt (· = 47), .closes, .opens, .lazy (· ≠ 62), .closes, .opens,
      .opt (· = 47), .closes, .one (· = 62)] s [text] s = some m) :
    exec xmlItems (text ++ 60 :: s) = some m := by
  refine run_star_before (fun c hc => by simpa using htext c hc) (by simp) ?_
  exact h

/-- An opening tag. -/
theorem exec_start_tag {text tag : Bytes} (htext : ∀ c ∈ text, c ≠ 60) (htag : ∀ c ∈ tag, c ≠ 62)
    (hhead : ∀ c ∈ tag.head?, c ≠ 47) (s : Bytes) :
    exec xmlItems (text ++ 60 :: (tag ++ 62 :: s)) =
      some ([text, [], (splitSlash tag).1, (splitSlash tag).2], s) := by
  refine exec_xml htext ?_
  have hclose := run_closes [.opens, .lazy (· ≠ 62), .closes, .opens, .opt (· = 47), .closes,
    .one (· = 62)] [] (tag ++ 62 :: s) [text]
  rw [List.nil_append] at hclose
  have hend := run_tag_end htag (tag ++ 62 :: s) s [text, []]
  cases tag with
  | nil =>
    change (none : Option (List Bytes × Bytes)).or (Pattern.run (.closes :: _) _ _ _) = _
    rw [Option.none_or]
    exact hclose.trans hend
  | cons c tag =>
    have hc : c ≠ 47 := hhead c rfl
    change (if decide (c = 47) then _ else none).or (Pattern.run (.closes :: _) _ _ _) = _
    rw [if_neg (by simpa using hc), Option.none_or]
    exact hclose.trans hend

/-- A closing tag. -/
theorem exec_end_tag {text tag : Bytes} (htext : ∀ c ∈ text, c ≠ 60) (htag : ∀ c ∈ tag, c ≠ 62)
    (s : Bytes) :
    exec xmlItems (text ++ 60 :: 47 :: (tag ++ 62 :: s)) =
      some ([text, [47], (splitSlash tag).1, (splitSlash tag).2], s) := by
  refine exec_xml htext ?_
  have hclose := run_closes [.opens, .lazy (· ≠ 62), .closes, .opens, .opt (· = 47), .closes,
    .one (· = 62)] [47] (tag ++ 62 :: s) [text]
  have hend := run_tag_end htag (47 :: (tag ++ 62 :: s)) s [text, [47]]
  change (Pattern.run (.closes :: _) _ _ _).or (Pattern.run (.closes :: _) _ _ _) = _
  rw [List.singleton_append] at hclose
  rw [hclose]
  change (Pattern.run [.opens, .lazy (· ≠ 62), .closes, .opens, .opt (· = 47), .closes,
    .one (· = 62)] (47 :: (tag ++ 62 :: s)) ([text] ++ [[47]]) (tag ++ 62 :: s)).or _ = _
  rw [List.singleton_append, hend]
  rfl

end ZRouter.Web
