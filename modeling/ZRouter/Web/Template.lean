import ZRouter.Lib.Template
import ZRouter.Web.Delivery

/-!
# The variables of a page (`handleRequest` and `evalembeded`)

In a page with the suffix `html` or `js`, `$$$path$$$` stands for a value of the configuration and
`$$$code:...$$$` for what Lua code returns.  Code may change the globals of the server, and the variables behind
it see what it did.

* `CodeResult`, `PageError`, `Script`: running the code of a page;
* `field`, `evalEmbedded`, `pageText`: the replacement of the variables;
* `render_path`: a page without code shows the values of the configuration;
* `page_replaced`: every page has one reading, and each of its variables is replaced once.
-/

namespace ZRouter.Web

open Pattern Template

/-! ### The model -/

/-- What becomes of code in a page: `loadstring` does not accept it, its call raises an error, or it returns
`nil` or `false`, a string or a number, or anything else. -/
inductive CodeResult
  | refused
  | failed
  | nothing
  | text (v : Bytes)
  | other

/-- What ends a page: `assert(loadstring(..))`, or `gsub` on a replacement that is no text. -/
inductive PageError
  | refused
  | replacement
  deriving DecidableEq

/-- A run that may change the globals of the server, and that keeps the changes when it raises an error. -/
abbrev Script := ExceptT PageError (StateM Httpd)

/-- `field`. -/
def field (v : Option Bytes) : Bytes :=
  match v with
  | some v => if v ≠ [] then v else []
  | none => []

/-- The pattern `^code%:(.*)$`. -/
def codeItems : List (Item UInt8) := lit (str "code:") ++ [.opens, .star anyByte, .closes, .atEnd]

/-- The value that stands for a path. -/
def pathValue (c : Elem) (s : Bytes) : Bytes :=
  match getNode c s with
  | some node => field (some (node.value.getD []))
  | none => field (some [])

/-- `evalembeded`, and what `gsub` makes of its result: the match stays for `nil` and `false`. -/
def evalEmbedded (eval : Bytes → StateM Httpd CodeResult) (whole s : Bytes) : Script Bytes :=
  match exec codeItems s with
  | some ([code], _) => do
      match ← eval (str "return " ++ code) with
      | .refused => throw .refused
      | .failed => return []
      | .nothing => return whole
      | .text ret => return ret
      | .other => throw .replacement
  | _ => do
      let globals ← get
      return pathValue globals.c s

/-- Between these stand the variables. -/
def mark : Bytes := str "$$$"

/-- The text of a page: `%$%$%$(.-)%$%$%$` is replaced. -/
def pageText (eval : Bytes → StateM Httpd CodeResult) (t : Bytes) : Script Bytes :=
  gsubM (items mark) (fun whole caps => evalEmbedded eval whole (caps.headD [])) t

/-! ### Variables -/

theorem mark_ne_nil : mark ≠ [] := by decide

theorem pageText_source (eval : Bytes → StateM Httpd CodeResult) {page : List (Segment UInt8)} {tail : Bytes}
    (hp : Reading mark page tail) : pageText eval (source mark page tail) =
      render (fun name => evalEmbedded eval (mark ++ (name ++ mark)) name) page tail :=
  gsubM_source mark_ne_nil hp

/-! ### Pages without code -/

/-- What a page shows for a path. -/
def display (c : Elem) (path : Bytes) : Bytes := ((getNode c path).bind Elem.value).getD []

theorem field_some (v : Bytes) : field (some v) = v := by
  rw [field]
  split_ifs with h
  · rfl
  · exact (not_not.1 h).symm

theorem pathValue_eq (c : Elem) (s : Bytes) : pathValue c s = display c s := by
  rw [pathValue, display]
  cases getNode c s with
  | none => exact field_some _
  | some node => exact field_some _

/-- A variable that is no code shows a value and changes nothing. -/
theorem evalEmbedded_path (eval : Bytes → StateM Httpd CodeResult) (whole : Bytes) {s : Bytes}
    (hs : exec codeItems s = none) (globals : Httpd) :
    evalEmbedded eval whole s globals = (.ok (display globals.c s), globals) := by
  rw [evalEmbedded, hs, ← pathValue_eq]
  rfl

/-- The names of such a page are replaced by values. -/
theorem render_path (eval : Bytes → StateM Httpd CodeResult) (globals : Httpd) {page : List (Segment UInt8)}
    {tail : Bytes} (hpage : ∀ x ∈ page, exec codeItems x.name = none) :
    render (fun name => evalEmbedded eval (mark ++ (name ++ mark)) name) page tail globals =
      (.ok (fill (display globals.c) page tail), globals) := by
  induction page with
  | nil => rfl
  | cons x page ih =>
    obtain ⟨hx, hrest⟩ := List.forall_mem_cons.1 hpage
    have hname := evalEmbedded_path eval (mark ++ (x.name ++ mark)) hx globals
    rw [render, fill]
    simp only [ExceptT.bind, ExceptT.bindCont, bind, StateT.bind, ExceptT.mk, Functor.map, ExceptT.map,
      hname, ih hrest, pure, StateT.pure]

/-! ### Every page -/

/-- **Each variable of a page is replaced once**, in their order: every text is pieces and names in exactly one
way, the pieces are copied, and neither they nor what is put between them is looked at again.  A page without code
always shows the values of the configuration, and changes nothing. -/
theorem page_replaced (eval : Bytes → StateM Httpd CodeResult) (t : Bytes) :
    ∃ page tail, (Reading mark page tail ∧ t = source mark page tail) ∧
      (∀ page' tail', Reading mark page' tail' → t = source mark page' tail' → page' = page ∧ tail' = tail) ∧
      pageText eval t = render (fun name => evalEmbedded eval (mark ++ (name ++ mark)) name) page tail ∧
      ((∀ x ∈ page, exec codeItems x.name = none) →
        ∀ globals, pageText eval t globals = (.ok (fill (display globals.c) page tail), globals)) := by
  obtain ⟨page, tail, hp, rfl⟩ := exists_reading mark_ne_nil t
  refine ⟨page, tail, ⟨hp, rfl⟩, fun page' tail' hp' h => hp'.unique hp h.symm, pageText_source eval hp,
    fun hpage globals => ?_⟩
  rw [pageText_source eval hp]
  exact render_path eval globals hpage

end ZRouter.Web
