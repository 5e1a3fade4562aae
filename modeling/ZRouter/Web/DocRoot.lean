import ZRouter.Lib.Path
import ZRouter.Web.Event

/-!
# The file behind a request (`handleRequest` in `httpd.lua`)

`handleRequest` puts `htdocs/` before the path, collapses `//` and may append `index.html`;
`string.strip`, which was to remove `/../`, is not called.

* `documentFile`, `openedNames`: the names that are passed to `io.open`;
* `components`, `InDocRoot`: where a name leads, as the system resolves it;
* `served_inside_iff`: the paths for which all of them stay in `htdocs/`.
-/

namespace ZRouter.Web

open Pattern Walk

/-! ### The model -/

/-- `string.endsWith`. -/
def endsWith (s suffix : Bytes) : Bool := suffix.isSuffixOf s

/-- `string.gsub(file, "//", "/")`. -/
def collapse (file : Bytes) : Bytes := gsub (lit [47, 47]) (fun _ _ => [47]) file

/-- `file`, before `index.html` is tried. -/
def documentFile (path : Bytes) : Bytes := collapse (str "htdocs/" ++ scriptName path)

/-- `file` when it is served; `there` tells which files can be opened. -/
def servedFile (there : Bytes → Bool) (path : Bytes) : Bytes :=
  let file := documentFile path
  if endsWith file [47] && there (file ++ str "index.html") then file ++ str "index.html" else file

/-- The names that `handleRequest` passes to `io.open`, two of them through `fileExists`. -/
def openedNames (there : Bytes → Bool) (path : Bytes) : List Bytes :=
  (if endsWith (documentFile path) [47] then [documentFile path ++ str "index.html"] else []) ++
    servedFile there path ::
    if there (servedFile there path) then [servedFile there path] else []

/-- A component of a file name. -/
def component (c : Bytes) : Component Bytes :=
  if c = [] ∨ c = str "." then .skip else if c = str ".." then .up else .name c

/-- The components of a file name. -/
def components (name : Bytes) : List (Component Bytes) := (name.splitOn 47).map component

/-- The name, as the system takes it from the Lua string, leads to `htdocs` or into it. -/
def InDocRoot (name : Bytes) : Prop :=
  (resolve ⟨0, []⟩ (components (cstr name))).Under (str "htdocs")

instance (name : Bytes) : Decidable (InDocRoot name) :=
  inferInstanceAs (Decidable (_ = 0 ∧ _ = some (str "htdocs")))

/-! ### Collapsing slashes -/

theorem collapse_slashes (s : Bytes) : collapse (47 :: 47 :: s) = 47 :: collapse s := by
  have hexec : exec (lit [47, 47]) (47 :: 47 :: s) = some ([], s) := by
    have hpre : [47, 47] <+: 47 :: 47 :: s := List.prefix_append [47, 47] s
    rw [exec_lit, if_pos hpre]
    rfl
  rw [collapse, gsub_match hexec (by simp)]
  rfl

theorem collapse_skip {c : UInt8} {s : Bytes} (h : ¬ [47, 47] <+: c :: s) :
    collapse (c :: s) = c :: collapse s :=
  gsub_skip (by rw [exec_lit, if_neg h])

/-- The two ways in which collapsing goes on. -/
theorem collapse_induction {P : Bytes → Prop} (nil : P [])
    (slashes : ∀ s, P s → P (47 :: 47 :: s))
    (skip : ∀ c s, ¬ [47, 47] <+: c :: s → P s → P (c :: s)) (s : Bytes) : P s := by
  induction hn : s.length using Nat.strong_induction_on generalizing s with
  | _ n ih =>
    subst hn
    cases s with
    | nil => exact nil
    | cons c s =>
      by_cases h : [47, 47] <+: c :: s
      · obtain ⟨t, ht⟩ := h
        rw [← ht]
        exact slashes t (ih t.length (by rw [← ht]; simp) t rfl)
      · exact skip c s h (ih s.length (by simp) s rfl)

/-- Empty components lead nowhere, so collapsing changes no file. -/
theorem resolve_collapse (s pre : Bytes) (r : Resolved Bytes) :
    resolve r (components (pre ++ collapse s)) = resolve r (components (pre ++ s)) := by
  have hcons : ∀ (pre s : Bytes) (r : Resolved Bytes), resolve r (components (pre ++ 47 :: s)) =
      resolve (resolve r (components pre)) (components s) := by
    intro pre s r
    rw [components, List.splitOn_append_cons_self, List.map_append, resolve_append]
    rfl
  induction s using collapse_induction generalizing pre r with
  | nil => rfl
  | slashes s ih =>
    have hnil : ∀ t : Bytes, 47 :: t = [] ++ 47 :: t := fun _ => rfl
    have hih := ih [] (resolve r (components pre))
    rw [List.nil_append, List.nil_append] at hih
    rw [collapse_slashes, hcons, hih, hcons, hnil s, hcons]
    rfl
  | skip c s h ih =>
    rw [collapse_skip h, List.append_cons, ih, ← List.append_cons]

/-- A NUL is no slash, so it ends the name at the same place. -/
theorem cstr_collapse (s : Bytes) : cstr (collapse s) = collapse (cstr s) := by
  induction s using collapse_induction with
  | nil => rfl
  | slashes s ih =>
    have hcstr : ∀ t : Bytes, cstr (47 :: t) = 47 :: cstr t := fun _ => rfl
    rw [collapse_slashes, hcstr, hcstr, hcstr, collapse_slashes, ih]
  | skip c s h ih =>
    rw [collapse_skip h]
    by_cases hc : c = 0
    · subst hc
      rfl
    · have hcstr : ∀ t : Bytes, cstr (c :: t) = c :: cstr t := by
        intro t
        simp [cstr, hc]
      have hskip : ¬ [47, 47] <+: c :: cstr s := by
        intro hpre
        refine h (hpre.trans ?_)
        rw [← hcstr]
        exact List.takeWhile_prefix _
      rw [hcstr, hcstr, collapse_skip hskip, ih]

/-! ### Names that stay in the document root -/

/-- The served name leads into `htdocs` exactly when the walk through the path stays there. -/
theorem inDocRoot_documentFile (path : Bytes) :
    InDocRoot (documentFile path) ↔
      Stays (str "htdocs") (components (cstr (scriptName path))) := by
  have hcstr : ∀ f : Bytes, cstr (str "htdocs/" ++ f) = str "htdocs" ++ 47 :: cstr f := by
    intro f
    rfl
  have hsplit : ∀ f : Bytes, components (str "htdocs" ++ 47 :: f) =
      .name (str "htdocs") :: components f := by
    intro f
    rw [components, List.splitOn_append_cons_self_of_not_mem (by decide)]
    rfl
  have hwalk := resolve_collapse (str "htdocs" ++ 47 :: cstr (scriptName path)) [] ⟨0, []⟩
  rw [List.nil_append, List.nil_append] at hwalk
  rw [InDocRoot, documentFile, cstr_collapse, hcstr, hwalk, hsplit, ← under_iff_stays]
  rfl

/-- `index.html` is in the directory to which it is appended. -/
theorem inDocRoot_index {file : Bytes} (h : endsWith file [47] = true) :
    InDocRoot (file ++ str "index.html") ↔ InDocRoot file := by
  obtain ⟨dir, rfl⟩ : [47] <:+ file := List.isSuffixOf_iff_suffix.1 h
  unfold InDocRoot
  by_cases hnul : (0 : UInt8) ∈ dir ++ [47]
  · -- the system does not see the suffix
    have hsame : cstr (dir ++ [47] ++ str "index.html") = cstr (dir ++ [47]) := by
      obtain ⟨u, v, huv, hu⟩ := List.eq_append_cons_of_mem hnul
      have hcut : ∀ t : Bytes, cstr (u ++ 0 :: t) = u := by
        intro t
        have hu' : ∀ c ∈ u, decide (c ≠ 0) = true := by
          intro c hc
          simpa using ne_of_mem_of_not_mem hc hu
        rw [cstr, List.takeWhile_append_of_pos hu']
        simp
      rw [huv, List.append_assoc, List.cons_append, hcut, hcut]
    rw [hsame]
  · have hall : ∀ t : Bytes, (0 : UInt8) ∉ t → cstr t = t := by
      intro t ht
      rw [cstr, List.takeWhile_eq_self_iff]
      intro c hc
      simpa using ne_of_mem_of_not_mem hc ht
    have hnul' : (0 : UInt8) ∉ dir ++ [47] ++ str "index.html" := by
      simp only [List.mem_append, not_or] at hnul ⊢
      exact ⟨hnul, by decide⟩
    have hdir : ∀ t : Bytes, components (dir ++ 47 :: t) = components dir ++ components t := by
      intro t
      rw [components, List.splitOn_append_cons_self, List.map_append]
      rfl
    have hone : components (str "index.html") = [.name (str "index.html")] := by decide +kernel
    have hempty : components [] = [.skip] := by decide +kernel
    rw [hall _ hnul, hall _ hnul', List.append_assoc, List.singleton_append, hdir, hdir, hone,
      hempty, resolve_concat, resolve_concat]
    generalize resolve ⟨0, []⟩ (components dir) = r
    obtain ⟨ups, names⟩ := r
    cases names with
    | nil =>
      simp only [Resolved.walk, Resolved.Under, List.getLast?_singleton, List.getLast?_nil]
      constructor
      · rintro ⟨-, hh⟩
        exact absurd hh (by decide)
      · rintro ⟨-, hh⟩
        cases hh
    | cons a names => simp [Resolved.walk, Resolved.Under]

/-- **Every file that is opened for a request lies in the document root exactly when the walk through
the components of the decoded path does not go above it, or does so by one step and comes back through
`htdocs` for good.** -/
theorem served_inside_iff (there : Bytes → Bool) (raw : Bytes) :
    (∀ name ∈ openedNames there (urlDecode raw), InDocRoot name) ↔
      Stays (str "htdocs") (components (cstr (scriptName (urlDecode raw)))) := by
  rw [← inDocRoot_documentFile]
  generalize urlDecode raw = path
  have hserved : InDocRoot (servedFile there path) ↔ InDocRoot (documentFile path) := by
    unfold servedFile
    dsimp only
    split_ifs with h
    · rw [Bool.and_eq_true] at h
      exact inDocRoot_index h.1
    · exact Iff.rfl
  constructor
  · intro hall
    apply hserved.1
    apply hall
    rw [openedNames]
    exact List.mem_append_right _ List.mem_cons_self
  · intro hin name hname
    rw [openedNames, List.mem_append, List.mem_cons] at hname
    rcases hname with hname | hname | hname
    · split_ifs at hname with h
      · rw [List.mem_singleton.1 hname]
        exact (inDocRoot_index h).2 hin
      · exact absurd hname List.not_mem_nil
    · rw [hname]
      exact hserved.2 hin
    · split_ifs at hname
      · rw [List.mem_singleton.1 hname]
        exact hserved.2 hin
      · exact absurd hname List.not_mem_nil

/-- The configuration, with its passwords, is one step up. -/
theorem config_served : ¬ ∀ there raw, ∀ name ∈ openedNames there (urlDecode raw), InDocRoot name := by
  intro hall
  have h := hall (fun _ => true) (str "/../config.xml") (str "htdocs/../config.xml")
    (by decide +kernel)
  revert h
  decide +kernel

end ZRouter.Web
