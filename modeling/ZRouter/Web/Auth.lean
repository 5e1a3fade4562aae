import ZRouter.Web.Base64Encode
import ZRouter.Web.Connection

/-!
# Basic authentication (`processConnection` in `httpd.lua`)

The user name and the password of a request are compared with what `Node:attr` gives, and that is the
empty string for an attribute that is not there.

* `Presents`: the credentials of a request;
* `Carries`: a user of the configuration that has both attributes;
* `loginRequest`: the request with given credentials, and what the server makes of it;
* `auth_sound_iff`: the configurations for which only users that are written down get in.
-/

namespace ZRouter.Web

open Pattern

/-- The Basic credentials in the header of a request: after decoding, what stands before the first
colon and what stands after it. -/
def Presents (s u p : Bytes) : Prop :=
  ∃ basic pair, capture (fieldItems (str "Basic ")) (headerLoop (s.length + 1) .start s).1.text =
    some basic ∧ b64dec basic = .ok pair ∧ pair = u ++ 58 :: p ∧ 58 ∉ u

/-- A user number `k` of the configuration, from one to eight, has a user name attribute `u` and a
password attribute `p`. -/
def Carries (conf : Elem) (u p : Bytes) : Prop :=
  ∃ k, 1 ≤ k ∧ k ≤ 8 ∧ ∃ e l, user conf k = some e ∧ e.attr = some l ∧
    l.lookup (str "username") = some u ∧ l.lookup (str "password") = some p

/-- A remote client gets to `handleRequest` only with the credentials of a user. -/
def AuthSound (conf : Elem) : Prop :=
  ∀ body ip s method path b, ip ≠ some (str "127.0.0.1") →
    processConnection conf body ip s = .ok (.handle method path b) →
    ∃ u p, Presents s u p ∧ Carries conf u p

/-- What an attribute of the table is compared as. -/
def readAs (l : Attrs) (attr : Bytes) : Bytes := (l.lookup attr).getD []

/-- Every user that has attributes has these two; or else some user has them, with the empty string
for what is missing.  A user name with a colon lets nobody in. -/
def WrittenDown (conf : Elem) : Prop :=
  ∀ k, 1 ≤ k → k ≤ 8 → ∀ e l, user conf k = some e → e.attr = some l →
    58 ∉ readAs l (str "username") →
    Carries conf (readAs l (str "username")) (readAs l (str "password"))

/-! ### The pair -/

/-- The first colon splits the pair. -/
theorem credentials_append {u p : Bytes} (hu : 58 ∉ u) :
    credentials (u ++ 58 :: p) = (some u, some p) := by
  have hexec : exec [.opens, .lazy anyByte, .closes, .one (· = 58), .opens, .star anyByte, .closes]
      (u ++ 58 :: p) = some ([u, p], []) := by
    refine run_lazy_capture _ hu _ [] ?_ ?_
    · intro start caps t ht
      cases t with
      | nil => rfl
      | cons c t =>
        have hc : c ≠ 58 := by simpa using ht
        simp [Pattern.run, hc]
    · have hall := @run_star_before _ anyByte p [] (fun _ _ => rfl) (by simp) []
        (u ++ 58 :: p) [u] ([u, p], []) rfl
      rwa [List.append_nil] at hall
  rw [credentials, find_of_exec hexec]

/-- Without a colon there is neither a user name nor a password. -/
theorem credentials_none {pair : Bytes} (h : 58 ∉ pair) : credentials pair = (none, none) := by
  have hnone : ∀ t, t <:+ pair → exec [.opens, .lazy anyByte, .closes, .one (· = 58), .opens,
      .star anyByte, .closes] t = none := by
    intro t ht
    refine minExpand_eq_none fun u v huv => ?_
    rw [Pattern.run]
    cases v with
    | nil => rfl
    | cons c v =>
      have hc : c ≠ 58 := by
        rintro rfl
        exact h (ht.subset (by simp [huv]))
      simp [Pattern.run, hc]
  rw [credentials, find_eq_none hnone]

/-! ### The loop over the users -/

/-- The user number `k` passes the comparison. -/
def Fits (conf : Elem) (u p : Bytes) (k : ℕ) : Prop :=
  ∃ e l, user conf k = some e ∧ e.attr = some l ∧
    readAs l (str "username") = u ∧ readAs l (str "password") = p

/-- A user that the loop accepts. -/
def Accepts (conf : Elem) (u p : Bytes) : Prop := ∃ k, 1 ≤ k ∧ k ≤ 8 ∧ Fits conf u p k

theorem getAttr_of_attr {e : Elem} {l : Attrs} (h : e.attr = some l) (attr : Bytes) :
    e.getAttr attr = some (readAs l attr) := by
  rw [Elem.getAttr, h]
  rfl

theorem getAttr_eq_some {e : Elem} {attr v : Bytes} (h : e.getAttr attr = some v) :
    ∃ l, e.attr = some l ∧ readAs l attr = v := by
  obtain ⟨l, hl, hv⟩ := Option.map_eq_some_iff.1 h
  exact ⟨l, hl, hv⟩

/-- One pass: a group that was found stays one, and a new one comes from a user that fits. -/
theorem userPass_isSome {conf : Elem} {u p : Bytes} {group : Option Bytes} {k : ℕ} :
    (userPass conf (some u) (some p) group k).isSome = true ↔
      group.isSome = true ∨ Fits conf u p k := by
  unfold userPass Fits
  cases hk : user conf k with
  | none => simp
  | some e =>
    dsimp only
    by_cases hfits : e.getAttr (str "username") = some u ∧ e.getAttr (str "password") = some p
    · rw [if_pos hfits]
      obtain ⟨l, hl, hu⟩ := getAttr_eq_some hfits.1
      rw [getAttr_of_attr hl, Option.some.injEq] at hfits
      rw [getAttr_of_attr hl]
      rw [getAttr_of_attr hl, Option.some.injEq] at hfits
      exact ⟨fun _ => Or.inr ⟨e, l, rfl, hl, hu, hfits.2⟩, fun _ => rfl⟩
    · rw [if_neg hfits]
      refine ⟨Or.inl, fun h => h.resolve_right ?_⟩
      rintro ⟨e', l, he, hl, hu, hp⟩
      cases he
      exact hfits ⟨by rw [getAttr_of_attr hl, hu], by rw [getAttr_of_attr hl, hp]⟩

/-- With a user name and a password, the loop finds a group exactly if a user fits. -/
theorem userGroup_isSome (conf : Elem) (u p : Bytes) :
    (userGroup conf (some u) (some p)).isSome = true ↔ Accepts conf u p := by
  have hfold : ∀ (ks : List ℕ) (group : Option Bytes),
      (ks.foldl (userPass conf (some u) (some p)) group).isSome = true ↔
        group.isSome = true ∨ ∃ k ∈ ks, Fits conf u p k := by
    intro ks
    induction ks with
    | nil => simp
    | cons k ks ih =>
      intro group
      rw [List.foldl_cons, ih, userPass_isSome, List.exists_mem_cons_iff,
        or_assoc]
  have hrange : ∀ k, k ∈ [1, 2, 3, 4, 5, 6, 7, 8] ↔ 1 ≤ k ∧ k ≤ 8 := by
    intro k
    simp only [List.mem_cons, List.not_mem_nil, or_false]
    omega
  rw [userGroup, hfold]
  simp only [Option.isSome_none, Bool.false_eq_true, false_or, hrange, and_assoc]
  exact Iff.rfl

/-- Without a colon in the pair nobody gets a group: only a user without any attribute fits, and it
has no group either. -/
theorem userGroup_none (conf : Elem) : userGroup conf none none = none := by
  have hfold : ∀ ks : List ℕ, ks.foldl (userPass conf none none) none = none := by
    intro ks
    induction ks with
    | nil => rfl
    | cons k ks ih =>
      have hpass : userPass conf none none none k = none := by
        unfold userPass
        cases user conf k with
        | none => rfl
        | some e =>
          dsimp only
          split_ifs with hfits
          · have hattr : e.attr = none := by simpa [Elem.getAttr] using hfits.1
            rw [Elem.getAttr, hattr]
            rfl
          · rfl
      rw [List.foldl_cons, hpass, ih]
  exact hfold _

/-- **A remote client gets to `handleRequest` only if its credentials fit a user.** -/
theorem accepted_of_handle {conf : Elem} {body : Number → Bytes → Option Bytes} {ip : Option Bytes}
    {s method path : Bytes} {b : Option Bytes} (hip : ip ≠ some (str "127.0.0.1"))
    (h : processConnection conf body ip s = .ok (.handle method path b)) :
    ∃ u p, Presents s u p ∧ Accepts conf u p := by
  obtain ⟨group, hg⟩ := requestGroup_returns conf (headerLoop (s.length + 1) .start s).1.text
  cases hn : (headerLoop (s.length + 1) .start s).1.contentLength with
  | none =>
    unfold processConnection at h
    simp only [hn, Lua.get, bind, Except.bind] at h
    cases h
  | some n =>
    rw [processConnection_eq hn hg, Except.ok.injEq] at h
    -- the group is not `nil`
    have hgroup : group ≠ none := by
      rintro rfl
      rcases lineCaptures_cases (headerLoop (s.length + 1) .start s).1.text with hr | ⟨m, q, hr⟩
      · rw [hr] at h
        cases h
      · rw [hr] at h
        simp only [answer, hip, ne_eq, not_false_eq_true, and_self, if_true] at h
        split_ifs at h
    unfold requestGroup at hg
    cases ha : capture (fieldItems (str "Authorization: "))
        (headerLoop (s.length + 1) .start s).1.text with
    | none =>
      rw [ha] at hg
      cases hg
      exact absurd rfl hgroup
    | some auth =>
      rw [ha] at hg
      cases hb : capture (fieldItems (str "Basic ")) (headerLoop (s.length + 1) .start s).1.text with
      | none =>
        rw [hb] at hg
        cases hg
        exact absurd rfl hgroup
      | some basic =>
        obtain ⟨pair, hpair⟩ := b64dec_returns basic
        rw [hb] at hg
        simp only [hpair, Except.map, Except.ok.injEq] at hg
        by_cases hc : 58 ∈ pair
        · obtain ⟨u, p, rfl, hu⟩ := List.eq_append_cons_of_mem hc
          rw [credentials_append hu] at hg
          refine ⟨u, p, ⟨basic, _, hb, hpair, rfl, hu⟩, (userGroup_isSome conf u p).1 ?_⟩
          rw [hg]
          exact Option.isSome_iff_ne_none.2 hgroup
        · rw [credentials_none hc, userGroup_none] at hg
          exact absurd hg.symm hgroup

/-! ### A request with given credentials -/

/-- The field at the end of what the pattern skips. -/
theorem capture_field {c : UInt8} {w pre v rest : Bytes} (hpre : c ∉ pre) (hv : v ≠ [])
    (hvalue : ∀ x ∈ v, isValue x = true) (hrest : ∀ x ∈ rest.head?, isValue x = false) :
    capture (fieldItems (c :: w)) (pre ++ (c :: w ++ (v ++ rest))) = some v := by
  have hstart : exec (fieldItems (c :: w)) (c :: w ++ (v ++ rest)) = some ([v], rest) := by
    rw [exec, fieldItems, run_lit, if_pos (List.prefix_append _ _), List.drop_left]
    exact run_plus_before hv hvalue hrest rfl
  have hskip : ∀ a b, pre = a ++ b → b ≠ [] →
      exec (fieldItems (c :: w)) (b ++ (c :: w ++ (v ++ rest))) = none := by
    intro a b hab hb
    obtain ⟨y, b, rfl⟩ := List.exists_cons_of_ne_nil hb
    have hy : y ≠ c := by
      rintro rfl
      exact hpre (by simp [hab])
    rw [exec, fieldItems, run_lit, if_neg]
    intro hp
    rw [List.cons_append, List.cons_prefix_cons] at hp
    exact hy hp.1.symm
  rw [capture, find_skip hskip hstart]

/-- A line without a byte of the literal has no such field. -/
theorem capture_none {w s : Bytes} {c : UInt8} (hw : c ∈ w) (hs : c ∉ s) :
    capture (fieldItems w) s = none := by
  have hnone : ∀ t, t <:+ s → exec (fieldItems w) t = none := by
    intro t ht
    rw [exec, fieldItems, run_lit, if_neg]
    exact fun hp => hs (ht.subset (hp.subset hw))
  rw [capture, find_eq_none hnone]

/-- The request for `/` with a token. -/
def loginRequest (token : Bytes) : Bytes :=
  str "GET / HTTP/1.0" ++ crlf ++ ((str "Authorization: Basic " ++ token) ++ crlf ++ ([] ++ crlf ++ []))

theorem receiveLine_crlf {l rest : Bytes} (hlf : lf ∉ l) (hcr : cr ∉ l) :
    receiveLine (l ++ crlf ++ rest) = some (l, rest) := by
  have hpos : ∀ c ∈ l ++ [cr], decide (c ≠ lf) = true := by
    intro c hc
    rcases List.mem_append.1 hc with hc | hc
    · simpa using ne_of_mem_of_not_mem hc hlf
    · rw [List.mem_singleton.1 hc]
      decide
  have hsplit : l ++ crlf ++ rest = (l ++ [cr]) ++ lf :: rest := by simp [crlf]
  have hkeep : (l ++ [cr]).filter (· ≠ cr) = l := by
    rw [List.filter_append, List.filter_eq_self.2 fun c hc => by
      simpa using ne_of_mem_of_not_mem hc hcr]
    simp
  rw [receiveLine, hsplit, List.dropWhile_append_of_pos hpos, List.takeWhile_append_of_pos hpos]
  simpa using hkeep

theorem headerLoop_line {n : ℕ} {h : Header} {s data rest : Bytes}
    (hline : receiveLine s = some (data, rest)) (hne : data ≠ []) :
    headerLoop (n + 1) h s = headerLoop n (h.line data) rest := by
  rw [headerLoop, hline]
  exact if_neg hne

theorem Header.line_of_none {h : Header} {data : Bytes}
    (hnone : capture (fieldItems (str "Content-Length: ")) data = none) :
    h.line data = ⟨h.contentLength, h.text ++ data ++ crlf⟩ := by
  rw [Header.line, hnone]

/-- The bytes of a token are no separators. -/
theorem alphabet_plain : ∀ c ∈ alphabet, c ≠ lf ∧ c ≠ cr ∧ c ≠ 45 ∧ isValue c = true := by
  decide +kernel

/-- The bytes around a token. -/
theorem request_bytes : (∀ c ∈ str "GET", isupper c = true) ∧ (∀ x ∈ (crlf ++ crlf).head?, isValue x = false) ∧
    ∀ x ∈ str "Basic ", isValue x = true := by
  decide +kernel

/-- The header of the request, as the server reads it. -/
theorem loginRequest_header {token : Bytes} (ht : ∀ c ∈ token, c ∈ alphabet) :
    headerLoop ((loginRequest token).length + 1) .start (loginRequest token) =
      (⟨Header.start.contentLength, loginRequest token⟩, []) := by
  obtain ⟨n, hn⟩ : ∃ n, (loginRequest token).length + 1 = n + 3 := by
    refine ⟨(loginRequest token).length - 2, ?_⟩
    have : 2 ≤ (loginRequest token).length := by simp [loginRequest, crlf]; omega
    omega
  rw [hn]
  have hplain : ∀ c : UInt8, c ∉ str "Authorization: Basic " →
      (∀ x ∈ alphabet, x ≠ c) → c ∉ str "Authorization: Basic " ++ token := by
    intro c hc halpha hmem
    rcases List.mem_append.1 hmem with hmem | hmem
    · exact hc hmem
    · exact halpha c (ht c hmem) rfl
  have hlf := hplain lf (by decide +kernel) fun x hx => (alphabet_plain x hx).1
  have hcr := hplain cr (by decide +kernel) fun x hx => (alphabet_plain x hx).2.1
  have hdash := hplain 45 (by decide +kernel) fun x hx => (alphabet_plain x hx).2.2.1
  have hfirst : capture (fieldItems (str "Content-Length: ")) (str "GET / HTTP/1.0") = none :=
    @capture_none _ _ 45 (by decide +kernel) (by decide +kernel)
  have hsecond : capture (fieldItems (str "Content-Length: "))
      (str "Authorization: Basic " ++ token) = none :=
    @capture_none _ _ 45 (by decide +kernel) hdash
  have hthird : capture (fieldItems (str "Content-Length: ")) [] = none := by decide +kernel
  rw [loginRequest, headerLoop_line (receiveLine_crlf (by decide +kernel) (by decide +kernel))
    (by decide), headerLoop_line (receiveLine_crlf hlf hcr) (by simp [str]), headerLoop,
    receiveLine_crlf (by simp) (by simp)]
  dsimp only
  rw [if_pos rfl, Header.line_of_none hthird, Header.line_of_none hsecond,
    Header.line_of_none hfirst]
  simp [Header.start]

/-- It is a request with the method `GET`. -/
theorem loginRequest_line (token : Bytes) :
    ∃ path, lineCaptures (loginRequest token) = (some (str "GET"), some path) := by
  obtain ⟨tail, htail⟩ : ∃ tail, loginRequest token =
      str "GET" ++ 32 :: (47 :: (str " HTTP/" ++ 49 :: 46 :: 48 :: tail)) := ⟨_, rfl⟩
  -- the path goes on to the last ` HTTP/` with a version, wherever that is
  obtain ⟨u, v, m, -, hv, hmax⟩ := @maxExpand_of_fits _ _ anyByte
    (Pattern.run (.closes :: (lit (str " HTTP/") ++ versionItems))
      (47 :: (str " HTTP/" ++ 49 :: 46 :: 48 :: tail)) [str "GET"]) []
    (str " HTTP/" ++ 49 :: 46 :: 48 :: tail) (by simp) (by
      have hc := run_closes (lit (str " HTTP/") ++ versionItems) [47]
        (str " HTTP/" ++ 49 :: 46 :: 48 :: tail) [str "GET"]
      rw [List.singleton_append] at hc
      rw [hc, run_version (by decide) (by decide)]
      rfl)
  rw [Pattern.run] at hv
  obtain ⟨more, hmore⟩ := run_caps_prefix _ hv
  generalize (47 :: (str " HTTP/" ++ 49 :: 46 :: 48 :: tail)).take _ = path at hmore
  have hupper : ∀ c ∈ str "GET", isupper c = true := request_bytes.1
  have hexec : exec headerItems (loginRequest token) = some m := by
    rw [htail]
    refine exec_method _ (by simp [str]) hupper fun start => ?_
    rw [Pattern.run, Pattern.run]
    exact hmax
  refine ⟨path, ?_⟩
  obtain ⟨caps, rest⟩ := m
  dsimp only at hmore
  subst hmore
  rw [lineCaptures, find_of_exec hexec]
  rfl

/-- The credentials in the request, if the token is one. -/
theorem loginRequest_basic {token : Bytes} (ht : ∀ c ∈ token, c ∈ alphabet) (hne : token ≠ []) :
    capture (fieldItems (str "Basic ")) (loginRequest token) = some token := by
  have hsplit : loginRequest token = (str "GET / HTTP/1.0" ++ crlf ++ str "Authorization: ") ++
      (66 :: str "asic " ++ (token ++ (crlf ++ crlf))) := by
    have hbasic : str "Authorization: Basic " = str "Authorization: " ++ 66 :: str "asic " := rfl
    simp [loginRequest, hbasic]
  have hfield : str "Basic " = 66 :: str "asic " := rfl
  rw [hsplit, hfield]
  have hpre : 66 ∉ str "GET / HTTP/1.0" ++ crlf ++ str "Authorization: " := by decide
  have hvalue : ∀ x ∈ token, isValue x = true := fun x hx => (alphabet_plain x (ht x hx)).2.2.2
  have hrest : ∀ x ∈ (crlf ++ crlf).head?, isValue x = false := request_bytes.2.1
  exact capture_field hpre hne hvalue hrest

/-- It has an `Authorization` field. -/
theorem loginRequest_authorization {token : Bytes} (ht : ∀ c ∈ token, c ∈ alphabet) :
    capture (fieldItems (str "Authorization: ")) (loginRequest token) =
      some (str "Basic " ++ token) := by
  have hsplit : loginRequest token = (str "GET / HTTP/1.0" ++ crlf) ++
      (65 :: str "uthorization: " ++ ((str "Basic " ++ token) ++ (crlf ++ crlf))) := by
    have hauth : str "Authorization: Basic " = 65 :: str "uthorization: " ++ str "Basic " := rfl
    simp [loginRequest, hauth]
  have hfield : str "Authorization: " = 65 :: str "uthorization: " := rfl
  have hvalue : ∀ x ∈ str "Basic " ++ token, isValue x = true := by
    intro x hx
    rcases List.mem_append.1 hx with hx | hx
    · exact request_bytes.2.2 x hx
    · exact (alphabet_plain x (ht x hx)).2.2.2
  rw [hsplit, hfield]
  have hpre : 65 ∉ str "GET / HTTP/1.0" ++ crlf := by decide
  have hrest : ∀ x ∈ (crlf ++ crlf).head?, isValue x = false := request_bytes.2.1
  exact capture_field hpre (by simp [str]) hvalue hrest

/-- With the credentials of a user, a client gets to `handleRequest`. -/
theorem loginRequest_handled {conf : Elem} {token u p : Bytes} (ht : ∀ c ∈ token, c ∈ alphabet)
    (hne : token ≠ []) (hdec : b64dec token = .ok (u ++ 58 :: p)) (hu : 58 ∉ u)
    (hacc : Accepts conf u p) (body : Number → Bytes → Option Bytes) (ip : Option Bytes) :
    ∃ method path b, processConnection conf body ip (loginRequest token) =
      .ok (.handle method path b) := by
  have hheader := loginRequest_header ht
  have hg : requestGroup conf (loginRequest token) = .ok (userGroup conf (some u) (some p)) := by
    rw [requestGroup, loginRequest_authorization ht, loginRequest_basic ht hne]
    dsimp only
    rw [hdec, Except.map, credentials_append hu]
  obtain ⟨path, hline⟩ := loginRequest_line token
  obtain ⟨group, hgroup⟩ := Option.isSome_iff_exists.1 ((userGroup_isSome conf u p).2 hacc)
  rw [processConnection_eq (by rw [hheader]; rfl) (by rw [hheader]; exact hg), hheader]
  dsimp only
  rw [hline, hgroup, answer, if_pos (Or.inl rfl), if_neg (by simp)]
  exact ⟨_, _, _, rfl⟩

/-! ### The configurations that are safe -/

/-- **Only users that are written down get in, exactly if no user has the attributes of nobody.**  A
user whose user name or password is missing is one with the empty string there. -/
theorem auth_sound_iff (conf : Elem) : AuthSound conf ↔ WrittenDown conf := by
  constructor
  · intro hsound k hk hk' e l he hl hu
    obtain ⟨token, ht, hne, hdec⟩ :=
      exists_token (readAs l (str "username") ++ 58 :: readAs l (str "password"))
    have hacc : Accepts conf (readAs l (str "username")) (readAs l (str "password")) :=
      ⟨k, hk, hk', e, l, he, hl, rfl, rfl⟩
    obtain ⟨method, path, b, hhandle⟩ := loginRequest_handled ht (hne (by simp)) hdec hu hacc
      (fun _ _ => none) (some (str "10.0.0.7"))
    obtain ⟨u, p, ⟨basic, pair, hbasic, hpair, hsplit, hu'⟩, hcarries⟩ :=
      hsound _ _ _ _ _ _ (by decide +kernel) hhandle
    -- the request presents one pair only
    rw [loginRequest_header ht, loginRequest_basic ht (hne (by simp)),
      Option.some.injEq] at hbasic
    rw [← hbasic, hdec, Except.ok.injEq] at hpair
    have hcred := credentials_append (p := readAs l (str "password")) hu
    rw [hpair, hsplit, credentials_append hu'] at hcred
    simp only [Prod.mk.injEq, Option.some.injEq] at hcred
    rw [← hcred.1, ← hcred.2]
    exact hcarries
  · intro hwritten body ip s method path b hip hhandle
    obtain ⟨u, p, hpresents, k, hk, hk', e, l, he, hl, hu, hp⟩ := accepted_of_handle hip hhandle
    refine ⟨u, p, hpresents, ?_⟩
    obtain ⟨_, _, _, _, _, hcolon⟩ := hpresents
    rw [← hu, ← hp]
    exact hwritten k hk hk' e l he hl (by rwa [hu])

/-- A configuration with a user that has a group only. -/
def groupOnly : Elem := .root [.element (str "http") none [.element (str "users") none
  [.element (str "user") (some [(str "group", str "admin")]) []]]]

/-- An empty user name and an empty password let a client in. -/
theorem nobody_gets_in : ¬ ∀ conf, AuthSound conf := by
  intro hall
  have hwritten := (auth_sound_iff groupOnly).1 (hall groupOnly)
  have hattr : (user groupOnly 1).bind Elem.attr = some [(str "group", str "admin")] := by
    decide +kernel
  obtain ⟨e, huser, he⟩ := Option.bind_eq_some_iff.1 hattr
  obtain ⟨k, hone, height, e', l, he', hl, hname, -⟩ := hwritten 1 le_rfl (by norm_num) e _ huser he
    (by decide +kernel)
  have hnone : ∀ k ∈ [1, 2, 3, 4, 5, 6, 7, 8],
      ((user groupOnly k).bind Elem.attr).bind (List.lookup (str "username")) = none := by
    decide +kernel
  have hmem : k ∈ [1, 2, 3, 4, 5, 6, 7, 8] := by
    simp only [List.mem_cons, List.not_mem_nil, or_false]
    omega
  have hk := hnone k hmem
  rw [he', Option.bind_some, hl, Option.bind_some, hname] at hk
  cases hk

end ZRouter.Web
