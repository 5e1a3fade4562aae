import ZRouter.Route.Uplinks

/-!
# Runs of `ROUTE`

A run is a sequence of events on interfaces that `configure_wan` has registered, under a clock that
does not go back.

* `Registered`, `Valid`, `after`: the interfaces at the start, the runs, and the table at the end;
* `Kept`: the invariant of all runs;
* what one event does (`uplink_selected`);
* when an interface that went down stays unselected (`failover_iff_all_up`).
-/

namespace ZRouter.Route

variable {n : ℕ} {κ : Type}

/-! ### Runs -/

/-- Every interface is as `configure_wan` registers it. -/
def Registered (s : Table n κ) : Prop :=
  ∀ i, ∃ name group cost state, s i = Iface.f name group cost state (some .linkdown)

/-- The table after some events. -/
def after (s : Table n κ) (calls : List (Call n)) : Table n κ :=
  calls.foldl (fun s c => (event s c).ifaces) s

section Valid

variable [Ring κ] [LinearOrder κ]

/-- The order in a call is one that `group_sort` may give. -/
def Call.Sorts (s : Table n κ) (c : Call n) : Prop :=
  ∀ i, findIface s c.name = some i → GroupSort (deliver s i c.t) (deliver s i c.t i).group c.order

/-- A run from the table `s` at the time `t`. -/
def Valid (s : Table n κ) (t : ℕ) : List (Call n) → Prop
  | [] => True
  | c :: calls => t ≤ c.now ∧ c.Sorts s ∧ Valid (event s c).ifaces c.now calls

theorem valid_append {s : Table n κ} {t : ℕ} {calls : List (Call n)} {c : Call n}
    (h : Valid s t (calls ++ [c])) : Valid s t calls ∧ c.Sorts (after s calls) := by
  induction calls generalizing s t with
  | nil => exact ⟨trivial, h.2.1⟩
  | cons d calls ih =>
    obtain ⟨ht, hs, hrest⟩ := h
    obtain ⟨hv, hc⟩ := ih hrest
    exact ⟨⟨ht, hs, hv⟩, hc⟩

end Valid

/-! ### One event -/

/-- The part of an interface that no event changes. -/
theorem receive_fields (x : Iface κ) (t : EventType) :
    (x.receive t).name = x.name ∧ (x.receive t).group = x.group ∧ (x.receive t).cost = x.cost ∧
      (x.receive t).state = x.state ∧ (x.receive t).keep = x.keep ∧
      (x.receive t).enabletime = x.enabletime := by
  have hupdate : ∀ l, (x.updatelinkstate l).name = x.name ∧ (x.updatelinkstate l).group = x.group ∧
      (x.updatelinkstate l).cost = x.cost ∧ (x.updatelinkstate l).state = x.state ∧
      (x.updatelinkstate l).keep = x.keep ∧ (x.updatelinkstate l).enabletime = x.enabletime := by
    intro l
    unfold Iface.updatelinkstate
    split_ifs <;> simp
  cases t with
  | up => exact hupdate .linkup
  | down => exact hupdate .linkdown
  | other => simp [Iface.receive]

theorem deliver_self (s : Table n κ) (i : Fin n) (t : EventType) :
    deliver s i t i = (s i).receive t := by
  simp [deliver]

theorem deliver_ne (s : Table n κ) {i j : Fin n} (t : EventType) (h : j ≠ i) :
    deliver s i t j = s j := by
  simp [deliver, h]

/-- A property of single interfaces that `receive` keeps holds after `deliver`. -/
theorem deliver_rule {P : Fin n → Iface κ → Prop} {s : Table n κ} {i : Fin n} {t : EventType}
    (h : ∀ j, P j (s j)) (hi : P i ((s i).receive t)) : ∀ j, P j (deliver s i t j) := by
  intro j
  by_cases hj : j = i
  · subst hj
    rwa [deliver_self]
  · rw [deliver_ne s t hj]
    exact h j

theorem deliver_group (s : Table n κ) (i : Fin n) (t : EventType) (j : Fin n) :
    (deliver s i t j).group = (s j).group :=
  deliver_rule (P := fun j x => x.group = (s j).group) (fun _ => rfl)
    (receive_fields (s i) t).2.1 j

theorem mem_groupList {s : Table n κ} {group : Bytes} {i : Fin n} :
    i ∈ groupList s group ↔ (s i).group = group := by
  simp [groupList]

/-- What an interface always satisfies: it is kept, and it has neither link nor a start time while
it is not up. -/
structure Iface.Kept (x : Iface κ) : Prop where
  keep : x.keep = true
  idle : x.state ≠ .up → x.linkstate = .linkdown ∧ x.enabletime = 0

theorem Iface.Kept.receive {x : Iface κ} (h : x.Kept) (t : EventType) : (x.receive t).Kept := by
  refine ⟨(receive_fields x t).2.2.2.2.1.trans h.keep, fun hstate => ?_⟩
  rw [(receive_fields x t).2.2.2.1] at hstate
  obtain ⟨hl, he⟩ := h.idle hstate
  refine ⟨?_, (receive_fields x t).2.2.2.2.2.trans he⟩
  cases t <;> simp [Iface.receive, Iface.updatelinkstate, hstate, hl]

theorem Iface.Kept.wake {x : Iface κ} (h : x.Kept) (now : ℕ) : (x.wake now).Kept :=
  ⟨(Iface.wake_keep now x).trans h.keep, fun hstate => absurd (Iface.wake_state now x) hstate⟩

theorem Registered.kept {s : Table n κ} (h : Registered s) (i : Fin n) : (s i).Kept := by
  obtain ⟨name, group, cost, state, hi⟩ := h i
  rw [hi]
  exact ⟨rfl, fun _ => ⟨rfl, rfl⟩⟩

section Event

variable [Ring κ] [LinearOrder κ] {s : Table n κ} {group : Bytes} {order : List (Fin n)}

theorem GroupSort.nodup (h : GroupSort s group order) : order.Nodup :=
  h.perm.nodup_iff.2 ((List.nodup_finRange n).filter _)

theorem GroupSort.mem_iff (h : GroupSort s group order) {i : Fin n} :
    i ∈ order ↔ (s i).group = group := by
  rw [h.perm.mem_iff, mem_groupList]

/-- An event on a known interface: it is delivered, and then the loop runs. -/
theorem event_eq {c : Call n} {i : Fin n} (hkeep : ∀ j, (s j).keep = true) (hsort : c.Sorts s)
    (hi : findIface s c.name = some i) :
    event s c =
      ⟨fun j => if j ∈ waiting c.now (deliver s i c.t) c.order then
          (deliver s i c.t j).wake c.now else deliver s i c.t j,
        c.order.find? (ready c.now (deliver s i c.t))⟩ := by
  have hkeep' : ∀ j, (deliver s i c.t j).keep = true := by
    refine deliver_rule (P := fun _ x => x.keep = true) hkeep ?_
    rw [(receive_fields (s i) c.t).2.2.2.2.1, hkeep]
  rw [event, hi]
  exact maintainIfgroup_eq hkeep' (hsort i hi).nodup

/-- A property of single interfaces that `receive` and `wake` keep holds after every event. -/
theorem event_rule {P : Fin n → Iface κ → Prop} {c : Call n} (hkeep : ∀ j, (s j).keep = true)
    (hsort : c.Sorts s) (h : ∀ j, P j (s j))
    (hreceive : ∀ i, findIface s c.name = some i → P i ((s i).receive c.t))
    (hwake : ∀ j x, P j x → P j (x.wake c.now)) : ∀ j, P j ((event s c).ifaces j) := by
  intro j
  cases hi : findIface s c.name with
  | none =>
    rw [event, hi]
    exact h j
  | some i =>
    have hd := deliver_rule h (hreceive i hi) j
    rw [event_eq hkeep hsort hi]
    dsimp only
    split_ifs
    · exact hwake j _ hd
    · exact hd

theorem kept_event {c : Call n} (hsort : c.Sorts s) (h : ∀ j, (s j).Kept) :
    ∀ j, ((event s c).ifaces j).Kept :=
  event_rule (P := fun _ x => x.Kept) (fun j => (h j).keep) hsort h
    (fun i _ => (h i).receive c.t) (fun _ _ hx => hx.wake c.now)

/-- A property of tables that every event keeps holds at the end of a run. -/
theorem after_rule {I : Table n κ → Prop} {t : ℕ} {calls : List (Call n)}
    (step : ∀ s c, I s → c.Sorts s → I (event s c).ifaces) (hstart : I s)
    (hvalid : Valid s t calls) : I (after s calls) := by
  induction calls generalizing s t with
  | nil => exact hstart
  | cons c calls ih => exact ih (step s c hstart hvalid.2.1) hvalid.2.2

theorem kept_after {t : ℕ} {calls : List (Call n)} (hreg : Registered s)
    (hvalid : Valid s t calls) : ∀ j, (after s calls j).Kept :=
  after_rule (I := fun s => ∀ j, (s j).Kept) (fun _ _ h hsort => kept_event hsort h) hreg.kept
    hvalid

end Event

/-! ### Selection -/

/-- An interface that goes before another in the order does not cost more. -/
theorem cost_le_of_before {x y : Iface ℤ} (h : ¬ link2cost y < link2cost x) : x.cost ≤ y.cost := by
  unfold link2cost at h
  split_ifs at h <;> omega

/-- What one event does, from the table `s` just before `maintain_ifgroup` in an order that
`group_sort` may give to `r`, the table and the selection after it. -/
structure Selection (s : Table n ℤ) (now : ℕ) (group : Bytes) (order : List (Fin n))
    (r : Loop n ℤ) : Prop where
  /-- If some interface of the group is up and has link, a cheapest one of these is selected. -/
  cheapest : (∃ j, (s j).group = group ∧ ready now s j = true) → ∃ k, r.selected = some k ∧
    (s k).group = group ∧ ready now s k = true ∧
    ∀ j, (s j).group = group → ready now s j = true → (s k).cost ≤ (s j).cost
  /-- What the order has before the selected interface is up. -/
  before_up : ∀ pre k post, order = pre ++ k :: post → r.selected = some k →
    ∀ j ∈ pre, (r.ifaces j).state = .up
  /-- If none is selected, the whole group is up. -/
  none_up : r.selected = none → ∀ j, (s j).group = group → (r.ifaces j).state = .up
  /-- In any case some interface of the group is up. -/
  some_up : ∃ j, (s j).group = group ∧ (r.ifaces j).state = .up
  /-- What the order has from the selected interface on is as it was. -/
  rest : ∀ pre k post, order = pre ++ k :: post → r.selected = some k →
    ∀ j ∈ k :: post, r.ifaces j = s j
  /-- The other groups are as they were. -/
  others : ∀ j, (s j).group ≠ group → r.ifaces j = s j

/-- The outcome of the loop, read off its closed form. -/
theorem selection_of_sorted {s : Table n ℤ} {now : ℕ} {group : Bytes} {order : List (Fin n)}
    (hsort : GroupSort s group order) {i : Fin n} (hi : (s i).group = group) :
    Selection s now group order
      ⟨fun j => if j ∈ waiting now s order then (s j).wake now else s j,
        order.find? (ready now s)⟩ := by
  have hwaiting : ∀ {j}, j ∈ waiting now s order → j ∈ order := fun h =>
    (List.takeWhile_sublist _).subset h
  have hnone : order.find? (ready now s) = none → ∀ j, (s j).group = group →
      (if j ∈ waiting now s order then (s j).wake now else s j).state = .up := by
    intro h j hj
    rw [waiting_of_find_none h, if_pos (hsort.mem_iff.2 hj)]
    exact Iface.wake_state now (s j)
  -- the split of the order at the selected interface is unique
  have hsplit : ∀ {pre k post}, order = pre ++ k :: post → order.find? (ready now s) = some k →
      pre = waiting now s order := by
    intro pre k post horder hk
    obtain ⟨post', horder', -⟩ := find_ready_split hk
    have hnodup := hsort.nodup
    rw [horder, List.nodup_append, List.nodup_cons] at hnodup
    have hpre : k ∉ pre := fun h => hnodup.2.2 k h k List.mem_cons_self rfl
    exact ((List.append_cons_inj_of_notMem hpre hnodup.2.1.1).1 (horder.symm.trans horder')).1
  constructor
  case cheapest =>
    rintro ⟨j, hj, hr⟩
    have hsome : (order.find? (ready now s)).isSome = true := by
      rw [List.find?_isSome]
      exact ⟨j, hsort.mem_iff.2 hj, hr⟩
    obtain ⟨k, hk⟩ := Option.isSome_iff_exists.1 hsome
    obtain ⟨post, horder, hkr⟩ := find_ready_split hk
    refine ⟨k, hk, hsort.mem_iff.1 (List.mem_of_find?_eq_some hk), hkr, fun j' hj' hr' => ?_⟩
    have hmem := hsort.mem_iff.2 hj'
    rw [horder, List.mem_append, List.mem_cons] at hmem
    rcases hmem with hw | rfl | hpost
    · -- what waits is not ready
      have := List.mem_takeWhile_imp hw
      simp [hr'] at this
    · exact le_rfl
    · have hsorted := hsort.sorted
      rw [horder, List.pairwise_append, List.pairwise_cons] at hsorted
      exact cost_le_of_before (hsorted.2.1.1 j' hpost)
  case before_up =>
    intro pre k post horder hk j hj
    rw [hsplit horder hk] at hj
    dsimp only
    rw [if_pos hj]
    exact Iface.wake_state now (s j)
  case none_up => exact hnone
  case some_up =>
    cases hk : order.find? (ready now s) with
    | none => exact ⟨i, hi, hnone hk i hi⟩
    | some k =>
      obtain ⟨-, -, hkr⟩ := find_ready_split hk
      refine ⟨k, hsort.mem_iff.1 (List.mem_of_find?_eq_some hk), ?_⟩
      dsimp only
      split_ifs
      · exact Iface.wake_state now (s k)
      · have hup : (s k).isup = true := by
          rw [ready, Bool.and_eq_true] at hkr
          exact hkr.1
        simpa [Iface.isup] using hup
  case rest =>
    intro pre k post horder hk j hj
    have hnodup := hsort.nodup
    rw [horder] at hnodup
    dsimp only
    rw [if_neg]
    rw [← hsplit horder hk]
    exact fun h => (List.disjoint_of_nodup_append hnodup) h hj
  case others =>
    intro j hj
    dsimp only
    rw [if_neg]
    exact fun h => hj (hsort.mem_iff.1 (hwaiting h))

/-- Two uplinks of one group that are up from the start, a cheap one and a dear one. -/
def twoUplinks : Table 2 ℤ :=
  ![Iface.f (str "Static") (some (str "WAN")) 10 .up (some .linkdown),
    Iface.f (str "PPP") (some (str "WAN")) 1000 .up (some .linkdown)]

theorem twoUplinks_registered : Registered twoUplinks :=
  Fin.forall_fin_two.2
    ⟨⟨str "Static", some (str "WAN"), 10, .up, rfl⟩, ⟨str "PPP", some (str "WAN"), 1000, .up, rfl⟩⟩

/-- An event on one of the two, with the cheap one first in the order. -/
def twoCall (now : ℕ) (name : Bytes) (t : EventType) : Call 2 := ⟨now, name, t, [0, 1]⟩

/-- Link on the cheap one and then on the dear one. -/
def twoCalls : List (Call 2) := [twoCall 1 (str "Static") .up, twoCall 2 (str "PPP") .up]

theorem twoCalls_valid (t : EventType) :
    Valid twoUplinks 0 (twoCalls ++ [twoCall 3 (str "PPP") t]) := by
  refine ⟨by decide, fun i hi => ?_, by decide, fun i hi => ?_, (by decide : 2 ≤ 3),
    fun i hi => ?_, trivial⟩
  · have h0 : i = 0 := by revert i; decide
    subst h0
    exact ⟨by decide, by decide⟩
  · have h1 : i = 1 := by revert i; decide
    subst h1
    exact ⟨by decide, by decide⟩
  · have h1 : i = 1 := by revert i; cases t <;> decide
    subst h1
    cases t <;> exact ⟨by decide, by decide⟩

/-- The last of the events `up` and `down` that was delivered to the interface `i`. -/
def lastEvent (s : Table n κ) (calls : List (Call n)) (i : Fin n) : Option EventType :=
  calls.foldl (fun e c => if findIface s c.name = some i ∧ c.t ≠ .other then some c.t else e) none

theorem lastEvent_append (s : Table n κ) (calls : List (Call n)) (c : Call n) (i : Fin n) :
    lastEvent s (calls ++ [c]) i =
      if findIface s c.name = some i ∧ c.t ≠ .other then some c.t else lastEvent s calls i := by
  simp only [lastEvent, List.foldl_append, List.foldl_cons, List.foldl_nil]

/-- Events do not change names, so they reach the same interface all the time. -/
theorem findIface_congr {s s' : Table n κ} (h : ∀ j, (s j).name = (s' j).name) (name : Bytes) :
    findIface s name = findIface s' name := by
  simp only [findIface, h]

/-- An interface that is up from the start never gets a start time, so its link state decides. -/
structure Iface.Steady (x : Iface κ) : Prop where
  keep : x.keep = true
  up : x.state = .up
  enabletime : x.enabletime = 0

theorem Iface.Steady.receive {x : Iface κ} (h : x.Steady) (t : EventType) : (x.receive t).Steady := by
  obtain ⟨-, -, -, hstate, hkeep, htime⟩ := receive_fields x t
  exact ⟨hkeep.trans h.keep, hstate.trans h.up, htime.trans h.enabletime⟩

theorem Iface.Steady.wake {x : Iface κ} (h : x.Steady) (now : ℕ) : x.wake now = x := by
  simp [Iface.wake, Iface.isup, h.up]

/-- The invariant of runs in which all interfaces are up from the start: none has link after its
last event was `down`. -/
structure SteadyRun (s₀ s : Table n κ) (calls : List (Call n)) : Prop where
  steady : ∀ j, (s j).Steady
  name : ∀ j, (s j).name = (s₀ j).name
  down : ∀ j, lastEvent s₀ calls j = some .down → (s j).linkstate = .linkdown

/-- The table just before `maintain_ifgroup` meets the invariant, with the event counted. -/
theorem SteadyRun.deliver {s₀ s : Table n κ} {calls : List (Call n)} (h : SteadyRun s₀ s calls)
    {c : Call n} {i : Fin n} (hi : findIface s c.name = some i) :
    SteadyRun s₀ (deliver s i c.t) (calls ++ [c]) := by
  have hi' : findIface s₀ c.name = some i := by rw [← findIface_congr h.name, hi]
  refine ⟨deliver_rule (P := fun _ x => x.Steady) h.steady ((h.steady i).receive c.t),
    deliver_rule (P := fun j x => x.name = (s₀ j).name) h.name
      ((receive_fields (s i) c.t).1.trans (h.name i)), fun j hj => ?_⟩
  rw [lastEvent_append, hi'] at hj
  by_cases hji : j = i
  · subst hji
    rw [deliver_self]
    cases ht : c.t with
    | up => simp [ht] at hj
    | down => simp [Iface.receive, Iface.updatelinkstate]
    | other => exact h.down j (by simpa [ht] using hj)
  · rw [deliver_ne s c.t hji]
    have hne : ¬ (some i = some j ∧ c.t ≠ .other) := fun hh => hji (Option.some.inj hh.1).symm
    exact h.down j (by rwa [if_neg hne] at hj)

/-- A single interface, found by its name. -/
theorem findIface_of_injective {s : Table n κ} (h : Function.Injective fun i => (s i).name)
    (i : Fin n) : findIface s (s i).name = some i := by
  have hsome : (findIface s (s i).name).isSome = true := by
    rw [findIface, List.find?_isSome]
    exact ⟨i, List.mem_finRange i, by simp⟩
  obtain ⟨j, hj⟩ := Option.isSome_iff_exists.1 hsome
  have hname : (s j).name = (s i).name := by simpa using List.find?_some hj
  rw [hj, h hname]

section Failover

variable [Ring κ] [LinearOrder κ]

/-- An interface that went down is not selected before it is up again. -/
def Failover (s₀ : Table n κ) : Prop :=
  ∀ calls c i, Valid s₀ 0 (calls ++ [c]) → (event (after s₀ calls) c).selected = some i →
    lastEvent s₀ (calls ++ [c]) i ≠ some .down

theorem SteadyRun.event {s₀ s : Table n κ} {calls : List (Call n)} (h : SteadyRun s₀ s calls)
    {c : Call n} (hsort : c.Sorts s) : SteadyRun s₀ (event s c).ifaces (calls ++ [c]) := by
  cases hi : findIface s c.name with
  | none =>
    have hsame : (Route.event s c).ifaces = s := by rw [Route.event, hi]
    rw [hsame]
    refine ⟨h.steady, h.name, fun j hj => h.down j ?_⟩
    rw [lastEvent_append, ← findIface_congr h.name, hi] at hj
    simpa using hj
  | some i =>
    have hd := h.deliver hi
    have hsame : (Route.event s c).ifaces = Route.deliver s i c.t := by
      rw [event_eq (fun j => (h.steady j).keep) hsort hi]
      funext j
      dsimp only
      rw [(hd.steady j).wake, ite_self]
    rw [hsame]
    exact hd

theorem steadyRun_after {s₀ : Table n κ} (hstart : SteadyRun s₀ s₀ []) {t : ℕ}
    {calls : List (Call n)} (hvalid : Valid s₀ t calls) : SteadyRun s₀ (after s₀ calls) calls := by
  induction calls using List.reverseRecOn with
  | nil => exact hstart
  | append_singleton calls c ih =>
    obtain ⟨hv, hsort⟩ := valid_append hvalid
    have hrun := (ih hv).event hsort
    simpa [after] using hrun

/-- If all interfaces are up from the start, those that went down are not selected. -/
theorem failover_of_all_up {s₀ : Table n κ} (hreg : Registered s₀)
    (hup : ∀ i, (s₀ i).state = .up) : Failover s₀ := by
  have hstart : SteadyRun s₀ s₀ [] := by
    refine ⟨fun j => ?_, fun _ => rfl, fun j hj => by simp [lastEvent] at hj⟩
    obtain ⟨name, group, cost, state, hj⟩ := hreg j
    refine ⟨by rw [hj]; rfl, hup j, by rw [hj]; rfl⟩
  intro calls c k hvalid hsel hlast
  obtain ⟨hv, hsort⟩ := valid_append hvalid
  have hrun := steadyRun_after hstart hv
  cases hi : findIface (after s₀ calls) c.name with
  | none =>
    rw [event, hi] at hsel
    cases hsel
  | some i =>
    have hd := hrun.deliver hi
    rw [event_eq (fun j => (hrun.steady j).keep) hsort hi] at hsel
    have hready : ready c.now (deliver (after s₀ calls) i c.t) k = true :=
      (find_ready_split hsel).choose_spec.2
    -- its link state is down, and it has no start time
    simp [ready, Iface.islinkup, (hd.steady k).enabletime, hd.down k hlast] at hready

/-! ### The failing run -/

/-- Some order is always possible. -/
theorem exists_groupSort (s : Table n κ) (group : Bytes) : ∃ order, GroupSort s group order := by
  refine ⟨(groupList s group).mergeSort fun a b => decide (link2cost (s a) ≤ link2cost (s b)),
    List.mergeSort_perm _ _, ?_⟩
  have htrans : ∀ a b c : Fin n, decide (link2cost (s a) ≤ link2cost (s b)) = true →
      decide (link2cost (s b) ≤ link2cost (s c)) = true →
      decide (link2cost (s a) ≤ link2cost (s c)) = true := by
    intro a b c hab hbc
    simp only [decide_eq_true_eq] at hab hbc ⊢
    exact hab.trans hbc
  have htotal : ∀ a b : Fin n, (decide (link2cost (s a) ≤ link2cost (s b)) ||
      decide (link2cost (s b) ≤ link2cost (s a))) = true := by
    intro a b
    simpa using le_total _ _
  have hsorted := List.pairwise_mergeSort htrans htotal (groupList s group)
  refine hsorted.imp fun hab => ?_
  simpa using hab

theorem exists_call (s : Table n κ) (now : ℕ) (name : Bytes) (t : EventType) :
    ∃ order, (Call.mk now name t order).Sorts s := by
  cases hi : findIface s name with
  | none => exact ⟨[], fun i h => by rw [hi] at h; cases h⟩
  | some i =>
    obtain ⟨order, hsort⟩ := exists_groupSort (deliver s i t) (deliver s i t i).group
    refine ⟨order, fun j hj => ?_⟩
    rw [hi] at hj
    cases hj
    exact hsort

theorem valid_concat {s : Table n κ} {t : ℕ} {calls : List (Call n)} {c : Call n}
    (h : Valid s t calls) (ht : t ≤ c.now) (hle : ∀ d ∈ calls, d.now ≤ c.now)
    (hsort : c.Sorts (after s calls)) : Valid s t (calls ++ [c]) := by
  induction calls generalizing s t with
  | nil => exact ⟨ht, hsort, trivial⟩
  | cons d calls ih =>
    obtain ⟨hd, hds, hrest⟩ := h
    exact ⟨hd, hds, ih hrest (hle d List.mem_cons_self)
      (fun e he => hle e (List.mem_cons_of_mem d he)) hsort⟩

/-- A run at time one in which the interfaces of `l` have gone down. -/
structure DownRun (s₀ : Table n κ) (l : List (Fin n)) (calls : List (Call n)) : Prop where
  valid : Valid s₀ 0 calls
  time : ∀ d ∈ calls, d.now = 1
  name : ∀ j, (after s₀ calls j).name = (s₀ j).name
  keep : ∀ j, (after s₀ calls j).keep = true
  link : ∀ j, (after s₀ calls j).linkstate = .linkdown
  sleeps : ∀ j, (s₀ j).state = .down →
    (after s₀ calls j).state = .down ∨ (after s₀ calls j).enabletime = 1
  up : ∀ j ∈ l, (after s₀ calls j).state = .up
  last : ∀ j ∈ l, lastEvent s₀ calls j = some .down

/-- One more interface goes down. -/
theorem DownRun.step {s₀ : Table n κ} {l : List (Fin n)} {calls : List (Call n)}
    (h : DownRun s₀ l calls) (hnames : Function.Injective fun i => (s₀ i).name) (i : Fin n) :
    ∃ c, DownRun s₀ (i :: l) (calls ++ [c]) := by
  obtain ⟨order, hsort⟩ := exists_call (after s₀ calls) 1 (s₀ i).name .down
  have hi : findIface (after s₀ calls) (s₀ i).name = some i := by
    rw [findIface_congr h.name, findIface_of_injective hnames]
  have hafter : after s₀ (calls ++ [⟨1, (s₀ i).name, .down, order⟩]) =
      (event (after s₀ calls) ⟨1, (s₀ i).name, .down, order⟩).ifaces := by
    simp [after]
  have hrule := fun P => event_rule (P := P) h.keep hsort
  have hevent := event_eq h.keep hsort hi
  have hgroup := hsort i hi
  refine ⟨⟨1, (s₀ i).name, .down, order⟩, ?_⟩
  refine ⟨valid_concat h.valid (Nat.zero_le 1) (fun d hd => (h.time d hd).le) hsort, ?_, ?_, ?_, ?_,
    ?_, ?_, ?_⟩
  · intro d hd
    rcases List.mem_append.1 hd with hd | hd
    · exact h.time d hd
    · rw [List.mem_singleton.1 hd]
  · rw [hafter]
    exact hrule (fun j x => x.name = (s₀ j).name) h.name
      (fun k _ => (receive_fields _ _).1.trans (h.name k))
      (fun j x hx => (Iface.wake_name 1 x).trans hx)
  · rw [hafter]
    exact hrule (fun _ x => x.keep = true) h.keep
      (fun k _ => (receive_fields _ _).2.2.2.2.1.trans (h.keep k))
      (fun _ x hx => (Iface.wake_keep 1 x).trans hx)
  · rw [hafter]
    exact hrule (fun _ x => x.linkstate = .linkdown) h.link
      (fun k _ => by simp [Iface.receive, Iface.updatelinkstate])
      (fun _ x hx => (Iface.wake_linkstate 1 x).trans hx)
  · rw [hafter]
    refine hrule (fun j x => (s₀ j).state = .down → x.state = .down ∨ x.enabletime = 1) h.sleeps
      (fun k _ hk => ?_) (fun j x hx hj => Or.inr ?_)
    · obtain ⟨-, -, -, hstate, -, htime⟩ := receive_fields (after s₀ calls k) .down
      rw [hstate, htime]
      exact h.sleeps k hk
    · rw [Iface.wake_enabletime]
      split_ifs with hup
      · rcases hx hj with hdown | htime
        · rw [hup] at hdown
          cases hdown
        · exact htime
      · rfl
  · rw [hafter]
    -- nothing is ready at time one, so the whole group is woken
    have hready : ∀ j ∈ order, ready 1 (deliver (after s₀ calls) i .down) j = false := by
      intro j _
      have hlink : (deliver (after s₀ calls) i .down j).linkstate = .linkdown :=
        deliver_rule (P := fun _ x => x.linkstate = .linkdown) h.link
          (by simp [Iface.receive, Iface.updatelinkstate]) j
      simp only [ready, Iface.islinkup, Iface.updelay, hlink]
      split_ifs <;> simp
    have hwait : waiting 1 (deliver (after s₀ calls) i .down) order = order :=
      waiting_of_find_none (by simpa using hready)
    intro j hj
    rcases List.mem_cons.1 hj with rfl | hj
    · rw [hevent]
      dsimp only
      rw [hwait, if_pos (hgroup.mem_iff.2 rfl)]
      exact Iface.wake_state _ _
    · exact hrule (fun k x => k ∈ l → x.state = .up) h.up
        (fun k _ hk => (receive_fields _ _).2.2.2.1.trans (h.up k hk))
        (fun _ x _ _ => Iface.wake_state 1 x) j hj
  · intro j hj
    rw [lastEvent_append, findIface_of_injective hnames]
    rcases List.mem_cons.1 hj with rfl | hj
    · simp
    · split_ifs
      · rfl
      · exact h.last j hj

/-- All interfaces of a list can go down at time one. -/
theorem exists_downRun {s₀ : Table n κ} (hreg : Registered s₀)
    (hnames : Function.Injective fun i => (s₀ i).name) (l : List (Fin n)) :
    ∃ calls, DownRun s₀ l calls := by
  induction l with
  | nil =>
    refine ⟨[], trivial, by simp, fun _ => rfl, fun j => (hreg.kept j).keep, fun j => ?_,
      fun j hj => Or.inl hj, by simp, by simp⟩
    obtain ⟨name, group, cost, state, hj⟩ := hreg j
    simp [after, hj, Iface.f]
  | cons i l ih =>
    obtain ⟨calls, h⟩ := ih
    obtain ⟨c, hc⟩ := h.step hnames i
    exact ⟨_, hc⟩

/-- **Failover holds exactly when every interface is registered in the state `up`.**  Only then has
none a start time, with which it counts as linked five seconds later whatever events came. -/
theorem failover_iff_all_up {s₀ : Table n κ} (hreg : Registered s₀)
    (hnames : Function.Injective fun i => (s₀ i).name) :
    Failover s₀ ↔ ∀ i, (s₀ i).state = .up := by
  refine ⟨fun hf i => ?_, failover_of_all_up hreg⟩
  by_contra hi
  have hdown : (s₀ i).state = .down := by
    cases h : (s₀ i).state with
    | up => exact absurd h hi
    | down => rfl
  -- all of them go down at time one; at time six something on `i` runs the loop
  obtain ⟨calls, hrun⟩ := exists_downRun hreg hnames (List.finRange n)
  obtain ⟨order, hsort⟩ := exists_call (after s₀ calls) 6 (s₀ i).name .other
  have hi' : findIface (after s₀ calls) (s₀ i).name = some i := by
    rw [findIface_congr hrun.name, findIface_of_injective hnames]
  have hsame : deliver (after s₀ calls) i .other = after s₀ calls := Function.update_eq_self i _
  have hup := hrun.up i (List.mem_finRange i)
  have htime : (after s₀ calls i).enabletime = 1 := by
    rcases hrun.sleeps i hdown with h | h
    · rw [hup] at h
      cases h
    · exact h
  have hready : ready 6 (after s₀ calls) i = true := by
    simp [ready, Iface.isup, Iface.islinkup, Iface.updelay, hup, htime]
  have hsome : (order.find? (ready 6 (after s₀ calls))).isSome = true := by
    rw [List.find?_isSome]
    exact ⟨i, (hsort i hi').mem_iff.2 rfl, hready⟩
  obtain ⟨k, hk⟩ := Option.isSome_iff_exists.1 hsome
  refine hf calls ⟨6, (s₀ i).name, .other, order⟩ k
    (valid_concat hrun.valid (Nat.zero_le 6)
      (fun d hd => (hrun.time d hd).trans_le (by norm_num)) hsort)
    ?_ ?_
  · rw [event_eq hrun.keep hsort hi']
    dsimp only
    rw [hsame]
    exact hk
  · rw [lastEvent_append, if_neg (by simp)]
    exact hrun.last k (List.mem_finRange k)

end Failover

/-- A PPPoE uplink as `configure_wan` registers it. -/
def pppoeUplink : Table 1 ℤ := fun _ =>
  Iface.f (str "PPPoE") (some (str "WAN")) 1000 .down (some .linkdown)

theorem failover_iff_all_up_twoUplinks :
    Registered twoUplinks ∧ (∀ i, (twoUplinks i).state = .up) ∧ Failover twoUplinks := by
  have hup : ∀ i, (twoUplinks i).state = .up := by decide
  refine ⟨twoUplinks_registered, hup, (failover_iff_all_up twoUplinks_registered ?_).2 hup⟩
  decide

/-- The PPPoE uplink goes down twice, and is selected the second time. -/
theorem pppoe_selected_while_down : ¬ Failover pppoeUplink := by
  intro hf
  refine hf [⟨100, str "PPPoE", .down, [0]⟩] ⟨105, str "PPPoE", .down, [0]⟩ 0 ?_
    (rfl) (rfl)
  refine ⟨by decide, fun i _ => ?_, by decide, fun i _ => ?_, trivial⟩ <;>
    rw [Subsingleton.elim i 0] <;> exact ⟨by decide, by decide⟩

end ZRouter.Route
