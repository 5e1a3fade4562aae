import ZRouter.Lib.CString

/-!
# Uplink selection (`route.lua`)

`ROUTE` keeps the uplinks of the router.  An event on one of them sets its link state and then goes
through the interfaces of its group, the cheapest first: those that are down are enabled, until one
is found that is up and has link.

* `Iface` with the methods that `ROUTE:f` gives it, and `Iface.f`, the record it registers;
* `Table n κ`: the interfaces, in the order of registration; `findIface`, `groupList`, `link2cost`;
* `maintainIfgroup`, `event`: what the source has under these names, for an order that `table.sort`
  may give;
* `maintainIfgroup_eq`: the outcome of the loop in one piece.

The clock is read once for each event: the calls of `os.time()` in one event agree.  `createtime`,
which nothing reads, is left out.
-/

namespace ZRouter.Route

/-- `state`. -/
inductive IfState
  | up
  | down
  deriving DecidableEq

/-- `linkstate`. -/
inductive LinkState
  | linkup
  | linkdown
  deriving DecidableEq

/-- The second argument of `ROUTE:event`. -/
inductive EventType
  | up
  | down
  | other
  deriving DecidableEq

/-- An interface. -/
structure Iface (κ : Type) where
  name : Bytes
  group : Bytes
  cost : κ
  state : IfState
  keep : Bool
  linkstate : LinkState
  enabletime : ℕ
  deriving DecidableEq

variable {κ : Type}

/-- The record that `ROUTE:f` inserts. -/
def Iface.f (name : Bytes) (group : Option Bytes) (cost : κ) (state : IfState)
    (linkstate : Option LinkState) : Iface κ where
  name := name
  group := match group with
    | none => str "MAIN"
    | some g => if g = [] then str "MAIN" else g
  cost := cost
  state := state
  keep := true
  linkstate := linkstate.getD .linkdown
  enabletime := 0

namespace Iface

/-- `debug.updelay`. -/
def updelay : ℕ := 5

/-- `isup`. -/
def isup (x : Iface κ) : Bool := x.state = .up

/-- `islinkup`: an interface that was enabled has link once `updelay` is over. -/
def islinkup (now : ℕ) (x : Iface κ) : Bool :=
  if x.enabletime = 0 then x.linkstate = .linkup else !(now < x.enabletime + updelay)

/-- `enable`. -/
def enable (now : ℕ) (x : Iface κ) : Iface κ := { x with enabletime := now, state := .up }

/-- `disable`. -/
def disable (x : Iface κ) : Iface κ :=
  { x with state := .down, linkstate := .linkdown, enabletime := 0 }

/-- `updatelinkstate`: link on a disabled interface is ignored. -/
def updatelinkstate (x : Iface κ) (lstate : LinkState) : Iface κ :=
  if x.state ≠ .up ∧ lstate = .linkup then x else { x with linkstate := lstate }

/-- What an event does to the interface it is for. -/
def receive (x : Iface κ) : EventType → Iface κ
  | .up => x.updatelinkstate .linkup
  | .down => x.updatelinkstate .linkdown
  | .other => x

end Iface

/-! ### The table -/

/-- The interfaces, in the order of their registration. -/
abbrev Table (n : ℕ) (κ : Type) := Fin n → Iface κ

variable {n : ℕ}

/-- `ROUTE:find_iface`: the first interface of that name. -/
def findIface (s : Table n κ) (name : Bytes) : Option (Fin n) :=
  (List.finRange n).find? fun i => (s i).name = name

/-- `ROUTE:group_list`. -/
def groupList (s : Table n κ) (group : Bytes) : List (Fin n) :=
  (List.finRange n).filter fun i => (s i).group = group

/-- `link2cost`: of two interfaces with one cost, the one in link goes first. -/
def link2cost [Ring κ] (x : Iface κ) : κ :=
  if x.linkstate = .linkup then x.cost * 2 else x.cost * 2 + 1

/-- The variables of the loop in `maintain_ifgroup`. -/
structure Loop (n : ℕ) (κ : Type) where
  ifaces : Table n κ
  selected : Option (Fin n)

/-- One pass of the loop, for the interface `i`. -/
def maintainStep (now : ℕ) (l : Loop n κ) (i : Fin n) : Loop n κ :=
  let ifaces := if l.selected.isSome && (l.ifaces i).isup && !(l.ifaces i).keep then
    Function.update l.ifaces i (l.ifaces i).disable else l.ifaces
  if (ifaces i).isup && (ifaces i).islinkup now && l.selected.isNone then ⟨ifaces, some i⟩
  else if l.selected.isNone && !(ifaces i).isup then
    ⟨Function.update ifaces i ((ifaces i).enable now), l.selected⟩
  else ⟨ifaces, l.selected⟩

/-- `ROUTE:maintain_ifgroup`, where `order` is the sorted list of the group. -/
def maintainIfgroup (now : ℕ) (s : Table n κ) (order : List (Fin n)) : Loop n κ :=
  order.foldl (maintainStep now) ⟨s, none⟩

/-- The table after the event, before `maintain_ifgroup`. -/
def deliver (s : Table n κ) (i : Fin n) (t : EventType) : Table n κ :=
  Function.update s i ((s i).receive t)

/-- A call of `ROUTE:event`: the time, the arguments, and what `table.sort` makes of the list. -/
structure Call (n : ℕ) where
  now : ℕ
  name : Bytes
  t : EventType
  order : List (Fin n)

/-- `ROUTE:event`, with the interface that was selected. -/
def event (s : Table n κ) (c : Call n) : Loop n κ :=
  match findIface s c.name with
  | none => ⟨s, none⟩
  | some i => maintainIfgroup c.now (deliver s i c.t) c.order

/-- `order` is the list of the group in an order that the comparator of `group_sort` allows. -/
structure GroupSort [Ring κ] [LinearOrder κ] (s : Table n κ) (group : Bytes)
    (order : List (Fin n)) : Prop where
  perm : order.Perm (groupList s group)
  sorted : order.Pairwise fun a b => ¬ link2cost (s b) < link2cost (s a)

/-! ### The loop in one piece -/

/-- The test that selects an interface. -/
def ready (now : ℕ) (s : Table n κ) (i : Fin n) : Bool := (s i).isup && (s i).islinkup now

/-- What the loop does to an interface before one is selected. -/
def Iface.wake (now : ℕ) (x : Iface κ) : Iface κ := if x.isup then x else x.enable now

@[simp] theorem Iface.wake_state (now : ℕ) (x : Iface κ) : (x.wake now).state = .up := by
  unfold Iface.wake
  split_ifs with h
  · simpa [Iface.isup] using h
  · rfl

@[simp] theorem Iface.wake_name (now : ℕ) (x : Iface κ) : (x.wake now).name = x.name := by
  unfold Iface.wake
  split_ifs <;> rfl

@[simp] theorem Iface.wake_group (now : ℕ) (x : Iface κ) : (x.wake now).group = x.group := by
  unfold Iface.wake
  split_ifs <;> rfl

@[simp] theorem Iface.wake_keep (now : ℕ) (x : Iface κ) : (x.wake now).keep = x.keep := by
  unfold Iface.wake
  split_ifs <;> rfl

@[simp] theorem Iface.wake_linkstate (now : ℕ) (x : Iface κ) :
    (x.wake now).linkstate = x.linkstate := by
  unfold Iface.wake
  split_ifs <;> rfl

theorem Iface.wake_enabletime (now : ℕ) (x : Iface κ) :
    (x.wake now).enabletime = if x.state = .up then x.enabletime else now := by
  unfold Iface.wake Iface.isup
  by_cases h : x.state = .up <;> simp [h, Iface.enable]

/-- Once an interface is selected, nothing changes: all of them are kept. -/
theorem maintain_selected {now : ℕ} {s : Table n κ} (hkeep : ∀ i, (s i).keep = true) (k : Fin n)
    (order : List (Fin n)) : order.foldl (maintainStep now) ⟨s, some k⟩ = ⟨s, some k⟩ := by
  induction order with
  | nil => rfl
  | cons i order ih =>
    have hstep : maintainStep now ⟨s, some k⟩ i = ⟨s, some k⟩ := by
      simp [maintainStep, hkeep]
    rw [List.foldl_cons, hstep, ih]

/-- The interfaces of the order before the first one that is ready. -/
def waiting (now : ℕ) (s : Table n κ) (order : List (Fin n)) : List (Fin n) :=
  order.takeWhile fun i => !ready now s i

theorem waiting_congr {now : ℕ} {s s' : Table n κ} {order : List (Fin n)}
    (h : ∀ j ∈ order, ready now s j = ready now s' j) :
    waiting now s order = waiting now s' order := by
  induction order with
  | nil => rfl
  | cons i order ih =>
    have hi := h i List.mem_cons_self
    have htail := ih fun j hj => h j (List.mem_cons_of_mem i hj)
    simp only [waiting, List.takeWhile_cons, hi] at htail ⊢
    rw [htail]

/-- **The loop of `maintain_ifgroup`.**  It selects the first interface that was up and had link, and
wakes those before it. -/
theorem maintainIfgroup_eq {now : ℕ} {s : Table n κ} (hkeep : ∀ i, (s i).keep = true)
    {order : List (Fin n)} (hnodup : order.Nodup) :
    maintainIfgroup now s order =
      ⟨fun j => if j ∈ waiting now s order then (s j).wake now else s j,
        order.find? (ready now s)⟩ := by
  unfold maintainIfgroup
  induction order generalizing s with
  | nil => rfl
  | cons i order ih =>
    obtain ⟨hi, hnodup⟩ := List.nodup_cons.1 hnodup
    rw [List.foldl_cons]
    cases hr : ready now s i with
    | true =>
      have hr' := hr
      simp only [ready, Bool.and_eq_true] at hr'
      have hstep : maintainStep now ⟨s, none⟩ i = ⟨s, some i⟩ := by
        simp [maintainStep, hr']
      rw [hstep, maintain_selected hkeep]
      simp [waiting, hr]
    | false =>
      -- the interface is woken, and the rest of the loop does not see the difference
      have hstep : maintainStep now ⟨s, none⟩ i =
          ⟨Function.update s i ((s i).wake now), none⟩ := by
        cases hup : (s i).isup with
        | true =>
          have hlink : (s i).islinkup now = false := by simpa [ready, hup] using hr
          simp [maintainStep, Iface.wake, hup, hlink]
        | false => simp [maintainStep, Iface.wake, hup]
      have hkeep' : ∀ j, (Function.update s i ((s i).wake now) j).keep = true := by
        intro j
        by_cases hj : j = i
        · subst hj
          simp [hkeep]
        · simp [hj, hkeep]
      have hready : ∀ j ∈ order, ready now (Function.update s i ((s i).wake now)) j =
          ready now s j := by
        intro j hj
        have hne : j ≠ i := fun h => hi (h ▸ hj)
        simp [ready, hne]
      have hwait : waiting now (Function.update s i ((s i).wake now)) order =
          waiting now s order := waiting_congr hready
      have hfind : order.find? (ready now (Function.update s i ((s i).wake now))) =
          order.find? (ready now s) := List.find?_congr hready
      rw [hstep, ih hkeep' hnodup, hwait, hfind]
      have hcons : waiting now s (i :: order) = i :: waiting now s order := by
        simp [waiting, hr]
      rw [hcons, List.find?_cons_of_neg (by simp [hr])]
      congr 1
      funext j
      by_cases hj : j = i
      · subst hj
        have hnot : j ∉ waiting now s order := fun h => hi (List.takeWhile_sublist _ |>.subset h)
        simp [hnot]
      · simp [hj]

/-- The selected interface is the first of the order that is ready. -/
theorem find_ready_split {now : ℕ} {s : Table n κ} {order : List (Fin n)} {k : Fin n}
    (h : order.find? (ready now s) = some k) :
    ∃ post, order = waiting now s order ++ k :: post ∧ ready now s k = true := by
  obtain ⟨hk, pre, post, horder, hpre⟩ := List.find?_eq_some_iff_append.1 h
  refine ⟨post, ?_, hk⟩
  have hwait : waiting now s order = pre := by
    rw [waiting, horder, List.takeWhile_append_of_pos hpre, List.takeWhile_cons_of_neg (by simp [hk]),
      List.append_nil]
  rw [hwait]
  exact horder

/-- If none is ready, all of them wait. -/
theorem waiting_of_find_none {now : ℕ} {s : Table n κ} {order : List (Fin n)}
    (h : order.find? (ready now s) = none) :
    waiting now s order = order := by
  rw [waiting, List.takeWhile_eq_self_iff]
  simpa using h

end ZRouter.Route
