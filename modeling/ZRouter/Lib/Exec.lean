import Mathlib

/-!
# Outcomes of imperative code

A run of a piece of C code either returns a value, runs into behaviour that the language leaves
undefined, or goes on.  `Exec α` has one constructor for each; `stuck` is what a loop gives when
its bound on the number of passes is used up, so "the code does not return" is "`stuck` for every
bound".

* `Exec`, its bind, and the inversion lemma `Exec.bind_eq_ret`;
* `Exec.loop body n s`: at most `n` passes of `body`, each of which goes on (`Sum.inl`) or leaves
  the loop (`Sum.inr`);
* the rules used for loops: `Exec.loop_post` (an invariant), `Exec.loop_returns` (a decreasing
  measure), `Exec.loop_stuck` (a pass that always goes on) and `Exec.loop_mono` (larger bounds);
* `Exec.Eventually f x`: the outcome of `f` is `x` for every large enough bound; `Exec.Settles` is the
  same for a loop whose passes have bounds of their own;
* the order with `stuck` at the bottom, in which code is monotone in its bound; what such code returns once
  is its outcome (`Exec.Eventually.ret_iff`).
-/

namespace ZRouter

/-- The outcome of running code: a value, undefined behaviour, or no return so far. -/
inductive Exec (α : Type)
  | ret (a : α)
  | undefined
  | stuck
  deriving DecidableEq

namespace Exec

variable {α β σ : Type}

/-- Run `x`, then `f` on its value. -/
def bind (x : Exec α) (f : α → Exec β) : Exec β :=
  match x with
  | .ret a => f a
  | .undefined => .undefined
  | .stuck => .stuck

instance : Monad Exec where
  pure := .ret
  bind := Exec.bind

@[simp] theorem pure_eq (a : α) : (pure a : Exec α) = .ret a := rfl
@[simp] theorem ret_bind (a : α) (f : α → Exec β) : (Exec.ret a >>= f) = f a := rfl
@[simp] theorem undefined_bind (f : α → Exec β) : ((.undefined : Exec α) >>= f) = .undefined := rfl
@[simp] theorem stuck_bind (f : α → Exec β) : ((.stuck : Exec α) >>= f) = .stuck := rfl

theorem bind_assoc (x : Exec α) (f : α → Exec β) (g : β → Exec σ) :
    (x >>= f >>= g) = x >>= fun a => f a >>= g := by
  cases x <;> rfl

instance : LawfulMonad Exec :=
  .mk' Exec (fun x => by cases x <;> rfl) (fun _ _ => rfl) bind_assoc

/-- A sequence returns only if both parts do. -/
theorem bind_eq_ret {x : Exec α} {f : α → Exec β} {b : β} (h : (x >>= f) = .ret b) :
    ∃ a, x = .ret a ∧ f a = .ret b := by
  cases x with
  | ret a => exact ⟨a, rfl, h⟩
  | undefined => cases h
  | stuck => cases h

/-- At most `n` passes of `body` from the state `s`. -/
def loop (body : σ → Exec (σ ⊕ β)) : ℕ → σ → Exec β
  | 0, _ => .stuck
  | n + 1, s => body s >>= fun r =>
      match r with
      | .inl s' => loop body n s'
      | .inr b => .ret b

variable {body : σ → Exec (σ ⊕ β)} {s s' : σ} {b : β}

@[simp] theorem loop_zero : loop body 0 s = .stuck := rfl

theorem loop_next (h : body s = .ret (.inl s')) (n : ℕ) :
    loop body (n + 1) s = loop body n s' := by
  simp [loop, h]

theorem loop_done (h : body s = .ret (.inr b)) (n : ℕ) : loop body (n + 1) s = .ret b := by
  simp [loop, h]

/-- An invariant of the passes gives a property of every value the loop returns. -/
theorem loop_post (I : σ → Prop) (Q : β → Prop)
    (next : ∀ s s', I s → body s = .ret (.inl s') → I s')
    (done : ∀ s b, I s → body s = .ret (.inr b) → Q b) :
    ∀ n s b, I s → loop body n s = .ret b → Q b := by
  intro n
  induction n with
  | zero => intro s b _ h; cases h
  | succ n ih =>
    intro s b hs h
    obtain ⟨r, hr, h⟩ := bind_eq_ret h
    cases r with
    | inl s' => exact ih s' b (next s s' hs hr) h
    | inr b' =>
      cases h
      exact done s b hs hr

/-- A measure that every pass lowers gives a value after enough passes. -/
theorem loop_returns (I : σ → Prop) (μ : σ → ℕ)
    (pass : ∀ s, I s → (∃ b, body s = .ret (.inr b)) ∨
      ∃ s', body s = .ret (.inl s') ∧ I s' ∧ μ s' < μ s) :
    ∀ n s, I s → μ s < n → ∃ b, loop body n s = .ret b := by
  intro n
  induction n with
  | zero => intro s _ h; omega
  | succ n ih =>
    intro s hs hn
    rcases pass s hs with ⟨b, hb⟩ | ⟨s', hs', hI, hμ⟩
    · exact ⟨b, loop_done hb n⟩
    · rw [loop_next hs']
      exact ih s' hI (by omega)

/-- A loop whose every pass goes on never returns. -/
theorem loop_stuck (I : σ → Prop) (pass : ∀ s, I s → ∃ s', body s = .ret (.inl s') ∧ I s') :
    ∀ n s, I s → loop body n s = .stuck := by
  intro n
  induction n with
  | zero => intro s _; rfl
  | succ n ih =>
    intro s hs
    obtain ⟨s', hs', hI⟩ := pass s hs
    rw [loop_next hs', ih s' hI]

/-- A loop that returns does so with any larger bound, also where its passes return more often. -/
theorem loop_mono {body' : σ → Exec (σ ⊕ β)}
    (hbody : ∀ s x, body s = .ret x → body' s = .ret x) :
    ∀ {n m : ℕ} {s : σ}, n ≤ m → loop body n s = .ret b → loop body' m s = .ret b := by
  intro n
  induction n with
  | zero => intro m s _ h; cases h
  | succ n ih =>
    intro m s hm h
    obtain ⟨m, rfl⟩ : ∃ k, m = k + 1 := ⟨m - 1, by omega⟩
    obtain ⟨r, hr, h⟩ := bind_eq_ret h
    cases r with
    | inl s' =>
      rw [loop_next (hbody s _ hr)]
      exact ih (Nat.le_of_succ_le_succ hm) h
    | inr b' =>
      cases h
      exact loop_done (hbody s _ hr) m

/-- A value has been returned. -/
def returns : Exec α → Bool
  | .ret _ => true
  | .undefined => false
  | .stuck => false

theorem returns_iff {x : Exec α} : x.returns = true ↔ ∃ a, x = .ret a := by
  cases x <;> simp [returns]

/-! ### Large enough bounds -/

/-- For every large enough bound the outcome is `x`. -/
def Eventually (f : ℕ → Exec α) (x : Exec α) : Prop := ∃ N, ∀ n ≥ N, f n = x

theorem Eventually.of_eq {f : ℕ → Exec α} {x : Exec α} (h : ∀ n, f n = x) : Eventually f x :=
  ⟨0, fun n _ => h n⟩

/-- Two runs that are the same for all large enough bounds. -/
theorem Eventually.congr {f g : ℕ → Exec α} {x : Exec α} (N : ℕ) (h : ∀ n ≥ N, f n = g n) :
    Eventually f x ↔ Eventually g x := by
  constructor
  · rintro ⟨M, hM⟩
    exact ⟨max N M, fun n hn => (h n (le_of_max_le_left hn)).symm.trans (hM n (le_of_max_le_right hn))⟩
  · rintro ⟨M, hM⟩
    exact ⟨max N M, fun n hn => (h n (le_of_max_le_left hn)).trans (hM n (le_of_max_le_right hn))⟩

theorem Eventually.unique {f : ℕ → Exec α} {x y : Exec α} (hx : Eventually f x)
    (hy : Eventually f y) : x = y := by
  obtain ⟨N, hN⟩ := hx
  obtain ⟨M, hM⟩ := hy
  rw [← hN (max N M) (le_max_left N M), hM (max N M) (le_max_right N M)]

theorem Eventually.bind {f : ℕ → Exec α} {g : ℕ → α → Exec β} {a : α} {x : Exec β}
    (hf : Eventually f (.ret a)) (hg : Eventually (fun n => g n a) x) :
    Eventually (fun n => f n >>= g n) x := by
  obtain ⟨N, hN⟩ := hf
  obtain ⟨M, hM⟩ := hg
  refine ⟨max N M, fun n hn => ?_⟩
  beta_reduce
  rw [hN n (le_of_max_le_left hn), ret_bind]
  exact hM n (le_of_max_le_right hn)

theorem Eventually.bind_undefined {f : ℕ → Exec α} (g : ℕ → α → Exec β)
    (hf : Eventually f .undefined) :
    Eventually (fun n => f n >>= g n) .undefined := by
  obtain ⟨N, hN⟩ := hf
  exact ⟨N, fun n hn => by simp [hN n hn]⟩

/-- A sequence that returns does so part by part. -/
theorem Eventually.bind_ret {f : ℕ → Exec α} {g : ℕ → α → Exec β} {b : β}
    (h : Eventually (fun n => f n >>= g n) (.ret b)) {x : Exec α} (hf : Eventually f x) :
    ∃ a, x = .ret a ∧ Eventually (fun n => g n a) (.ret b) := by
  obtain ⟨N, hN⟩ := h
  obtain ⟨M, hM⟩ := hf
  have key : ∀ n ≥ max N M, (x >>= g n) = .ret b := fun n hn => by
    rw [← hM n (le_of_max_le_right hn)]
    exact hN n (le_of_max_le_left hn)
  obtain ⟨a, rfl, -⟩ := bind_eq_ret (key _ le_rfl)
  exact ⟨a, rfl, max N M, key⟩

theorem Eventually.loop_next (h : body s = .ret (.inl s')) {x : Exec β}
    (hx : Eventually (fun n => loop body n s') x) : Eventually (fun n => loop body n s) x := by
  obtain ⟨N, hN⟩ := hx
  refine ⟨N + 1, fun n hn => ?_⟩
  obtain ⟨m, rfl⟩ : ∃ m, n = m + 1 := ⟨n - 1, by omega⟩
  beta_reduce
  rw [Exec.loop_next h]
  exact hN m (by omega)

theorem Eventually.loop_done (h : body s = .ret (.inr b)) :
    Eventually (fun n => loop body n s) (.ret b) := by
  refine ⟨1, fun n hn => ?_⟩
  obtain ⟨m, rfl⟩ : ∃ m, n = m + 1 := ⟨n - 1, by omega⟩
  exact Exec.loop_done h m

/-! ### Code that is monotone in its bound -/

/-- A run that goes on may become any other. -/
instance : PartialOrder (Exec α) where
  le x y := x = .stuck ∨ x = y
  le_refl _ := Or.inr rfl
  le_trans x y z hxy hyz := by
    rcases hxy with rfl | rfl
    · exact Or.inl rfl
    · exact hyz
  le_antisymm x y hxy hyx := by
    rcases hxy with rfl | rfl
    · rcases hyx with rfl | rfl <;> rfl
    · rfl

theorem stuck_le (x : Exec α) : .stuck ≤ x := Or.inl rfl

theorem eq_of_le {x y : Exec α} (hxy : x ≤ y) (hx : x ≠ .stuck) : y = x :=
  (hxy.resolve_left hx).symm

/-- A sequence grows with its parts. -/
theorem bind_le_bind {x y : Exec α} {f g : α → Exec β} (hxy : x ≤ y) (hfg : ∀ a, f a ≤ g a) :
    (x >>= f) ≤ (y >>= g) := by
  rcases hxy with rfl | rfl
  · exact stuck_le _
  · cases x with
    | ret a => exact hfg a
    | undefined => exact le_rfl
    | stuck => exact le_rfl

/-- A value that monotone code returns for one bound is its outcome. -/
theorem Eventually.ret_iff {f : ℕ → Exec α} (hf : Monotone f) {a : α} :
    Eventually f (.ret a) ↔ ∃ n, f n = .ret a := by
  constructor
  · rintro ⟨N, hN⟩
    exact ⟨N, hN N le_rfl⟩
  · rintro ⟨n, hn⟩
    refine ⟨n, fun m hm => ?_⟩
    rw [← hn]
    exact eq_of_le (hf hm) (by rw [hn]; rintro ⟨⟩)

/-- A sequence of monotone code returns exactly when its parts do. -/
theorem Eventually.bind_iff {f : ℕ → Exec α} (hf : Monotone f) {g : ℕ → α → Exec β} {b : β} :
    Eventually (fun n => f n >>= g n) (.ret b) ↔
      ∃ a, Eventually f (.ret a) ∧ Eventually (fun n => g n a) (.ret b) := by
  constructor
  · rintro ⟨N, hN⟩
    obtain ⟨a, ha, -⟩ := bind_eq_ret (hN N le_rfl)
    have hfa : Eventually f (.ret a) := (ret_iff hf).2 ⟨N, ha⟩
    obtain ⟨a', heq, hg⟩ := Eventually.bind_ret ⟨N, hN⟩ hfa
    cases heq
    exact ⟨a, hfa, hg⟩
  · rintro ⟨a, hfa, hg⟩
    exact hfa.bind hg

/-- The first bound does not matter. -/
theorem Eventually.succ_iff {f : ℕ → Exec α} {x : Exec α} :
    Eventually (fun n => f (n + 1)) x ↔ Eventually f x := by
  constructor
  · rintro ⟨N, hN⟩
    refine ⟨N + 1, fun n hn => ?_⟩
    obtain ⟨n, rfl⟩ : ∃ k, n = k + 1 := ⟨n - 1, by omega⟩
    exact hN n (by omega)
  · rintro ⟨N, hN⟩
    exact ⟨N, fun n hn => hN (n + 1) (by omega)⟩

/-- Monotone steps, one after the other. -/
theorem foldlM_mono {f : ℕ → β → α → Exec β} (hf : ∀ b a, Monotone fun n => f n b a) (l : List α) (b : β) :
    Monotone fun n => l.foldlM (f n) b := by
  intro n m hnm
  induction l generalizing b with
  | nil => exact le_rfl
  | cons a l ih =>
    beta_reduce
    rw [List.foldlM_cons, List.foldlM_cons]
    exact bind_le_bind (hf b a hnm) fun b => ih b

/-- The outcome of a loop, for all large enough bounds on its passes and on the loops inside. -/
def Settles (body : ℕ → σ → Exec (σ ⊕ β)) (s : σ) (x : Exec β) : Prop :=
  ∃ N, ∀ f ≥ N, ∀ n ≥ N, loop (body f) n s = x

section Settles

variable {body : ℕ → σ → Exec (σ ⊕ β)}

theorem Settles.eventually {x : Exec β} (h : Settles body s x) :
    Eventually (fun n => loop (body n) n s) x := by
  obtain ⟨N, hN⟩ := h
  exact ⟨N, fun n hn => hN n hn n hn⟩

theorem Settles.next {x : Exec β} (h : Eventually (fun f => body f s) (.ret (.inl s')))
    (hx : Settles body s' x) : Settles body s x := by
  obtain ⟨N, hN⟩ := h
  obtain ⟨M, hM⟩ := hx
  refine ⟨max N M + 1, fun f hf n hn => ?_⟩
  obtain ⟨n, rfl⟩ : ∃ m, n = m + 1 := ⟨n - 1, by omega⟩
  rw [Exec.loop_next (hN f (by omega))]
  exact hM f (by omega) n (by omega)

theorem Settles.done (h : Eventually (fun f => body f s) (.ret (.inr b))) :
    Settles body s (.ret b) := by
  obtain ⟨N, hN⟩ := h
  refine ⟨N + 1, fun f hf n hn => ?_⟩
  obtain ⟨n, rfl⟩ : ∃ m, n = m + 1 := ⟨n - 1, by omega⟩
  exact Exec.loop_done (hN f (by omega)) n

theorem Settles.undefined (h : Eventually (fun f => body f s) .undefined) :
    Settles body s .undefined := by
  obtain ⟨N, hN⟩ := h
  refine ⟨N + 1, fun f hf n hn => ?_⟩
  obtain ⟨n, rfl⟩ : ∃ m, n = m + 1 := ⟨n - 1, by omega⟩
  have h1 : body f s = .undefined := hN f (by omega)
  simp [loop, h1]

end Settles

end Exec

end ZRouter
