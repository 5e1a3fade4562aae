import ZRouter.Lib.Exec

/-!
# Runs of steps

A run handles a list of inputs one after the other; each step has a bound on the passes of its loops.

* `run`, `Along`: a run, and a condition on every input in the state before it;
* `Along.simulates`: the same run, step by step, in another system;
* `Fails`: a run hits undefined behaviour, or ends in a bad state;
* `Sorts`: the steps keep good states good as long as the condition holds, and only so long;
* `Sorts.run_kept`, `Sorts.run_lost`, `Sorts.run_stays`: the same for runs.
-/

namespace ZRouter.Exec

variable {σ ε : Type}

/-- A run over a list of inputs. -/
def run (step : ℕ → σ → ε → Exec σ) (n : ℕ) (s : σ) (es : List ε) : Exec σ := es.foldlM (step n) s

/-- The condition holds for every input of a run, in the state before it. -/
def Along (step : ℕ → σ → ε → Exec σ) (good : σ → ε → Prop) : σ → List ε → Prop
  | _, [] => True
  | s, e :: es => good s e ∧ ∀ s', Eventually (fun n => step n s e) (.ret s') → Along step good s' es

/-- Undefined behaviour, or a bad state at the end. -/
def Fails (f : ℕ → Exec σ) (J : σ → Prop) : Prop :=
  Eventually f .undefined ∨ ∃ s, Eventually f (.ret s) ∧ J s

/-- What the steps do to good states (`I`) and to bad ones (`J`). -/
structure Sorts (step : ℕ → σ → ε → Exec σ) (good : σ → ε → Prop) (I J : σ → Prop) : Prop where
  kept : ∀ s e, I s → good s e → ∃ s', Eventually (fun n => step n s e) (.ret s') ∧ I s'
  lost : ∀ s e, I s → ¬ good s e → Fails (fun n => step n s e) J
  stays : ∀ s e, J s → Fails (fun n => step n s e) J

/-- What comes after a failure fails. -/
theorem Fails.bind {τ : Type} {f : ℕ → Exec σ} {g : ℕ → σ → Exec τ} {J : σ → Prop} {K : τ → Prop}
    (hf : Fails f J) (hg : ∀ s, J s → Fails (fun n => g n s) K) : Fails (fun n => f n >>= g n) K := by
  rcases hf with hf | ⟨s, hs, hJ⟩
  · exact Or.inl (hf.bind_undefined g)
  · rcases hg s hJ with hg | ⟨t, ht, hK⟩
    · exact Or.inl (hs.bind hg)
    · exact Or.inr ⟨t, hs.bind ht, hK⟩

/-- A failure is no good state. -/
theorem Fails.not_returns {f : ℕ → Exec σ} {J : σ → Prop} (hf : Fails f J) {s : σ}
    (hs : Eventually f (.ret s)) : J s := by
  rcases hf with hf | ⟨s', hs', hJ⟩
  · cases hf.unique hs
  · cases hs.unique hs'
    exact hJ

namespace Sorts

variable {step : ℕ → σ → ε → Exec σ} {good : σ → ε → Prop} {I J : σ → Prop}

theorem run_cons (n : ℕ) (s : σ) (e : ε) (es : List ε) :
    run step n s (e :: es) = step n s e >>= fun s' => run step n s' es := List.foldlM_cons ..


/-- Along a run on which the condition holds, the state stays good. -/
theorem run_kept (hsorts : Sorts step good I J) {es : List ε} {s : σ} (hs : I s)
    (hgood : Along step good s es) : ∃ s', Eventually (fun n => run step n s es) (.ret s') ∧ I s' := by
  induction es generalizing s with
  | nil => exact ⟨s, Eventually.of_eq fun _ => rfl, hs⟩
  | cons e es ih =>
    obtain ⟨s₁, hs₁, hI⟩ := hsorts.kept s e hs hgood.1
    obtain ⟨s', hs', hI'⟩ := ih hI (hgood.2 s₁ hs₁)
    refine ⟨s', ?_, hI'⟩
    simp only [run_cons]
    exact hs₁.bind hs'

/-- From a bad state on a run fails. -/
theorem run_stays (hsorts : Sorts step good I J) {es : List ε} {s : σ} (hs : J s) :
    Fails (fun n => run step n s es) J := by
  induction es generalizing s with
  | nil => exact Or.inr ⟨s, Eventually.of_eq fun _ => rfl, hs⟩
  | cons e es ih =>
    simp only [run_cons]
    exact (hsorts.stays s e hs).bind fun s' hs' => ih hs'

/-- A run fails once the condition does not hold. -/
theorem run_lost (hsorts : Sorts step good I J) {es : List ε} {s : σ} (hs : I s)
    (hgood : ¬ Along step good s es) : Fails (fun n => run step n s es) J := by
  induction es generalizing s with
  | nil => exact absurd trivial hgood
  | cons e es ih =>
    simp only [run_cons]
    by_cases he : good s e
    · obtain ⟨s₁, hs₁, hI⟩ := hsorts.kept s e hs he
      have hrest : ¬ Along step good s₁ es := by
        intro hrest
        refine hgood ⟨he, fun s' hs' => ?_⟩
        cases hs₁.unique hs'
        exact hrest
      have hfirst : Fails (fun n => step n s e) (· = s₁) := Or.inr ⟨s₁, hs₁, rfl⟩
      refine hfirst.bind fun s' hs' => ?_
      rw [hs']
      exact ih hI hrest
    · exact (hsorts.lost s e hs he).bind fun s' hs' => hsorts.run_stays hs'

end Sorts

/-- Where every step along a run is matched by a step of another system, the run is matched by a run. -/
theorem Along.simulates {τ : Type} {step : ℕ → σ → ε → Exec σ} {good : σ → ε → Prop} {R : σ → τ → Prop}
    {next : τ → ε → Option τ} {es : List ε}
    (hstep : ∀ s t, ∀ e ∈ es, R s t → good s e →
      ∃ s' t', Eventually (fun n => step n s e) (.ret s') ∧ next t e = some t' ∧ R s' t')
    {s : σ} {t : τ} (hR : R s t) (ha : Along step good s es) :
    ∃ s' t', Eventually (fun n => run step n s es) (.ret s') ∧ es.foldlM next t = some t' ∧ R s' t' := by
  induction es generalizing s t with
  | nil => exact ⟨s, t, Eventually.of_eq fun _ => rfl, rfl, hR⟩
  | cons e es ih =>
    obtain ⟨s₁, t₁, hs₁, ht₁, hR₁⟩ := hstep s t e List.mem_cons_self hR ha.1
    obtain ⟨s', t', hs', ht', hR'⟩ :=
      ih (fun s t e he => hstep s t e (List.mem_cons_of_mem _ he)) hR₁ (ha.2 s₁ hs₁)
    refine ⟨s', t', ?_, ?_, hR'⟩
    · simp only [Sorts.run_cons]
      exact hs₁.bind hs'
    · rw [List.foldlM_cons, ht₁]
      exact ht'

end ZRouter.Exec
