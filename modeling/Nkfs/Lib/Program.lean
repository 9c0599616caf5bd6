import Mathlib

/-!
# Programs that may stop with a fault

A program is a state transformer that returns a value or stops with a fault; either way it leaves a
state. `Runs x s Q` is total correctness: from `s` the program `x` returns, and value and final
state satisfy `Q`. `Stops x s P` says that it stops, with fault and state in `P`. A program does
exactly one of the two (`Runs.not_stops`), and both compose along `>>=`.
-/

namespace Lib.Program

open List

/-- Programs over states `σ` with faults `ε`. -/
abbrev Prog (σ ε : Type) := StateT σ (Except (ε × σ))

variable {σ ε α β : Type}

/-- Stop with a fault. -/
def stop (e : ε) : Prog σ ε α := fun s => .error (e, s)

/-- A computation without state: its faults stop the program where it is. -/
instance : MonadLift (Except ε) (Prog σ ε) where
  monadLift y := fun s =>
    match y with
    | .ok a => .ok (a, s)
    | .error e => .error (e, s)

/-- From `s` the program `x` returns, with value and final state in `Q`. -/
def Runs (x : Prog σ ε α) (s : σ) (Q : α → σ → Prop) : Prop :=
  ∃ a s', x s = .ok (a, s') ∧ Q a s'

/-- From `s` the program `x` stops, with fault and final state in `P`. -/
def Stops (x : Prog σ ε α) (s : σ) (P : ε → σ → Prop) : Prop :=
  ∃ e s', x s = .error (e, s') ∧ P e s'

variable {x : Prog σ ε α} {f : α → Prog σ ε β} {s s' : σ} {a : α}
  {P : ε → σ → Prop} {Q R : α → σ → Prop} {Q' : β → σ → Prop}

lemma run_bind_ok (h : x s = .ok (a, s')) : (x >>= f) s = f a s' := by
  simp only [bind, StateT.bind, h, Except.bind]

lemma run_bind_error {e : ε × σ} (h : x s = .error e) : (x >>= f) s = .error e := by
  simp only [bind, StateT.bind, h, Except.bind]

/-- A composed program that returned had a first part that returned. -/
lemma run_bind_inv {b : β} (h : (x >>= f) s = .ok (b, s')) :
    ∃ a s₁, x s = .ok (a, s₁) ∧ f a s₁ = .ok (b, s') := by
  cases hx : x s with
  | error e =>
    rw [run_bind_error hx] at h
    cases h
  | ok y =>
    rw [run_bind_ok hx] at h
    exact ⟨y.1, y.2, rfl, h⟩

lemma run_map_inv {g : α → β} {b : β} (h : (x >>= fun a => pure (g a)) s = .ok (b, s')) :
    ∃ a, x s = .ok (a, s') ∧ b = g a := by
  obtain ⟨a, s₁, hx, hg⟩ := run_bind_inv h
  have hg : Except.ok (g a, s₁) = Except.ok (b, s') := hg
  rw [Except.ok.injEq, Prod.mk.injEq] at hg
  exact ⟨a, hg.2 ▸ hx, hg.1.symm⟩

lemma Runs.intro (h : x s = .ok (a, s')) (hQ : Q a s') : Runs x s Q := ⟨a, s', h, hQ⟩

lemma Runs.mono (h : Runs x s R) (hQ : ∀ a s', R a s' → Q a s') : Runs x s Q := by
  obtain ⟨a, s', hx, hR⟩ := h
  exact ⟨a, s', hx, hQ a s' hR⟩

lemma Runs.pure (h : Q a s) : Runs (Pure.pure a : Prog σ ε α) s Q := ⟨a, s, rfl, h⟩

lemma Runs.bind (h : Runs x s R) (hf : ∀ a s', R a s' → Runs (f a) s' Q') : Runs (x >>= f) s Q' := by
  obtain ⟨a, s', hx, hR⟩ := h
  obtain ⟨b, s'', hfa, hQ⟩ := hf a s' hR
  exact ⟨b, s'', by rw [run_bind_ok hx, hfa], hQ⟩

/-- What a run satisfies, its result satisfies. -/
lemma Runs.result (h : Runs x s Q) (hx : x s = .ok (a, s')) : Q a s' := by
  obtain ⟨b, t, hb, hQ⟩ := h
  rw [hx, Except.ok.injEq, Prod.mk.injEq] at hb
  rw [hb.1, hb.2]
  exact hQ

lemma Runs.not_stops (h : Runs x s Q) : ¬ Stops x s P := by
  rintro ⟨e, t, he, -⟩
  obtain ⟨a, s', hx, -⟩ := h
  rw [hx] at he
  cases he

lemma Stops.of_left (h : Stops x s P) : Stops (x >>= f) s P := by
  obtain ⟨e, s', he, hP⟩ := h
  exact ⟨e, s', run_bind_error he, hP⟩

lemma Stops.mono {P' : ε → σ → Prop} (h : Stops x s P) (hP : ∀ e s', P e s' → P' e s') : Stops x s P' := by
  obtain ⟨e, s', he, hPe⟩ := h
  exact ⟨e, s', he, hP e s' hPe⟩

/-- A step with a known result, then the rest. -/
lemma Runs.step (hx : x s = .ok (a, s')) (h : Runs (f a) s' Q') : Runs (x >>= f) s Q' := by
  obtain ⟨b, s'', hf, hQ⟩ := h
  exact ⟨b, s'', by rw [run_bind_ok hx, hf], hQ⟩

lemma Stops.step (hx : x s = .ok (a, s')) (h : Stops (f a) s' P) : Stops (x >>= f) s P := by
  obtain ⟨e, s'', hf, hP⟩ := h
  exact ⟨e, s'', by rw [run_bind_ok hx, hf], hP⟩

/-- From `s` the program `x` returns with value and final state in `Q`, or stops with fault and final
state in `P`. -/
def Ends (x : Prog σ ε α) (s : σ) (Q : α → σ → Prop) (P : ε → σ → Prop) : Prop :=
  Runs x s Q ∨ Stops x s P

lemma Runs.ends (h : Runs x s Q) : Ends x s Q P := Or.inl h

lemma Ends.mono {P' : ε → σ → Prop} (h : Ends x s R P') (hQ : ∀ a s', R a s' → Q a s')
    (hP : ∀ e s', P' e s' → P e s') : Ends x s Q P :=
  h.imp (fun h => h.mono hQ) fun h => h.mono hP

lemma Ends.bind (h : Ends x s R P) (hf : ∀ a s', R a s' → Ends (f a) s' Q' P) : Ends (x >>= f) s Q' P := by
  rcases h with ⟨a, s', hx, hR⟩ | h
  · exact (hf a s' hR).imp (Runs.step hx) (Stops.step hx)
  · exact Or.inr h.of_left

lemma Ends.step (hx : x s = .ok (a, s')) (h : Ends (f a) s' Q' P) : Ends (x >>= f) s Q' P :=
  h.imp (Runs.step hx) (Stops.step hx)

/-- A program that cannot stop in `P` returns. -/
lemma Ends.runs (h : Ends x s Q P) (hP : ∀ e s', ¬ P e s') : Runs x s Q := by
  rcases h with h | ⟨e, s', -, he⟩
  · exact h
  · exact absurd he (hP e s')

/-- What a program ends in, its result satisfies. -/
lemma Ends.result (h : Ends x s Q P) (hx : x s = .ok (a, s')) : Q a s' := by
  rcases h with h | ⟨e, t, he, -⟩
  · exact h.result hx
  · rw [hx] at he
    cases he

/-- `if (cond) x`, with the value of `x` dropped. -/
def runWhen (cond : Bool) (x : Prog σ ε α) : Prog σ ε Unit :=
  if cond then x >>= fun _ => pure () else pure ()

lemma runWhen_true (h : x s = .ok (a, s')) : runWhen true x s = .ok ((), s') := run_bind_ok h

lemma runWhen_false : runWhen false x s = .ok ((), s) := rfl

/-! ### Reading and writing the state -/

lemma run_get {f : σ → Prog σ ε β} : (MonadState.get >>= f) s = f s s := rfl

lemma Runs.get {f : σ → Prog σ ε β} (h : Runs (f s) s Q') : Runs (MonadState.get >>= f) s Q' := by
  obtain ⟨b, s', hf, hQ⟩ := h
  exact ⟨b, s', hf, hQ⟩

lemma Runs.set {f : PUnit → Prog σ ε β} (h : Runs (f ⟨⟩) s' Q') : Runs (MonadStateOf.set s' >>= f) s Q' := by
  obtain ⟨b, s'', hf, hQ⟩ := h
  exact ⟨b, s'', hf, hQ⟩

/-! ### Parts of the state that a program does not touch -/

/-- Whenever `x` returns, `g` of the state is as before. -/
def Fixes {γ : Type} (g : σ → γ) (x : Prog σ ε α) : Prop := ∀ s a s', x s = .ok (a, s') → g s' = g s

section fixes

variable {γ : Type} {g : σ → γ}

lemma Fixes.pure : Fixes g (Pure.pure a : Prog σ ε α) := fun s b s' h => by
  have h : Except.ok (a, s) = Except.ok (b, s') := h
  rw [Except.ok.injEq, Prod.mk.injEq] at h
  rw [h.2]

lemma Fixes.stop {e : ε} : Fixes g (stop e : Prog σ ε α) := fun _ _ _ h => nomatch h

lemma Fixes.modify {u : σ → σ} (h : ∀ s, g (u s) = g s) : Fixes g (modify u : Prog σ ε PUnit) :=
  fun s b s' hs => by
    have hs : Except.ok (PUnit.unit, u s) = Except.ok (b, s') := hs
    rw [Except.ok.injEq, Prod.mk.injEq] at hs
    rw [← hs.2, h]

lemma Fixes.bind (hx : Fixes g x) (hf : ∀ a, Fixes g (f a)) : Fixes g (x >>= f) := fun s b s' h => by
  obtain ⟨a, s₁, h₁, h₂⟩ := run_bind_inv h
  exact (hf a s₁ b s' h₂).trans (hx s a s₁ h₁)

lemma Fixes.ite {c : Prop} [Decidable c] {y : Prog σ ε α} (hx : Fixes g x) (hy : Fixes g y) :
    Fixes g (if c then x else y) := by
  split
  · exact hx
  · exact hy

end fixes

/-! ### How a program can move the state -/

/-- Whenever `x` returns, the states before and after are related. -/
def Moves (R : σ → σ → Prop) (x : Prog σ ε α) : Prop := ∀ s a s', x s = .ok (a, s') → R s s'

section moves

variable {R : σ → σ → Prop}

lemma Moves.pure [Std.Refl R] : Moves R (Pure.pure a : Prog σ ε α) := fun s b s' h => by
  have h : Except.ok (a, s) = Except.ok (b, s') := h
  rw [Except.ok.injEq, Prod.mk.injEq] at h
  rw [← h.2]
  exact Std.Refl.refl s

lemma Moves.stop {e : ε} : Moves R (stop e : Prog σ ε α) := fun _ _ _ h => nomatch h

lemma Moves.bind [IsTrans σ R] (hx : Moves R x) (hf : ∀ a, Moves R (f a)) : Moves R (x >>= f) := fun s b s' h => by
  obtain ⟨a, s₁, h₁, h₂⟩ := run_bind_inv h
  exact IsTrans.trans _ _ _ (hx s a s₁ h₁) (hf a s₁ b s' h₂)

lemma Moves.get {f : σ → Prog σ ε β} (h : ∀ s, Moves R (f s)) : Moves R (MonadState.get >>= f) :=
  fun s b s' hs => h s s b s' hs

lemma Moves.ite {c : Prop} [Decidable c] {y : Prog σ ε α} (hx : Moves R x) (hy : Moves R y) :
    Moves R (if c then x else y) := by
  split
  · exact hx
  · exact hy

end moves

/-! ### Loops -/

/-- A loop each of whose rounds deals with its own elements: `St s s' xs` says that `xs` were dealt with from `s`
to `s'`, and no element comes twice. -/
lemma runs_forM {ι γ : Type} {St : σ → σ → List γ → Prop}
    (htrans : ∀ {s s₁ s' xs ys}, St s s₁ xs → St s₁ s' ys → St s s' (xs ++ ys)) {f : ι → Prog σ ε PUnit}
    {ys : ι → List γ} {s₀ : σ} : ∀ {is : List ι} {s : σ} {xs : List γ}, St s₀ s xs → (xs ++ is.flatMap ys).Nodup →
    (∀ i ∈ is, ∀ s xs, St s₀ s xs → (∀ x ∈ ys i, x ∉ xs) → Runs (f i) s fun _ s' => St s s' (ys i)) →
    Runs (is.forM f) s fun _ s' => St s₀ s' (xs ++ is.flatMap ys)
  | [], s, xs, hst, _, _ => by
    rw [flatMap_nil, append_nil]
    exact Runs.pure hst
  | i :: is, s, xs, hst, hnd, hf => by
    rw [flatMap_cons, ← append_assoc] at hnd ⊢
    have hnew : ∀ x ∈ ys i, x ∉ xs := fun x hx hxs =>
      (nodup_append.mp (nodup_append.mp hnd).1).2.2 x hxs x hx rfl
    show Runs (f i >>= fun _ => is.forM f) s _
    refine Runs.bind (hf i (mem_cons_self ..) s xs hst hnew) ?_
    intro _ s₁ hst₁
    exact runs_forM htrans (htrans hst hst₁) hnd fun j hj => hf j (mem_cons_of_mem _ hj)

/-! ### Computations without state -/

lemma except_bind_ok {y : Except ε α} {f : α → Except ε β} (hy : y = .ok a) : (y >>= f) = f a := by
  rw [hy]
  rfl

lemma except_bind_error {y : Except ε α} {f : α → Except ε β} {e : ε} (hy : y = .error e) :
    (y >>= f) = .error e := by
  rw [hy]
  rfl

/-- A computation without state that succeeds. -/
lemma run_lift {y : Except ε α} (hy : y = .ok a) : (liftM y : Prog σ ε α) s = .ok (a, s) := by
  rw [hy]
  rfl

lemma run_lift_error {y : Except ε α} {e : ε} (hy : y = .error e) :
    (liftM y : Prog σ ε α) s = .error (e, s) := by
  rw [hy]
  rfl

lemma Fixes.lift {γ : Type} {g : σ → γ} {y : Except ε α} : Fixes g (liftM y : Prog σ ε α) := fun s a s' h => by
  cases y with
  | error e => exact nomatch (run_lift_error (s := s) rfl).symm.trans h
  | ok b =>
    have h := (run_lift (s := s) (a := b) rfl).symm.trans h
    rw [Except.ok.injEq, Prod.mk.injEq] at h
    rw [h.2]

lemma Runs.liftExcept {y : Except ε α} {f : α → Prog σ ε β} (hy : y = .ok a)
    (h : Runs (f a) s Q') : Runs ((liftM y : Prog σ ε α) >>= f) s Q' := Runs.step (run_lift hy) h

/-! ### Programs on a part of the state -/

section zoom

variable {τ : Type}

/-- A program on the part of the state that `get` reads and `put` writes. -/
def zoom (get : σ → τ) (put : τ → σ → σ) (x : Prog τ ε α) : Prog σ ε α := fun s =>
  match x (get s) with
  | .ok (a, t) => .ok (a, put t s)
  | .error (e, t) => .error (e, put t s)

variable {get : σ → τ} {put : τ → σ → σ} {x : Prog τ ε α} {t : τ}

lemma zoom_ok (h : x (get s) = .ok (a, t)) : zoom get put x s = .ok (a, put t s) := by
  rw [zoom, h]

lemma zoom_inv (h : zoom get put x s = .ok (a, s')) : ∃ t, x (get s) = .ok (a, t) ∧ s' = put t s := by
  rw [zoom] at h
  split at h
  · rename_i heq
    rw [Except.ok.injEq, Prod.mk.injEq] at h
    exact ⟨_, h.1 ▸ heq, h.2.symm⟩
  · cases h

end zoom

end Lib.Program
