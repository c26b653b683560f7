import Mathlib.Data.List.Basic

/-!
# Runs of a labelled transition relation

`Runs` follows a list of labels from a state to a state. `Along P` says that
`P` holds in every state a list of labels can lead through, `Meets C` that
every step so taken meets the condition `C`. A property carried by an
invariant under `C`, and lost by every step that misses `C`, holds along a run
exactly when the run meets `C`.
-/

set_option autoImplicit false

namespace Vecoda.Transitions

variable {σ ε : Type} (step : σ → ε → σ → Prop)

inductive Runs : σ → List ε → σ → Prop where
  | nil (s : σ) : Runs s [] s
  | cons {s t u : σ} {e : ε} {es : List ε} : step s e t → Runs t es u → Runs s (e::es) u

def Along (P : σ → Prop) : σ → List ε → Prop
  | s, [] => P s
  | s, e::es => P s ∧ ∀ t, step s e t → Along P t es

def Meets (C : σ → ε → Prop) : σ → List ε → Prop
  | _, [] => True
  | s, e::es => ∀ t, step s e t → C s e ∧ Meets C t es

/-- As `Meets`, for a last label without a step as well. -/
def Throughout (C : σ → ε → Prop) : σ → List ε → Prop
  | _, [] => True
  | s, e::es => C s e ∧ ∀ t, step s e t → Throughout C t es

variable {step}

theorem runs_invariant {I : σ → Prop} (hstep : ∀ s e t, I s → step s e t → I t) {s t : σ}
    {es : List ε} (h : Runs step s es t) (hs : I s) : I t := by
  induction h with
  | nil s => exact hs
  | cons hse _ ih => exact ih (hstep _ _ _ hs hse)

theorem along_start {P : σ → Prop} {s : σ} {es : List ε} (h : Along step P s es) : P s := by
  cases es with
  | nil => exact h
  | cons e es => exact h.1

theorem along_runs {P : σ → Prop} {s t : σ} {es : List ε} (h : Along step P s es)
    (hr : Runs step s es t) : P t := by
  induction hr with
  | nil s => exact h
  | cons hse _ ih => exact ih (h.2 _ hse)

/-- A run that a function computes. -/
theorem runs_of_foldlM {next : σ → ε → Option σ} {s t : σ} {es : List ε} (h : es.foldlM next s = some t)
    (hstep : ∀ e ∈ es, ∀ s t, next s e = some t → step s e t) : Runs step s es t := by
  induction es generalizing s with
  | nil =>
    rw [List.foldlM_nil] at h
    exact Option.some.inj h ▸ .nil s
  | cons e es ih =>
    obtain ⟨he,hes⟩ := List.forall_mem_cons.mp hstep
    rw [List.foldlM_cons] at h
    obtain ⟨u,hu,hrest⟩ := Option.bind_eq_some_iff.mp h
    exact .cons (he s u hu) (ih hrest hes)

/-- Two functions that keep in step do so over a list. -/
theorem rel_foldlM {τ : Type} {R : σ → τ → Prop} {f : σ → ε → Option σ} {g : τ → ε → Option τ}
    (h : ∀ s t e, R s t → Option.Rel R (f s e) (g t e)) {s : σ} {t : τ} (hst : R s t) (es : List ε) :
    Option.Rel R (es.foldlM f s) (es.foldlM g t) := by
  induction es generalizing s t with
  | nil => exact .some hst
  | cons e es ih =>
    rw [List.foldlM_cons, List.foldlM_cons]
    have hrel := h s t e hst
    generalize f s e = s' at hrel ⊢
    generalize g t e = t' at hrel ⊢
    cases hrel with
    | none => exact .none
    | some hst' => exact ih hst'

/-- What each step carries from one list of labels to the next holds of the whole list. -/
theorem foldlM_history {f : σ → ε → Option σ} {P : List ε → σ → Prop} {C : ε → Prop}
    (h : ∀ es s e t, C e → P es s → f s e = some t → P (es ++ [e]) t) {s t : σ} (hs : P [] s) (es : List ε)
    (hes : ∀ e ∈ es, C e) (ht : es.foldlM f s = some t) : P es t := by
  suffices hall : ∀ (done : List ε) (s : σ), P done s → es.foldlM f s = some t → P (done ++ es) t from
    hall [] s hs ht
  clear ht hs
  induction es with
  | nil =>
    intro done s hs ht
    rw [List.foldlM_nil] at ht
    rw [List.append_nil, ← Option.some.inj ht]
    exact hs
  | cons e es ih =>
    intro done s hs ht
    obtain ⟨he,hes⟩ := List.forall_mem_cons.mp hes
    rw [List.foldlM_cons] at ht
    obtain ⟨u,hu,hrest⟩ := Option.bind_eq_some_iff.mp ht
    rw [List.append_cons]
    exact ih hes _ u (h done s e u he hs hu) hrest

theorem throughout_congr {C D : σ → ε → Prop} (h : ∀ s e, C s e ↔ D s e) (s : σ) (es : List ε) :
    Throughout step C s es ↔ Throughout step D s es := by
  induction es generalizing s with
  | nil => exact Iff.rfl
  | cons e es ih => exact and_congr (h s e) (forall_congr' fun t => imp_congr_right fun _ => ih t)

theorem along_of_meets {I P : σ → Prop} {C : σ → ε → Prop} (hP : ∀ s, I s → P s)
    (hgood : ∀ s e t, I s → step s e t → C s e → I t) (s : σ) (es : List ε) (hs : I s)
    (h : Meets step C s es) : Along step P s es := by
  induction es generalizing s with
  | nil => exact hP s hs
  | cons e es ih =>
    refine ⟨hP s hs,fun t ht => ?_⟩
    obtain ⟨hc,hm⟩ := h t ht
    exact ih t (hgood s e t hs ht hc) hm

theorem meets_of_along {I P : σ → Prop} {C : σ → ε → Prop}
    (hgood : ∀ s e t, I s → step s e t → C s e → I t)
    (hbad : ∀ s e t, I s → step s e t → ¬ C s e → ¬ P t) (s : σ) (es : List ε) (hs : I s)
    (h : Along step P s es) : Meets step C s es := by
  induction es generalizing s with
  | nil => trivial
  | cons e es ih =>
    intro t ht
    have hc : C s e := by
      by_contra hn
      exact hbad s e t hs ht hn (along_start (h.2 t ht))
    exact ⟨hc,ih t (hgood s e t hs ht hc) (h.2 t ht)⟩

theorem along_iff_meets {I P : σ → Prop} {C : σ → ε → Prop} (hP : ∀ s, I s → P s)
    (hgood : ∀ s e t, I s → step s e t → C s e → I t)
    (hbad : ∀ s e t, I s → step s e t → ¬ C s e → ¬ P t) (s : σ) (es : List ε) (hs : I s) :
    Along step P s es ↔ Meets step C s es :=
  ⟨meets_of_along hgood hbad s es hs,along_of_meets hP hgood s es hs⟩

end Vecoda.Transitions
