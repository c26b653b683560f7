import Mathlib.Logic.Function.Basic

/-!
# Who owns a lock

Threads are at locations, some of which lie inside the region of a lock. The
owner of the lock is the thread whose location does, and stays so under every
step that enters the region with the lock, or leaves it and gives it back.
-/

set_option autoImplicit false

namespace Vecoda.Ownership

variable {τ ρ : Type} (holds : ρ → Bool)

def Owned (owner : Option τ) (location : τ → ρ) : Prop :=
  ∀ t, owner = some t ↔ holds (location t) = true

variable {holds} {owner owner' : Option τ} {location location' : τ → ρ} {t u : τ}

theorem holder_unique (h : Owned holds owner location) (ht : holds (location t) = true)
    (hu : holds (location u) = true) : t = u := by
  have hown := (h t).mpr ht
  rw [(h u).mpr hu] at hown
  exact (Option.some.inj hown).symm

variable [DecidableEq τ]

def canEnter (owner : Option τ) (t : τ) : Bool := owner = none || owner = some t

variable (holds) in
inductive Passes (owner : Option τ) (location : τ → ρ) (t : τ) : Option τ → (τ → ρ) → Prop where
  | keep (r : ρ) : holds r = holds (location t) →
      Passes owner location t owner (Function.update location t r)
  | enter (r : ρ) : canEnter owner t = true → holds r = true →
      Passes owner location t (some t) (Function.update location t r)
  | exit (r : ρ) : holds (location t) = true → holds r = false →
      Passes owner location t none (Function.update location t r)

theorem canEnter_iff : canEnter owner t = true ↔ ∀ u, owner = some u → u = t := by
  cases owner <;> simp [canEnter]

theorem passes_stay (h : location' = location) (ho : owner' = owner) :
    Passes holds owner location t owner' location' := by
  have hkeep : Passes holds owner location t owner (Function.update location t (location t)) :=
    .keep _ rfl
  rw [h, ho]
  rwa [Function.update_eq_self] at hkeep

theorem passes_other (hp : Passes holds owner location t owner' location') (hu : u ≠ t) :
    location' u = location u := by
  cases hp with
  | keep r hr => exact Function.update_of_ne hu r location
  | enter r he hr => exact Function.update_of_ne hu r location
  | exit r ht hr => exact Function.update_of_ne hu r location

theorem owned_passes (h : Owned holds owner location)
    (hp : Passes holds owner location t owner' location') : Owned holds owner' location' := by
  intro u
  by_cases hu : u = t
  · subst hu
    cases hp with
    | keep r hr => rw [Function.update_self, hr]; exact h u
    | enter r he hr => simp [hr]
    | exit r ht hr => simp [hr]
  · rw [passes_other hp hu]
    cases hp with
    | keep r hr => exact h u
    | enter r he hr =>
      rw [← h u]
      refine iff_of_false (fun hown => hu (Option.some.inj hown).symm) (fun hown => ?_)
      exact hu (canEnter_iff.mp he u hown)
    | exit r ht hr => exact iff_of_false nofun (fun hown => hu (holder_unique h hown ht))

/-- A thread outside the region finds the lock taken if another one is inside. -/
theorem taken_iff (h : Owned holds owner location) (ht : holds (location t) = false) :
    canEnter owner t = false ↔ ∃ u, u ≠ t ∧ holds (location u) = true := by
  constructor
  · intro htaken
    cases hown : owner with
    | none => simp [hown, canEnter] at htaken
    | some u =>
      have hu := (h u).mp hown
      exact ⟨u,fun he => by simp [he, ht] at hu,hu⟩
  · rintro ⟨u,hne,hu⟩
    have hown := (h u).mpr hu
    rw [Bool.eq_false_iff]
    exact fun he => hne (canEnter_iff.mp he u hown)

end Vecoda.Ownership
