import Mathlib.Computability.StateTransition

/-!
# Work lists

A job in a world is replaced by further jobs in another, or it is stuck. The
jobs of a list are worked off from the front. A recursive evaluation of jobs
that runs out of fuel follows such a machine when every step of the machine
lies between two of its evaluations; then the machine halts exactly when some
fuel is enough, and finishes exactly when the result is no error.
-/

set_option autoImplicit false

namespace Vecoda.Worklist
open StateTransition (Reaches reaches_total)

section Machine

variable {J σ : Type} (step : J → σ → Option (List J × σ))

def move : List J × σ → Option (List J × σ)
  | ([],_) => none
  | (j::js,w) => (step j w).map (fun r => (r.1 ++ js,r.2))

def Visits (js : List J) (w : σ) (j : J) (u : σ) : Prop := ∃ ks, Reaches (move step) (js,w) (j::ks,u)

def Finishes (js : List J) (w u : σ) : Prop := Reaches (move step) (js,w) ([],u)

def Halts (js : List J) (w : σ) : Prop := ∃ c, Reaches (move step) (js,w) c ∧ move step c = none

variable {step}

theorem reaches_head {j : J} {js : List J} {w : σ} {r : List J × σ} (h : step j w = some r)
    {c : List J × σ} (hc : Reaches (move step) (r.1 ++ js,r.2) c) : Reaches (move step) (j::js,w) c :=
  .head (by simp [move, h]) hc

/-- The jobs behind wait. -/
theorem reaches_append {c d : List J × σ} (h : Reaches (move step) c d) (ls : List J) :
    Reaches (move step) (c.1 ++ ls,c.2) (d.1 ++ ls,d.2) := by
  induction h with
  | refl => exact .refl
  | @tail b d _ hd ih =>
    apply ih.tail
    obtain ⟨js,w⟩ := b
    cases js with
    | nil => cases hd
    | cons j js =>
      obtain ⟨r,hr,rfl⟩ : ∃ r, step j w = some r ∧ (r.1 ++ js,r.2) = d := by
        simpa [move] using hd
      simp [move, hr]

theorem visits_self (j : J) (js : List J) (w : σ) : Visits step (j::js) w j w := ⟨js,.refl⟩

theorem visits_step {j j' : J} {js : List J} {w u : σ} {r : List J × σ} (h : step j w = some r)
    (hv : Visits step (r.1 ++ js) r.2 j' u) : Visits step (j::js) w j' u := by
  obtain ⟨ks,hks⟩ := hv
  exact ⟨ks,reaches_head h hks⟩

theorem visits_left {js : List J} {w u : σ} {j : J} (hv : Visits step js w j u) (ls : List J) :
    Visits step (js ++ ls) w j u := by
  obtain ⟨ks,hks⟩ := hv
  exact ⟨ks ++ ls,reaches_append hks ls⟩

theorem visits_right {js ks : List J} {w u x : σ} {j : J} (hf : Finishes step js w x)
    (hv : Visits step ks x j u) : Visits step (js ++ ks) w j u := by
  obtain ⟨ls,hls⟩ := hv
  exact ⟨ls,(reaches_append hf ks).trans hls⟩

/-- What every job of a list has, and hands on to those it is replaced by, every job has that is
come to. -/
theorem visits_invariant {P : J → Prop}
    (hstep : ∀ j w r, P j → step j w = some r → ∀ k ∈ r.1, P k) {js : List J} {w u : σ} {j : J}
    (hjs : ∀ k ∈ js, P k) (hv : Visits step js w j u) : P j := by
  obtain ⟨ks,hks⟩ := hv
  suffices h : ∀ c : List J × σ, Reaches (move step) (js,w) c → ∀ k ∈ c.1, P k from
    h _ hks j List.mem_cons_self
  intro c hc
  induction hc with
  | refl => exact hjs
  | @tail b d _ hd ih =>
    obtain ⟨ls,x⟩ := b
    cases ls with
    | nil => cases hd
    | cons l ls =>
      obtain ⟨r,hr,rfl⟩ : ∃ r, step l x = some r ∧ (r.1 ++ ls,r.2) = d := by
        simpa [move] using hd
      obtain ⟨hl,hls⟩ := List.forall_mem_cons.mp ih
      exact List.forall_mem_append.mpr ⟨hstep l x r hl hr,hls⟩

theorem halts_nil (w : σ) : Halts step [] w := ⟨_,.refl,rfl⟩

theorem halts_stuck {j : J} {w : σ} (h : step j w = none) (js : List J) : Halts step (j::js) w :=
  ⟨_,.refl,by simp [move, h]⟩

theorem halts_step {j : J} {js : List J} {w : σ} {r : List J × σ} (h : step j w = some r)
    (hr : Halts step (r.1 ++ js) r.2) : Halts step (j::js) w := by
  obtain ⟨c,hc,hnone⟩ := hr
  exact ⟨c,reaches_head h hc,hnone⟩

theorem halts_append {js ks : List J} {w : σ} (hj : Halts step js w)
    (hk : ∀ x, Finishes step js w x → Halts step ks x) : Halts step (js ++ ks) w := by
  obtain ⟨⟨ls,u⟩,hc,hnone⟩ := hj
  cases ls with
  | nil =>
    obtain ⟨d,hd,hdone⟩ := hk u hc
    exact ⟨d,(reaches_append hc ks).trans hd,hdone⟩
  | cons l ls =>
    have hl : step l u = none := by simpa [move] using hnone
    exact ⟨_,reaches_append hc ks,by simp [move, hl]⟩

/-- A machine finishes when it halts and is stuck nowhere. -/
theorem finishes_iff (js : List J) (w : σ) : (∃ u, Finishes step js w u) ↔
    Halts step js w ∧ ∀ j u, Visits step js w j u → step j u ≠ none := by
  constructor
  · rintro ⟨x,hx⟩
    refine ⟨⟨_,hx,rfl⟩,?_⟩
    rintro j u ⟨ks,hks⟩ hstuck
    rcases reaches_total hx hks with h | h
    · rcases h.cases_head with he | ⟨d,hd,-⟩
      · cases he
      · cases hd
    · rcases h.cases_head with he | ⟨d,hd,-⟩
      · cases he
      · simp [move, hstuck] at hd
  · rintro ⟨⟨⟨ls,u⟩,hc,hnone⟩,hgo⟩
    cases ls with
    | nil => exact ⟨u,hc⟩
    | cons l ls =>
      have hl : step l u = none := by simpa [move] using hnone
      exact absurd hl (hgo l u ⟨ls,hc⟩)

end Machine

section Results

variable {ε α β : Type} (e : ε)

/-- More fuel changes nothing but `e`, which says that it ran out. -/
def Below (x y : Except ε α) : Prop := x = .error e ∨ x = y

variable {e}

theorem below_refl (x : Except ε α) : Below e x x := .inr rfl

theorem below_trans {x y z : Except ε α} (h : Below e x y) (h' : Below e y z) : Below e x z := by
  rcases h with h | rfl
  · exact .inl h
  · exact h'

theorem below_bind {x y : Except ε α} {f g : α → Except ε β} (h : Below e x y)
    (hf : ∀ a, Below e (f a) (g a)) : Below e (x.bind f) (y.bind g) := by
  rcases h with rfl | rfl
  · exact .inl rfl
  · cases x with
    | error x => exact .inr rfl
    | ok a => exact hf a

theorem below_map {x y : Except ε α} (f : α → β) (h : Below e x y) : Below e (x.map f) (y.map f) := by
  rcases h with rfl | rfl
  · exact .inl rfl
  · exact .inr rfl

theorem Below.eq {x y : Except ε α} (h : Below e x y) (hx : x ≠ .error e) : y = x := by
  rcases h with h | rfl
  · exact absurd h hx
  · rfl

theorem map_eq_error {x : Except ε α} {f : α → β} : x.map f = .error e ↔ x = .error e := by
  cases x with
  | error x => exact ⟨fun h => by cases h; rfl,fun h => by cases h; rfl⟩
  | ok a => exact ⟨fun h => (by cases h),fun h => (by cases h)⟩

end Results

section Evaluation

variable {J σ ε : Type} {step : J → σ → Option (List J × σ)} {run : ℕ → J → σ → Except ε σ} {e : ε}

def runAll (run : ℕ → J → σ → Except ε σ) (fuel : ℕ) : List J → σ → Except ε σ
  | [], w => .ok w
  | j::js, w => (run fuel j w).bind (runAll run fuel js)

/-- An evaluation follows a machine: a step of the machine costs at most one unit of fuel, and
where the machine is stuck the evaluation fails. -/
structure Follows (step : J → σ → Option (List J × σ)) (run : ℕ → J → σ → Except ε σ) (e : ε) : Prop where
  more (fuel : ℕ) (j : J) (w : σ) : Below e (run fuel j w) (run (fuel+1) j w)
  down {j : J} {w : σ} {r : List J × σ} (h : step j w = some r) (fuel : ℕ) :
    Below e (run fuel j w) (runAll run fuel r.1 r.2)
  up {j : J} {w : σ} {r : List J × σ} (h : step j w = some r) (fuel : ℕ) :
    Below e (runAll run fuel r.1 r.2) (run (fuel+1) j w)
  stuck {j : J} {w : σ} (h : step j w = none) : ∃ fuel x, x ≠ e ∧ run fuel j w = .error x

def Gives (run : ℕ → J → σ → Except ε σ) (e : ε) (js : List J) (w : σ) (r : Except ε σ) : Prop :=
  r ≠ .error e ∧ ∃ fuel, runAll run fuel js w = r

theorem runAll_append (fuel : ℕ) (js ks : List J) (w : σ) :
    runAll run fuel (js ++ ks) w = (runAll run fuel js w).bind (runAll run fuel ks) := by
  induction js generalizing w with
  | nil => rfl
  | cons j js ih =>
    rw [List.cons_append, runAll, runAll]
    cases run fuel j w with
    | error x => rfl
    | ok u => exact ih u

theorem gives_nil (w : σ) {r : Except ε σ} : Gives run e [] w r ↔ r = .ok w := by
  constructor
  · rintro ⟨-,_,hr⟩
    exact hr.symm
  · rintro rfl
    exact ⟨fun h => (by cases h),0,rfl⟩

variable (hf : Follows step run e)

include hf

theorem runAll_more {fuel fuel' : ℕ} (hle : fuel ≤ fuel') (js : List J) (w : σ) :
    Below e (runAll run fuel js w) (runAll run fuel' js w) := by
  induction hle with
  | refl => exact below_refl _
  | @step m _ ih =>
    apply below_trans ih
    clear ih
    induction js generalizing w with
    | nil => exact below_refl _
    | cons j js ih => exact below_bind (hf.more m j w) (fun u => ih u)

/-- There is one result at most. -/
theorem gives_unique {js : List J} {w : σ} {r r' : Except ε σ} (h : Gives run e js w r)
    (h' : Gives run e js w r') : r = r' := by
  obtain ⟨hr,fuel,rfl⟩ := h
  obtain ⟨hr',fuel',rfl⟩ := h'
  rcases le_total fuel fuel' with hle | hle
  · exact ((runAll_more hf hle js w).eq hr).symm
  · exact (runAll_more hf hle js w).eq hr'

theorem gives_move {c d : List J × σ} (h : d ∈ move step c) (r : Except ε σ) :
    Gives run e c.1 c.2 r ↔ Gives run e d.1 d.2 r := by
  obtain ⟨js,w⟩ := c
  cases js with
  | nil => cases h
  | cons j js =>
    obtain ⟨s,hs,rfl⟩ : ∃ s, step j w = some s ∧ (s.1 ++ js,s.2) = d := by simpa [move] using h
    constructor
    · rintro ⟨hr,fuel,rfl⟩
      refine ⟨hr,fuel,?_⟩
      rw [runAll_append]
      exact (below_bind (hf.down hs fuel) (fun u => below_refl _)).eq hr
    · rintro ⟨hr,fuel,rfl⟩
      refine ⟨hr,fuel+1,?_⟩
      rw [runAll_append] at hr ⊢
      exact (below_bind (hf.up hs fuel) (fun u => runAll_more hf (Nat.le_succ fuel) js u)).eq hr

theorem gives_reaches {c d : List J × σ} (h : Reaches (move step) c d) (r : Except ε σ) :
    Gives run e c.1 c.2 r ↔ Gives run e d.1 d.2 r := by
  induction h with
  | refl => rfl
  | tail _ hd ih => exact ih.trans (gives_move hf hd r)

theorem gives_stuck {j : J} {w : σ} (h : step j w = none) (js : List J) :
    ∃ x, Gives run e (j::js) w (.error x) := by
  obtain ⟨fuel,x,hx,hrun⟩ := hf.stuck h
  exact ⟨x,fun he => hx (Except.error.inj he),fuel,by rw [runAll, hrun]; rfl⟩

/-- A machine that halts has a result. -/
theorem gives_of_halts {js : List J} {w : σ} (h : Halts step js w) : ∃ r, Gives run e js w r := by
  obtain ⟨⟨ls,u⟩,hc,hnone⟩ := h
  cases ls with
  | nil => exact ⟨.ok u,(gives_reaches hf hc _).mpr ((gives_nil u).mpr rfl)⟩
  | cons l ls =>
    obtain ⟨x,hx⟩ := gives_stuck hf (by simpa [move] using hnone) ls
    exact ⟨.error x,(gives_reaches hf hc _).mpr hx⟩

/-- It finishes exactly when the result is no error. -/
theorem finishes_iff_gives {js : List J} {w : σ} (h : Halts step js w) (u : σ) :
    Finishes step js w u ↔ Gives run e js w (.ok u) := by
  constructor
  · intro hu
    exact (gives_reaches hf hu _).mpr ((gives_nil u).mpr rfl)
  · intro hu
    obtain ⟨⟨ls,x⟩,hc,hnone⟩ := h
    have hx := (gives_reaches hf hc _).mp hu
    cases ls with
    | nil =>
      have hxu : u = x := Except.ok.inj ((gives_nil x).mp hx)
      rw [hxu]
      exact hc
    | cons l ls =>
      obtain ⟨y,hy⟩ := gives_stuck hf (by simpa [move] using hnone) ls
      cases gives_unique hf hx hy

/-- What finishes gives the world it finishes in, or runs out of fuel. -/
theorem finishes_below {js : List J} {w x : σ} (h : Finishes step js w x) (fuel : ℕ) :
    Below e (runAll run fuel js w) (.ok x) := by
  obtain ⟨hr,enough,hx⟩ := (gives_reaches hf h (.ok x)).mpr ((gives_nil x).mpr rfl)
  rw [← hx]
  rcases le_total fuel enough with hle | hle
  · exact runAll_more hf hle js w
  · exact .inr ((runAll_more hf hle js w).eq (by rw [hx]; exact hr))

end Evaluation

end Vecoda.Worklist
