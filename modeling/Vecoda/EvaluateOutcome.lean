import Vecoda.EvaluateProgram
import Vecoda.PrintedChains

/-!
# What Evaluate comes to

The results of an expression are printed one after the other, each in the world
the printing of those before it has left. Evaluate has a document when they can
all be printed, or when the error is a string or a number: the text of any other
error is a null pointer, which Evaluate searches all the same.
-/

set_option autoImplicit false

namespace Vecoda.EvaluateOutcome
open LuaApi ValueText EvaluateProgram Worklist PrintedCalls PrintedChains
open LuaText (text)
open LuaStack (Result)
open TableDocument (TiXmlElement)

variable {σ : Type} (p : Printer σ)

def resultJobs (h : ℕ) (vs : List Value) : List Job := vs.map (fun v => .value false ⟨h,1,none,false,v⟩)

def outcome (expression : MessagePipe.Bytes) (stackLevel : ℤ) (w : σ) : Result Value × σ :=
  ran p expression (prepared p stackLevel w).2.envTable (prepared p stackLevel w).2.world

/-- There is something to be put into a document: results that can be printed, or an error with a text. -/
def Documented (h : ℕ) : Result Value → σ → Prop
  | .returns vs, w => Passable p (resultJobs (h+vs.length) vs) w
  | .raises e, _ => p.lua.tostring e ≠ none

section Results

variable {p}

theorem resultsShown_run (fuel h : ℕ) (vs : List Value) (w : σ) :
    (resultsShown (valueShown p fuel) h vs w).map Prod.snd = runAll (run p) fuel (resultJobs h vs) w := by
  induction vs generalizing w with
  | nil => rfl
  | cons v vs ih =>
    rw [resultsShown, resultJobs, List.map_cons, runAll, run, Call.shown, printed, if_neg Bool.false_ne_true]
    cases valueShown p fuel h 1 none false v w with
    | error x => rfl
    | ok node =>
      change _ = runAll (run p) fuel (resultJobs h vs) node.2
      rw [ok_bind, ← ih]
      exact map_bind_snd _ (fun nodes => node.1.toList ++ nodes)

theorem resultsShown_below (fuel h : ℕ) (vs : List Value) (w : σ) :
    Below .endless (resultsShown (valueShown p fuel) h vs w) (resultsShown (valueShown p (fuel+1)) h vs w) := by
  induction vs generalizing w with
  | nil => exact below_refl _
  | cons v vs ih =>
    exact below_bind (valueShown_earlier fuel ..) (fun node => below_bind (ih node.2) (fun _ => below_refl _))

theorem outcomeShown_below (fuel h : ℕ) (r : Result Value) (w : σ) :
    Below .endless (outcomeShown p (valueShown p fuel) h r w)
      (outcomeShown p (valueShown p (fuel+1)) h r w) := by
  cases r with
  | returns vs => exact below_bind (resultsShown_below fuel _ vs w) (fun _ => below_refl _)
  | raises e => exact below_refl _

theorem evaluated_below {fuel fuel' : ℕ} (hle : fuel ≤ fuel') (h : ℕ) (expression : MessagePipe.Bytes)
    (stackLevel : ℤ) (w : σ) : Below .endless (evaluated p fuel h expression stackLevel w)
      (evaluated p fuel' h expression stackLevel w) := by
  induction hle with
  | refl => exact below_refl _
  | @step m _ ih =>
    apply below_trans ih
    unfold evaluated
    dsimp only
    split
    · exact below_bind (outcomeShown_below m ..) (fun _ => below_refl _)
    · exact below_refl _

theorem results_shown_iff (h : ℕ) (vs : List Value) (w : σ) :
    (∃ fuel r, resultsShown (valueShown p fuel) h vs w = .ok r) ↔ Passable p (resultJobs h vs) w :=
  shown_ok_iff (fun fuel => resultsShown_run fuel h vs w)

/-- At this depth no table is gone through, and no node is linked. -/
def Flat : Job → Prop
  | .value linked c => linked = false ∧ c.maxDepth ≤ 1
  | .attributes _ _ => True
  | _ => False

theorem flat_turned {c : Call} (hc : c.maxDepth ≤ 1) {t : Turn σ} {r : List Job × σ}
    (hr : turned c t = some r) : ∀ k ∈ r.1, Flat k := by
  cases t with
  | leads h className v w =>
    cases hr
    exact List.forall_mem_singleton.mpr ⟨rfl,hc⟩
  | ended w =>
    cases hr
    exact List.forall_mem_nil _
  | broken => cases hr

theorem flat_step (j : Job) (w : σ) (r : List Job × σ) (hj : Flat j) (hr : step p j w = some r) :
    ∀ k ∈ r.1, Flat k := by
  cases j with
  | fields h maxDepth t key => exact hj.elim
  | loop of h count n => exact hj.elim
  | attributes maxDepth t =>
    cases hr
    exact List.forall_mem_nil _
  | value linked c =>
    obtain ⟨rfl,hdepth⟩ := hj
    have hdenied (hd : denied false w = some r) : ∀ k ∈ r.1, Flat k := by
      cases hd
      exact List.forall_mem_nil _
    obtain ⟨height,maxDepth,typeNameOverride,displayAsKey,v⟩ := c
    rw [step] at hr
    split at hr
    case isFalse hc => exact hdenied hr
    case isTrue hc =>
      cases v with
      | table id =>
        dsimp only [valueStep] at hr
        split at hr
        case isFalse hd => exact hdenied hr
        case isTrue hd =>
          have hflat : ¬ 0 < maxDepth-1 := by
            dsimp only at hdepth
            omega
          cases hr
          rw [tableJobs, if_neg hflat]
          exact List.forall_mem_singleton.mpr trivial
      | userdata id => exact flat_turned hdepth hr
      | lightuserdata address => exact flat_turned hdepth hr
      | _ =>
        cases hr
        exact List.forall_mem_nil _

theorem results_flat {h : ℕ} {vs : List Value} {w u : σ} {j : Job}
    (hv : Visits (step p) (resultJobs h vs) w j u) : Flat j := by
  refine visits_invariant flat_step (fun k hk => ?_) hv
  obtain ⟨v,-,rfl⟩ := List.mem_map.mp hk
  exact ⟨rfl,le_rfl⟩

/-- Results are passable where the chains end and the turns of each userdata go well. -/
theorem results_passable_iff (h : ℕ) (vs : List Value) (w : σ) : Passable p (resultJobs h vs) w ↔
    Chained p (resultJobs h vs) w ∧ ∀ c u, Visits (step p) (resultJobs h vs) w (.value false c) u →
      isUserdata c.value = true → p.lua.checkstack u c.height 1 = true → Turns p (c.height+1) c.value u := by
  constructor
  · exact fun hp => ⟨hp.chained,fun c u hv => (hp.sound false c u hv).turns⟩
  · rintro ⟨hc,hturns⟩
    refine ⟨hc,fun linked c u hv => ?_,fun h maxDepth t key u hv => (results_flat hv).elim⟩
    obtain ⟨rfl,-⟩ := results_flat hv
    exact ⟨fun h => (by cases h),fun h => (by cases h),hturns c u hv⟩

theorem outcome_shown_iff (h : ℕ) (r : Result Value) (w : σ) :
    (∃ fuel d, outcomeShown p (valueShown p fuel) h r w = .ok d) ↔ Documented p h r w := by
  cases r with
  | returns vs =>
    rw [Documented, ← results_shown_iff]
    refine exists_congr (fun fuel => ?_)
    rw [outcomeShown]
    cases resultsShown (valueShown p fuel) (h+vs.length) vs w with
    | error x =>
      constructor
      · rintro ⟨_,hd⟩
        cases hd
      · rintro ⟨_,hd⟩
        cases hd
    | ok nodes => exact ⟨fun _ => ⟨_,rfl⟩,fun _ => ⟨_,rfl⟩⟩
  | raises e =>
    rw [Documented]
    cases he : p.lua.tostring e with
    | none => simp [outcomeShown, he]
    | some wholeMessage => simp [outcomeShown, he]

theorem evaluated_some_iff (h : ℕ) (expression : MessagePipe.Bytes) (stackLevel : ℤ) (w : σ) :
    (∃ fuel ok document u, evaluated p fuel h expression stackLevel w = .ok (some (ok,document),u)) ↔
      p.lua.getstack (p.lua.newuserdata w).2 stackLevel = true ∧
        Documented p (h+4) (outcome p expression stackLevel w).1 (outcome p expression stackLevel w).2 := by
  rw [← outcome_shown_iff]
  by_cases hlevel : p.lua.getstack (p.lua.newuserdata w).2 stackLevel = true
  · rw [and_iff_right hlevel]
    refine exists_congr (fun fuel => ?_)
    rw [evaluated, if_pos hlevel]
    dsimp only
    rw [← outcome]
    cases outcomeShown p (valueShown p fuel) (h+4) (outcome p expression stackLevel w).1
        (outcome p expression stackLevel w).2 with
    | error x =>
      constructor
      · rintro ⟨_,_,_,hd⟩
        cases hd
      · rintro ⟨_,hd⟩
        cases hd
    | ok d => exact ⟨fun _ => ⟨d,rfl⟩,fun _ => ⟨_,_,_,rfl⟩⟩
  · constructor
    · rintro ⟨fuel,ok,document,u,hd⟩
      rw [evaluated, if_neg hlevel] at hd
      cases hd
    · exact fun h => absurd h.1 hlevel

end Results

/-- Evaluate has a document, and reads no null pointer, exactly when the level exists and the outcome
can be put into a document. -/
theorem document_iff (expression : MessagePipe.Bytes) (stackLevel : ℤ) (s : List Value) (w : σ) :
    ((∀ fuel, evaluate p fuel expression stackLevel ⟨s,w⟩ ≠ .error (.fault .string)) ∧
        ∃ fuel ok document t, evaluate p fuel expression stackLevel ⟨s,w⟩ = .ok (some (ok,document),t)) ↔
      p.lua.getstack (p.lua.newuserdata w).2 stackLevel = true ∧
        Documented p (s.length+4) (outcome p expression stackLevel w).1
          (outcome p expression stackLevel w).2 := by
  rw [← evaluated_some_iff]
  constructor
  · rintro ⟨-,fuel,ok,document,t,ht⟩
    rw [evaluate_apply, leaving_eq_ok] at ht
    obtain ⟨u,hd,-⟩ := ht
    exact ⟨fuel,ok,document,u,hd⟩
  · rintro ⟨fuel,ok,document,u,hd⟩
    refine ⟨fun fuel' hfault => ?_,fuel,ok,document,⟨s,u⟩,by rw [evaluate_apply, hd]; rfl⟩
    rw [evaluate_apply, leaving_eq_error] at hfault
    rcases le_total fuel fuel' with hle | hle
    · have := (evaluated_below hle s.length expression stackLevel w).eq (by rw [hd]; exact fun h => by cases h)
      rw [hd, hfault] at this
      cases this
    · have := (evaluated_below hle s.length expression stackLevel w).eq (by rw [hfault]; exact fun h => by cases h)
      rw [hd, hfault] at this
      cases this

def tableRaising : Printer Unit := bare {Lua.idle Unit with
  call := fun w _ _ => (.raises (.table 0),w)}

theorem table_error_read :
    ¬ ((∀ fuel, evaluate tableRaising fuel (text "error(\x7b\x7d)") 0 ⟨[],()⟩ ≠ .error (.fault .string)) ∧
      ∃ fuel ok document t, evaluate tableRaising fuel (text "error(\x7b\x7d)") 0 ⟨[],()⟩ =
        .ok (some (ok,document),t)) := by
  rintro ⟨hfault,-⟩
  exact hfault 1 rfl

end Vecoda.EvaluateOutcome
