import Vecoda.PrintedCalls

/-!
# The chains of a printing

A userdata is printed by the last result of its `__towatch`, which may be a
userdata again, at the same depth. The loop over the fields of a table prints
each before it looks for the next, and the metamethods that run meanwhile may
put further fields there. Such chains are the ways in which the printing goes on
for ever: tables are printed two levels down. Where the chains end, the printing
goes through unless a metatable cannot be read, the first of several results has
no text, a node is linked that there is no space for, or the loop has lost its
place in the table.
-/

set_option autoImplicit false

namespace Vecoda.PrintedChains
open LuaApi ValueText ExpandProgram Worklist PrintedCalls
open LuaText (text)
open LuaStack (Result)

variable {σ : Type} (p : Printer σ)

section Chains

def going (c : Call) : Turn σ → Option (Call × σ)
  | .leads h className v w => some (⟨h,c.maxDepth,some className,c.displayAsKey,v⟩,w)
  | .ended _ => none
  | .broken => none

def onward (c : Call) (w : σ) : Option (Call × σ) :=
  if p.lua.checkstack w c.height 1 then
    match c.value with
    | .userdata _ => going c (turn p (c.height+1) c.value w)
    | .lightuserdata _ => going c (turn p (c.height+1) c.value w)
    | _ => none
  else none

def chain : ℕ → Call → σ → Option (Call × σ)
  | 0, c, w => some (c,w)
  | n+1, c, w => (onward p c w).bind (fun r => chain n r.1 r.2)

/-- The loop goes on for `n` fields behind the key, each printed before the next is looked for. -/
def Traverses (h : ℕ) (maxDepth : ℤ) (t : Value) : ℕ → Value → σ → Prop
  | 0, _, _ => True
  | n+1, key, w => ∃ k x, p.lua.next w t key = some (some k) ∧
      Finishes (step p) (fieldJobs h maxDepth k (p.lua.rawget w t k)) w x ∧ Traverses h maxDepth t n k x

def ChainEnds : Job → σ → Prop
  | .value _ c, w => ∃ n, chain p n c w = none
  | .fields h maxDepth t key, w => ∃ n, ¬ Traverses p h maxDepth t n key w
  | _, _ => True

variable {p}

/-- Only a turn that leads to a result goes on, at the depth of the call. -/
theorem going_some {c : Call} {t : Turn σ} {r : Call × σ} (h : going c t = some r) :
    turned c t = some ([.value false r.1],r.2) ∧ r.1.maxDepth = c.maxDepth := by
  cases t with
  | leads h' className v' w' =>
    cases h
    exact ⟨rfl,rfl⟩
  | ended w' => cases h
  | broken => cases h

theorem onward_step {c : Call} {w : σ} {r : Call × σ} (h : onward p c w = some r) (linked : Bool) :
    step p (.value linked c) w = some ([.value false r.1],r.2) := by
  obtain ⟨height,maxDepth,typeNameOverride,displayAsKey,v⟩ := c
  unfold onward at h
  split at h
  case isFalse hc => cases h
  case isTrue hc =>
    rw [step, if_pos hc]
    cases v with
    | userdata id => exact (going_some h).1
    | lightuserdata address => exact (going_some h).1
    | _ => cases h

theorem onward_depth {c : Call} {w : σ} {r : Call × σ} (h : onward p c w = some r) :
    r.1.maxDepth = c.maxDepth := by
  unfold onward at h
  split at h
  · split at h
    · exact (going_some h).2
    · exact (going_some h).2
    · cases h
  · cases h

/-- A chain that goes on for as long as there is fuel uses it up. -/
theorem run_endless {fuel : ℕ} {c : Call} {w : σ} (h : chain p fuel c w ≠ none) (linked : Bool) :
    run p fuel (.value linked c) w = .error .endless := by
  induction fuel generalizing linked c w with
  | zero => cases linked <;> rfl
  | succ fuel ih =>
    rw [chain] at h
    obtain ⟨r,hr⟩ : ∃ r, onward p c w = some r := by
      rw [← Option.ne_none_iff_exists']
      intro hnone
      rw [hnone] at h
      exact h rfl
    rw [hr] at h
    rw [run_value (onward_step hr linked), runAll_one]
    exact ih h false

/-- So does a loop over fields. -/
theorem fields_endless {h : ℕ} {maxDepth : ℤ} {t key : Value} {rounds : ℕ} {w : σ}
    (ht : Traverses p h maxDepth t rounds key w) (fuel : ℕ) :
    (fields p.lua t (elementShown (valueShown p fuel) (h+2) maxDepth) rounds key w).map Prod.snd =
      .error .endless := by
  induction rounds generalizing key w with
  | zero => rfl
  | succ rounds ih =>
    obtain ⟨k,x,hnext,hfinishes,hrest⟩ := ht
    rw [fields_field hnext, run_field]
    rcases finishes_below run_follows hfinishes fuel with he | he
    · rw [he]
      rfl
    · rw [he]
      exact ih hrest

def Chained (p : Printer σ) (js : List Job) (w : σ) : Prop :=
  ∀ j u, Visits (step p) js w j u → ChainEnds p j u

theorem chained_step {j : Job} {w : σ} {r : List Job × σ} (h : step p j w = some r) (hc : Chained p [j] w) :
    Chained p r.1 r.2 :=
  fun _ _ hv => hc _ _ (visits_step h (by rw [List.append_nil]; exact hv))

theorem chained_left {js ks : List Job} {w : σ} (hc : Chained p (js ++ ks) w) : Chained p js w :=
  fun _ _ hv => hc _ _ (visits_left hv ks)

theorem chained_right {js ks : List Job} {w x : σ} (hc : Chained p (js ++ ks) w)
    (hf : Finishes (step p) js w x) : Chained p ks x :=
  fun _ _ hv => hc _ _ (visits_right hf hv)

theorem halts_of_parts (js : List Job) {ks : List Job} {w : σ} (hc : Chained p (js ++ ks) w)
    (hj : Chained p js w → Halts (step p) js w) (hk : ∀ x, Chained p ks x → Halts (step p) ks x) :
    Halts (step p) (js ++ ks) w :=
  halts_append (hj (chained_left hc)) (fun x hx => hk x (chained_right hc hx))

theorem halts_one {j : Job} {w : σ} {r : List Job × σ} (h : step p j w = some r)
    (hr : Halts (step p) r.1 r.2) : Halts (step p) [j] w :=
  halts_step h (by rw [List.append_nil]; exact hr)

theorem halts_attributes (maxDepth : ℤ) (t : Value) (w : σ) : Halts (step p) [.attributes maxDepth t] w :=
  halts_one (r := ([],_)) rfl (halts_nil _)

/-- Along the traversal. -/
theorem halts_fields {h : ℕ} {maxDepth : ℤ} {t : Value}
    (hcalls : ∀ linked c w, c.maxDepth = maxDepth-1 → Chained p [.value linked c] w →
      Halts (step p) [.value linked c] w) {key : Value} {w : σ}
    (hc : Chained p [.fields h maxDepth t key] w) : Halts (step p) [.fields h maxDepth t key] w := by
  obtain ⟨n,hn⟩ : ∃ n, ¬ Traverses p h maxDepth t n key w := hc _ _ (visits_self ..)
  induction n generalizing key w with
  | zero => exact absurd trivial hn
  | succ n ih =>
    rcases hnext : p.lua.next w t key with _ | _ | k
    · exact halts_stuck (fields_stuck hnext) []
    · exact halts_one (fields_end hnext) (halts_nil w)
    · have hstep : step p (.fields h maxDepth t key) w =
          some (fieldJobs h maxDepth k (p.lua.rawget w t k) ++ [.fields h maxDepth t k],w) := fields_go hnext
      have hrest := chained_step hstep hc
      refine halts_one hstep (halts_append ?_ (fun x hx => ?_))
      · exact halts_of_parts [_] (chained_left hrest) (hcalls _ _ _ rfl) (fun x => hcalls _ _ _ rfl)
      · exact ih (chained_right hrest hx) (fun ht => hn ⟨k,x,hnext,hx,ht⟩)

/-- A call that is not a userdata's goes on to the fields of a table, or is done. -/
theorem step_without_turn {linked : Bool} {c : Call} {w : σ} {r : List Job × σ}
    (h : step p (.value linked c) w = some r) (hn : onward p c w = none) :
    r.1 = [] ∨ r = (tableJobs (c.height+1) (c.maxDepth-1) c.value,w) := by
  have hturn {t : Turn σ} (ht : turned c t = some r) (hcall : going c t = none) : r.1 = [] := by
    cases t with
    | leads h' className v' w' => cases hcall
    | ended w' =>
      cases ht
      rfl
    | broken => cases ht
  have hdenied (hd : denied linked w = some r) : r.1 = [] := by
    cases linked with
    | true => cases hd
    | false =>
      cases hd
      rfl
  unfold onward at hn
  rw [step] at h
  split at h
  case isFalse hc => exact .inl (hdenied h)
  case isTrue hc =>
    rw [if_pos hc] at hn
    obtain ⟨height,maxDepth,typeNameOverride,displayAsKey,v⟩ := c
    cases v with
    | table id =>
      dsimp only [valueStep] at h
      split at h
      case isTrue hd =>
        cases h
        exact .inr rfl
      case isFalse hd => exact .inl (hdenied h)
    | userdata id => exact .inl (hturn h hn)
    | lightuserdata address => exact .inl (hturn h hn)
    | _ =>
      cases h
      exact .inl rfl

/-- By the depth, and at one depth along the chain. -/
theorem halts_value (depth : ℕ) : ∀ linked c w, c.maxDepth.toNat ≤ depth → Chained p [.value linked c] w →
    Halts (step p) [.value linked c] w := by
  induction depth using Nat.strong_induction_on with
  | _ depth ih =>
    intro linked c w hdepth hc
    obtain ⟨n,hn⟩ : ∃ n, chain p n c w = none := hc _ _ (visits_self ..)
    induction n generalizing linked c w with
    | zero => cases hn
    | succ n ihn =>
      cases hstep : step p (.value linked c) w with
      | none => exact halts_stuck hstep []
      | some r =>
        have hr := chained_step hstep hc
        apply halts_one hstep
        cases hon : onward p c w with
        | some next =>
          rw [onward_step hon linked] at hstep
          cases hstep
          rw [chain, hon] at hn
          exact ihn false next.1 next.2 (by rw [onward_depth hon]; exact hdepth) hr hn
        | none =>
          rcases step_without_turn hstep hon with hnil | htable
          · rw [hnil]
            exact halts_nil _
          · rw [htable] at hr ⊢
            refine halts_of_parts _ hr (fun hf => ?_) (fun x _ => halts_attributes ..)
            by_cases hpos : 0 < c.maxDepth-1
            · rw [if_pos hpos] at hf ⊢
              refine halts_fields (fun linked' c' w' hc' => ?_) hf
              exact ih (c.maxDepth-1-1).toNat (by omega) linked' c' w' (by rw [hc'])
            · rw [if_neg hpos]
              exact halts_nil w

theorem halts_loop (of : Variables) (h count n : ℕ) {w : σ} (hc : Chained p [.loop of h count n] w) :
    Halts (step p) [.loop of h count n] w := by
  induction count generalizing n w with
  | zero => exact halts_one (r := ([],w)) rfl (halts_nil w)
  | succ count ih =>
    cases hread : of.read p n w with
    | none => exact halts_one (r := ([],w)) (by simp only [step, hread]) (halts_nil w)
    | some e =>
      obtain ⟨name,v⟩ := e
      have hstep : step p (.loop of h (count+1) n) w =
          some (variableJobs of h name v ++ [.loop of h count (n+1)],w) := by simp only [step, hread]
      refine halts_one hstep (halts_of_parts _ (chained_step hstep hc) (fun hv => ?_) (fun x => ih (n+1)))
      unfold variableJobs at hv ⊢
      split at hv
      case isTrue hn =>
        rw [if_pos hn]
        exact halts_value 1 _ _ _ le_rfl hv
      case isFalse hn =>
        rw [if_neg hn]
        exact halts_nil w

theorem halts_of_chained {js : List Job} {w : σ} (hc : Chained p js w) : Halts (step p) js w := by
  induction js generalizing w with
  | nil => exact halts_nil w
  | cons j js ih =>
    refine halts_of_parts [j] hc (fun hj => ?_) (fun x => ih)
    cases j with
    | value linked c => exact halts_value c.maxDepth.toNat linked c w le_rfl hj
    | fields h maxDepth t key =>
      exact halts_fields (fun linked c w _ => halts_value c.maxDepth.toNat linked c w le_rfl) hj
    | attributes maxDepth t => exact halts_attributes maxDepth t w
    | loop of h count n => exact halts_loop of h count n hj

/-- Some fuel is enough exactly when every chain ends. -/
theorem gives_iff_chained (js : List Job) (w : σ) :
    (∃ r, Gives (run p) .endless js w r) ↔ Chained p js w := by
  constructor
  · rintro ⟨r,hr⟩ j u ⟨ks,hks⟩
    obtain ⟨hne,fuel,hfuel⟩ := (gives_reaches run_follows hks r).mp hr
    cases j with
    | value linked c =>
      refine ⟨fuel,?_⟩
      by_contra hchain
      rw [runAll, run_endless hchain] at hfuel
      exact hne hfuel.symm
    | fields h maxDepth t key =>
      refine ⟨fuel,fun ht => ?_⟩
      rw [runAll, run, fields_endless ht] at hfuel
      exact hne hfuel.symm
    | _ => trivial
  · intro hc
    exact gives_of_halts run_follows (halts_of_chained hc)

/-- What runs as jobs do ends exactly when their chains end. -/
theorem ends_iff_chained {α : Type} {js : List Job} {w : σ} {shown : ℕ → Outcome σ α}
    (hrun : ∀ fuel, (shown fuel).map Prod.snd = runAll (run p) fuel js w) :
    (∃ fuel, shown fuel ≠ .error .endless) ↔ Chained p js w := by
  rw [← gives_iff_chained]
  constructor
  · rintro ⟨fuel,h⟩
    exact ⟨_,fun he => h (map_eq_error.mp he),fuel,(hrun fuel).symm⟩
  · rintro ⟨r,hr,fuel,rfl⟩
    exact ⟨fuel,fun he => hr ((hrun fuel).symm.trans (map_eq_error.mpr he))⟩

end Chains

section Soundness

/-- Its metatable can be read, and the first of several results of `__towatch` has a text. -/
structure Turns (h : ℕ) (v : Value) (w : σ) : Prop where
  watch : ∀ x, metaMethod p h v (text "__towatch") none w ≠ .error x
  named : ∀ first second rest u,
    metaMethod p h v (text "__towatch") none w = .ok (some (.returns (first::second::rest)),u) →
      p.lua.tostring first ≠ none
  string : ∀ u, metaMethod p h v (text "__towatch") none w = .ok (none,u) →
    ∀ x, metaMethod p h v (text "__tostring") (some 1) u ≠ .error x

def isUserdata : Value → Bool
  | .userdata _ => true
  | .lightuserdata _ => true
  | _ => false

structure Sound (linked : Bool) (c : Call) (w : σ) : Prop where
  granted : linked = true → p.lua.checkstack w c.height 1 = true
  fits : linked = true → isTable c.value = true → p.lua.checkstack w (c.height+1) 2 = true
  turns : isUserdata c.value = true → p.lua.checkstack w c.height 1 = true → Turns p (c.height+1) c.value w

/-- Every chain the jobs come to ends, every call is sound, and no loop over a table loses its place. -/
structure Passable (js : List Job) (w : σ) : Prop where
  chained : Chained p js w
  sound : ∀ linked c u, Visits (step p) js w (.value linked c) u → Sound p linked c u
  placed : ∀ h maxDepth t key u, Visits (step p) js w (.fields h maxDepth t key) u →
    p.lua.next u t key ≠ none

variable {p}

theorem leads_ne_broken {h : ℕ} {className : MessagePipe.Bytes} {v : Value} {w : σ} :
    Turn.leads h className v w ≠ .broken := by
  intro h
  cases h

theorem ended_ne_broken {w : σ} : Turn.ended w ≠ .broken := by
  intro h
  cases h

theorem turns_iff (h : ℕ) (v : Value) (w : σ) : Turns p h v w ↔ turn p h v w ≠ .broken := by
  cases hw : metaMethod p h v (text "__towatch") none w with
  | error x =>
    exact ⟨fun ht => absurd hw (ht.watch x),fun hn => absurd (turn_failed hw) hn⟩
  | ok r =>
    obtain ⟨called,u⟩ := r
    rcases called with _ | results | e
    case some.raises =>
      rw [turn_raised hw]
      exact ⟨fun _ => ended_ne_broken,fun _ => ⟨by simp [hw],by simp [hw],by simp [hw]⟩⟩
    case some.returns =>
      rw [turn_returned hw]
      rcases results with _ | ⟨first,_ | ⟨x,xs⟩⟩
      · exact ⟨fun _ => leads_ne_broken,fun _ => ⟨by simp [hw],by simp [hw],by simp [hw]⟩⟩
      · exact ⟨fun _ => leads_ne_broken,fun _ => ⟨by simp [hw],by simp [hw],by simp [hw]⟩⟩
      · cases hname : p.lua.tostring first with
        | none =>
          have hbroken : watchTurn p h (classNameOf (classNameForUserdata p h v w)) u (first::x::xs) =
              .broken := by simp only [watchTurn, hname]
          exact ⟨fun ht => absurd hname (ht.named first x xs u hw),fun hn => absurd hbroken hn⟩
        | some name =>
          simp only [watchTurn, hname]
          refine ⟨fun _ => leads_ne_broken,fun _ => ⟨by simp [hw],fun _ _ _ _ h => ?_,by simp [hw]⟩⟩
          rw [hw] at h
          cases h
          simp [hname]
    case none =>
      rw [turn_absent hw]
      cases hs : metaMethod p h v (text "__tostring") (some 1) u with
      | error x =>
        have hbroken : stringTurn p h v u = .broken := by simp only [stringTurn, hs]
        exact ⟨fun ht => absurd hs (ht.string u hw x),fun hn => absurd hbroken hn⟩
      | ok r =>
        simp only [stringTurn, hs]
        exact ⟨fun _ => ended_ne_broken,fun _ => ⟨by simp [hw],by simp [hw],by simp [hw, hs]⟩⟩

theorem denied_iff (linked : Bool) (w : σ) : denied linked w ≠ none ↔ linked = false := by
  cases linked <;> simp [denied]

theorem turned_iff (c : Call) (h : ℕ) (v : Value) (w : σ) :
    turned c (turn p h v w) ≠ none ↔ Turns p h v w := by
  rw [turns_iff]
  cases turn p h v w <;> simp [turned]

theorem sound_iff (linked : Bool) (c : Call) (w : σ) :
    Sound p linked c w ↔ step p (.value linked c) w ≠ none := by
  obtain ⟨height,maxDepth,typeNameOverride,displayAsKey,v⟩ := c
  rw [step]
  by_cases hc : p.lua.checkstack w height 1 = true
  · rw [if_pos hc]
    have hgranted : linked = true → p.lua.checkstack w height 1 = true := fun _ => hc
    cases v with
    | table id =>
      dsimp only [valueStep]
      by_cases hd : p.lua.checkstack w (height+1) 2 = true
      · rw [if_pos hd]
        exact ⟨fun _ => Option.some_ne_none _,fun _ => ⟨hgranted,fun _ _ => hd,fun h => (by cases h)⟩⟩
      · rw [if_neg hd, denied_iff]
        refine ⟨fun hs => ?_,fun hl => ⟨hgranted,fun h => by simp [hl] at h,fun h => (by cases h)⟩⟩
        by_contra hl
        exact hd (hs.fits (by simpa using hl) rfl)
    | userdata id =>
      exact Iff.trans ⟨fun hs => hs.turns rfl hc,fun ht => ⟨hgranted,fun _ h => (by cases h),fun _ _ => ht⟩⟩
        (turned_iff ..).symm
    | lightuserdata address =>
      exact Iff.trans ⟨fun hs => hs.turns rfl hc,fun ht => ⟨hgranted,fun _ h => (by cases h),fun _ _ => ht⟩⟩
        (turned_iff ..).symm
    | _ => exact ⟨fun _ => Option.some_ne_none _,fun _ => ⟨hgranted,fun _ h => (by cases h),fun h => (by cases h)⟩⟩
  · rw [if_neg hc, denied_iff]
    constructor
    · intro hs
      by_contra hl
      exact hc (hs.granted (by simpa using hl))
    · rintro rfl
      exact ⟨fun h => (by cases h),fun h => (by cases h),fun _ h => absurd h hc⟩

/-- The printing goes through exactly when the jobs are passable. -/
theorem gives_ok_iff (js : List Job) (w : σ) :
    (∃ u, Gives (run p) .endless js w (.ok u)) ↔ Passable p js w := by
  constructor
  · rintro ⟨u,hu⟩
    have hc := (gives_iff_chained js w).mp ⟨_,hu⟩
    have hgo := ((finishes_iff js w).mp
      ⟨u,(finishes_iff_gives run_follows (halts_of_chained hc) u).mpr hu⟩).2
    exact ⟨hc,fun linked c x hv => (sound_iff linked c x).mpr (hgo _ x hv),
      fun h maxDepth t key x hv hn => hgo _ x hv (fields_stuck hn)⟩
  · rintro ⟨hc,hsound,hplaced⟩
    have hh := halts_of_chained hc
    have hgo (j : Job) (x : σ) (hv : Visits (step p) js w j x) : step p j x ≠ none := by
      cases j with
      | value linked c => exact (sound_iff linked c x).mp (hsound linked c x hv)
      | fields h maxDepth t key => exact fun hs => hplaced h maxDepth t key x hv (fields_stuck_iff.mp hs)
      | attributes maxDepth t => exact Option.some_ne_none _
      | loop of h count n => exact loop_not_stuck of h count n x
    obtain ⟨u,hu⟩ := (finishes_iff js w).mpr ⟨hh,hgo⟩
    exact ⟨u,(finishes_iff_gives run_follows hh u).mp hu⟩

/-- What runs as jobs do goes through exactly when they are passable. -/
theorem shown_ok_iff {α : Type} {js : List Job} {w : σ} {shown : ℕ → Outcome σ α}
    (hrun : ∀ fuel, (shown fuel).map Prod.snd = runAll (run p) fuel js w) :
    (∃ fuel r, shown fuel = .ok r) ↔ Passable p js w := by
  rw [← gives_ok_iff]
  constructor
  · rintro ⟨fuel,r,hr⟩
    refine ⟨r.2,(fun h => by cases h),fuel,?_⟩
    rw [← hrun, hr]
    rfl
  · rintro ⟨u,-,fuel,hu⟩
    rw [← hrun] at hu
    refine ⟨fuel,?_⟩
    cases hr : shown fuel with
    | error x =>
      rw [hr] at hu
      cases hu
    | ok r => exact ⟨r,rfl⟩

end Soundness

end Vecoda.PrintedChains
