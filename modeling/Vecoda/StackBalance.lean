import Vecoda.EvaluateOutcome

/-!
# The balance of the stack

What Evaluate and the functions it is made of do to the height of the Lua stack:
Evaluate, the printing of values and tables and the cache of tables leave the
stack as it was on every path on which they return, a metamethod's call leaves
its results or its error, and CreateEnvironment leaves three tables or nothing.
A metamethod is looked up without protection: when the metatable of a userdata
has an `__index` that raises an error, Evaluate is left on the way.
-/

set_option autoImplicit false

namespace Vecoda.StackBalance
open LuaApi TableCache ValueText FrameTables EvaluateProgram
open Worklist PrintedCalls PrintedChains EvaluateOutcome
open LuaText (text)
open LuaStack (Status Result)

variable {σ : Type} (p : Printer σ)

structure MetaMethodBalance (s : List Value) (numResults : Option ℕ) (r : Option Status) (t : List Value) :
    Prop where
  absent : r = none → t = s
  failed : r = some .errRun → ∃ e, t = s ++ [e]
  returned : r = some .ok → ∃ results, t = s ++ results ∧ ∀ n, numResults = some n → results.length = n
  status : ∀ x, r = some x → x = .ok ∨ x = .errRun

structure Balanced : Prop where
  evaluating {fuel expression stackLevel s w r t}
    (h : evaluate p fuel expression stackLevel ⟨s,w⟩ = .ok (r,t)) : t.stack = s
  value {fuel n maxDepth typeNameOverride displayAsKey s w r t}
    (h : getValueAsText p fuel n maxDepth typeNameOverride displayAsKey ⟨s,w⟩ = .ok (r,t)) : t.stack = s
  table {rounds fuel i maxDepth typeName s w r t} (hi : Valid s i)
    (h : getTableAsText p rounds (getValueAsText p fuel) i maxDepth typeName ⟨s,w⟩ = .ok (r,t)) : t.stack = s
  metaMethod {i method numResults s w r t} (hi : Fixed s i)
    (h : callMetaMethod p i method numResults ⟨s,w⟩ = .ok (r,t)) : MetaMethodBalance s numResults r t.stack
  cache {i s w} (hi : Valid s i) :
    ∃ r u, (cacheTable p.lua p.addresses i : Printing σ ℤ) ⟨s,w⟩ = .ok (r,⟨s,u⟩)
  clear (s w) : ∃ u, (clearCache p.lua p.addresses : Printing σ Unit) ⟨s,w⟩ = .ok ((),⟨s,u⟩)
  environment {i s level w} (hi : Fixed s i) (hlevel : p.lua.getstack w level = true) :
    ∃ l u e x, (createEnvironment p.lua level i : Printing σ Bool) ⟨s,w⟩ = .ok (true,⟨s ++ [l,u,e],x⟩)
  missing {i s level w} (hlevel : p.lua.getstack w level = false) :
    (createEnvironment p.lua level i : Printing σ Bool) ⟨s,w⟩ = .ok (false,⟨s,w⟩)

/-- The error has a text; and for the results, the first of several of a `__towatch` has one, and the
printing ends. -/
structure Printable (h : ℕ) (r : Result Value) (w : σ) : Prop where
  message : ∀ e, r = .raises e → p.lua.tostring e ≠ none
  named : ∀ vs, r = .returns vs → ∀ c u, Visits (step p) (resultJobs (h+vs.length) vs) w (.value false c) u →
    ∀ first second rest x, metaMethod p (c.height+1) c.value (text "__towatch") none u =
      .ok (some (.returns (first::second::rest)),x) → p.lua.tostring first ≠ none
  ends : ∀ vs, r = .returns vs →
    ∃ fuel, resultsShown (valueShown p fuel) (h+vs.length) vs w ≠ .error .endless

/-- The metatable, where there is one and space to use it, gives the method or nil. -/
def Indexed (h : ℕ) (v : Value) (method : MessagePipe.Bytes) (w : σ) : Prop :=
  p.lua.checkstack w h 3 = true → ∀ mt, p.lua.getmetatable w v = some mt →
    ∀ e, p.lua.gettable w (.table mt) (.string method) ≠ .error e

/-- So do those of all userdata that the printing of the results comes to: for `__towatch`, and where
there is none for `__tostring`. -/
structure LookedUp (h : ℕ) (vs : List Value) (w : σ) : Prop where
  watch : ∀ c u, Visits (step p) (resultJobs h vs) w (.value false c) u → isUserdata c.value = true →
    p.lua.checkstack u c.height 1 = true → Indexed p (c.height+1) c.value (text "__towatch") u
  string : ∀ c u, Visits (step p) (resultJobs h vs) w (.value false c) u → isUserdata c.value = true →
    p.lua.checkstack u c.height 1 = true →
    ∀ x, metaMethod p (c.height+1) c.value (text "__towatch") none u = .ok (none,x) →
      Indexed p (c.height+1) c.value (text "__tostring") x

section Balance

variable {p}

theorem leaving_stack {α : Type} {s : List Value} {r : Outcome σ α} {a : α} {t : State σ}
    (h : leaving s r = .ok (a,t)) : t.stack = s := by
  obtain ⟨u,-,rfl⟩ := leaving_eq_ok.mp h
  rfl

theorem callMetaMethod_balance {s : List Value} {i : ℤ} (hi : Fixed s i) {method : MessagePipe.Bytes}
    {numResults : Option ℕ} {w : σ} {r : Option Status} {t : State σ}
    (h : callMetaMethod p i method numResults ⟨s,w⟩ = .ok (r,t)) :
    MetaMethodBalance s numResults r t.stack := by
  rw [callMetaMethod_apply hi.1 hi.2] at h
  cases hm : metaMethod p s.length (value s i) method numResults w with
  | error x =>
    rw [hm] at h
    cases h
  | ok called =>
    obtain ⟨called,u⟩ := called
    rw [hm] at h
    cases h
    match called with
    | none => exact ⟨fun _ => List.append_nil s,nofun,nofun,nofun⟩
    | some (.raises e) => exact ⟨nofun,fun _ => ⟨e,rfl⟩,nofun,fun x hx => .inr (Option.some.inj hx).symm⟩
    | some (.returns results) =>
      refine ⟨nofun,nofun,fun _ => ⟨results,rfl,fun n hn => ?_⟩,fun x hx => .inl (Option.some.inj hx).symm⟩
      rw [hn] at hm
      exact metaMethod_length hm

theorem balanced (p : Printer σ) : Balanced p where
  evaluating h := leaving_stack ((evaluate_apply ..).symm.trans h)
  value h := leaving_stack ((getValueAsText_apply _ _ _ _ _ _ _).symm.trans h)
  table hi h := leaving_stack ((getTableAsText_apply (getValueAsText_apply _) _ hi ..).symm.trans h)
  metaMethod hi h := callMetaMethod_balance hi h
  cache hi := ⟨_,_,cacheTable_apply _ _ hi _⟩
  clear s w := ⟨_,clearCache_apply _ _ s w⟩
  environment hi hlevel := ⟨_,_,_,_,createEnvironment_apply p.lua hi hlevel⟩
  missing hlevel := createEnvironment_missing p.lua hlevel _ _

theorem indexed_iff (h : ℕ) (v : Value) (method : MessagePipe.Bytes) (numResults : Option ℕ) (w : σ) :
    Indexed p h v method w ↔ ∀ x, metaMethod p h v method numResults w ≠ .error x := by
  unfold Indexed metaMethod
  by_cases hc : p.lua.checkstack w h 3 = true
  · rw [if_pos hc, forall_prop_of_true hc]
    cases hm : p.lua.getmetatable w v with
    | none => exact ⟨fun _ => nofun,fun _ => nofun⟩
    | some mt =>
      cases hg : p.lua.gettable w (.table mt) (.string method) with
      | error e =>
        exact ⟨fun h => absurd hg (h mt rfl e),fun h => absurd (by dsimp only; rw [hg]) (h (.raised e))⟩
      | ok r =>
        refine ⟨fun _ x => ?_,fun _ mt' hmt e he => ?_⟩
        · dsimp only
          rw [hg]
          dsimp only
          split
          · exact nofun
          · split <;> exact nofun
        · cases hmt
          cases hg.symm.trans he
  · exact ⟨fun _ => by rw [if_neg hc]; exact nofun,fun _ h => absurd h hc⟩

/-- With the names that are granted, the results are passable exactly when every lookup succeeds. -/
theorem lookedUp_iff {h : ℕ} {vs : List Value} {w : σ} (hp : Printable p h (.returns vs) w) :
    Passable p (resultJobs (h+vs.length) vs) w ↔ LookedUp p (h+vs.length) vs w := by
  have hchained := (ends_iff_chained (fun fuel => resultsShown_run (p := p) fuel (h+vs.length) vs w)).mp
    (hp.ends vs rfl)
  rw [results_passable_iff, and_iff_right hchained]
  constructor
  · intro ht
    refine ⟨fun c u hv hud hroom => ?_,fun c u hv hud hroom x hx => ?_⟩
    · exact (indexed_iff ..).mpr (ht c u hv hud hroom).watch
    · exact (indexed_iff ..).mpr ((ht c u hv hud hroom).string x hx)
  · intro hl c u hv hud hroom
    refine ⟨(indexed_iff ..).mp (hl.watch c u hv hud hroom),fun first second rest x => ?_,fun x hx => ?_⟩
    · exact hp.named vs rfl c u hv first second rest x
    · exact (indexed_iff ..).mp (hl.string c u hv hud hroom x hx)

theorem documented_iff {h : ℕ} {r : Result Value} {w : σ} (hp : Printable p h r w) :
    Documented p h r w ↔ ∀ vs, r = .returns vs → LookedUp p (h+vs.length) vs w := by
  cases r with
  | raises e => exact ⟨fun _ => nofun,fun _ => hp.message e rfl⟩
  | returns vs =>
    rw [Documented, lookedUp_iff hp]
    exact ⟨fun hl _ h => by cases h; exact hl,fun hl => hl vs rfl⟩

theorem returns_iff (expression : MessagePipe.Bytes) (stackLevel : ℤ) (s : List Value) (w : σ) :
    (∃ fuel r u, evaluate p fuel expression stackLevel ⟨s,w⟩ = .ok (r,⟨s,u⟩)) ↔
      (p.lua.getstack (p.lua.newuserdata w).2 stackLevel = true → Documented p (s.length+4)
        (outcome p expression stackLevel w).1 (outcome p expression stackLevel w).2) := by
  have hshown : (∃ fuel r u, evaluate p fuel expression stackLevel ⟨s,w⟩ = .ok (r,⟨s,u⟩)) ↔
      ∃ fuel r u, evaluated p fuel s.length expression stackLevel w = .ok (r,u) := by
    refine exists_congr (fun fuel => exists_congr (fun r => exists_congr (fun u => ?_)))
    rw [evaluate_apply, leaving_eq_ok]
    constructor
    · rintro ⟨x,hx,hs⟩
      cases hs
      exact hx
    · exact fun h => ⟨u,h,rfl⟩
  rw [hshown]
  cases hlevel : p.lua.getstack (p.lua.newuserdata w).2 stackLevel with
  | false =>
    refine iff_of_true ⟨0,none,(p.lua.newuserdata w).2,?_⟩ (fun h => (by cases h))
    rw [evaluated, hlevel]
    rfl
  | true =>
    have hsome := evaluated_some_iff (p := p) s.length expression stackLevel w
    rw [and_iff_right hlevel] at hsome
    rw [forall_prop_of_true rfl, ← hsome]
    constructor
    case mpr =>
      rintro ⟨fuel,ok,document,u,h⟩
      exact ⟨fuel,some (ok,document),u,h⟩
    rintro ⟨fuel,r,u,h⟩
    cases r with
    | some r => exact ⟨fuel,r.1,r.2,u,h⟩
    | none =>
      rw [evaluated, hlevel, if_pos rfl] at h
      dsimp only at h
      cases hd : outcomeShown p (valueShown p fuel) (s.length+4)
          (ran p expression (prepared p stackLevel w).2.envTable (prepared p stackLevel w).2.world).1
          (ran p expression (prepared p stackLevel w).2.envTable (prepared p stackLevel w).2.world).2 with
      | error x =>
        rw [hd] at h
        cases h
      | ok d =>
        rw [hd] at h
        cases h

end Balance

def watching : Printer Unit := bare {Lua.idle Unit with
  getmetatable := fun _ _ => some 0
  gettable := fun w _ _ => .ok (.function 1,w)
  call := fun w _ args =>
    (.returns (if args = [] then [.integer 1,.userdata 0] else [.string (text "Point"),.table 1]),w)}

theorem watching_printable : Printable watching 5 (.returns [.integer 1,.userdata 0]) () where
  message := nofun
  named := by
    rintro vs ⟨⟩ c u - first second rest x hm
    obtain ⟨e,he⟩ | ⟨y,hy⟩ | ⟨results,y,hr⟩ | ⟨e,y,he⟩ :=
      metaMethod_cases (p := watching) (c.height+1) c.value (text "__towatch") none u
    · cases hm.symm.trans he
    · cases hm.symm.trans hy
    · cases hm
      exact nofun
    · cases hm.symm.trans he
  ends := by
    rintro vs ⟨⟩
    exact ⟨2,nofun⟩

def raisingIndex : Printer Unit := bare {Lua.idle Unit with
  getmetatable := fun _ v => if v = .userdata 0 then some 1 else none
  gettable := fun _ _ _ => .error (.string (text "no such field"))
  call := fun w _ _ => (.returns [.userdata 0],w)}

theorem raisingIndex_never (h : ℕ) (v : Value) (method : MessagePipe.Bytes) (r : Result Value) (x : Unit) :
    metaMethod raisingIndex h v method none () ≠ .ok (some r,x) := by
  by_cases hv : v = .userdata 0
  · subst hv
    exact nofun
  · have hm : raisingIndex.lua.getmetatable () v = none := if_neg hv
    unfold metaMethod
    rw [hm]
    split <;> exact nofun

end Vecoda.StackBalance
