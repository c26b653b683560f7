import Vecoda.ExpandProgram
import Vecoda.Worklist

/-!
# The calls of a printing

The recursion of GetValueAsText and GetTableAsText as a work list: a call is
replaced by the calls it makes, in the world its metamethods have left, and is
stuck where a metatable cannot be read or a null pointer would be used. A
userdata goes on to the last result of `__towatch` at the depth it has, and a
table to its keys and values two levels down, one field after the other: the
next is looked for in the table that the printing of the one before has left.
-/

set_option autoImplicit false

namespace Vecoda.PrintedCalls
open LuaApi ValueText ExpandProgram Worklist
open FrameTables (Bytes)
open LuaText (text cstr)
open LuaStack (Result)
open TableDocument (TiXmlElement)

/-- The arguments of `GetValueAsText`, on a stack of the height. -/
structure Call where
  height : ℕ
  maxDepth : ℤ
  typeNameOverride : Option Bytes
  displayAsKey : Bool
  value : Value

/-- What is still to be printed. The nodes of some calls are linked without a look at them. -/
inductive Job where
  | value (linked : Bool) (c : Call)
  | fields (h : ℕ) (maxDepth : ℤ) (t key : Value)
  | attributes (maxDepth : ℤ) (t : Value)
  | loop (of : Variables) (h count n : ℕ)

variable {σ : Type} (p : Printer σ)

section Steps

inductive Turn (σ : Type) where
  | leads (height : ℕ) (className : Bytes) (value : Value) (w : σ)
  | ended (w : σ)
  | broken

def watchTurn (h : ℕ) (className : Bytes) (w : σ) : List Value → Turn σ
  | [] => .leads (h+1) className .nil w
  | [v] => .leads (h+1) className v w
  | first::v::vs =>
    match p.lua.tostring first with
    | none => .broken
    | some name => .leads (h+(first::v::vs).length) (cstr name) ((v::vs).getLastD .nil) w

def stringTurn (h : ℕ) (v : Value) (w : σ) : Turn σ :=
  match metaMethod p h v (text "__tostring") (some 1) w with
  | .error _ => .broken
  | .ok r => .ended r.2

def turn (h : ℕ) (v : Value) (w : σ) : Turn σ :=
  match metaMethod p h v (text "__towatch") none w with
  | .error _ => .broken
  | .ok (some (.returns results),u) => watchTurn p h (classNameOf (classNameForUserdata p h v w)) u results
  | .ok (some (.raises _),u) => .ended u
  | .ok (none,u) => stringTurn p h v u

def turned (c : Call) : Turn σ → Option (List Job × σ)
  | .leads h className v w => some ([.value false ⟨h,c.maxDepth,some className,c.displayAsKey,v⟩],w)
  | .ended w => some ([],w)
  | .broken => none

/-- No space on the stack, and so no node. -/
def denied (linked : Bool) (w : σ) : Option (List Job × σ) := if linked then none else some ([],w)

def tableJobs (h : ℕ) (maxDepth : ℤ) (t : Value) : List Job :=
  (if 0 < maxDepth then [.fields h maxDepth t .nil] else []) ++ [.attributes maxDepth t]

def valueStep (linked : Bool) (c : Call) (w : σ) : Option (List Job × σ) :=
  match c.value with
  | .table _ =>
    if p.lua.checkstack w (c.height+1) 2 then some (tableJobs (c.height+1) (c.maxDepth-1) c.value,w)
    else denied linked w
  | .userdata _ => turned c (turn p (c.height+1) c.value w)
  | .lightuserdata _ => turned c (turn p (c.height+1) c.value w)
  | _ => some ([],w)

def keyCall (h : ℕ) (maxDepth : ℤ) (k : Value) : Call := ⟨h+2,maxDepth-1,none,true,k⟩

def dataCall (h : ℕ) (maxDepth : ℤ) (v : Value) : Call := ⟨h+2,maxDepth-1,none,false,v⟩

def fieldJobs (h : ℕ) (maxDepth : ℤ) (k v : Value) : List Job :=
  [.value true (keyCall h maxDepth k),.value true (dataCall h maxDepth v)]

def variableJobs (of : Variables) (h : ℕ) (name : Bytes) (v : Value) : List Job :=
  if of.visible name then [.value true ⟨h,1,none,false,v⟩] else []

def step : Job → σ → Option (List Job × σ)
  | .value linked c, w =>
    if p.lua.checkstack w c.height 1 then valueStep p linked c w else denied linked w
  | .fields h maxDepth t key, w =>
    match p.lua.next w t key with
    | none => none
    | some none => some ([],w)
    | some (some k) => some (fieldJobs h maxDepth k (p.lua.rawget w t k) ++ [.fields h maxDepth t k],w)
  | .attributes maxDepth t, w => some ([],(attributesShown p t maxDepth w).2)
  | .loop _ _ 0 _, w => some ([],w)
  | .loop of h (count+1) n, w =>
    match of.read p n w with
    | none => some ([],w)
    | some (name,v) => some (variableJobs of h name v ++ [.loop of h count (n+1)],w)

end Steps

section Runs

/-- What is left of printing a call when the node is not looked at. -/
def printed (linked : Bool) (r : Outcome σ (Option TiXmlElement)) : Except (Fault Null) σ :=
  if linked then (ValueText.linked r).map Prod.snd else r.map Prod.snd

def Call.shown (shown : Shown σ) (c : Call) (w : σ) : Outcome σ (Option TiXmlElement) :=
  shown c.height c.maxDepth c.typeNameOverride c.displayAsKey c.value w

def run (fuel : ℕ) : Job → σ → Except (Fault Null) σ
  | .value linked c, w => printed linked (c.shown (valueShown p fuel) w)
  | .fields h maxDepth t key, w =>
    (fields p.lua t (elementShown (valueShown p fuel) (h+2) maxDepth) fuel key w).map Prod.snd
  | .attributes maxDepth t, w => .ok (attributesShown p t maxDepth w).2
  | .loop of h count n, w => (variablesShown p (valueShown p fuel) of h count n w).map Prod.snd

def Earlier (shown shown' : Shown σ) : Prop := ∀ h maxDepth typeNameOverride displayAsKey v w,
  Below .endless (shown h maxDepth typeNameOverride displayAsKey v w)
    (shown' h maxDepth typeNameOverride displayAsKey v w)

variable {p} {shown shown' : Shown σ}

theorem watched_below (hs : Earlier shown shown') (h : ℕ) (maxDepth : ℤ) (className : Bytes)
    (displayAsKey : Bool) (results : List Value) (w : σ) :
    Below .endless (watched p shown h maxDepth className displayAsKey results w)
      (watched p shown' h maxDepth className displayAsKey results w) := by
  cases results with
  | nil => exact below_bind (hs ..) (fun _ => below_refl _)
  | cons first vs =>
    cases vs with
    | nil => exact below_bind (hs ..) (fun _ => below_refl _)
    | cons v vs =>
      cases hname : p.lua.tostring first with
      | none =>
        simp only [watched, hname]
        exact below_refl _
      | some name =>
        simp only [watched, hname]
        exact below_bind (hs ..) (fun _ => below_refl _)

theorem userdataShown_below (hs : Earlier shown shown') (h : ℕ) (maxDepth : ℤ) (displayAsKey : Bool)
    (v : Value) (w : σ) : Below .endless (userdataShown p shown h maxDepth displayAsKey v w)
      (userdataShown p shown' h maxDepth displayAsKey v w) := by
  refine below_bind (below_bind (below_refl _) (fun r => ?_)) (fun _ => below_refl _)
  obtain ⟨called,u⟩ := r
  match called with
  | some (.returns results) => exact watched_below hs ..
  | some (.raises e) => exact below_refl _
  | none => exact below_refl _

theorem linked_below {x y : Outcome σ (Option TiXmlElement)} (h : Below .endless x y) :
    Below .endless (ValueText.linked x) (ValueText.linked y) := below_bind h (fun _ => below_refl _)

theorem elementShown_below (hs : Earlier shown shown') (h : ℕ) (maxDepth : ℤ) (k v : Value) (w : σ) :
    Below .endless (elementShown shown h maxDepth k v w) (elementShown shown' h maxDepth k v w) :=
  below_bind (linked_below (hs ..)) (fun _ => below_bind (linked_below (hs ..)) (fun _ => below_refl _))

theorem fields_below {α : Type} (t : Value) {g g' : Value → Value → σ → Outcome σ α}
    (hg : ∀ k v w, Below .endless (g k v w) (g' k v w)) {rounds rounds' : ℕ} (hr : rounds ≤ rounds')
    (key : Value) (w : σ) :
    Below .endless (fields p.lua t g rounds key w) (fields p.lua t g' rounds' key w) := by
  induction rounds generalizing rounds' key w with
  | zero => exact .inl rfl
  | succ rounds ih =>
    obtain ⟨n,rfl⟩ : ∃ n, rounds' = n+1 := Nat.exists_eq_add_one.mpr (by omega)
    rw [fields, fields]
    rcases p.lua.next w t key with _ | _ | k
    · exact below_refl _
    · exact below_refl _
    · exact below_bind (hg ..) (fun a => below_bind (ih (by omega) k a.2) (fun _ => below_refl _))

theorem duplicateShown_below (hs : Earlier shown shown') (rounds h : ℕ) (maxDepth : ℤ) (typeName : Bytes)
    (displayAsKey : Bool) (v : Value) (w : σ) :
    Below .endless (duplicateShown p rounds shown h maxDepth typeName displayAsKey v w)
      (duplicateShown p (rounds+1) shown' h maxDepth typeName displayAsKey v w) := by
  cases v with
  | userdata id => exact below_bind (userdataShown_below hs ..) (fun _ => below_refl _)
  | lightuserdata address => exact below_bind (userdataShown_below hs ..) (fun _ => below_refl _)
  | table id =>
    simp only [duplicateShown, tableShown, elementsShown]
    split
    · refine below_bind ?_ (fun _ => below_refl _)
      split
      · exact fields_below _ (fun k v w => elementShown_below hs ..) (Nat.le_succ _) _ w
      · exact below_refl _
    · exact below_refl _
  | _ => exact below_refl _

theorem valueShown_earlier (fuel : ℕ) : Earlier (valueShown p fuel) (valueShown p (fuel+1)) := by
  induction fuel with
  | zero => exact fun _ _ _ _ _ _ => .inl rfl
  | succ fuel ih =>
    intro h maxDepth typeNameOverride displayAsKey v w
    rw [valueShown, valueShown, bodyShown, bodyShown]
    split
    · exact duplicateShown_below ih fuel ..
    · exact below_refl _

theorem variablesShown_below (hs : Earlier shown shown') (of : Variables) (h count n : ℕ) (w : σ) :
    Below .endless (variablesShown p shown of h count n w) (variablesShown p shown' of h count n w) := by
  unfold variablesShown
  induction count generalizing n w with
  | zero => exact below_refl _
  | succ count ih =>
    rw [eachVariable, eachVariable]
    cases of.read p n w with
    | none => exact below_refl _
    | some e =>
      refine below_bind ?_ (fun a => below_bind (ih ..) (fun _ => below_refl _))
      unfold variableShown
      split
      · exact below_bind (linked_below (hs ..)) (fun _ => below_refl _)
      · exact below_refl _

theorem printed_below (linked : Bool) {x y : Outcome σ (Option TiXmlElement)} (h : Below .endless x y) :
    Below .endless (printed linked x) (printed linked y) := by
  cases linked with
  | true => exact below_map Prod.snd (linked_below h)
  | false => exact below_map Prod.snd h

theorem run_more (fuel : ℕ) (j : Job) (w : σ) : Below .endless (run p fuel j w) (run p (fuel+1) j w) := by
  cases j with
  | value linked c => exact printed_below linked (valueShown_earlier fuel ..)
  | fields h maxDepth t key =>
    exact below_map _ (fields_below t (fun k v w => elementShown_below (valueShown_earlier fuel) ..)
      (Nat.le_succ fuel) key w)
  | attributes maxDepth t => exact below_refl _
  | loop of h count n => exact below_map _ (variablesShown_below (valueShown_earlier fuel) of h count n w)

theorem metaMethod_raised {h : ℕ} {v : Value} {method : Bytes} {numResults : Option ℕ} {w : σ} {x : Fault Null}
    (hm : metaMethod p h v method numResults w = .error x) : x ≠ .endless := by
  rintro rfl
  obtain ⟨e,he⟩ | ⟨u,hu⟩ | ⟨vs,u,hvs⟩ | ⟨e,u,he⟩ := metaMethod_cases (p := p) h v method numResults w
  · cases hm.symm.trans he
  · cases hm.symm.trans hu
  · cases hm.symm.trans hvs
  · cases hm.symm.trans he

theorem map_bind_snd {α β : Type} (x : Outcome σ α) (g : α → β) :
    (x.bind (fun r => .ok (g r.1,r.2)) : Outcome σ β).map Prod.snd = x.map Prod.snd := by
  cases x <;> rfl

theorem map_under_class (x : Outcome σ (Option TiXmlElement)) (className : Bytes)
    (f : Option TiXmlElement × Bytes → TiXmlElement) :
    (((x.bind (fun r => .ok ((r.1,className),r.2)) : Outcome σ (Option TiXmlElement × Bytes)).bind
      (fun r => .ok (f r.1,r.2))) : Outcome σ TiXmlElement).map Prod.snd = x.map Prod.snd := by
  cases x <;> rfl

def Turn.Agrees (shown : Shown σ) (maxDepth : ℤ) (displayAsKey : Bool) (r : Outcome σ TiXmlElement) :
    Turn σ → Prop
  | .leads h className v w => r.map Prod.snd = (shown h maxDepth (some className) displayAsKey v w).map Prod.snd
  | .ended w => r.map Prod.snd = .ok w
  | .broken => ∃ x, x ≠ .endless ∧ r = .error x

section Turns

variable {h : ℕ} {v : Value} {w u : σ}

theorem turn_failed {x : Fault Null} (hw : metaMethod p h v (text "__towatch") none w = .error x) :
    turn p h v w = .broken := by
  simp only [turn, hw]

theorem turn_raised {e : Value} (hw : metaMethod p h v (text "__towatch") none w = .ok (some (.raises e),u)) :
    turn p h v w = .ended u := by
  simp only [turn, hw]

theorem turn_returned {results : List Value}
    (hw : metaMethod p h v (text "__towatch") none w = .ok (some (.returns results),u)) :
    turn p h v w = watchTurn p h (classNameOf (classNameForUserdata p h v w)) u results := by
  simp only [turn, hw]

theorem turn_absent (hw : metaMethod p h v (text "__towatch") none w = .ok (none,u)) :
    turn p h v w = stringTurn p h v u := by
  simp only [turn, hw]

end Turns

theorem watchTurn_agrees (shown : Shown σ) (h : ℕ) (maxDepth : ℤ) (className : Bytes) (displayAsKey : Bool)
    (v : Value) (results : List Value) (w : σ) :
    (watchTurn p h className w results).Agrees shown maxDepth displayAsKey
      ((watched p shown h maxDepth className displayAsKey results w).bind
        (fun r => .ok (r.1.1.getD (addressText p r.1.2 displayAsKey v),r.2))) := by
  rcases results with _ | ⟨first,_ | ⟨x,xs⟩⟩
  · exact map_under_class _ _ (fun r => r.1.getD (addressText p r.2 displayAsKey v))
  · exact map_under_class _ _ (fun r => r.1.getD (addressText p r.2 displayAsKey v))
  · cases hname : p.lua.tostring first with
    | none =>
      simp only [watchTurn, watched, hname]
      exact ⟨.fault .string,fault_ne_endless _,rfl⟩
    | some name =>
      simp only [watchTurn, watched, hname, Turn.Agrees]
      exact map_under_class _ _ (fun r => r.1.getD (addressText p r.2 displayAsKey v))

theorem stringTurn_agrees (shown : Shown σ) (h : ℕ) (maxDepth : ℤ) (className : Bytes) (displayAsKey : Bool)
    (v : Value) (w : σ) : (stringTurn p h v w).Agrees shown maxDepth displayAsKey
      ((stringShown p h className v w).bind
        (fun r => .ok (r.1.1.getD (addressText p r.1.2 displayAsKey v),r.2))) := by
  cases hm : metaMethod p h v (text "__tostring") (some 1) w with
  | error x =>
    simp only [stringTurn, stringShown, hm]
    exact ⟨x,metaMethod_raised hm,rfl⟩
  | ok r =>
    obtain ⟨called,u⟩ := r
    simp only [stringTurn, stringShown, hm]
    rcases called with _ | results | e
    · rfl
    · rfl
    · rfl

theorem turn_agrees (shown : Shown σ) (h : ℕ) (maxDepth : ℤ) (displayAsKey : Bool) (v : Value) (w : σ) :
    (turn p h v w).Agrees shown maxDepth displayAsKey (userdataShown p shown h maxDepth displayAsKey v w) := by
  cases hw : metaMethod p h v (text "__towatch") none w with
  | error x =>
    simp only [turn_failed hw, userdataShown, metaShown, hw]
    exact ⟨x,metaMethod_raised hw,rfl⟩
  | ok r =>
    obtain ⟨called,u⟩ := r
    rcases called with _ | results | e
    case some.raises =>
      simp only [turn_raised hw, userdataShown, metaShown, hw]
      rfl
    case some.returns =>
      simp only [turn_returned hw, userdataShown, metaShown, hw, ok_bind]
      exact watchTurn_agrees ..
    case none =>
      simp only [turn_absent hw, userdataShown, metaShown, hw, ok_bind]
      exact stringTurn_agrees ..

@[simp] theorem runAll_nil (fuel : ℕ) (w : σ) : runAll (run p) fuel [] w = .ok w := rfl

theorem runAll_one (fuel : ℕ) (j : Job) (w : σ) : runAll (run p) fuel [j] w = run p fuel j w := by
  rw [runAll]
  cases run p fuel j w <;> rfl

theorem printed_some {α : Type} (linked : Bool) (x : Outcome σ α) (f : α → TiXmlElement) :
    printed linked (x.bind (fun r => .ok (some (f r.1),r.2))) = x.map Prod.snd := by
  cases linked <;> cases x <;> rfl

theorem printed_denied {linked : Bool} {w : σ} {r : List Job × σ} (h : denied linked w = some r) (fuel : ℕ) :
    printed linked (.ok (none,w)) = runAll (run p) fuel r.1 r.2 := by
  cases linked with
  | true => cases h
  | false =>
    cases h
    rfl

theorem printed_turned {linked : Bool} {c : Call} {h : ℕ} {v : Value} {w : σ} {r : List Job × σ}
    (hr : turned c (turn p h v w) = some r) (fuel : ℕ) :
    printed linked ((userdataShown p (valueShown p fuel) h c.maxDepth c.displayAsKey v w).bind
      (fun r => .ok (some r.1,r.2))) = runAll (run p) fuel r.1 r.2 := by
  have hagrees := turn_agrees (p := p) (valueShown p fuel) h c.maxDepth c.displayAsKey v w
  apply (printed_some linked _ id).trans
  cases hturn : turn p h v w with
  | leads h' className v' w' =>
    rw [hturn] at hr hagrees
    cases hr
    rw [runAll_one]
    exact hagrees
  | ended w' =>
    rw [hturn] at hr hagrees
    cases hr
    exact hagrees
  | broken =>
    rw [hturn] at hr
    cases hr

theorem printed_table {linked : Bool} (typeName : Bytes) (h : ℕ) (maxDepth : ℤ) (t : Value) (w : σ) (fuel : ℕ) :
    printed linked ((elementsShown p fuel (valueShown p fuel) h maxDepth t w).bind (fun elements =>
      let r := attributesShown p t maxDepth elements.2
      .ok (some (TableDocument.tableNode typeName r.1 elements.1),r.2))) =
        runAll (run p) fuel (tableJobs h maxDepth t) w := by
  have hfields : (elementsShown p fuel (valueShown p fuel) h maxDepth t w).map Prod.snd =
      runAll (run p) fuel (if 0 < maxDepth then [.fields h maxDepth t .nil] else []) w := by
    unfold elementsShown
    split
    · rw [runAll_one]
      rfl
    · rfl
  rw [tableJobs, runAll_append, ← hfields]
  cases elementsShown p fuel (valueShown p fuel) h maxDepth t w <;> cases linked <;> rfl

/-- A call costs one unit of fuel. -/
theorem run_value {linked : Bool} {c : Call} {w : σ} {r : List Job × σ}
    (h : step p (.value linked c) w = some r) (fuel : ℕ) :
    run p (fuel+1) (.value linked c) w = runAll (run p) fuel r.1 r.2 := by
  obtain ⟨height,maxDepth,typeNameOverride,displayAsKey,v⟩ := c
  rw [step] at h
  rw [run, Call.shown, valueShown, bodyShown]
  split at h
  case isFalse hc =>
    rw [if_neg hc]
    exact printed_denied h fuel
  case isTrue hc =>
    rw [if_pos hc]
    cases v with
    | table id =>
      dsimp only [valueStep] at h
      rw [duplicateShown, tableShown]
      split at h
      case isTrue hd =>
        cases h
        rw [if_pos hd]
        exact printed_table ..
      case isFalse hd =>
        rw [if_neg hd]
        exact printed_denied h fuel
    | userdata id => exact printed_turned h fuel
    | lightuserdata address => exact printed_turned h fuel
    | _ =>
      cases h
      cases linked <;> rfl

theorem run_field (fuel rounds h : ℕ) (maxDepth : ℤ) (t k v : Value) (w : σ) :
    ((elementShown (valueShown p fuel) (h+2) maxDepth k v w).bind (fun a =>
      (fields p.lua t (elementShown (valueShown p fuel) (h+2) maxDepth) rounds k a.2).bind
        (fun as => .ok (a.1::as.1,as.2)))).map Prod.snd =
      (runAll (run p) fuel (fieldJobs h maxDepth k v) w).bind (fun x =>
        (fields p.lua t (elementShown (valueShown p fuel) (h+2) maxDepth) rounds k x).map Prod.snd) := by
  rw [elementShown, fieldJobs, runAll, run, keyCall, Call.shown, printed, if_pos rfl]
  cases ValueText.linked (valueShown p fuel (h+2) (maxDepth-1) none true k w) with
  | error x => rfl
  | ok a =>
    change _ = (runAll (run p) fuel [.value true (dataCall h maxDepth v)] a.2).bind _
    rw [ok_bind, runAll_one, run, dataCall, Call.shown, printed, if_pos rfl]
    cases ValueText.linked (valueShown p fuel (h+2) (maxDepth-1) none false v a.2) with
    | error x => rfl
    | ok b =>
      rw [ok_bind, ok_bind]
      exact map_bind_snd _ (fun as => _::as)

section Fields

variable {h : ℕ} {maxDepth : ℤ} {t key k : Value} {w : σ}

theorem fields_stuck (hn : p.lua.next w t key = none) : step p (.fields h maxDepth t key) w = none := by
  simp only [step, hn]

theorem fields_end (hn : p.lua.next w t key = some none) :
    step p (.fields h maxDepth t key) w = some ([],w) := by
  simp only [step, hn]

theorem fields_go (hn : p.lua.next w t key = some (some k)) : step p (.fields h maxDepth t key) w =
    some (fieldJobs h maxDepth k (p.lua.rawget w t k) ++ [.fields h maxDepth t k],w) := by
  simp only [step, hn]

/-- A loop is stuck only at a key that is not in the table. -/
theorem fields_stuck_iff : step p (.fields h maxDepth t key) w = none ↔ p.lua.next w t key = none := by
  refine ⟨fun hs => ?_,fields_stuck⟩
  rcases hn : p.lua.next w t key with _ | _ | k
  · rfl
  · rw [fields_end hn] at hs
    cases hs
  · rw [fields_go hn] at hs
    cases hs

/-- One round more than what it is replaced by. -/
theorem run_fields {r : List Job × σ} (hs : step p (.fields h maxDepth t key) w = some r) (fuel rounds : ℕ) :
    (fields p.lua t (elementShown (valueShown p fuel) (h+2) maxDepth) (rounds+1) key w).map Prod.snd =
        runAll (run p) fuel r.1 r.2 ∨
      ∃ k, r = (fieldJobs h maxDepth k (p.lua.rawget w t k) ++ [.fields h maxDepth t k],w) ∧
        (fields p.lua t (elementShown (valueShown p fuel) (h+2) maxDepth) (rounds+1) key w).map Prod.snd =
          (runAll (run p) fuel (fieldJobs h maxDepth k (p.lua.rawget w t k)) w).bind (fun x =>
            (fields p.lua t (elementShown (valueShown p fuel) (h+2) maxDepth) rounds k x).map Prod.snd) := by
  rcases hn : p.lua.next w t key with _ | _ | k
  · rw [fields_stuck hn] at hs
    cases hs
  · rw [fields_end hn] at hs
    cases hs
    rw [fields_done hn]
    exact .inl rfl
  · rw [fields_go hn] at hs
    cases hs
    rw [fields_field hn]
    exact .inr ⟨k,rfl,run_field ..⟩

theorem fields_down {r : List Job × σ} (hs : step p (.fields h maxDepth t key) w = some r) (fuel : ℕ) :
    Below .endless (run p fuel (.fields h maxDepth t key) w) (runAll (run p) fuel r.1 r.2) := by
  rw [run]
  cases fuel with
  | zero => exact .inl rfl
  | succ fuel =>
    obtain he | ⟨k,rfl,he⟩ := run_fields hs (fuel+1) fuel
    · exact .inr he
    · rw [he, runAll_append]
      refine below_bind (below_refl _) (fun x => ?_)
      rw [runAll_one]
      exact below_map _ (fields_below t (fun _ _ _ => below_refl _) (Nat.le_succ fuel) k x)

theorem fields_up {r : List Job × σ} (hs : step p (.fields h maxDepth t key) w = some r) (fuel : ℕ) :
    Below .endless (runAll (run p) fuel r.1 r.2) (run p (fuel+1) (.fields h maxDepth t key) w) := by
  have hmore (js : List Job) (u : σ) :
      Below .endless (runAll (run p) fuel js u) (runAll (run p) (fuel+1) js u) := by
    induction js generalizing u with
    | nil => exact below_refl _
    | cons j js ih => exact below_bind (run_more fuel j u) ih
  rw [run]
  obtain he | ⟨k,rfl,he⟩ := run_fields hs (fuel+1) fuel
  · rw [he]
    exact hmore ..
  · rw [he, runAll_append]
    refine below_bind (hmore ..) (fun x => ?_)
    rw [runAll_one]
    exact below_map _ (fields_below t (fun k v w => elementShown_below (valueShown_earlier fuel) ..) le_rfl k x)

end Fields

theorem run_variable (fuel : ℕ) (of : Variables) (h count n : ℕ) (name : Bytes) (v : Value) (w : σ) :
    ((variableShown (valueShown p fuel) of.visible h name v w).bind (fun a =>
      (variablesShown p (valueShown p fuel) of h count (n+1) a.2).bind
        (fun as => .ok (a.1::as.1,as.2)))).map Prod.snd =
      runAll (run p) fuel (variableJobs of h name v ++ [.loop of h count (n+1)]) w := by
  rw [variableShown, variableJobs]
  split
  · rw [List.singleton_append, runAll, run, Call.shown, printed, if_pos rfl]
    cases ValueText.linked (valueShown p fuel h 1 none false v w) with
    | error x => rfl
    | ok a =>
      change _ = runAll (run p) fuel [.loop of h count (n+1)] a.2
      rw [runAll_one, ok_bind, ok_bind, run]
      exact map_bind_snd _ (fun as => _::as)
  · rw [List.nil_append, runAll_one, ok_bind, run]
    exact map_bind_snd _ (fun as => _::as)

/-- What a job of a loop over variables is replaced by is as much. -/
theorem run_loop {of : Variables} {h count n : ℕ} {w : σ} {r : List Job × σ}
    (hs : step p (.loop of h count n) w = some r) (fuel : ℕ) :
    run p fuel (.loop of h count n) w = runAll (run p) fuel r.1 r.2 := by
  cases count with
  | zero =>
    cases hs
    rfl
  | succ count =>
    dsimp only [step] at hs
    rw [run, variablesShown, eachVariable]
    cases hread : of.read p n w with
    | none =>
      rw [hread] at hs
      cases hs
      rfl
    | some e =>
      rw [hread] at hs
      cases hs
      exact run_variable ..

theorem loop_not_stuck (of : Variables) (h count n : ℕ) (w : σ) : step p (.loop of h count n) w ≠ none := by
  cases count with
  | zero => exact Option.some_ne_none _
  | succ count =>
    dsimp only [step]
    split <;> exact Option.some_ne_none _

theorem denied_stuck {linked : Bool} {w : σ} (h : denied linked w = none) :
    (printed linked (.ok (none,w)) : Except (Fault Null) σ) = .error (.fault .node) := by
  cases linked with
  | true => rfl
  | false => cases h

theorem turned_stuck {linked : Bool} {c : Call} {h : ℕ} {v : Value} {w : σ}
    (hr : turned c (turn p h v w) = none) (shown : Shown σ) : ∃ x, x ≠ .endless ∧
      printed linked ((userdataShown p shown h c.maxDepth c.displayAsKey v w).bind
        (fun r => .ok (some r.1,r.2))) = .error x := by
  have hagrees := turn_agrees (p := p) shown h c.maxDepth c.displayAsKey v w
  cases hturn : turn p h v w with
  | leads h' className v' w' =>
    rw [hturn] at hr
    cases hr
  | ended w' =>
    rw [hturn] at hr
    cases hr
  | broken =>
    rw [hturn] at hagrees
    obtain ⟨x,hx,hshown⟩ := hagrees
    refine ⟨x,hx,?_⟩
    rw [hshown]
    cases linked <;> rfl

/-- A job that is stuck ends the printing. -/
theorem run_stuck {j : Job} {w : σ} (h : step p j w = none) :
    ∃ fuel x, x ≠ .endless ∧ run p fuel j w = .error x := by
  cases j with
  | value linked c =>
    obtain ⟨height,maxDepth,typeNameOverride,displayAsKey,v⟩ := c
    rw [step] at h
    refine ⟨1,?_⟩
    rw [run, Call.shown, valueShown, bodyShown]
    split at h
    case isFalse hc =>
      rw [if_neg hc]
      exact ⟨.fault .node,fault_ne_endless _,denied_stuck h⟩
    case isTrue hc =>
      rw [if_pos hc]
      cases v with
      | table id =>
        dsimp only [valueStep] at h
        rw [duplicateShown, tableShown]
        split at h
        case isTrue hd => cases h
        case isFalse hd =>
          rw [if_neg hd]
          exact ⟨.fault .node,fault_ne_endless _,denied_stuck h⟩
      | userdata id => exact turned_stuck h _
      | lightuserdata address => exact turned_stuck h _
      | _ => cases h
  | fields height maxDepth t key =>
    refine ⟨1,.raised (p.lua.invalidKey w),(fun he => by cases he),?_⟩
    rw [run, fields_invalid (fields_stuck_iff.mp h)]
    rfl
  | attributes maxDepth t => cases h
  | loop of h' count n => exact absurd h (loop_not_stuck of h' count n w)

/-- The recursion follows the work list. -/
theorem run_follows : Follows (step p) (run p) .endless where
  more := run_more
  down {j w r} h fuel := by
    cases j with
    | value linked c =>
      rw [← run_value h fuel]
      exact run_more ..
    | fields height maxDepth t key => exact fields_down h fuel
    | attributes maxDepth t =>
      cases h
      exact below_refl _
    | loop of h' count n => exact .inr (run_loop h fuel)
  up {j w r} h fuel := by
    cases j with
    | value linked c => exact .inr (run_value h fuel).symm
    | fields height maxDepth t key => exact fields_up h fuel
    | attributes maxDepth t =>
      cases h
      exact below_refl _
    | loop of h' count n =>
      rw [← run_loop h fuel]
      exact run_more ..
  stuck := run_stuck

end Runs

end Vecoda.PrintedCalls
