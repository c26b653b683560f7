import Vecoda.Deciding

/-!
# What the handlers create

The variable table changes in three ways only: the stop of a thread empties it,
a request for scopes adds two variables, and an answer adds one for each table
that it names. Values stored beside a variable leave open what it stands for.
-/

set_option autoImplicit false

namespace Vecoda.Created
open MessagePipe (Bytes)
open EventStream HandleBreak Variables Requests Routing Deciding

def target (v : Variable) : Variable := {v with value := none}

/-- Two states whose tables differ in values at most. -/
structure Alike (s t : State) : Prop where
  «variables» : ∀ k, (t.«variables» k).map target = (s.«variables» k).map target
  variableId : t.variableId = s.variableId
  objects : t.objects = s.objects

def Aged (s : State) : Prop := ∀ k v, s.«variables» k = some v → v.object < s.objects

section Alike

variable {s t u : State}

theorem alike_of_eq (hv : t.«variables» = s.«variables») (hi : t.variableId = s.variableId)
    (ho : t.objects = s.objects) : Alike s t := ⟨fun k => by rw [hv],hi,ho⟩

theorem alike_refl : Alike s s := alike_of_eq rfl rfl rfl

theorem alike_trans (h : Alike s t) (hu : Alike t u) : Alike s u :=
  ⟨fun k => (hu.«variables» k).trans (h.«variables» k),hu.variableId.trans h.variableId,
    hu.objects.trans h.objects⟩

theorem alike_respond (requestSeq : ℕ) (success : Bool) : Alike s (s.respond requestSeq success) :=
  alike_of_eq rfl rfl rfl

theorem alike_aged (h : Alike s t) (ha : Aged s) : Aged t := by
  intro k v hv
  have hk := h.«variables» k
  rw [hv, Option.map_some] at hk
  obtain ⟨w,hw,htarget⟩ := Option.map_eq_some_iff.mp hk.symm
  have hobject := congrArg Variable.object htarget
  rw [h.objects]
  exact hobject ▸ ha k w hw

end Alike

section Tables

def made (vm stackLevel : ℕ) (s : State) (reference : Option ℤ) : State :=
  (createVariable s vm stackLevel none reference).2

def keyOf (s : State) (reference : Option ℤ) : ℤ := reference.getD ((s.variableId+1) <<< 16 : ℕ)

variable {vm stackLevel : ℕ} {s t : State}

theorem made_variables (reference : Option ℤ) : (made vm stackLevel s reference).«variables» =
    Function.update s.«variables» (keyOf s reference)
      (some ⟨s.objects,none,vm,stackLevel,keyOf s reference,none⟩) := rfl

theorem made_aged (reference : Option ℤ) (h : Aged s) : Aged (made vm stackLevel s reference) := by
  intro k v hv
  change v.object < s.objects+1
  rw [made_variables, Function.update_apply] at hv
  split at hv
  · cases hv
    exact Nat.lt_succ_self s.objects
  · exact (h k v hv).trans (Nat.lt_succ_self s.objects)

theorem made_alike (reference : Option ℤ) (h : Alike s t) :
    Alike (made vm stackLevel s reference) (made vm stackLevel t reference) := by
  have hkey : keyOf t reference = keyOf s reference := by
    unfold keyOf
    rw [h.variableId]
  refine ⟨fun k => ?_,?_,?_⟩
  · rw [made_variables, made_variables, hkey, h.objects]
    by_cases hk : k = keyOf s reference
    · rw [hk, Function.update_self, Function.update_self]
    · rw [Function.update_of_ne hk, Function.update_of_ne hk]
      exact h.«variables» k
  · unfold made createVariable
    dsimp only
    rw [h.variableId]
  · unfold made createVariable
    dsimp only
    rw [h.objects]

theorem made_all_alike (references : List (Option ℤ)) (h : Alike s t) :
    Alike (references.foldl (made vm stackLevel) s) (references.foldl (made vm stackLevel) t) := by
  induction references generalizing s t with
  | nil => exact h
  | cons reference references ih => exact ih (made_alike reference h)

/-- An entry is the old one, or that of an object created since. -/
theorem made_entry (vm stackLevel : ℕ) (references : List (Option ℤ)) (k : ℤ) :
    (references.foldl (made vm stackLevel) s).«variables» k = s.«variables» k ∨
      ∃ v, (references.foldl (made vm stackLevel) s).«variables» k = some v ∧ s.objects ≤ v.object := by
  induction references generalizing s with
  | nil => exact .inl rfl
  | cons reference references ih =>
    rw [List.foldl_cons]
    rcases ih (s := made vm stackLevel s reference) with hsame | ⟨v,hv,ho⟩
    · rw [hsame, made_variables, Function.update_apply]
      split
      · exact .inr ⟨_,rfl,le_refl s.objects⟩
      · exact .inl rfl
    · exact .inr ⟨v,hv,(Nat.le_succ s.objects).trans ho⟩

variable (host : Host)

def tables : List XmlSimple.Node → List (Option ℤ)
  | [] => []
  | el::els =>
    match parseElement host el with
    | .error _ => []
    | .ok (child,nested) => nested.toList ++
      match host.toUtf8 child.name, host.toUtf8 child.value with
      | .ok _, .ok _ => tables els
      | _, _ => []

theorem nested_creates (vm stackLevel : ℕ) (nested : Option (Option ℤ)) (s : State) :
    (nestedReference vm stackLevel s nested).2 = nested.toList.foldl (made vm stackLevel) s := by
  cases nested <;> rfl

theorem parseElements_creates (els : List XmlSimple.Node) (s : State) :
    (parseElements host vm stackLevel els s).2 = (tables host els).foldl (made vm stackLevel) s := by
  induction els generalizing s with
  | nil => rfl
  | cons el els ih =>
    unfold parseElements tables
    cases parseElement host el with
    | error e => rfl
    | ok p =>
      obtain ⟨child,nested⟩ := p
      have hnested := nested_creates vm stackLevel nested s
      dsimp only
      rw [List.foldl_append, ← hnested]
      cases host.toUtf8 child.name with
      | error e => rfl
      | ok name =>
        cases host.toUtf8 child.value with
        | error e => rfl
        | ok value => exact ih _

def expanded (reference : ℤ) (success : Bool) (root : Root) (s : State) : List (Option ℤ) :=
  if (s.«variables» reference).isNone || !success then []
  else match root with
    | .text _ => []
    | .node root =>
      match root.child 1 with
      | .error _ => []
      | .ok root => if root.name ≠ some (LuaText.text "table") then [] else tables host root.children.tail

def evaluatedTable (success : Bool) (root : Root) : List (Option ℤ) :=
  if !success then []
  else match root with
    | .text _ => []
    | .node root =>
      if root.numChildren = 0 then []
      else match evaluated host root with
        | .ok (.table reference) => [reference]
        | _ => []

theorem evaluateRet_alike (seq vm stackLevel : ℕ) (success : Bool) (root : Root) (s : State) :
    Alike ((evaluatedTable host success root).foldl (made vm stackLevel) s)
      (evaluateRet host seq vm stackLevel success root s).1 := by
  unfold evaluatedTable evaluateRet
  cases success with
  | false => exact alike_respond _ _
  | true =>
    cases root with
    | text t => exact alike_refl
    | node root =>
      simp only [Bool.not_true, Bool.false_eq_true, if_false]
      split
      · exact alike_respond _ _
      · cases evaluated host root with
        | error e => exact alike_refl
        | ok value =>
          cases value <;> exact alike_respond _ _

/-- Where the event raises, it has created nothing. -/
theorem evaluateRet_raised (seq vm stackLevel : ℕ) {success : Bool} {root : Root} {s : State}
    (h : (evaluateRet host seq vm stackLevel success root s).2 = true) :
    evaluatedTable host success root = [] := by
  unfold evaluateRet at h
  unfold evaluatedTable
  cases success with
  | false => rfl
  | true =>
    cases root with
    | text t => rfl
    | node root =>
      simp only [Bool.not_true, Bool.false_eq_true, if_false] at h ⊢
      split
      · rfl
      · rename_i hchildren
        rw [if_neg hchildren] at h
        cases hvalue : evaluated host root with
        | error e => rfl
        | ok value => rw [hvalue] at h; cases value <;> cases h

/-- A value is stored in the variable it belongs to, if that is still in the table. -/
theorem stored_alike {t : State} {reference : ℤ} {v : Variable} (references : List (Option ℤ))
    (h : Aged s) (hv : s.«variables» reference = some v)
    (ht : t = references.foldl (made vm stackLevel) s) (values : List Child) :
    Alike t (if (t.«variables» reference).map Variable.object = some v.object then
      {t with «variables» := Function.update t.«variables» reference (some {v with value := some values})}
      else t) := by
  split
  · rename_i hobject
    have hsame : t.«variables» reference = some v := by
      rcases made_entry vm stackLevel references reference with hsame | ⟨w,hw,ho⟩
      · rw [ht, hsame, hv]
      · rw [ht, hw] at hobject
        have hlt := h reference v hv
        have heq := Option.some.inj hobject
        omega
    refine ⟨fun k => ?_,rfl,rfl⟩
    dsimp only
    by_cases hk : k = reference
    · rw [hk, Function.update_self, hsame]
      rfl
    · rw [Function.update_of_ne hk]
  · exact alike_refl

theorem expandRet_alike (seq : ℕ) (reference : ℤ) (vm stackLevel : ℕ) (success : Bool) (root : Root)
    (s : State) (h : Aged s) :
    Alike ((expanded host reference success root s).foldl (made vm stackLevel) s)
      (expandRet host seq reference vm stackLevel success root s).1 := by
  unfold expanded expandRet
  cases hvar : s.«variables» reference with
  | none => exact alike_refl
  | some v =>
    cases success with
    | false => exact alike_respond _ _
    | true =>
      cases root with
      | text t => exact alike_refl
      | node root =>
        dsimp only
        cases root.child 1 with
        | error e => exact alike_refl
        | ok root =>
          simp only [Option.isNone_some, Bool.not_true, Bool.or_self, Bool.false_eq_true, if_false]
          have hparsed : (parseVariable host root vm stackLevel s).2 =
              (if root.name ≠ some (LuaText.text "table") then [] else
                tables host root.children.tail).foldl (made vm stackLevel) s := by
            unfold parseVariable
            split
            · rfl
            · exact parseElements_creates host _ s
          generalize (if root.name ≠ some (LuaText.text "table") then [] else
            tables host root.children.tail) = references at hparsed ⊢
          rw [← hparsed]
          cases hp : parseVariable host root vm stackLevel s with
          | mk values t =>
            rw [hp] at hparsed
            cases values with
            | none => exact alike_refl
            | some values =>
              dsimp only
              split
              · exact alike_refl
              · exact alike_trans (stored_alike references h hvar hparsed values) (alike_respond _ _)

end Tables

section Answers

variable {thread hits : ℕ} {s : State}

def publishes (hits : ℕ) (p : Proc) : Bool := .emitStopped ∈ effects hits p

def emptied (s : State) : State := {s with «variables» := fun _ => none, variableId := 0}

theorem publishes_emit (hits : ℕ) (e : Effect) (k : Proc) :
    publishes hits (.emit e k) = (decide (e = .emitStopped) || publishes hits k) := by
  simp [publishes, effects, eq_comm]

theorem enact_alike (thread hits : ℕ) (p : Proc) (s : State) :
    Alike (if publishes hits p then emptied s else s) (enact thread hits p s).1 := by
  induction p generalizing hits s with
  | done => exact alike_refl
  | raise => exact alike_refl
  | emit e k ih =>
    have hrest := ih hits (effect s e)
    rw [publishes_emit]
    cases e with
    | emitStopped =>
      have hempty : (if publishes hits k then emptied (emptied s) else emptied s) = emptied s := by
        split <;> rfl
      have hstopped : Alike (if publishes hits k then emptied (emptied s) else emptied s)
          (enact thread hits k (emptied s)).1 := hrest
      rw [hempty] at hstopped
      exact hstopped
    | _ => exact hrest
  | setStacks stackFrames k ih =>
    have hrest := ih hits {s with stackTrace := Function.update s.stackTrace thread true}
    change Alike (if publishes hits k then emptied s else s) _
    cases hp : publishes hits k <;> rw [hp] at hrest <;>
      exact ⟨hrest.«variables»,hrest.variableId,hrest.objects⟩
  | hit k ih => exact ih (hits+1) hits s
  | evaluate expression threadId stackLevel callback ih => exact alike_of_eq rfl rfl rfl

theorem called_alike (hits : ℕ) (c : Command) (p : Proc) (s : State) :
    Alike (if publishes hits p then emptied s else s) (called hits c p s) := by
  have henact := enact_alike c.vm hits p s
  unfold called
  cases hr : enact c.vm hits p s with
  | mk t raised =>
    rw [hr] at henact
    cases raised with
    | true => exact henact
    | false => exact ⟨henact.«variables»,henact.variableId,henact.objects⟩

def afterwards (hits : ℕ) (c : Command) (success : Bool) (result : Bytes) (s : State) : State :=
  match callback c success result s with
  | none => s
  | some p => called hits c p s

/-- The tables for which an answer creates a variable; the event of an
evaluation is emitted twice where no breakpoint has asked for it. -/
def creations (host : Host) (hits : ℕ) (c : Command) (success : Bool) (result : Bytes) (s : State) :
    List (Option ℤ) :=
  match parseEvaluateResult (some success) (some result) with
  | .error _ => []
  | .ok (suc,root) =>
    match c.asked with
    | .expand _ reference => expanded host reference suc root s
    | .evaluate =>
      match s.pendingRequests c.seq with
      | none => evaluatedTable host suc root ++ evaluatedTable host suc root
      | some _ =>
        match callback c success result s with
        | none => []
        | some p => if (enact c.vm hits p s).2 then [] else evaluatedTable host suc root

theorem answer_alike (host : Host) (hits : ℕ) (c : Command) (success : Bool) (result : Bytes)
    (s : State) (h : Aged s) :
    Alike ((creations host hits c success result s).foldl (made c.vm c.stackLevel)
      (afterwards hits c success result s)) (answer host hits c success result s).1 := by
  unfold creations afterwards answer callback
  cases parseEvaluateResult (some success) (some result) with
  | error e => exact alike_refl
  | ok q =>
    obtain ⟨suc,root⟩ := q
    cases c.asked with
    | expand scope reference => exact expandRet_alike host _ _ _ _ _ _ s h
    | evaluate =>
      dsimp only
      have hemit (t : State) := evaluateRet_alike host c.seq c.vm c.stackLevel suc root t
      unfold evaluateAnswer bpEvaulateRet
      cases s.pendingRequests c.seq with
      | none =>
        dsimp only
        have hfirst := hemit s
        cases hr : evaluateRet host c.seq c.vm c.stackLevel suc root s with
        | mk t raised =>
          rw [hr] at hfirst
          cases raised with
          | true =>
            rw [evaluateRet_raised host c.seq c.vm c.stackLevel (by rw [hr])] at hfirst ⊢
            exact hfirst
          | false =>
            rw [List.foldl_append]
            exact alike_trans (made_all_alike _ hfirst) (hemit t)
      | some callback =>
        dsimp only
        cases (if success then toboolean root else .ok false) with
        | error e => exact alike_refl
        | ok hit =>
          dsimp only
          unfold called
          cases henact : enact c.vm hits (callback hit success root) s with
          | mk t raised =>
            cases raised with
            | true => exact alike_refl
            | false => exact hemit _

end Answers

section Requests

variable {s t : State}

theorem alike_of_quiet (h : Quiet s t) : Alike s t := alike_of_eq h.«variables» h.variableId h.objects

theorem alike_workerStop (call : Call) (out : Outside) (s : State) :
    Alike s (workerStop call out s).1 := by
  rcases workerStop_cases call out s with hq | ⟨-,hq⟩
  · exact alike_of_quiet hq
  · exact alike_of_eq hq.«variables» hq.variableId hq.objects

/-- A request creates the variables of two scopes, or none. -/
theorem handle_alike (out : Outside) (req : Request) (s : State) :
    Alike (match frameOf req s with
      | none => s
      | some (vm,stackLevel) => withScopes s vm stackLevel) (handle out req s) := by
  have hacts := handle_acts out req s
  unfold Spec at hacts
  cases hframe : frameOf req s with
  | some frame =>
    obtain ⟨vm,stackLevel⟩ := frame
    rw [hframe] at hacts
    exact alike_of_quiet hacts
  | none =>
    rw [hframe] at hacts
    cases hr : resumed out req s with
    | some threadId =>
      rw [hr] at hacts
      exact alike_of_eq hacts.«variables» hacts.variableId hacts.objects
    | none =>
      rw [hr] at hacts
      cases hacts with
      | quiet hq => exact alike_of_quiet hq
      | began hc hq => exact alike_of_eq hq.«variables» hq.variableId hq.objects
      | sent c hd ht ho hq => exact alike_of_eq hq.«variables» hq.variableId hq.objects
      | ended hd hq => exact alike_of_eq hq.«variables» hq.variableId hq.objects

end Requests

section Values

variable {s t u : State}

def Unstored (s t : State) : Prop :=
  ∀ k v, t.«variables» k = some v → v.value.isSome = true → s.«variables» k = some v

theorem unstored_of_eq (h : t.«variables» = s.«variables») : Unstored s t :=
  fun k v hv _ => by rw [← h]; exact hv

theorem unstored_trans (h : Unstored s t) (hu : Unstored t u) : Unstored s u :=
  fun k v hv hvalue => h k v (hu k v hv hvalue) hvalue

theorem unstored_create (s : State) (vm stackLevel : ℕ) (scope : Option ℕ) (reference : Option ℤ) :
    Unstored s (createVariable s vm stackLevel scope reference).2 := by
  intro k v hv hvalue
  unfold createVariable at hv
  dsimp only at hv
  rw [Function.update_apply] at hv
  split at hv
  · cases hv
    cases hvalue
  · exact hv

theorem unstored_made (vm stackLevel : ℕ) (references : List (Option ℤ)) (s : State) :
    Unstored s (references.foldl (made vm stackLevel) s) := by
  induction references generalizing s with
  | nil => exact unstored_of_eq rfl
  | cons reference references ih =>
    exact unstored_trans (unstored_create s vm stackLevel none reference)
      (ih (made vm stackLevel s reference))

theorem unstored_enact (thread hits : ℕ) (p : Proc) (s : State) :
    Unstored s (enact thread hits p s).1 := by
  induction p generalizing hits s with
  | done => exact unstored_of_eq rfl
  | raise => exact unstored_of_eq rfl
  | emit e k ih =>
    have heffect : Unstored s (effect s e) := by
      cases e with
      | emitStopped => exact nofun
      | _ => exact unstored_of_eq rfl
    exact unstored_trans heffect (ih hits (effect s e))
  | setStacks stackFrames k ih => exact ih hits _
  | hit k ih => exact ih (hits+1) hits s
  | evaluate expression threadId stackLevel callback ih => exact unstored_of_eq rfl

theorem unstored_evaluateRet (host : Host) (seq vm stackLevel : ℕ) (success : Bool) (root : Root)
    (s : State) : Unstored s (evaluateRet host seq vm stackLevel success root s).1 := by
  unfold evaluateRet
  split
  · exact unstored_of_eq rfl
  · split
    · exact unstored_of_eq rfl
    · split
      · exact unstored_of_eq rfl
      · split
        · exact unstored_of_eq rfl
        · exact unstored_create s vm stackLevel none _
        · exact unstored_of_eq rfl
        · exact unstored_of_eq rfl

theorem unstored_evaluateAnswer (host : Host) (hits : ℕ) (c : Command) (success suc : Bool)
    (root : Root) (s : State) : Unstored s (evaluateAnswer host hits c success suc root s).1 := by
  have hemit (t : State) := unstored_evaluateRet host c.seq c.vm c.stackLevel suc root t
  have hbreakpoint : Unstored s (bpEvaulateRet hits c success root s).1 := by
    unfold bpEvaulateRet
    split
    · exact unstored_of_eq rfl
    · next callback _ =>
      split
      · exact unstored_of_eq rfl
      · next hit _ =>
        have henact := unstored_enact c.vm hits (callback hit success root) s
        cases hr : enact c.vm hits (callback hit success root) s with
        | mk t raised =>
          rw [hr] at henact
          cases raised <;> exact henact
  unfold evaluateAnswer
  cases hr : bpEvaulateRet hits c success root s with
  | mk t answered =>
    rw [hr] at hbreakpoint
    cases answered with
    | none => exact hbreakpoint
    | some answered =>
      cases answered with
      | true => exact unstored_trans hbreakpoint (hemit t)
      | false =>
        have hfirst := hemit t
        dsimp only
        cases he : evaluateRet host c.seq c.vm c.stackLevel suc root t with
        | mk u raised =>
          rw [he] at hfirst
          cases raised with
          | true => exact unstored_trans hbreakpoint hfirst
          | false => exact unstored_trans hbreakpoint (unstored_trans hfirst (hemit u))

theorem unstored_handle (out : Outside) (req : Request) (s : State) :
    Unstored s (handle out req s) := by
  have hacts := handle_acts out req s
  unfold Spec at hacts
  cases hframe : frameOf req s with
  | some frame =>
    obtain ⟨vm,stackLevel⟩ := frame
    rw [hframe] at hacts
    exact unstored_trans (unstored_trans (unstored_create s vm stackLevel (some 1) none)
      (unstored_create _ vm stackLevel (some 2) none)) (unstored_of_eq hacts.«variables»)
  | none =>
    rw [hframe] at hacts
    cases hr : resumed out req s with
    | some threadId =>
      rw [hr] at hacts
      exact unstored_of_eq hacts.«variables»
    | none =>
      rw [hr] at hacts
      cases hacts with
      | quiet hq => exact unstored_of_eq hq.«variables»
      | began hc hq => exact unstored_of_eq hq.«variables»
      | sent c hd ht ho hq => exact unstored_of_eq hq.«variables»
      | ended hd hq => exact unstored_of_eq hq.«variables»

theorem unstored_workerStop (call : Call) (out : Outside) (s : State) :
    Unstored s (workerStop call out s).1 := by
  rcases workerStop_cases call out s with hq | ⟨-,hq⟩
  · exact unstored_of_eq hq.«variables»
  · exact unstored_of_eq hq.«variables»

theorem made_responses (vm stackLevel : ℕ) (references : List (Option ℤ)) (s : State) :
    (references.foldl (made vm stackLevel) s).responses = s.responses := by
  induction references generalizing s with
  | nil => rfl
  | cons reference references ih => exact ih (made vm stackLevel s reference)

theorem parseVariable_creates (host : Host) (root : XmlSimple.Node) (vm stackLevel : ℕ) (s : State) :
    ∃ references : List (Option ℤ), (parseVariable host root vm stackLevel s).2 =
      references.foldl (made vm stackLevel) s := by
  unfold parseVariable
  split
  · exact ⟨[],rfl⟩
  · exact ⟨_,parseElements_creates host _ s⟩

/-- A value was there before, or a reply that is shown is stored in the variable that its number
had before. -/
def Stored (seq : ℕ) (reference : ℤ) (success : Bool) (s t : State) : Prop :=
  ∀ k v, t.«variables» k = some v → v.value.isSome = true → s.«variables» k = some v ∨
    (k = reference ∧ success = true ∧ t.responses = s.responses ++ [⟨seq,true⟩] ∧
      ∃ w, s.«variables» k = some w ∧ w.object = v.object)

theorem stored_of_unstored {seq : ℕ} {reference : ℤ} {success : Bool} (h : Unstored s t) :
    Stored seq reference success s t :=
  fun k v hv hvalue => .inl (h k v hv hvalue)

theorem expandRet_stored (host : Host) (seq : ℕ) (reference : ℤ) (vm stackLevel : ℕ) (success : Bool)
    (root : Root) (s : State) :
    Stored seq reference success s (expandRet host seq reference vm stackLevel success root s).1 := by
  unfold expandRet
  cases hvar : s.«variables» reference with
  | none => exact stored_of_unstored (unstored_of_eq rfl)
  | some w =>
    cases success with
    | false => exact stored_of_unstored (unstored_of_eq rfl)
    | true =>
      cases root with
      | text _ => exact stored_of_unstored (unstored_of_eq rfl)
      | node root =>
        dsimp only
        cases root.child 1 with
        | error e => exact stored_of_unstored (unstored_of_eq rfl)
        | ok root =>
          obtain ⟨references,hparsed⟩ := parseVariable_creates host root vm stackLevel s
          have hmade := unstored_made vm stackLevel references s
          have hresponses := made_responses vm stackLevel references s
          rw [← hparsed] at hmade hresponses
          simp only [Bool.not_true, Bool.false_eq_true, if_false]
          cases hp : parseVariable host root vm stackLevel s with
          | mk values t =>
            rw [hp] at hmade hresponses
            cases values with
            | none => exact stored_of_unstored hmade
            | some values =>
              dsimp only
              split
              · exact stored_of_unstored hmade
              · split
                · intro k v hv hvalue
                  change Function.update t.«variables» reference _ k = some v at hv
                  rw [Function.update_apply] at hv
                  split at hv
                  · next hk =>
                    cases hv
                    exact .inr ⟨hk,rfl,congrArg (· ++ [_]) hresponses,w,hk ▸ hvar,rfl⟩
                  · exact .inl (hmade k v hv hvalue)
                · exact stored_of_unstored hmade

theorem parse_success {success : Bool} {result : Option Bytes} {root : Root}
    (h : parseEvaluateResult (some success) result = .ok (true,root)) : success = true := by
  unfold parseEvaluateResult at h
  split at h
  · cases h
  · split at h
    · split at h
      · next hs => exact Option.some.inj hs
      · next root _ _ =>
        cases hc : root.child 1 with
        | error e =>
          rw [hc] at h
          cases h
        | ok c =>
          rw [hc] at h
          cases h
    · cases h

theorem answer_stored (host : Host) (hits : ℕ) (c : Command) (success : Bool) (result : Bytes)
    (s : State) {k : ℤ} {v : Variable}
    (hv : (answer host hits c success result s).1.«variables» k = some v)
    (hvalue : v.value.isSome = true) : s.«variables» k = some v ∨
      ((∃ scope r, c.asked = .expand scope r ∧ k = r) ∧ success = true ∧
        (answer host hits c success result s).1.responses = s.responses ++ [⟨c.seq,true⟩] ∧
        ∃ w, s.«variables» k = some w ∧ w.object = v.object) := by
  unfold answer at hv ⊢
  cases hparse : parseEvaluateResult (some success) (some result) with
  | error e =>
    rw [hparse] at hv
    exact .inl hv
  | ok q =>
    obtain ⟨suc,root⟩ := q
    rw [hparse] at hv
    cases hasked : c.asked with
    | expand scope r =>
      rw [hasked] at hv
      rcases expandRet_stored host c.seq r c.vm c.stackLevel suc root s k v hv hvalue with
        hold | ⟨hk,hsuc,hresponses,hw⟩
      · exact .inl hold
      · exact .inr ⟨⟨scope,r,rfl,hk⟩,parse_success (hsuc ▸ hparse),hresponses,hw⟩
    | evaluate =>
      rw [hasked] at hv
      exact .inl (unstored_evaluateAnswer host hits c success suc root s k v hv hvalue)

/-- Only a reply that succeeds is shown. -/
theorem shown_success {host : Host} {hits : ℕ} {c : Command} {success : Bool} {result : Bytes}
    {scope r : ℕ} (hasked : c.asked = .expand scope r)
    (h : (answer host hits c success result s).1.responses = s.responses ++ [⟨c.seq,true⟩]) :
    success = true := by
  have hnone {responses : List Response} (h : responses = responses ++ [⟨c.seq,true⟩]) : False := by
    simpa using congrArg List.length h
  unfold answer at h
  cases hparse : parseEvaluateResult (some success) (some result) with
  | error e =>
    rw [hparse] at h
    exact (hnone h).elim
  | ok q =>
    obtain ⟨suc,root⟩ := q
    rw [hparse, hasked] at h
    cases suc with
    | true => exact parse_success hparse
    | false =>
      change (expandRet host c.seq r c.vm c.stackLevel false root s).1.responses = _ at h
      unfold expandRet at h
      cases hvar : s.«variables» r with
      | none =>
        rw [hvar] at h
        exact (hnone h).elim
      | some v =>
        rw [hvar] at h
        have hfailed := List.append_cancel_left h
        injection hfailed with hfailed
        injection hfailed with _ hfailed
        cases hfailed

/-- A table that is named with its number is a new object under it. -/
theorem made_fresh (vm stackLevel : ℕ) {references : List (Option ℤ)} {n : ℤ}
    (h : some n ∈ references) (s : State) :
    ∃ v, (references.foldl (made vm stackLevel) s).«variables» n = some v ∧ s.objects ≤ v.object := by
  induction references generalizing s with
  | nil => cases h
  | cons reference references ih =>
    rcases List.mem_cons.mp h with rfl | h
    · rcases made_entry vm stackLevel references n (s := made vm stackLevel s (some n)) with
        hsame | ⟨v,hv,ho⟩
      · refine ⟨_,hsame.trans (Function.update_self ..),le_rfl⟩
      · exact ⟨v,hv,(Nat.le_succ _).trans ho⟩
    · obtain ⟨v,hv,ho⟩ := ih h (made vm stackLevel s reference)
      exact ⟨v,hv,(Nat.le_succ _).trans ho⟩

end Values

end Vecoda.Created
