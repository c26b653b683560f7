import Vecoda.Created
import Vecoda.Transitions

/-!
# Variable references

Over every run of the adapter, with the references beside it that the client
holds: those given to it for a machine that has not been resumed since. Such a
reference stands for a scope of a frame, or for a table by its number in the
registry of its machine. The values stored under a number come from the reply to
a command, which is kept beside them.
-/

set_option autoImplicit false

namespace Vecoda.References
open MessagePipe (Bytes)
open LuaText (text)
open HandleBreak Routing Deciding Created Transitions
open Requests (Request Outside Label calm onTop enact answer handle)
open Variables (Variable Command Host nowhere)

inductive Thing where
  | scope (vm stackLevel scope : ℕ)
  | table (vm : ℕ) (reference : Option ℤ)
  deriving DecidableEq

def Thing.vm : Thing → ℕ
  | .scope vm _ _ => vm
  | table vm _ => vm

def Reaches : Thing → Command → Prop
  | .scope vm stackLevel scope, c => c.vm = vm ∧ c.stackLevel = stackLevel ∧ scope ≠ 0 ∧
      ∃ r, c.asked = .expand scope r
  | .table vm reference, c => c.vm = vm ∧ ∃ n : ℕ, reference = some (n : ℤ) ∧ c.asked = .expand 0 n

/-- `live` are the references that the client may use; `origins` has the command to whose reply
the values under a number were shown last. -/
structure Shown where
  state : Variables.State
  live : List (ℤ × Thing)
  origins : ℤ → Option Command

section Runs

def leave (live : List (ℤ × Thing)) (vm : ℕ) : List (ℤ × Thing) := live.filter (·.2.vm ≠ vm)

def letGo (live : List (ℤ × Thing)) : Effect → List (ℤ × Thing)
  | .continue nvm => leave live nvm
  | _ => live

def counted (id : ℕ) : ℤ := (id <<< 16 : ℕ)

def numbered (vm : ℕ) : ℕ → List (Option ℤ) → List (ℤ × Thing)
  | _, [] => []
  | id, some r :: references => (r,.table vm (some r)) :: numbered vm id references
  | id, none :: references => (counted (id+1),.table vm none) :: numbered vm (id+1) references

def scopeNumbers (id vm stackLevel : ℕ) : List (ℤ × Thing) :=
  [(counted (id+1),.scope vm stackLevel 1),(counted (id+2),.scope vm stackLevel 2)]

/-- An answer that raises gives nothing to the client, and one for a machine
that runs already nothing that the client may use. -/
def given (host : Host) (hits : ℕ) (c : Command) (success : Bool) (result : Bytes)
    (s s' : Variables.State) (live : List (ℤ × Thing)) : List (ℤ × Thing) :=
  (effects hits ((callback c success result s).getD .done)).foldl letGo live ++
    if !(answer host hits c success result s).2 && s'.stackTrace c.vm then
      numbered c.vm (afterwards hits c success result s).variableId
        (creations host hits c success result s)
    else []

/-- A machine is resumed by a request, by a breakpoint that is not hit, and at
the end of the session; one that breaks has been resumed before. -/
def trace (t : Shown) : Label → Variables.State → List (ℤ × Thing)
  | .request req out, s' =>
    if !s'.debugdata then []
    else (match resumed out req t.state with
      | none => t.live
      | some vm => leave t.live vm) ++
      match frameOf req t.state with
      | none => []
      | some (vm,stackLevel) => scopeNumbers t.state.variableId vm stackLevel
  | .stop nvm hits event a, _ => (effects hits (a.handle nvm event)).foldl letGo (leave t.live nvm)
  | .answer i hits success result host, s' =>
    match t.state.commands[i]? with
    | none => t.live
    | some c => given host hits c success result
        {t.state with commands := t.state.commands.eraseIdx i} s' t.live
  | .other, _ => t.live
  | .disconnected _, s' => if s'.debugdata then t.live else []

def originsAfter (t : Shown) : Label → Variables.State → ℤ → Option Command
  | .answer i _ _ _ _, s' =>
    match t.state.commands[i]? with
    | none => t.origins
    | some c =>
      match c.asked with
      | .evaluate => t.origins
      | .expand _ reference =>
        if s'.responses = t.state.responses ++ [⟨c.seq,true⟩] then
          Function.update t.origins reference (some c)
        else t.origins
  | _, _ => t.origins

def Step (t : Shown) (l : Label) (t' : Shown) : Prop :=
  Requests.Step t.state l t'.state ∧ t'.live = trace t l t'.state ∧
    t'.origins = originsAfter t l t'.state

def initial : Shown := ⟨Requests.initial,[],fun _ => none⟩

/-- The values under the references of the client were asked of the things they stand for. -/
def Answered (t : Shown) : Prop :=
  ∀ e ∈ t.live, ∀ v, t.state.«variables» e.1 = some v → v.value.isSome = true →
    ∃ c, t.origins e.1 = some c ∧ Reaches e.2 c

/-- A reference denotes one thing: it is in the table, a `variables` request
for it asks for that thing or is answered with what was asked of it, and no
other thing has the same number. -/
structure Faithful (t : Shown) : Prop where
  resolvable : ∀ e ∈ t.live, (t.state.«variables» e.1).isSome = true
  sent : ∀ e ∈ t.live, ∀ seq arg c, arg.variablesReference = some e.1 →
    (Variables.«variables» seq arg t.state).1.commands = t.state.commands ++ [c] → Reaches e.2 c
  answered : Answered t
  distinct : ∀ e ∈ t.live, ∀ e' ∈ t.live, e.2 ≠ e'.2 → e.1 ≠ e'.1

/-- The tables of an answer carry numbers of 32 bits, and none that the client
holds for something of another machine or for a scope. -/
def Fits (live : List (ℤ × Thing)) (vm : ℕ) (references : List (Option ℤ)) : Prop :=
  ∀ reference ∈ references, ∃ n : ℕ, reference = some (n : ℤ) ∧ n < 2^32 ∧
    ∀ e ∈ live, e.1 = n → ∃ r, e.2 = .table vm r

/-- A number that the client holds has a variable of the machine, the scope and, if it is one of
a frame, the frame that the command named, when the reply to the command comes in. -/
def Timely (t : Shown) (c : Command) : Prop :=
  ∀ scope (r : ℕ) v, c.asked = .expand scope r → (∃ th, ((r : ℤ),th) ∈ t.live) →
    t.state.«variables» r = some v →
    c.vm = v.vm ∧ scope = v.scope.getD 0 ∧ (scope ≠ 0 → c.stackLevel = Variables.wire v.stackLevel)

/-- A stop is published while no other machine has references, the numbers of
scopes and tables do not meet, and no reply is late. -/
def Separate (t : Shown) : Label → Prop
  | .request req _ => (frameOf req t.state).isSome = true → ∀ k vm reference,
      (k,.table vm reference) ∈ t.live →
      k ≠ counted (t.state.variableId+1) ∧ k ≠ counted (t.state.variableId+2)
  | .stop nvm hits event a => publishes hits (a.handle nvm event) = true → ∀ e ∈ t.live, e.2.vm = nvm
  | .answer i hits success result host => ∀ c, t.state.commands[i]? = some c →
      (∀ p, callback c success result t.state = some p → publishes hits p = true → t.live = []) ∧
      Fits t.live c.vm (creations host hits c success result
        {t.state with commands := t.state.commands.eraseIdx i}) ∧
      (success = true → Timely t c)
  | _ => True

end Runs

section Requests

def expand (seq : ℕ) (v : Variable) : Command :=
  ⟨some seq,.expand (v.scope.getD 0) (Variables.wire v.reference.toNat),Variables.wire seq,v.vm,
    Variables.wire v.stackLevel⟩

def Denotes (v : Variable) (th : Thing) : Prop := ∀ seq, Reaches th (expand seq v)

theorem variables_sent {seq : ℕ} {arg : Variables.Arguments} {s : Variables.State} {k : ℤ} {c : Command}
    (hk : arg.variablesReference = some k)
    (h : (Variables.«variables» seq arg s).1.commands = s.commands ++ [c]) :
    ∃ v, s.«variables» k = some v ∧ c = expand seq v := by
  have hnone {l : List Command} (h : l = l ++ [c]) : False := by
    have hlen := congrArg List.length h
    rw [List.length_append, List.length_singleton] at hlen
    omega
  unfold Variables.«variables» at h
  rw [hk, Option.bind_some] at h
  cases hv : s.«variables» k with
  | none =>
    rw [hv] at h
    exact (hnone h).elim
  | some v =>
    rw [hv] at h
    refine ⟨v,rfl,?_⟩
    dsimp only at h
    split at h
    · exact (hnone h).elim
    · split at h
      · exact (hnone h).elim
      · split at h
        · exact (hnone h).elim
        · exact (List.singleton_inj.mp (List.append_cancel_left h)).symm

/-- A command reaches one thing. -/
theorem reaches_unique {th th' : Thing} {c : Command} (h : Reaches th c) (h' : Reaches th' c) :
    th = th' := by
  cases th with
  | scope vm stackLevel scope =>
    obtain ⟨rfl,rfl,hscope,r,hr⟩ := h
    cases th' with
    | scope vm' stackLevel' scope' =>
      obtain ⟨rfl,rfl,-,r',hr'⟩ := h'
      rw [hr] at hr'
      cases hr'
      rfl
    | table vm' reference' =>
      obtain ⟨-,n,-,hn⟩ := h'
      rw [hr] at hn
      cases hn
      exact absurd rfl hscope
  | table vm reference =>
    obtain ⟨rfl,n,rfl,hn⟩ := h
    cases th' with
    | scope vm' stackLevel' scope' =>
      obtain ⟨-,-,hscope,r,hr⟩ := h'
      rw [hn] at hr
      cases hr
      exact absurd rfl hscope
    | table vm' reference' =>
      obtain ⟨rfl,n',rfl,hn'⟩ := h'
      rw [hn] at hn'
      cases hn'
      rfl

end Requests

section Consistent

/-- A live reference is in the table as the thing it stands for, and is numbered
by the counter of the scopes or by the registry of its machine. -/
structure Consistent (s : Variables.State) (live : List (ℤ × Thing)) : Prop where
  resolved : ∀ k th, (k,th) ∈ live → ∃ v, s.«variables» k = some v ∧ Denotes v th
  tables : ∀ k vm reference, (k,.table vm reference) ∈ live → reference = some k
  scopes : ∀ k vm stackLevel scope, (k,.scope vm stackLevel scope) ∈ live →
    k ≤ counted s.variableId
  aged : Aged s

variable {s s' : Variables.State} {live live' : List (ℤ × Thing)} {vm stackLevel : ℕ}

theorem consistent_nil (h : Aged s) : Consistent s [] := ⟨nofun,nofun,nofun,h⟩

theorem consistent_subset (h : Consistent s live) (hsub : live' ⊆ live) : Consistent s live' :=
  ⟨fun k th he => h.resolved k th (hsub he),fun k vm reference he => h.tables k vm reference (hsub he),
    fun k vm stackLevel scope he => h.scopes k vm stackLevel scope (hsub he),h.aged⟩

theorem denotes_target {v w : Variable} (h : target v = target w) {th : Thing} (hd : Denotes v th) :
    Denotes w th := by
  intro seq
  have hv : Reaches th (expand seq (target v)) := hd seq
  rw [h] at hv
  exact hv

theorem consistent_alike (h : Consistent s live) (ha : Alike s s') : Consistent s' live := by
  refine ⟨fun k th he => ?_,h.tables,fun k vm stackLevel scope he => ?_,alike_aged ha h.aged⟩
  · obtain ⟨v,hv,hd⟩ := h.resolved k th he
    have hk := ha.«variables» k
    rw [hv, Option.map_some] at hk
    obtain ⟨w,hw,htarget⟩ := Option.map_eq_some_iff.mp hk
    exact ⟨w,hw,denotes_target htarget.symm hd⟩
  · rw [ha.variableId]
    exact h.scopes k vm stackLevel scope he

theorem consistent_faithful {t : Shown} (h : Consistent t.state t.live) (ha : Answered t) :
    Faithful t := by
  refine ⟨fun e he => ?_,fun e he seq arg c hk hc => ?_,ha,fun e he e' he' hne hkey => ?_⟩
  · obtain ⟨v,hv,-⟩ := h.resolved e.1 e.2 he
    rw [hv]
    rfl
  · obtain ⟨v,hv,hd⟩ := h.resolved e.1 e.2 he
    obtain ⟨w,hw,rfl⟩ := variables_sent hk hc
    rw [hv] at hw
    cases hw
    exact hd seq
  · obtain ⟨v,hv,hd⟩ := h.resolved e.1 e.2 he
    obtain ⟨w,hw,hd'⟩ := h.resolved e'.1 e'.2 he'
    rw [← hkey, hv] at hw
    cases hw
    exact hne (reaches_unique (hd 0) (hd' 0))

/-- A table with a number of its own. -/
theorem made_consistent (stackLevel : ℕ) (h : Consistent s live) {n : ℕ} (hn : n < 2^32)
    (hfree : ∀ e ∈ live, e.1 = n → ∃ r, e.2 = .table vm r) :
    Consistent (Created.made vm stackLevel s (some (n : ℤ)))
      (live ++ [((n : ℤ),.table vm (some (n : ℤ)))]) := by
  have hkey : keyOf s (some (n : ℤ)) = n := rfl
  have hnew : Denotes ⟨s.objects,none,vm,stackLevel,n,none⟩ (.table vm (some (n : ℤ))) := by
    intro seq
    refine ⟨rfl,n,rfl,?_⟩
    simp only [expand, Option.getD_none, Int.toNat_natCast, Variables.wire]
    rw [Nat.mod_eq_of_lt hn]
  have hcases (k : ℤ) (th : Thing) (he : (k,th) ∈ live ++ [((n : ℤ),.table vm (some (n : ℤ)))]) :
      (k = n ∧ th = .table vm (some (n : ℤ))) ∨ (k ≠ n ∧ (k,th) ∈ live) := by
    rcases List.mem_append.mp he with he | he
    · by_cases hk : k = n
      · obtain ⟨r,hr⟩ := hfree _ he hk
        dsimp only at hr
        rw [hr] at he ⊢
        rw [h.tables k vm r he, hk]
        exact .inl ⟨rfl,rfl⟩
      · exact .inr ⟨hk,he⟩
    · cases List.mem_singleton.mp he
      exact .inl ⟨rfl,rfl⟩
  refine ⟨fun k th he => ?_,fun k vm' r he => ?_,fun k vm' level scope he => ?_,made_aged _ h.aged⟩
  · rw [made_variables, hkey]
    rcases hcases k th he with ⟨rfl,rfl⟩ | ⟨hne,hold⟩
    · exact ⟨_,Function.update_self ..,hnew⟩
    · rw [Function.update_of_ne hne]
      exact h.resolved k th hold
  · rcases hcases k _ he with ⟨rfl,heq⟩ | ⟨-,hold⟩
    · cases heq
      rfl
    · exact h.tables k vm' r hold
  · rcases hcases k _ he with ⟨-,heq⟩ | ⟨-,hold⟩
    · cases heq
    · exact h.scopes k vm' level scope hold

theorem made_all_consistent (stackLevel : ℕ) (references : List (Option ℤ)) (h : Consistent s live)
    (hfits : Fits live vm references) :
    Consistent (references.foldl (Created.made vm stackLevel) s)
      (live ++ numbered vm s.variableId references) := by
  induction references generalizing s live with
  | nil =>
    rw [numbered, List.append_nil]
    exact h
  | cons reference references ih =>
    obtain ⟨⟨n,rfl,hn,hfree⟩,hrest⟩ := List.forall_mem_cons.mp hfits
    have hmade := made_consistent stackLevel h hn hfree
    have hfits' : Fits (live ++ [((n : ℤ),.table vm (some (n : ℤ)))]) vm references := by
      intro reference hreference
      obtain ⟨m,hm,hlt,hfree'⟩ := hrest reference hreference
      refine ⟨m,hm,hlt,fun e he hkey => ?_⟩
      rcases List.mem_append.mp he with he | he
      · exact hfree' e he hkey
      · exact ⟨some (n : ℤ),by rw [List.mem_singleton.mp he]⟩
    have hall := ih hmade hfits'
    rw [List.append_assoc] at hall
    exact hall

theorem counted_lt (n : ℕ) : counted n < counted (n+1) := by
  unfold counted
  simp only [Nat.shiftLeft_eq]
  omega

/-- The counter of the scopes is ahead of the references to scopes. -/
theorem scope_consistent (vm : ℕ) (h : Consistent s live) (hlevel : stackLevel < 2^32) {scope : ℕ}
    (hscope : scope ≠ 0)
    (hfree : ∀ k vm reference, (k,.table vm reference) ∈ live → k ≠ counted (s.variableId+1)) :
    Consistent (Variables.createVariable s vm stackLevel (some scope) none).2
      (live ++ [(counted (s.variableId+1),.scope vm stackLevel scope)]) := by
  have hlt := counted_lt s.variableId
  have hvariables : (Variables.createVariable s vm stackLevel (some scope) none).2.«variables» =
    Function.update s.«variables» (counted (s.variableId+1))
      (some ⟨s.objects,some scope,vm,stackLevel,counted (s.variableId+1),none⟩) := rfl
  have hother (k : ℤ) (th : Thing) (he : (k,th) ∈ live) : k ≠ counted (s.variableId+1) := by
    cases th with
    | table vm' reference => exact hfree k vm' reference he
    | scope vm' level scope' => exact ((h.scopes k vm' level scope' he).trans_lt hlt).ne
  refine ⟨fun k th he => ?_,fun k vm' r he => ?_,fun k vm' level scope' he => ?_,fun k v hv => ?_⟩
  · rw [hvariables]
    rcases List.mem_append.mp he with he | he
    · rw [Function.update_of_ne (hother k th he)]
      exact h.resolved k th he
    · cases List.mem_singleton.mp he
      refine ⟨_,Function.update_self ..,fun seq => ⟨rfl,?_,hscope,_,rfl⟩⟩
      exact Nat.mod_eq_of_lt hlevel
  · rcases List.mem_append.mp he with he | he
    · exact h.tables k vm' r he
    · cases List.mem_singleton.mp he
  · change k ≤ counted (s.variableId+1)
    rcases List.mem_append.mp he with he | he
    · exact (h.scopes k vm' level scope' he).trans hlt.le
    · cases List.mem_singleton.mp he
      exact le_refl _
  · rw [hvariables, Function.update_apply] at hv
    change v.object < s.objects+1
    split at hv
    · cases hv
      exact Nat.lt_succ_self s.objects
    · exact (h.aged k v hv).trans (Nat.lt_succ_self s.objects)

theorem scopes_consistent (h : Consistent s live) (hlevel : stackLevel < 2^32)
    (hfree : ∀ k vm reference, (k,.table vm reference) ∈ live →
      k ≠ counted (s.variableId+1) ∧ k ≠ counted (s.variableId+2)) :
    Consistent (withScopes s vm stackLevel) (live ++ scopeNumbers s.variableId vm stackLevel) := by
  have hfirst := scope_consistent vm h hlevel one_ne_zero
    (fun k vm' reference he => (hfree k vm' reference he).1)
  have hsecond := scope_consistent vm hfirst hlevel two_ne_zero (fun k vm' reference he => by
    rcases List.mem_append.mp he with he | he
    · exact (hfree k vm' reference he).2
    · cases List.mem_singleton.mp he)
  rw [List.append_assoc] at hsecond
  exact hsecond

theorem letGo_subset (live : List (ℤ × Thing)) (es : List Effect) : es.foldl letGo live ⊆ live := by
  induction es generalizing live with
  | nil => exact List.Subset.refl live
  | cons e es ih =>
    have hone : letGo live e ⊆ live := by
      cases e with
      | «continue» nvm => exact List.filter_sublist.subset
      | _ => exact List.Subset.refl live
    exact List.Subset.trans (ih (letGo live e)) hone

/-- The stop of a thread wipes what nobody holds. -/
theorem emptied_consistent (h : Consistent s live) {b : Bool} (hb : b = true → live = []) :
    Consistent (if b then emptied s else s) live := by
  cases b with
  | false => exact h
  | true =>
    rw [hb rfl]
    exact consistent_nil nofun

end Consistent

section Steps

variable {t t' : Shown}

theorem frameOf_level {req : Request} {s : Variables.State} {vm stackLevel : ℕ}
    (h : frameOf req s = some (vm,stackLevel)) : stackLevel < 2^32 := by
  unfold frameOf at h
  split at h
  · obtain ⟨-,heq⟩ := Option.ite_none_right_eq_some.mp h
    cases heq
    exact lt_of_le_of_lt (Nat.and_le_right : _ &&& 31 ≤ 31) (by norm_num)
  · cases h

theorem request_consistent {req : Request} {out : Outside} (h : Consistent t.state t.live)
    (hs : Requests.Step t.state (.request req out) t'.state)
    (hc : Separate t (.request req out)) :
    Consistent t'.state (trace t (.request req out) t'.state) := by
  obtain ⟨-,-,hstate⟩ := hs
  have halike := handle_alike out req {t.state with received := t.state.received ++ [req.seq]}
  rw [← hstate] at halike
  have hmade : Consistent
      (match frameOf req {t.state with received := t.state.received ++ [req.seq]} with
        | none => {t.state with received := t.state.received ++ [req.seq]}
        | some (vm,stackLevel) =>
          withScopes {t.state with received := t.state.received ++ [req.seq]} vm stackLevel)
      (t.live ++ match frameOf req t.state with
        | none => []
        | some (vm,stackLevel) => scopeNumbers t.state.variableId vm stackLevel) := by
    have hreceived : Consistent {t.state with received := t.state.received ++ [req.seq]} t.live :=
      consistent_alike h (alike_of_eq rfl rfl rfl)
    have hsame : frameOf req {t.state with received := t.state.received ++ [req.seq]} =
        frameOf req t.state := rfl
    rw [hsame]
    cases hframe : frameOf req t.state with
    | none => simpa using hreceived
    | some p =>
      have hfree := hc (by rw [hframe]; rfl)
      exact scopes_consistent hreceived (frameOf_level hframe) hfree
  have hleft : (match resumed out req t.state with
      | none => t.live
      | some vm => leave t.live vm) ⊆ t.live := by
    cases resumed out req t.state with
    | none => exact List.Subset.refl t.live
    | some vm => exact List.filter_sublist.subset
  apply consistent_subset (consistent_alike hmade halike)
  unfold trace
  dsimp only
  split
  · exact List.nil_subset _
  · exact List.append_subset.mpr ⟨fun e he => List.mem_append_left _ (hleft he),
      List.subset_append_right ..⟩

theorem stop_consistent {nvm hits : ℕ} {event : StopEvent} {a : Adapter} (h : Consistent t.state t.live)
    (hs : Requests.Step t.state (.stop nvm hits event a) t'.state)
    (hc : Separate t (.stop nvm hits event a)) :
    Consistent t'.state (trace t (.stop nvm hits event a) t'.state) := by
  obtain ⟨-,hstate⟩ := hs
  have hleft : Consistent t.state (leave t.live nvm) :=
    consistent_subset h List.filter_sublist.subset
  have hempty : publishes hits (a.handle nvm event) = true → leave t.live nvm = [] := by
    intro hp
    rw [leave, List.filter_eq_nil_iff]
    intro e he
    simpa using hc hp e he
  have hacted := consistent_alike (emptied_consistent hleft hempty)
    (enact_alike nvm hits (a.handle nvm event) t.state)
  rw [hstate]
  exact consistent_subset hacted (letGo_subset _ _)

theorem given_consistent {s : Variables.State} (s' : Variables.State) {live : List (ℤ × Thing)}
    {host : Host} {hits : ℕ} {c : Command} {success : Bool} {result : Bytes} (h : Consistent s live)
    (hp : ∀ p, callback c success result s = some p → publishes hits p = true → live = [])
    (hfits : Fits live c.vm (creations host hits c success result s)) :
    Consistent (answer host hits c success result s).1
      (given host hits c success result s s' live) := by
  have hafter : Consistent (afterwards hits c success result s) live := by
    unfold afterwards
    cases hcall : callback c success result s with
    | none => exact h
    | some p => exact consistent_alike (emptied_consistent h (hp p hcall)) (called_alike hits c p s)
  have hmade := made_all_consistent c.stackLevel _ hafter hfits
  have hanswer := consistent_alike hmade (answer_alike host hits c success result s h.aged)
  refine consistent_subset hanswer (List.append_subset.mpr ⟨fun e he => ?_,?_⟩)
  · exact List.mem_append_left _ (letGo_subset _ _ he)
  · split
    · exact List.subset_append_right ..
    · exact List.nil_subset _

theorem answer_consistent {i hits : ℕ} {success : Bool} {result : Bytes} {host : Host}
    (h : Consistent t.state t.live)
    (hs : Requests.Step t.state (.answer i hits success result host) t'.state)
    (hc : Separate t (.answer i hits success result host)) :
    Consistent t'.state (trace t (.answer i hits success result host) t'.state) := by
  obtain ⟨-,c,hi,hstate⟩ := hs
  obtain ⟨hpublish,hfits,-⟩ := hc c hi
  have hsent : Consistent {t.state with commands := t.state.commands.eraseIdx i} t.live :=
    consistent_alike h (alike_of_eq rfl rfl rfl)
  have hgiven := given_consistent t'.state hsent hpublish hfits
  rw [← hstate] at hgiven
  unfold trace
  dsimp only
  rw [hi]
  exact hgiven

theorem step_consistent (t : Shown) (l : Label) (t' : Shown) (h : Consistent t.state t.live)
    (hs : Step t l t') (hc : Separate t l) : Consistent t'.state t'.live := by
  obtain ⟨hstep,hlive,-⟩ := hs
  rw [hlive]
  cases l with
  | request req out => exact request_consistent h hstep hc
  | stop nvm hits event a => exact stop_consistent h hstep hc
  | answer i hits success result host => exact answer_consistent h hstep hc
  | other =>
    obtain ⟨-,hstate⟩ := hstep
    rw [hstate]
    exact h
  | disconnected out =>
    obtain ⟨-,hstate⟩ := hstep
    have hstopped : Consistent t'.state t.live := by
      rw [hstate]
      exact consistent_alike h (alike_workerStop _ _ _)
    unfold trace
    dsimp only
    split
    · exact hstopped
    · exact consistent_subset hstopped (List.nil_subset _)

/-- A number of the client whose variable fits a command stands for what the command asks. -/
theorem reaches_timely {c : Command} {k : ℤ} {th : Thing} {scope r : ℕ} {v : Variable}
    (h : Consistent t.state t.live) (hc : Timely t c) (hasked : c.asked = .expand scope r)
    (hk : k = r) (he : (k,th) ∈ t.live) (hv : t.state.«variables» k = some v) : Reaches th c := by
  subst hk
  obtain ⟨hvm,hscope,hlevel⟩ := hc scope r v hasked ⟨th,he⟩ hv
  obtain ⟨w,hw,hd⟩ := h.resolved _ th he
  rw [hv] at hw
  cases hw
  have hd := hd 0
  cases th with
  | scope vm stackLevel scope' =>
    obtain ⟨hvm',hlevel',hne,r',hr'⟩ := hd
    have hsame : v.scope.getD 0 = scope' := (Variables.Asked.expand.inj hr').1
    have hscope : scope = scope' := hscope.trans hsame
    refine ⟨hvm.trans hvm',(hlevel (hscope ▸ hne)).trans hlevel',hne,r,?_⟩
    rw [hasked, hscope]
  | table vm reference =>
    obtain ⟨hvm',n,hn,hr'⟩ := hd
    have hsame : v.scope.getD 0 = 0 := (Variables.Asked.expand.inj hr').1
    refine ⟨hvm.trans hvm',r,h.tables _ vm reference he,?_⟩
    rw [hasked, hscope, hsame]

/-- Where nothing is stored, what the client holds keeps its values or has none. -/
theorem answered_unstored {live : List (ℤ × Thing)} {s : Variables.State} (ha : Answered t)
    (hs : Unstored t.state s)
    (hlive : ∀ e ∈ live, e ∈ t.live ∨ ∀ v, s.«variables» e.1 = some v → v.value = none) :
    Answered ⟨s,live,t.origins⟩ := by
  intro e he v hv hvalue
  rcases hlive e he with hold | hnew
  · exact ha e hold v (hs e.1 v hv hvalue) hvalue
  · rw [hnew v hv] at hvalue
    cases hvalue

theorem numbered_mem {vm id : ℕ} {references : List (Option ℤ)} {e : ℤ × Thing}
    (hfits : ∀ reference ∈ references, ∃ n : ℕ, reference = some (n : ℤ) ∧ n < 2^32)
    (he : e ∈ numbered vm id references) : some e.1 ∈ references := by
  induction references generalizing id with
  | nil => cases he
  | cons reference references ih =>
    obtain ⟨⟨n,rfl,-⟩,hrest⟩ := List.forall_mem_cons.mp hfits
    rcases List.mem_cons.mp he with rfl | he
    · exact List.mem_cons_self
    · exact List.mem_cons_of_mem _ (ih hrest he)

theorem withScopes_variables (s : Variables.State) (vm stackLevel : ℕ) :
    (withScopes s vm stackLevel).«variables» = Function.update
      (Function.update s.«variables» (counted (s.variableId+1))
        (some ⟨s.objects,some 1,vm,stackLevel,counted (s.variableId+1),none⟩))
      (counted (s.variableId+2))
      (some ⟨s.objects+1,some 2,vm,stackLevel,counted (s.variableId+2),none⟩) := rfl

/-- The variables of scopes are new objects. -/
theorem scopes_fresh (s : Variables.State) (vm stackLevel : ℕ) {e : ℤ × Thing}
    (he : e ∈ scopeNumbers s.variableId vm stackLevel) :
    ∃ w, (withScopes s vm stackLevel).«variables» e.1 = some w ∧ s.objects ≤ w.object := by
  rw [withScopes_variables]
  rcases List.mem_cons.mp he with rfl | he
  · rw [Function.update_of_ne (counted_lt _).ne, Function.update_self]
    exact ⟨_,rfl,le_rfl⟩
  · obtain rfl := List.mem_singleton.mp he
    rw [Function.update_self]
    exact ⟨_,rfl,Nat.le_succ _⟩

/-- What a step has created has no value. -/
theorem fresh_none {s u s' : Variables.State} {k : ℤ} {v : Variable} (hs : Aged s)
    (hold : s'.«variables» k = some v → v.value.isSome = true → s.«variables» k = some v)
    (halike : Alike u s') (hnew : ∃ w, u.«variables» k = some w ∧ s.objects ≤ w.object)
    (hv : s'.«variables» k = some v) : v.value = none := by
  cases hvalue : v.value with
  | none => rfl
  | some values =>
    obtain ⟨w,hw,ho⟩ := hnew
    have hlt := hs k v (hold hv (by rw [hvalue]; rfl))
    have hk := halike.«variables» k
    rw [hv, hw] at hk
    have hobject := congrArg Variable.object (Option.some.inj hk)
    change v.object = w.object at hobject
    omega

theorem request_answered {req : Request} {out : Outside} {s' : Variables.State}
    (h : Consistent t.state t.live) (ha : Answered t)
    (hs : Requests.Step t.state (.request req out) s') :
    Answered ⟨s',trace t (.request req out) s',t.origins⟩ := by
  obtain ⟨-,-,rfl⟩ := hs
  have hunstored : Unstored t.state
      (handle out req {t.state with received := t.state.received ++ [req.seq]}) :=
    unstored_handle out req _
  have halike := handle_alike out req {t.state with received := t.state.received ++ [req.seq]}
  refine answered_unstored ha hunstored fun e he => ?_
  unfold trace at he
  dsimp only at he
  split at he
  · cases he
  · rcases List.mem_append.mp he with he | he
    · refine .inl ?_
      cases hr : resumed out req t.state with
      | none =>
        rw [hr] at he
        exact he
      | some vm =>
        rw [hr] at he
        exact (List.mem_filter.mp he).1
    · have hsame : frameOf req {t.state with received := t.state.received ++ [req.seq]} =
          frameOf req t.state := rfl
      rw [hsame] at halike
      cases hframe : frameOf req t.state with
      | none =>
        rw [hframe] at he
        cases he
      | some p =>
        obtain ⟨vm,stackLevel⟩ := p
        rw [hframe] at he halike
        refine .inr fun v hv => fresh_none h.aged (hunstored e.1 v) halike ?_ hv
        exact scopes_fresh {t.state with received := t.state.received ++ [req.seq]} vm stackLevel he

theorem stop_answered {nvm hits : ℕ} {event : StopEvent} {a : Adapter} {s' : Variables.State}
    (ha : Answered t) (hs : Requests.Step t.state (.stop nvm hits event a) s') :
    Answered ⟨s',trace t (.stop nvm hits event a) s',t.origins⟩ := by
  obtain ⟨-,rfl⟩ := hs
  refine answered_unstored ha (unstored_enact nvm hits _ t.state) fun e he => .inl ?_
  exact (List.mem_filter.mp (letGo_subset _ _ he)).1

theorem afterwards_objects (hits : ℕ) (c : Command) (success : Bool) (result : Bytes)
    (s : Variables.State) : (afterwards hits c success result s).objects = s.objects := by
  unfold afterwards
  cases callback c success result s with
  | none => rfl
  | some p =>
    apply (called_alike hits c p s).objects.trans
    split <;> rfl

/-- The references that an answer gives have no values yet. -/
theorem given_answered {s s' s'' : Variables.State} {live : List (ℤ × Thing)} {host : Host} {hits : ℕ}
    {c : Command} {success : Bool} {result : Bytes} (h : Aged s)
    (hs : s' = (answer host hits c success result s).1)
    (hfits : Fits live c.vm (creations host hits c success result s)) {e : ℤ × Thing}
    (he : e ∈ given host hits c success result s s'' live) :
    e ∈ live ∨ ∀ v, s'.«variables» e.1 = some v → v.value = none := by
  rcases List.mem_append.mp he with he | he
  · exact .inl (letGo_subset _ _ he)
  · refine .inr fun v hv => ?_
    split at he
    · have hmem := numbered_mem (fun reference hr => by
        obtain ⟨n,hn,hlt,-⟩ := hfits reference hr
        exact ⟨n,hn,hlt⟩) he
      obtain ⟨w,hw,ho⟩ := made_fresh c.vm c.stackLevel hmem (afterwards hits c success result s)
      rw [afterwards_objects] at ho
      subst hs
      cases hvalue : v.value with
      | none => rfl
      | some values =>
        have hk := (answer_alike host hits c success result s h).«variables» e.1
        rw [hv, hw] at hk
        have hobject := congrArg Variable.object (Option.some.inj hk)
        change v.object = w.object at hobject
        rcases answer_stored host hits c success result s hv (by rw [hvalue]; rfl) with
          hold | ⟨-,-,-,u,hu,hsame⟩
        · have := h e.1 v hold
          omega
        · have := h e.1 u hu
          omega
    · cases he

theorem answer_answered {i hits : ℕ} {success : Bool} {result : Bytes} {host : Host}
    {s' : Variables.State} (h : Consistent t.state t.live) (ha : Answered t)
    (hs : Requests.Step t.state (.answer i hits success result host) s')
    (hc : Separate t (.answer i hits success result host)) :
    Answered ⟨s',trace t (.answer i hits success result host) s',
      originsAfter t (.answer i hits success result host) s'⟩ := by
  obtain ⟨-,c,hi,hstate⟩ := hs
  obtain ⟨-,hfits,htimely⟩ := hc c hi
  intro e he v hv hvalue
  simp only [trace, hi] at he
  rcases given_answered (s := {t.state with commands := t.state.commands.eraseIdx i}) h.aged hstate
    hfits he with hmem | hnone
  · -- the reply is stored under the number, or the values were there before
    have hreaches {scope r : ℕ} (hasked : c.asked = .expand scope r) (hk : e.1 = r)
        (hsuccess : success = true) {w : Variable} (hw : t.state.«variables» e.1 = some w) :
        Reaches e.2 c := reaches_timely h (htimely hsuccess) hasked hk hmem hw
    subst hstate
    have hstored := answer_stored host hits c success result _ hv hvalue
    simp only [originsAfter, hi]
    cases hasked : c.asked with
    | evaluate =>
      rcases hstored with hold | ⟨⟨scope,r,hexpand,-⟩,-⟩
      · exact ha e hmem v hold hvalue
      · rw [hasked] at hexpand
        cases hexpand
    | expand scope r =>
      dsimp only
      split
      · next hshown =>
        by_cases hk : e.1 = r
        · obtain ⟨w,hw⟩ : ∃ w, t.state.«variables» e.1 = some w := by
            rcases hstored with hold | ⟨-,-,-,w,hw,-⟩
            · exact ⟨v,hold⟩
            · exact ⟨w,hw⟩
          refine ⟨c,?_,hreaches hasked hk (shown_success hasked hshown) hw⟩
          rw [hk, Function.update_self]
        · rw [Function.update_of_ne hk]
          rcases hstored with hold | ⟨⟨scope',r',hexpand,hk'⟩,-⟩
          · exact ha e hmem v hold hvalue
          · rw [hasked] at hexpand
            cases hexpand
            exact absurd hk' hk
      · next hshown =>
        rcases hstored with hold | ⟨-,-,hresponses,-⟩
        · exact ha e hmem v hold hvalue
        · exact absurd hresponses hshown
  · rw [hnone v hv] at hvalue
    cases hvalue

theorem step_answered (t : Shown) (l : Label) (t' : Shown) (h : Consistent t.state t.live)
    (ha : Answered t) (hs : Step t l t') (hc : Separate t l) : Answered t' := by
  obtain ⟨s',live',origins'⟩ := t'
  obtain ⟨hstep,hlive,horigins⟩ := hs
  dsimp only at hstep hlive horigins
  subst hlive horigins
  cases l with
  | request req out => exact request_answered h ha hstep
  | stop nvm hits event a => exact stop_answered ha hstep
  | answer i hits success result host => exact answer_answered h ha hstep hc
  | other =>
    obtain ⟨-,rfl⟩ := hstep
    exact ha
  | disconnected out =>
    obtain ⟨-,rfl⟩ := hstep
    refine answered_unstored ha (unstored_workerStop _ _ _) fun e he => .inl ?_
    unfold trace at he
    dsimp only at he
    split at he
    · exact he
    · cases he

theorem faithful_along (ls : List Label) (h : Meets Step Separate initial ls) :
    Along Step Faithful initial ls := by
  have hconsistent : Consistent initial.state initial.live :=
    consistent_nil fun _ _ hv => nomatch (show none = some _ from hv)
  exact along_of_meets (I := fun t => Consistent t.state t.live ∧ Answered t)
    (fun _ h => consistent_faithful h.1 h.2)
    (fun t l t' h hs hc => ⟨step_consistent t l t' h.1 hs hc,step_answered t l t' h.1 h.2 hs hc⟩)
    initial ls ⟨hconsistent,fun _ he => absurd he List.not_mem_nil⟩ h

def next (t : Shown) (l : Label) : Option Shown :=
  (Requests.perform t.state l).map (fun s' => ⟨s',trace t l s',originsAfter t l s'⟩)

theorem step_iff_next {l : Label} : Step t l t' ↔ next t l = some t' := by
  unfold Step next
  rw [Requests.step_iff_perform, Option.map_eq_some_iff]
  constructor
  · rintro ⟨hs,hlive,horigins⟩
    exact ⟨t'.state,hs,by rw [← hlive, ← horigins]⟩
  · rintro ⟨s',hs,rfl⟩
    exact ⟨hs,rfl,rfl⟩

theorem live_after {a b : Label} {u v : Shown} {live : List (ℤ × Thing)} (ha : next t a = some u)
    (hb : next u b = some v) (h : ((next t a).bind (next · b)).map Shown.live = some live) :
    v.live = live := by
  rw [ha, Option.bind_some, hb] at h
  exact Option.some.inj h

def anywhere : Adapter := ⟨fun _ => none,fun _ => none⟩

/-- A reply without tables that comes in while its variable is still the one it was asked for. -/
theorem separate_reply {i hits scope r : ℕ} {success : Bool} {result : Bytes} {host : Host}
    {c : Command} {v : Variable} (hi : t.state.commands[i]? = some c)
    (hasked : c.asked = .expand scope r) (hv : t.state.«variables» r = some v)
    (hcreations : creations host hits c success result
      {t.state with commands := t.state.commands.eraseIdx i} = [])
    (hvm : c.vm = v.vm) (hscope : scope = v.scope.getD 0)
    (hlevel : c.stackLevel = Variables.wire v.stackLevel) :
    Separate t (.answer i hits success result host) := by
  intro c' hi'
  obtain rfl := Option.some.inj (hi.symm.trans hi')
  refine ⟨fun p hp => ?_,?_,fun _ scope' r' v' hasked' _ hv' => ?_⟩
  · unfold callback at hp
    rw [hasked] at hp
    cases hparse : EventStream.parseEvaluateResult (some success) (some result) <;>
      rw [hparse] at hp <;> cases hp
  · rw [hcreations]
    exact nofun
  · rw [hasked] at hasked'
    cases hasked'
    obtain rfl := Option.some.inj (hv.symm.trans hv')
    exact ⟨hvm,hscope,fun _ => hlevel⟩

def tableOne : Label :=
  .answer 0 0 true (text "<table reference=\"1\"><type>table</type></table>") nowhere

def alternating : List Label :=
  [.request (onTop 1 .launch 0) calm,.stop 4 0 (breakAt 2 4) anywhere,.request (onTop 2 .scopes 4) calm,
   .request ⟨3,.«variables»,some ⟨some 65536,none,.ok [],.ok 4,false⟩⟩ calm,tableOne,
   .request (onTop 4 .continue 4) calm,.stop 8 0 (breakAt 2 4) anywhere]

theorem faithful_along_alternating : Along Step Faithful initial alternating := by
  apply faithful_along alternating
  rintro t1 h1
  cases step_iff_next.mp h1
  refine ⟨nofun,?_⟩
  rintro t2 h2
  cases step_iff_next.mp h2
  refine ⟨fun _ => nofun,?_⟩
  rintro t3 h3
  cases step_iff_next.mp h3
  refine ⟨fun _ _ _ _ => nofun,?_⟩
  rintro t4 h4
  cases step_iff_next.mp h4
  refine ⟨nofun,?_⟩
  rintro t5 h5
  refine ⟨separate_reply (c := ⟨some 3,.expand 1 65536,3,4,0⟩) (v := ⟨0,some 1,4,0,65536,none⟩)
    (by decide +kernel) rfl (by decide +kernel) (by decide +kernel) rfl rfl rfl,?_⟩
  rintro t6 h6
  refine ⟨nofun,?_⟩
  rintro t7 -
  have hlive : t6.live = [] :=
    live_after (step_iff_next.mp h5) (step_iff_next.mp h6) (by decide +kernel)
  refine ⟨fun _ e he => ?_,trivial⟩
  rw [hlive] at he
  cases he

def overlapping : List Label :=
  [.request (onTop 1 .launch 0) calm,.stop 4 0 (breakAt 2 4) anywhere,.stop 8 0 (breakAt 2 4) anywhere,
   .request (onTop 2 .evaluate 4) calm,.request (onTop 3 .evaluate 8) calm,tableOne,tableOne]

theorem overlapping_runs : (overlapping.foldlM next initial).isSome = true := by decide +kernel

theorem overlapping_not_faithful : ¬ Along Step Faithful initial overlapping := by
  intro h
  have hend := along_runs h (runs_of_foldlM (Option.some_get overlapping_runs).symm
    (fun l _ t t' ht => step_iff_next.mpr ht))
  exact absurd hend.distinct (by decide +kernel)

end Steps

end Vecoda.References
