import Vecoda.PrintedChains

/-!
# Whether a printing ends

Tables, whatever cycles they form, are printed to an end as long as nothing is
put into them meanwhile: the depth goes down with them. A userdata is printed as
the last result of its `__towatch` at the depth it has, so that the printing of
one whose `__towatch` leads back to it goes on for as long as there is space on
the stack. Where a metamethod adds a field to the table that is being printed,
its printing goes on with that field.
-/

set_option autoImplicit false

namespace Vecoda.PrintingEnds
open LuaApi ValueText Worklist PrintedCalls PrintedChains
open LuaText (text)

section Ends

variable {σ : Type} (p : Printer σ)

def callOf (s : List Value) (n maxDepth : ℤ) (typeNameOverride : Option MessagePipe.Bytes)
    (displayAsKey : Bool) : Call := ⟨s.length,maxDepth,typeNameOverride,displayAsKey,value s n⟩

theorem endless_iff_run (fuel : ℕ) (s : List Value) (n maxDepth : ℤ)
    (typeNameOverride : Option MessagePipe.Bytes) (displayAsKey : Bool) (w : σ) :
    getValueAsText p fuel n maxDepth typeNameOverride displayAsKey ⟨s,w⟩ = .error .endless ↔
      runAll (run p) fuel [.value false (callOf s n maxDepth typeNameOverride displayAsKey)] w =
        .error .endless := by
  rw [getValueAsText_apply fuel s n, leaving_eq_error, runAll_one, run, printed, if_neg Bool.false_ne_true,
    map_eq_error]
  rfl

/-- The printing of a value ends exactly when the chains of `__towatch` and the traversals of tables
it comes to end. -/
theorem printing_ends_iff (s : List Value) (n maxDepth : ℤ) (typeNameOverride : Option MessagePipe.Bytes)
    (displayAsKey : Bool) (w : σ) :
    (∃ fuel, getValueAsText p fuel n maxDepth typeNameOverride displayAsKey ⟨s,w⟩ ≠ .error .endless) ↔
      Chained p [.value false (callOf s n maxDepth typeNameOverride displayAsKey)] w := by
  rw [← gives_iff_chained]
  constructor
  · rintro ⟨fuel,h⟩
    exact ⟨_,fun he => h ((endless_iff_run ..).mpr he),fuel,rfl⟩
  · rintro ⟨r,hr,fuel,rfl⟩
    exact ⟨fuel,fun he => hr ((endless_iff_run ..).mp he)⟩

end Ends

section Counterexample

def numbers (first count : ℕ) : List Value := (List.range' first count).map (fun i : ℕ => .integer i)

/-- The table has the userdata under each number up to the world's, and the `__tostring` of the
userdata puts it under the next. -/
def appendingLua : Lua ℕ := {Lua.idle ℕ with
  checkstack := fun _ h n => decide (h+n ≤ 1000000)
  keys := fun w t => if t = .table 0 then numbers 1 w else []
  keys_nodup := fun w t => by
    split
    · exact (List.nodup_range' 1 Nat.one_pos).map (fun i j h => Int.ofNat.inj (Value.integer.inj h))
    · exact List.nodup_nil
  nil_not_key := fun w t => by
    split
    · simp [numbers]
    · exact List.not_mem_nil
  rawget := fun w t k => if t = .table 0 ∧ k ∈ numbers 1 w then .userdata 0 else .nil
  getmetatable := fun _ v => if v = .userdata 0 then some 1 else none
  gettable := fun w _ k => .ok (if k = .string (text "__tostring") then .function 0 else .nil,w)
  call := fun w _ _ => (.returns [.string []],w+1)}

def appending : Printer ℕ := bare appendingLua

theorem numbers_split (i m : ℕ) :
    numbers 1 (i+(m+1)) = numbers 1 i ++ .integer (i+1 : ℕ)::numbers (i+2) m := by
  rw [numbers, ← List.range'_append_1, List.map_append, Nat.add_comm 1 i, List.range'_succ]
  rfl

/-- The printing of a field adds one. -/
theorem appended_field (i w : ℕ) : Finishes (step appending) (fieldJobs 2 1 (.integer i) (.userdata 0)) w (w+1) := by
  apply reaches_head (r := ([],w)) rfl
  exact reaches_head (r := ([],w+1)) rfl .refl

theorem appending_traverses (n m : ℕ) {i : ℕ} {key : Value}
    (hkey : after key (numbers 1 (i+(m+1))) = some (numbers (i+1) (m+1))) :
    Traverses appending 2 1 (.table 0) n key (i+(m+1)) := by
  induction n generalizing i key with
  | zero => trivial
  | succ n ih =>
    have hmem : Value.integer (i+1 : ℕ) ∈ numbers 1 (i+(m+1)) := by
      rw [numbers_split]
      simp
    have hget : appendingLua.rawget (i+(m+1)) (.table 0) (.integer (i+1 : ℕ)) = .userdata 0 :=
      if_pos ⟨rfl,hmem⟩
    have hnext : appendingLua.next (i+(m+1)) (.table 0) key = some (some (.integer (i+1 : ℕ))) := by
      change (after key (numbers 1 (i+(m+1)))).map _ = _
      rw [hkey, Option.map_some, numbers, List.range'_succ, List.map_cons, List.find?_cons_of_pos]
      rw [hget]
      decide
    refine ⟨.integer (i+1 : ℕ),i+(m+1)+1,hnext,?_,?_⟩
    · have := appended_field (i+1) (i+(m+1))
      rwa [← hget] at this
    · have hw : i+(m+1)+1 = i+1+(m+1) := by omega
      rw [hw]
      have hsplit : appendingLua.keys (i+1+(m+1)) (.table 0) =
          numbers 1 i ++ .integer (i+1 : ℕ)::numbers (i+2) (m+1) := by
        change numbers 1 (i+1+(m+1)) = _
        rw [← hw, Nat.add_assoc, numbers_split]
      exact ih (after_found hsplit)

/-- Every userdata has a `__towatch` that returns it, and the stack has room for `limit` values. -/
def selfWatching (limit : ℕ) : Printer Unit := bare {Lua.idle Unit with
  checkstack := fun _ h n => decide (h+n ≤ limit)
  getmetatable := fun _ _ => some 0
  gettable := fun w _ _ => .ok (.function 0,w)
  call := fun w _ args => (.returns args,w)}

theorem selfWatching_onward {limit : ℕ} {c : Call} (hc : c.value = .userdata 0) (hl : c.height+4 ≤ limit) :
    ∃ next : Call, onward (selfWatching limit) c () = some (next,()) ∧ next.value = .userdata 0 ∧
      next.height = c.height+2 := by
  obtain ⟨height,maxDepth,typeNameOverride,displayAsKey,v⟩ := c
  cases hc
  dsimp only at hl
  have hone : (selfWatching limit).lua.checkstack () height 1 = true := decide_eq_true (by omega)
  have hthree : (selfWatching limit).lua.checkstack () (height+1) 3 = true := decide_eq_true (by omega)
  have hcall : metaMethod (selfWatching limit) (height+1) (.userdata 0) (text "__towatch") none () =
      .ok (some (.returns [.userdata 0]),()) := by
    rw [metaMethod, if_pos hthree]
    rfl
  rw [onward, if_pos hone]
  dsimp only
  rw [turn_returned hcall]
  exact ⟨_,rfl,rfl,rfl⟩

theorem selfWatching_chain {limit : ℕ} (n : ℕ) {c : Call} (hc : c.value = .userdata 0)
    (hl : c.height+2*n+2 ≤ limit) : chain (selfWatching limit) n c () ≠ none := by
  induction n generalizing c with
  | zero =>
    intro h
    cases h
  | succ n ih =>
    have hroom : c.height+4 ≤ limit := by omega
    obtain ⟨next,hnext,hvalue,hheight⟩ := selfWatching_onward hc hroom
    rw [chain, hnext]
    exact ih hvalue (by dsimp only; omega)

/-- A table to which the `__tostring` of its fields adds another is printed for ever, and for a
userdata that is watched by itself as many calls are open at once as there is space for values. -/
theorem printed_for_ever :
    (¬ ∃ fuel, getValueAsText appending fuel (-1) 2 none false ⟨[.table 0],1⟩ ≠ .error .endless) ∧
      ∀ limit fuel, 2*fuel+3 ≤ limit →
        getValueAsText (selfWatching limit) fuel (-1) 1 none false ⟨[.userdata 0],()⟩ = .error .endless := by
  constructor
  · rintro ⟨fuel,h⟩
    refine h ((endless_iff_run ..).mpr ?_)
    cases fuel with
    | zero => rfl
    | succ fuel =>
      have hstep : step appending (.value false (callOf [.table 0] (-1) 2 none false)) 1 =
          some (tableJobs 2 1 (.table 0),1) := rfl
      rw [runAll_one, run_value hstep]
      dsimp only [tableJobs]
      rw [if_pos (by decide), List.singleton_append, runAll, run,
        fields_endless (appending_traverses fuel 0 (i := 0) rfl)]
      rfl
  · intro limit fuel hl
    apply (endless_iff_run ..).mpr
    rw [runAll_one]
    exact run_endless (selfWatching_chain fuel rfl (by change 1+2*fuel+2 ≤ limit; omega)) false

end Counterexample

end Vecoda.PrintingEnds
