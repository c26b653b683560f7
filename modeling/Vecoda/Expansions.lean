import Vecoda.PrintedChains

/-!
# Expansions and the stack

ExpandTable leaves the stack as it was for the variables and the globals of a
frame, when the level exists and everything it comes to can be printed. For a
reference it leaves the table of the references and the value that was found,
so that expansions use up the stack of the program that is stopped.
-/

set_option autoImplicit false

namespace Vecoda.Expansions
open LuaApi ValueText FrameTables ExpandProgram Worklist PrintedCalls PrintedChains
open TableDocument (TiXmlElement)

variable {σ : Type} (p : Printer σ)

def scopeJobs (h : ℕ) (scope : Scope) (level : ℤ) (w : σ) : List Job × σ :=
  let f := p.lua.frameFunction w level
  match scope with
  | .«local» => ([.loop (.locals level) (h+1) (p.lua.locals w level).length 0],w)
  | .upvalue => ([.loop (.upvalues f) (h+2) (p.lua.upvalues w f).length 0],w)
  | .global => ([.value true ⟨h+1,2,none,false,(environmentOf p.lua f w).1⟩],(environmentOf p.lua f w).2)
  | .none => ([.value true ⟨h+1,2,none,false,(environmentOf p.lua f w).1⟩],(environmentOf p.lua f w).2)

section Scopes

variable {p}

theorem child_special (r : Outcome σ (List (Option TiXmlElement))) :
    (child (specialShown r)).map Prod.snd = r.map Prod.snd := by
  cases r <;> rfl

theorem child_printed (r : Outcome σ (Option TiXmlElement)) : (child r).map Prod.snd = printed true r :=
  map_bind_snd _ (fun node => [node])

theorem scopeShown_run (fuel h : ℕ) (scope : Scope) (level : ℤ) (w : σ) :
    (child (scopeShown p (valueShown p fuel) h level w scope)).map Prod.snd =
      runAll (run p) fuel (scopeJobs p h scope level w).1 (scopeJobs p h scope level w).2 := by
  cases scope with
  | none =>
    dsimp only [scopeJobs]
    rw [runAll_one]
    exact child_printed _
  | global =>
    dsimp only [scopeJobs]
    rw [runAll_one]
    exact child_printed _
  | «local» =>
    dsimp only [scopeJobs]
    rw [runAll_one]
    exact child_special _
  | upvalue =>
    dsimp only [scopeJobs]
    rw [runAll_one]
    exact child_special _

theorem scope_shown_iff (h : ℕ) (scope : Scope) (level : ℤ) (w : σ) :
    (∃ fuel r, child (scopeShown p (valueShown p fuel) h level w scope) = .ok r) ↔
      Passable p (scopeJobs p h scope level w).1 (scopeJobs p h scope level w).2 :=
  shown_ok_iff (fun fuel => scopeShown_run fuel h scope level w)

theorem leftover_nil_iff (scope : Scope) (reference : ℤ) (w : σ) :
    leftover p scope reference w = [] ↔ scope ≠ .none := by
  unfold leftover
  split
  case isTrue hs => exact ⟨nofun,fun h => absurd hs h⟩
  case isFalse hs => exact ⟨fun _ => hs,fun _ => rfl⟩

theorem expanded_ok_iff (h : ℕ) {scope : Scope} (hs : scope ≠ .none) (level reference : ℤ) (w : σ) :
    (∃ fuel r, expanded p fuel h scope level reference w = .ok r) ↔
      p.lua.getstack w level = true ∧
        Passable p (scopeJobs p h scope level w).1 (scopeJobs p h scope level w).2 := by
  rw [← scope_shown_iff]
  by_cases hlevel : p.lua.getstack w level = true
  · rw [and_iff_right hlevel]
    refine exists_congr (fun fuel => ?_)
    rw [expanded, if_neg hs, specialNodeShown, if_pos hlevel]
  · constructor
    · rintro ⟨fuel,r,hr⟩
      rw [expanded, if_neg hs, specialNodeShown, if_neg hlevel] at hr
      cases hr
    · exact fun h => absurd h.1 hlevel

/-- One expansion leaves the stack as it was. -/
theorem restores_iff (s : List Value) (scope : Scope) (level reference : ℤ) (w : σ) :
    (∃ fuel document u, expandTable p fuel scope level reference ⟨s,w⟩ = .ok (document,⟨s,u⟩)) ↔
      scope ≠ .none ∧ p.lua.getstack w level = true ∧
        Passable p (scopeJobs p s.length scope level w).1 (scopeJobs p s.length scope level w).2 := by
  constructor
  · rintro ⟨fuel,document,u,h⟩
    rw [expandTable_apply, leaving_eq_ok] at h
    obtain ⟨x,hx,hstack⟩ := h
    have hleft : leftover p scope reference w = [] := by
      have := congrArg State.stack hstack
      exact List.self_eq_append_right.mp this
    have hs := (leftover_nil_iff scope reference w).mp hleft
    exact ⟨hs,(expanded_ok_iff s.length hs level reference w).mp ⟨fuel,_,hx⟩⟩
  · rintro ⟨hs,hpass⟩
    obtain ⟨fuel,r,hr⟩ := (expanded_ok_iff s.length hs level reference w).mpr hpass
    refine ⟨fuel,r.1,r.2,?_⟩
    rw [expandTable_apply, hr, (leftover_nil_iff scope reference w).mpr hs, List.append_nil]
    rfl

end Scopes

section Requests

structure Request where
  scope : Scope
  stackLevel : ℤ
  reference : ℤ

def expansions (fuel : ℕ) : List Request → Printing σ (List (List TiXmlElement))
  | [] => return []
  | r::requests => do
    let document ← expandTable p fuel r.scope r.stackLevel r.reference
    let documents ← expansions fuel requests
    return document::documents

variable {p}

theorem expansions_leave (fuel : ℕ) (requests : List Request) (s : List Value) (w : σ)
    {documents : List (List TiXmlElement)} {t : State σ}
    (h : expansions p fuel requests ⟨s,w⟩ = .ok (documents,t)) :
    ∃ us, t.stack = s ++ us ∧ (us = [] ↔ ∀ r ∈ requests, r.scope ≠ .none) := by
  induction requests generalizing s w documents with
  | nil =>
    cases h
    exact ⟨[],(List.append_nil s).symm,by simp⟩
  | cons r requests ih =>
    rw [expansions, bind_apply, expandTable_apply, leaving_bind] at h
    cases hd : expanded p fuel s.length r.scope r.stackLevel r.reference w with
    | error x =>
      rw [hd] at h
      cases h
    | ok d =>
      rw [hd, ok_bind, bind_apply] at h
      cases hrest : expansions p fuel requests ⟨s ++ leftover p r.scope r.reference w,d.2⟩ with
      | error x =>
        rw [hrest] at h
        cases h
      | ok rest =>
        rw [hrest] at h
        cases h
        obtain ⟨us,hstack,hus⟩ := ih _ _ hrest
        refine ⟨leftover p r.scope r.reference w ++ us,by rw [hstack, List.append_assoc],?_⟩
        rw [List.append_eq_nil_iff, leftover_nil_iff, hus, List.forall_mem_cons]

variable (p)

end Requests

end Vecoda.Expansions
