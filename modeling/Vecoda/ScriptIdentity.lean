import Vecoda.Backend
import Vecoda.Transitions

/-!
# The identity of a script

RegisterScript takes two names for one script if their file titles and sources
agree. A chunk whose source is unavailable has the empty source, so that two
such chunks are told apart by their titles only. Beside the backend stands the
source that was available when each name was registered.
-/

set_option autoImplicit false

namespace Vecoda.ScriptIdentity
open MessagePipe (Bytes)
open LuaText Backend Transitions

/-- `load` is PostLoadScript; `hook` is RegisterScript from a hook, which knows
the name of the chunk alone. -/
inductive Call where
  | load (L : LuaState) (source name : Option Bytes)
  | hook (L : LuaState) (ar : LuaDebug)
  deriving DecidableEq, Repr

def Call.vm : Call → LuaState
  | .load L _ _ => L
  | .hook L _ => L

def Call.name : Call → Bytes
  | .load _ source name => name.getD (cstr (source.getD []))
  | .hook _ ar => ar.source

/-- The source text the call has; the name of a chunk is its text unless it begins with @. -/
def Call.available : Call → Option Bytes
  | .load _ source _ => some (source.getD [])
  | .hook _ ar => if (text "@").isPrefixOf ar.source then none else some ar.source

def Call.code (c : Call) : Bytes := c.available.getD []

def perform (b : DebugBackend) : Call → DebugBackend
  | .load L source name => (b.registerScript L source name false).1
  | .hook L ar => b.registerHooked L ar

structure Registry where
  backend : DebugBackend
  sources : List (Bytes × Option Bytes)

def register (r : Registry) (c : Call) : Registry :=
  {backend := perform r.backend c,
   sources := if (r.backend.getScriptIndex c.name).isSome then r.sources
     else r.sources ++ [(c.name,c.available)]}

def Step (r : Registry) (c : Call) (r' : Registry) : Prop := r' = register r c

def initial : Registry := ⟨DebugBackend.initial,[]⟩

def loads (reports : List Report) : List (Bytes × Bytes × CodeState) :=
  reports.filterMap (fun
    | .loadScript _ fileName source state => some (fileName,source,state)
    | _ => none)

def announcement (s : Script) : Bytes × Bytes × CodeState := (s.name,s.source,s.state)

/-- Names of one index have their title and an available source in common, and each
index has its own LoadScript event. -/
structure Distinct (r : Registry) : Prop where
  names : ∀ name name' i, r.backend.getScriptIndex name = some i →
    r.backend.getScriptIndex name' = some i → name ≠ name' →
    DebugBackend.getFileTitle name = DebugBackend.getFileTitle name' ∧
    ∃ code, r.sources.lookup name = some (some code) ∧ r.sources.lookup name' = some (some code)
  announced : loads r.backend.reports = r.backend.scripts.map announcement
  indices : ∀ name i, r.backend.getScriptIndex name = some i → i < r.backend.scripts.length

def sameScript (b : DebugBackend) (c : Call) : Option Script :=
  if (b.getScriptIndex c.name).isSome then none
  else b.scripts.find? (fun s => s.title = DebugBackend.getFileTitle c.name && s.source = c.code)

/-- A new name is taken for another one only if both have a source to compare. -/
def Compared (r : Registry) (c : Call) : Prop :=
  ∀ s, sameScript r.backend c = some s → s.state ≠ .unavailable ∧ c.available.isSome = true

section Spec

variable {b : DebugBackend}

inductive Registers (b : DebugBackend) (L : LuaState) (key code : Bytes) (unavailable : Bool) :
    DebugBackend → Prop where
  | known : (b.getScriptIndex key).isSome = true → Registers b L key code unavailable b
  | same (i : ℕ) (s : Script) : b.getScriptIndex key = none → b.scripts[i]? = some s →
      b.scripts.find? (fun s => s.title = DebugBackend.getFileTitle key && s.source = code) = some s →
      Registers b L key code unavailable {b with nameToScript := b.nameToScript ++ [(key,i)]}
  | new (s : Script) : b.getScriptIndex key = none →
      b.scripts.find? (fun s => s.title = DebugBackend.getFileTitle key && s.source = code) = none →
      s.title = DebugBackend.getFileTitle key → s.source = code →
      (code = [] → (s.state = .unavailable ↔ unavailable = true)) →
      (unavailable = false → s.state ≠ .unavailable) →
      Registers b L key code unavailable
        (DebugBackend.report {b with scripts := b.scripts ++ [s],
                                     nameToScript := b.nameToScript ++ [(key,b.scripts.length)]}
          (.loadScript L s.name s.source s.state))

theorem registerScript_registers (L : LuaState) (source name : Option Bytes) (unavailable : Bool) :
    Registers b L (name.getD (cstr (source.getD []))) (source.getD []) unavailable
      (b.registerScript L source name unavailable).1 := by
  unfold DebugBackend.registerScript
  dsimp only
  split
  · rename_i hknown
    exact .known hknown
  · rename_i hknown
    rw [Option.not_isSome_iff_eq_none] at hknown
    split
    · rename_i i hi
      obtain ⟨hlt,hmatch,hfirst⟩ := List.findIdx?_eq_some_iff_getElem.mp hi
      refine .same i b.scripts[i] hknown (List.getElem?_eq_getElem hlt) ?_
      have hnone (j : ℕ) (hj : j < i) := Bool.eq_false_iff.mpr (hfirst j hj)
      exact List.find?_eq_some_iff_getElem.mpr ⟨hmatch,i,hlt,rfl,fun j hj => by rw [hnone j hj]; rfl⟩
    · rename_i hi
      refine .new _ hknown ?_ rfl rfl ?_ ?_
      · rw [List.find?_eq_none]
        exact fun s hs => by simpa using List.findIdx?_eq_none_iff.mp hi s hs
      · intro hcode
        rw [hcode]
        cases unavailable <;> simp [DebugBackend.isBinary]
      · rintro rfl
        dsimp only
        split <;> simp

theorem register_registers (c : Call) :
    Registers b c.vm c.name c.code c.available.isNone (perform b c) := by
  cases c with
  | load L source name => exact registerScript_registers L source name false
  | hook L ar =>
    rw [perform, DebugBackend.registerHooked]
    split
    · rename_i hknown
      exact .known hknown
    · have h := registerScript_registers (b := b) L (Call.hook L ar).available (some ar.source)
        (Call.hook L ar).available.isNone
      cases hat : (text "@").isPrefixOf ar.source <;>
        simpa [Call.available, Call.code, Call.name, Call.vm, hat] using h

end Spec

theorem lookup_snoc {β : Type} (entries : List (Bytes × β)) (key name : Bytes) (v : β)
    (h : entries.lookup key = none) :
    (entries ++ [(key,v)]).lookup name = if name = key then some v else entries.lookup name := by
  rw [List.lookup_append]
  by_cases hname : name = key
  · subst hname
    simp [h]
  · have hne : (name == key) = false := by simpa using hname
    simp [List.lookup_cons, hne, hname]

structure Recorded (r : Registry) (name : Bytes) (i : ℕ) (source : Option Bytes) (s : Script) :
    Prop where
  found : r.backend.scripts[i]? = some s
  title : s.title = DebugBackend.getFileTitle name
  registered : r.sources.lookup name = some source
  code : source.getD [] = s.source
  state : source = none ↔ s.state = .unavailable

structure Identified (r : Registry) : Prop where
  recorded : ∀ name i, r.backend.getScriptIndex name = some i → ∃ source s, Recorded r name i source s
  single : ∀ name name' i s, r.backend.getScriptIndex name = some i →
    r.backend.getScriptIndex name' = some i → r.backend.scripts[i]? = some s →
    s.state = .unavailable → name = name'
  named : ∀ i, i < r.backend.scripts.length → ∃ name, r.backend.getScriptIndex name = some i
  fresh : ∀ name, r.backend.getScriptIndex name = none → r.sources.lookup name = none
  announced : loads r.backend.reports = r.backend.scripts.map announcement

theorem distinct_of_identified (r : Registry) (h : Identified r) : Distinct r := by
  refine ⟨fun name name' i hi hi' hne => ?_,h.announced,fun name i hi => ?_⟩
  · obtain ⟨source,s,hs⟩ := h.recorded name i hi
    obtain ⟨source',s',hs'⟩ := h.recorded name' i hi'
    obtain rfl : s = s' := Option.some.inj (hs.found.symm.trans hs'.found)
    have hstate : s.state ≠ .unavailable := fun hu => hne (h.single _ _ i s hi hi' hs.found hu)
    obtain ⟨code,rfl⟩ := Option.ne_none_iff_exists'.mp (fun hn => hstate (hs.state.mp hn))
    obtain ⟨code',rfl⟩ := Option.ne_none_iff_exists'.mp (fun hn => hstate (hs'.state.mp hn))
    have hcode : code = code' := hs.code.trans hs'.code.symm
    exact ⟨hs.title.symm.trans hs'.title,code,hs.registered,hcode ▸ hs'.registered⟩
  · obtain ⟨source,s,hs⟩ := h.recorded name i hi
    exact (List.getElem?_eq_some_iff.mp hs.found).1

section Steps

variable {r : Registry} {c : Call}

/-- A new name is given to script `i`, which may be new too. -/
theorem identified_add {b : DebugBackend} (h : Identified r) (i : ℕ) (s : Script)
    (hnew : r.backend.getScriptIndex c.name = none)
    (hnames : b.nameToScript = r.backend.nameToScript ++ [(c.name,i)])
    (hscripts : ∀ (j : ℕ) s, r.backend.scripts[j]? = some s → b.scripts[j]? = some s)
    (hi : b.scripts[i]? = some s) (htitle : s.title = DebugBackend.getFileTitle c.name)
    (hcode : s.source = c.code) (hstate : c.available = none ↔ s.state = .unavailable)
    (hsingle : s.state = .unavailable → ∀ name, r.backend.getScriptIndex name ≠ some i)
    (hlength : ∀ j, j < b.scripts.length → j < r.backend.scripts.length ∨ j = i)
    (hannounced : loads b.reports = b.scripts.map announcement) :
    Identified ⟨b,r.sources ++ [(c.name,c.available)]⟩ := by
  have hindex (name : Bytes) : b.getScriptIndex name =
      if name = c.name then some i else r.backend.getScriptIndex name := by
    rw [DebugBackend.getScriptIndex, hnames]
    exact lookup_snoc _ _ name i hnew
  have hsource (name : Bytes) : (r.sources ++ [(c.name,c.available)]).lookup name =
      if name = c.name then some c.available else r.sources.lookup name :=
    lookup_snoc _ _ name _ (h.fresh _ hnew)
  refine ⟨fun name j hj => ?_,fun name name' j s' hj hj' hs' hu => ?_,fun j hj => ?_,
    fun name hn => ?_,hannounced⟩
  · rw [hindex] at hj
    split at hj
    · rename_i he
      cases hj
      exact ⟨c.available,s,hi,he ▸ htitle,by rw [hsource, if_pos he],hcode.symm,hstate⟩
    · rename_i hne
      obtain ⟨source,s',hs'⟩ := h.recorded name j hj
      exact ⟨source,s',hscripts j s' hs'.found,hs'.title,
        by rw [hsource, if_neg hne]; exact hs'.registered,hs'.code,hs'.state⟩
  · rw [hindex] at hj hj'
    have hstate' (hji : j = i) : s.state = .unavailable := by
      subst hji
      rw [Option.some.inj (hi.symm.trans hs')]
      exact hu
    split at hj <;> split at hj'
    · rename_i he he'
      exact he.trans he'.symm
    · exact absurd (Option.some.inj hj ▸ hj') (hsingle (hstate' (Option.some.inj hj).symm) name')
    · exact absurd (Option.some.inj hj' ▸ hj) (hsingle (hstate' (Option.some.inj hj').symm) name)
    · obtain ⟨source,s'',hs''⟩ := h.recorded name j hj
      have he : s' = s'' := Option.some.inj (hs'.symm.trans (hscripts j s'' hs''.found))
      exact h.single name name' j s'' hj hj' hs''.found (he ▸ hu)
  · rcases hlength j hj with hlt | rfl
    · obtain ⟨name,hname⟩ := h.named j hlt
      refine ⟨name,?_⟩
      rw [hindex, if_neg (fun he => ?_), hname]
      rw [he, hnew] at hname
      cases hname
    · exact ⟨c.name,by rw [hindex, if_pos rfl]⟩
  · rw [hindex] at hn
    split at hn
    · cases hn
    · rename_i hne
      rw [hsource, if_neg hne]
      exact h.fresh name hn

theorem getScriptIndex_lt (h : Identified r) {name : Bytes} {i : ℕ}
    (hi : r.backend.getScriptIndex name = some i) : i < r.backend.scripts.length := by
  obtain ⟨source,s,hs⟩ := h.recorded name i hi
  exact (List.getElem?_eq_some_iff.mp hs.found).1

theorem sameScript_new (hnew : r.backend.getScriptIndex c.name = none) :
    sameScript r.backend c = r.backend.scripts.find?
      (fun s => s.title = DebugBackend.getFileTitle c.name && s.source = c.code) := by
  rw [sameScript, hnew]
  rfl

theorem identified_registers {b : DebugBackend} (h : Identified r) (hc : Compared r c)
    (hreg : Registers r.backend c.vm c.name c.code c.available.isNone b) :
    Identified ⟨b,if (r.backend.getScriptIndex c.name).isSome then r.sources
      else r.sources ++ [(c.name,c.available)]⟩ := by
  cases hreg with
  | known hknown =>
    rw [if_pos hknown]
    exact h
  | same i s hnew hi hfind =>
    rw [hnew]
    obtain ⟨hstate,havailable⟩ := hc s (by rw [sameScript_new hnew, hfind])
    have hmatch := List.find?_some hfind
    simp only [Bool.and_eq_true, decide_eq_true_eq] at hmatch
    exact identified_add h i s hnew rfl (fun _ _ => id) hi hmatch.1 hmatch.2
      (iff_of_false (by simpa [Option.isSome_iff_ne_none] using havailable) hstate)
      (fun hu => absurd hu hstate) (fun j hj => .inl hj) h.announced
  | new s hnew hfind htitle hcode hempty hstate =>
    rw [hnew]
    have hlast : (r.backend.scripts ++ [s])[r.backend.scripts.length]? = some s := by simp
    refine identified_add h r.backend.scripts.length s hnew rfl (fun j s' hj => ?_) hlast htitle hcode
      ?_ (fun _ name hname => ?_) (fun j hj => ?_) ?_
    · exact (List.getElem?_append_left (List.getElem?_eq_some_iff.mp hj).1).trans hj
    · cases havailable : c.available with
      | none =>
        exact iff_of_true rfl ((hempty (by rw [Call.code, havailable]; rfl)).mpr
          (by rw [havailable]; rfl))
      | some code => exact iff_of_false nofun (hstate (by rw [havailable]; rfl))
    · exact absurd (getScriptIndex_lt h hname) (lt_irrefl _)
    · simp only [DebugBackend.report, List.length_append, List.length_singleton] at hj
      omega
    · simp only [DebugBackend.report, List.map_append, ← h.announced]
      simp [loads, announcement]

theorem identified_step (r : Registry) (c : Call) (r' : Registry) (h : Identified r)
    (hs : Step r c r') (hc : Compared r c) : Identified r' := by
  cases hs
  exact identified_registers h hc (register_registers c)

/-- The two names of a script one of which came without a source. -/
theorem not_distinct_registers {b : DebugBackend} (h : Identified r) (hc : ¬ Compared r c)
    (hreg : Registers r.backend c.vm c.name c.code c.available.isNone b) :
    ¬ Distinct ⟨b,if (r.backend.getScriptIndex c.name).isSome then r.sources
      else r.sources ++ [(c.name,c.available)]⟩ := by
  simp only [Compared, not_forall] at hc
  obtain ⟨s,hsame,hsource⟩ := hc
  cases hreg with
  | known hknown =>
    rw [sameScript, if_pos hknown] at hsame
    cases hsame
  | new s' hnew hfind =>
    rw [sameScript_new hnew, hfind] at hsame
    cases hsame
  | same i s' hnew hi hfind =>
    rw [sameScript_new hnew, hfind] at hsame
    cases hsame
    intro hd
    obtain ⟨name,hname⟩ := h.named i (List.getElem?_eq_some_iff.mp hi).1
    have hne : name ≠ c.name := by
      rintro rfl
      rw [hnew] at hname
      cases hname
    obtain ⟨source,s'',hs''⟩ := h.recorded name i hname
    obtain rfl : s = s'' := Option.some.inj (hi.symm.trans hs''.found)
    obtain ⟨-,code,hold,hcode⟩ := hd.names name c.name i
      ((lookup_snoc _ _ name i hnew).trans ((if_neg hne).trans hname))
      ((lookup_snoc _ _ c.name i hnew).trans (if_pos rfl)) hne
    simp only [hnew, Option.isSome_none, Bool.false_eq_true, if_false] at hold hcode
    rw [lookup_snoc _ _ _ _ (h.fresh _ hnew)] at hold hcode
    rw [if_neg hne, hs''.registered, Option.some.injEq] at hold
    rw [if_pos rfl, Option.some.injEq] at hcode
    refine hsource ⟨fun hu => ?_,by rw [hcode]; rfl⟩
    rw [hs''.state.mpr hu] at hold
    cases hold

end Steps

theorem not_distinct_step (r : Registry) (c : Call) (r' : Registry) (h : Identified r)
    (hs : Step r c r') (hc : ¬ Compared r c) : ¬ Distinct r' := by
  cases hs
  exact not_distinct_registers h hc (register_registers c)

theorem identified_initial : Identified initial :=
  ⟨nofun,nofun,fun i hi => absurd hi (Nat.not_lt_zero i),fun _ _ => rfl,rfl⟩

/-- Scripts keep their identities along a run of registrations exactly when no
name is taken for another one for want of a source. -/
theorem distinct_along_iff (calls : List Call) :
    Along Step Distinct initial calls ↔ Meets Step Compared initial calls :=
  along_iff_meets distinct_of_identified identified_step not_distinct_step initial calls
    identified_initial

def namesakes : List Call :=
  [.hook 1 ⟨none,some (text "main"),text "@a/init.lua",1,0,9⟩,
   .hook 1 ⟨none,some (text "main"),text "@b/init.lua",1,0,9⟩]

theorem namesakes_not_distinct : ¬ Along Step Distinct initial namesakes := by
  intro h
  have hend := along_start ((h.2 _ rfl).2 _ rfl)
  obtain ⟨-,code,hcode,-⟩ := hend.names (text "@a/init.lua") (text "@b/init.lua") 0 (by decide)
    (by decide) (by decide)
  have hnone : (some none : Option (Option Bytes)) = some (some code) := hcode
  cases hnone

end Vecoda.ScriptIdentity
