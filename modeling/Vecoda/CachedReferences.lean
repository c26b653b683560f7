import Mathlib.Data.List.Dedup
import Vecoda.TableCache

/-!
# References name tables

The tables of the library as lists of fields, with the registry among them.
`luaL_ref` is a parameter: in a table that nothing else writes to it keeps each
value under the number it returns, and the values under earlier numbers. Between two calls
of CacheTable the program may do what leaves the two caches alone.
-/

set_option autoImplicit false

namespace Vecoda.CachedReferences
open LuaApi TableCache Transitions

abbrev Fields := List (Value × Value)

def get : Fields → Value → Value
  | [], _ => .nil
  | (k,v)::c, key => if k = key then v else get c key

def set : Fields → Value → Value → Fields
  | [], key, x => if x = .nil then [] else [(key,x)]
  | (k,v)::c, key, x =>
    if k = key then if x = .nil then set c key x else (key,x)::c
    else (k,v)::set c key x

def keysOf (c : Fields) : List Value := (c.map Prod.fst).dedup.filter (fun k => k ≠ .nil)

theorem keysOf_nodup (c : Fields) : (keysOf c).Nodup := (List.nodup_dedup _).filter _

theorem nil_not_mem_keysOf (c : Fields) : Value.nil ∉ keysOf c := by simp [keysOf]

structure Heap where
  tables : ℕ → Fields
  last : ℕ

def Heap.update (h : Heap) (t : ℕ) (c : Fields) : Heap := {h with tables := Function.update h.tables t c}

def Heap.new (h : Heap) : Heap := {h.update (h.last+1) [] with last := h.last+1}

def Heap.set (h : Heap) (t : ℕ) (k v : Value) : Heap := h.update t (CachedReferences.set (h.tables t) k v)

def Heap.registry (h : Heap) (k : Value) : Value := get (h.tables 0) k

inductive Holding (ref : Fields → Value → ℤ × Fields) : Fields → List ℤ → Prop where
  | empty : Holding ref [] []
  | ref {c : Fields} {rs : List ℤ} {v : Value} : Holding ref c rs → v ≠ .nil →
      Holding ref (ref c v).2 ((ref c v).1::rs)

structure References where
  ref : Fields → Value → ℤ × Fields
  unref : Fields → ℤ → Fields
  stored : ∀ {c rs v}, Holding ref c rs → v ≠ .nil → get (ref c v).2 (.integer (ref c v).1) = v
  kept : ∀ {c rs v r}, Holding ref c rs → v ≠ .nil → r ∈ rs →
    get (ref c v).2 (.integer r) = get c (.integer r)

def heapLua (base : Lua Heap) (refs : References) : Lua Heap :=
  {base with
    newtable := fun h => (.table (h.last+1),h.new)
    registry := .table 0
    rawget := fun h t k =>
      match t with
      | .table i => get (h.tables i) k
      | _ => .nil
    rawset := fun h t k v =>
      match t with
      | .table i => h.set i k v
      | _ => h
    keys := fun h t =>
      match t with
      | .table i => keysOf (h.tables i)
      | _ => []
    keys_nodup := fun h t => by
      cases t with
      | table i => exact keysOf_nodup _
      | _ => exact List.nodup_nil
    nil_not_key := fun h t => by
      cases t with
      | table i => exact nil_not_mem_keysOf _
      | _ => exact List.not_mem_nil
    ref := fun h t v =>
      match t with
      | .table i => ((refs.ref (h.tables i) v).1,h.update i (refs.ref (h.tables i) v).2)
      | _ => (0,h)
    unref := fun h t r =>
      match t with
      | .table i => h.update i (refs.unref (h.tables i) r)
      | _ => h}

section Fields

theorem get_set_same (c : Fields) (key x : Value) : get (set c key x) key = x := by
  induction c with
  | nil =>
    rw [set]
    split
    · rename_i h
      rw [h, get]
    · rw [get, if_pos rfl]
  | cons e c ih =>
    rw [set]
    by_cases hk : e.1 = key
    · rw [if_pos hk]
      by_cases hx : x = .nil
      · rw [if_pos hx, ih]
      · rw [if_neg hx, get, if_pos rfl]
    · rw [if_neg hk, get, if_neg hk, ih]

theorem get_set_other (c : Fields) {key k : Value} (x : Value) (h : k ≠ key) :
    get (set c key x) k = get c k := by
  induction c with
  | nil =>
    rw [set]
    split
    · rfl
    · exact if_neg (Ne.symm h)
  | cons e c ih =>
    rw [set]
    by_cases hk : e.1 = key
    · have hne : e.1 ≠ k := fun he => h (he.symm.trans hk)
      rw [if_pos hk, get, if_neg hne]
      by_cases hx : x = .nil
      · rw [if_pos hx, ih]
      · rw [if_neg hx, get, if_neg (Ne.symm h)]
    · rw [if_neg hk, get, get, ih]

end Fields

section Naming

variable {ε : Type} (base : Lua Heap) (refs : References) (m : Addresses)

inductive Act where
  | cacheTable (s : List Value) (i r : ℤ)
  | other

def Other (k : Value) : Prop := k ≠ .lightuserdata m.refPos ∧ k ≠ .lightuserdata m.tableCachePos

structure Untouched (h h' : Heap) : Prop where
  last : h.last ≤ h'.last
  refPos : h'.registry (.lightuserdata m.refPos) = h.registry (.lightuserdata m.refPos)
  tableCachePos : h'.registry (.lightuserdata m.tableCachePos) = h.registry (.lightuserdata m.tableCachePos)
  tables : ∀ t, h.registry (.lightuserdata m.refPos) = .table t ∨
    h.registry (.lightuserdata m.tableCachePos) = .table t → h'.tables t = h.tables t

def Step (h : Heap) (a : Act) (h' : Heap) : Prop :=
  match a with
  | .cacheTable s i r => Valid s i ∧ (∃ t, value s i = .table t) ∧
    ∃ s', (cacheTable (heapLua base refs) m i : Program ε Heap ℤ) ⟨s,h⟩ = .ok (r,⟨s',h'⟩)
  | .other => Untouched m h h'

def Closed (h : Heap) : Prop :=
  h.registry (.lightuserdata m.refPos) = .nil ∧ h.registry (.lightuserdata m.tableCachePos) = .nil

/-- The cache `c` and the table `f` of references name the tables of the calls. -/
structure Open (h : Heap) (c f : ℕ) (rs : List ℤ) (calls : List (Value × ℤ)) : Prop where
  cache : h.registry (.lightuserdata m.tableCachePos) = .table c
  references : h.registry (.lightuserdata m.refPos) = .table f
  apart : c ≠ f ∧ c ≠ 0 ∧ f ≠ 0
  below : c ≤ h.last ∧ f ≤ h.last
  holding : Holding refs.ref (h.tables f) rs
  calls : ∀ v r, (v,r) ∈ calls → get (h.tables c) v = .integer r
  inverse : ∀ v, get (h.tables c) v ≠ .nil →
    ∃ r ∈ rs, get (h.tables c) v = .integer r ∧ get (h.tables f) (.integer r) = v

def resolve (r : ℤ) : Program ε Heap Unit := do
  getRegistryRefTable (heapLua base refs) m
  rawgeti (heapLua base refs) (-1 : ℤ) r

variable {base refs m}

theorem update_same (h : Heap) (t : ℕ) (c : Fields) : (h.update t c).tables t = c := Function.update_self ..

theorem update_other (h : Heap) {t u : ℕ} (c : Fields) (hne : u ≠ t) : (h.update t c).tables u = h.tables u :=
  Function.update_of_ne hne ..

theorem new_other (h : Heap) {u : ℕ} (hne : u ≠ h.last+1) : h.new.tables u = h.tables u := update_other h [] hne

theorem new_empty (h : Heap) : h.new.tables (h.last+1) = [] := update_same h _ _

theorem set_same (h : Heap) (t : ℕ) (k v : Value) : (h.set t k v).tables t = set (h.tables t) k v :=
  update_same h _ _

theorem set_other (h : Heap) {t u : ℕ} {k v : Value} (hne : u ≠ t) : (h.set t k v).tables u = h.tables u :=
  update_other h _ hne

theorem addresses_ne : Value.lightuserdata m.tableCachePos ≠ .lightuserdata m.refPos := fun h =>
  m.distinct (Value.lightuserdata.inj h).symm

theorem opened_open {h : Heap} {c f : ℕ} {rs : List ℤ} {calls : List (Value × ℤ)}
    (ho : Open refs m h c f rs calls) : opened (heapLua base refs) m h = (.table c,h) := by
  have hc : (heapLua base refs).rawget h (heapLua base refs).registry (.lightuserdata m.tableCachePos) =
      .table c := ho.cache
  rw [opened, hc]
  rfl

variable (base refs) in
/-- The two tables are new, and only the registry's entries for them change. -/
theorem opened_closed {h : Heap} (hc : Closed m h) :
    (opened (heapLua base refs) m h).1 = .table (h.last+1) ∧
    Open refs m (opened (heapLua base refs) m h).2 (h.last+1) (h.last+2) [] [] ∧
    ∀ k, Other m k → (opened (heapLua base refs) m h).2.registry k = h.registry k := by
  have hnil : (heapLua base refs).rawget h (heapLua base refs).registry (.lightuserdata m.tableCachePos) =
      .nil := hc.2
  have he : opened (heapLua base refs) m h = (.table (h.last+1),
      ((h.new.set 0 (.lightuserdata m.tableCachePos) (.table (h.last+1))).new).set 0 (.lightuserdata m.refPos)
        (.table (h.last+2))) := by
    rw [opened, hnil]
    rfl
  have hreg (k : Value) : (opened (heapLua base refs) m h).2.registry k =
      get (set (set (h.tables 0) (.lightuserdata m.tableCachePos) (.table (h.last+1)))
        (.lightuserdata m.refPos) (.table (h.last+2))) k := by
    rw [he, Heap.registry, set_same, new_other _ (Nat.succ_ne_zero _).symm, set_same,
      new_other _ (Nat.succ_ne_zero _).symm]
  have hcache : (opened (heapLua base refs) m h).2.tables (h.last+1) = [] := by
    have hne : h.last+1 ≠
        (h.new.set 0 (.lightuserdata m.tableCachePos) (.table (h.last+1))).last+1 :=
      Nat.ne_of_lt (Nat.lt_succ_self _)
    rw [he, set_other _ (Nat.succ_ne_zero _), new_other _ hne, set_other _ (Nat.succ_ne_zero _), new_empty]
  have hrefs : (opened (heapLua base refs) m h).2.tables (h.last+2) = [] := by
    rw [he, set_other _ (Nat.succ_ne_zero _)]
    exact new_empty _
  have hlast : (opened (heapLua base refs) m h).2.last = h.last+2 := by
    rw [he]
    rfl
  refine ⟨by rw [he],⟨?_,?_,⟨by omega,by omega,by omega⟩,by omega,?_,fun v r hr => ?_,fun v hv => ?_⟩,
    fun k hk => ?_⟩
  · rw [hreg, get_set_other _ _ addresses_ne, get_set_same]
  · rw [hreg, get_set_same]
  · rw [hrefs]
    exact .empty
  · exact absurd hr List.not_mem_nil
  · rw [hcache] at hv
    exact absurd rfl hv
  · rw [hreg, get_set_other _ _ hk.1, get_set_other _ _ hk.2]
    rfl

/-- A reference of a call leads back to the table of the call. -/
theorem call_stored {h : Heap} {c f : ℕ} {rs : List ℤ} {calls : List (Value × ℤ)}
    (ho : Open refs m h c f rs calls) {v : Value} {r : ℤ} (hc : (v,r) ∈ calls) :
    get (h.tables f) (.integer r) = v := by
  have hcall := ho.calls v r hc
  have hne : get (h.tables c) v ≠ .nil := by rw [hcall]; exact fun h => nomatch h
  obtain ⟨n,-,hn,hfn⟩ := ho.inverse v hne
  rw [hcall] at hn
  cases hn
  exact hfn

theorem same_reference {h : Heap} {c f : ℕ} {rs : List ℤ} {calls : List (Value × ℤ)}
    (ho : Open refs m h c f rs calls) {v v' : Value} {r r' : ℤ} (hc : (v,r) ∈ calls)
    (hc' : (v',r') ∈ calls) : r = r' ↔ v = v' := by
  constructor
  · rintro rfl
    exact (call_stored ho hc).symm.trans (call_stored ho hc')
  · rintro rfl
    exact Value.integer.inj ((ho.calls v r hc).symm.trans (ho.calls v r' hc'))

theorem known_open {h : Heap} {c f : ℕ} {rs : List ℤ} {calls : List (Value × ℤ)}
    (ho : Open refs m h c f rs calls) {v : Value} (hk : get (h.tables c) v ≠ .nil) :
    Open refs m h c f rs ((v,tointeger (get (h.tables c) v))::calls) := by
  refine ⟨ho.cache,ho.references,ho.apart,ho.below,ho.holding,?_,ho.inverse⟩
  intro u r hu
  rcases List.mem_cons.mp hu with hu | hu
  · obtain ⟨n,-,hn,-⟩ := ho.inverse v hk
    cases hu
    rw [hn]
    rfl
  · exact ho.calls u r hu

variable (base) in
/-- A new reference keeps the two tables inverse to each other. -/
theorem referenced_open {h : Heap} {c f : ℕ} {rs : List ℤ} {calls : List (Value × ℤ)}
    (ho : Open refs m h c f rs calls) {v : Value} (hv : v ≠ .nil) (hk : get (h.tables c) v = .nil) :
    ∃ rs', Open refs m (referenced (heapLua base refs) m h (.table c) v).2 c f rs'
        ((v,(referenced (heapLua base refs) m h (.table c) v).1)::calls) ∧
      ∀ k, (referenced (heapLua base refs) m h (.table c) v).2.registry k = h.registry k := by
  have hf : (heapLua base refs).rawget h (heapLua base refs).registry (.lightuserdata m.refPos) =
      .table f := ho.references
  have hr : referenced (heapLua base refs) m h (.table c) v =
      ((refs.ref (h.tables f) v).1,
        (h.update f (refs.ref (h.tables f) v).2).set c v (.integer (refs.ref (h.tables f) v).1)) := by
    rw [referenced, hf]
    rfl
  rw [hr]
  generalize hn : (refs.ref (h.tables f) v).1 = n
  obtain ⟨hcf,hc0,hf0⟩ := ho.apart
  have htc : ((h.update f (refs.ref (h.tables f) v).2).set c v (.integer n)).tables c =
      set (h.tables c) v (.integer n) := by
    rw [set_same, update_other _ _ hcf]
  have htf : ((h.update f (refs.ref (h.tables f) v).2).set c v (.integer n)).tables f =
      (refs.ref (h.tables f) v).2 := by
    rw [set_other _ (Ne.symm hcf), update_same]
  have hreg (k : Value) :
      ((h.update f (refs.ref (h.tables f) v).2).set c v (.integer n)).registry k = h.registry k := by
    rw [Heap.registry, set_other _ (Ne.symm hc0), update_other _ _ (Ne.symm hf0)]
    rfl
  refine ⟨n::rs,⟨(hreg _).trans ho.cache,(hreg _).trans ho.references,ho.apart,ho.below,?_,?_,?_⟩,hreg⟩
  · rw [htf, ← hn]
    exact .ref ho.holding hv
  · intro u r hu
    rw [htc]
    rcases List.mem_cons.mp hu with hu | hu
    · cases hu
      exact get_set_same ..
    · have hold := ho.calls u r hu
      have hne : u ≠ v := by
        rintro rfl
        rw [hk] at hold
        cases hold
      rw [get_set_other _ _ hne, hold]
  · intro u hu
    rw [htc] at hu ⊢
    rw [htf]
    by_cases hne : u = v
    · subst hne
      refine ⟨n,List.mem_cons_self,get_set_same ..,?_⟩
      rw [← hn]
      exact refs.stored ho.holding hv
    · rw [get_set_other _ _ hne] at hu ⊢
      obtain ⟨r,hr,hur,hru⟩ := ho.inverse u hu
      exact ⟨r,List.mem_cons_of_mem n hr,hur,by rw [refs.kept ho.holding hv hr, hru]⟩

variable (base) in
/-- A call keeps the two tables inverse to each other. -/
theorem cached_open {h : Heap} {c f : ℕ} {rs : List ℤ} {calls : List (Value × ℤ)}
    (ho : Open refs m h c f rs calls) {v : Value} (hv : v ≠ .nil) :
    ∃ rs', Open refs m (cached (heapLua base refs) m h v).2 c f rs'
        ((v,(cached (heapLua base refs) m h v).1)::calls) ∧
      ∀ k, (cached (heapLua base refs) m h v).2.registry k = h.registry k := by
  have hget : (heapLua base refs).rawget h (.table c) v = get (h.tables c) v := rfl
  have he : cached (heapLua base refs) m h v =
      if get (h.tables c) v = .nil then referenced (heapLua base refs) m h (.table c) v
      else (tointeger (get (h.tables c) v),h) := by
    rw [cached, opened_open ho]
    dsimp only
    rw [hget]
  by_cases hk : get (h.tables c) v = .nil
  · rw [he, if_pos hk]
    exact referenced_open base ho hv hk
  · rw [he, if_neg hk]
    exact ⟨rs,known_open ho hk,fun _ => rfl⟩

def Named (refs : References) (m : Addresses) (h : Heap) (calls : List (Value × ℤ)) : Prop :=
  (Closed m h ∧ calls = []) ∨ ∃ c f rs, Open refs m h c f rs calls

variable (base) in
theorem cached_named {h : Heap} {calls : List (Value × ℤ)} (hn : Named refs m h calls) {v : Value}
    (hv : v ≠ .nil) :
    Named refs m (cached (heapLua base refs) m h v).2 ((v,(cached (heapLua base refs) m h v).1)::calls) ∧
      ∀ k, Other m k → (cached (heapLua base refs) m h v).2.registry k = h.registry k := by
  rcases hn with ⟨hc,rfl⟩ | ⟨c,f,rs,ho⟩
  · obtain ⟨hcache,hopen,hother⟩ := opened_closed base refs hc
    have he : cached (heapLua base refs) m h v =
        cached (heapLua base refs) m (opened (heapLua base refs) m h).2 v := by
      rw [cached, cached, opened_open hopen, ← hcache]
    obtain ⟨rs',hrs,hreg⟩ := cached_open base hopen hv
    rw [he]
    exact ⟨.inr ⟨_,_,rs',hrs⟩,fun k hk => (hreg k).trans (hother k hk)⟩
  · obtain ⟨rs',hrs,hreg⟩ := cached_open base ho hv
    exact ⟨.inr ⟨c,f,rs',hrs⟩,fun k _ => hreg k⟩

theorem untouched_named {h h' : Heap} {calls : List (Value × ℤ)} (hn : Named refs m h calls)
    (hu : Untouched m h h') : Named refs m h' calls := by
  rcases hn with ⟨hc,rfl⟩ | ⟨c,f,rs,ho⟩
  · exact .inl ⟨⟨hu.refPos.trans hc.1,hu.tableCachePos.trans hc.2⟩,rfl⟩
  · have hc : h'.tables c = h.tables c := hu.tables c (.inr ho.cache)
    have hf : h'.tables f = h.tables f := hu.tables f (.inl ho.references)
    have hlast := hu.last
    have hbelow := ho.below
    exact .inr ⟨c,f,rs,hu.tableCachePos.trans ho.cache,hu.refPos.trans ho.references,ho.apart,by omega,
      by rw [hf]; exact ho.holding,by rw [hc]; exact ho.calls,by rw [hc, hf]; exact ho.inverse⟩

def callsOf : List Act → List (Value × ℤ)
  | [] => []
  | .cacheTable s i r::acts => (value s i,r)::callsOf acts
  | .other::acts => callsOf acts

theorem mem_callsOf {acts : List Act} {s : List Value} {i r : ℤ} (h : Act.cacheTable s i r ∈ acts) :
    (value s i,r) ∈ callsOf acts := by
  induction acts with
  | nil => exact absurd h List.not_mem_nil
  | cons a acts ih =>
    rcases List.mem_cons.mp h with rfl | hmem
    · exact List.mem_cons_self
    · cases a with
      | cacheTable => exact List.mem_cons_of_mem _ (ih hmem)
      | other => exact ih hmem

theorem runs_named {h h' : Heap} {acts : List Act} (hr : Runs (Step (ε := ε) base refs m) h acts h')
    {calls : List (Value × ℤ)} (hn : Named refs m h calls) :
    Named refs m h' ((callsOf acts).reverse ++ calls) := by
  induction hr generalizing calls with
  | nil s => exact hn
  | @cons h h₁ h' a acts hs _ ih =>
    cases a with
    | cacheTable s i r =>
      obtain ⟨hvalid,⟨t,ht⟩,s',hs⟩ := hs
      rw [cacheTable_apply _ _ hvalid] at hs
      cases hs
      have hv : value s i ≠ .nil := by rw [ht]; exact fun h => nomatch h
      have := ih (cached_named base hn hv).1
      rwa [callsOf, List.reverse_cons, List.append_assoc, List.singleton_append]
    | other => exact ih (untouched_named hn hs)

end Naming

section Faithful

variable (ε : Type) (base : Lua Heap) (refs : References) (m : Addresses)

/-- What a stop relies on, after some calls. -/
structure Faithful (h : Heap) (acts : List Act) : Prop where
  named : ∀ {s i r s' i' r'}, Act.cacheTable s i r ∈ acts → Act.cacheTable s' i' r' ∈ acts →
    (r = r' ↔ value s i = value s' i')
  resolved : ∀ {s i r}, Act.cacheTable s i r ∈ acts → ∀ stack, ∃ f,
    (resolve base refs m r : Program ε Heap Unit) ⟨stack,h⟩ = .ok ((),⟨stack ++ [f,value s i],h⟩)
  called : ∀ s i t, Valid s i → value s i = .table t → ∃ r h',
    (cacheTable (heapLua base refs) m i : Program ε Heap ℤ) ⟨s,h⟩ = .ok (r,⟨s,h'⟩) ∧
      ∀ k, Other m k → h'.registry k = h.registry k
  cleared : ∀ stack, ∃ h', (clearCache (heapLua base refs) m : Program ε Heap Unit) ⟨stack,h⟩ =
      .ok ((),⟨stack,h'⟩) ∧ Closed m h' ∧ (∀ k, Other m k → h'.registry k = h.registry k) ∧
    ∀ {s i r}, Act.cacheTable s i r ∈ acts → ∀ stack, ∃ f h'',
      (resolve base refs m r : Program ε Heap Unit) ⟨stack,h'⟩ = .ok ((),⟨stack ++ [f,.nil],h''⟩)

variable {base refs m}

theorem resolve_open {h : Heap} {c f : ℕ} {rs : List ℤ} {calls : List (Value × ℤ)}
    (ho : Open refs m h c f rs calls) {v : Value} {r : ℤ} (hc : (v,r) ∈ calls)
    (stack : List Value) : (resolve base refs m r : Program ε Heap Unit) ⟨stack,h⟩ =
      .ok ((),⟨stack ++ [.table f,v],h⟩) := by
  have hf : (heapLua base refs).rawget h (heapLua base refs).registry (.lightuserdata m.refPos) =
      .table f := ho.references
  have hget : (heapLua base refs).rawget h (.table f) (.integer r) = v := call_stored ho hc
  simp [resolve, getRegistryRefTable_apply, hf, hget]

theorem resolve_closed {h : Heap} (hc : Closed m h) (r : ℤ) (stack : List Value) :
    (resolve base refs m r : Program ε Heap Unit) ⟨stack,h⟩ =
      .ok ((),⟨stack ++ [.table (h.last+1),.nil],h.new⟩) := by
  have hf : (heapLua base refs).rawget h (heapLua base refs).registry (.lightuserdata m.refPos) = .nil :=
    hc.1
  have hnew : (heapLua base refs).newtable h = (.table (h.last+1),h.new) := rfl
  have hget : (heapLua base refs).rawget h.new (.table (h.last+1)) (.integer r) = .nil := by
    change get (h.new.tables (h.last+1)) _ = _
    rw [new_empty]
    rfl
  simp [resolve, getRegistryRefTable_apply, hf, hnew, hget]

variable (base refs) in
theorem unref_frame (f : ℕ) (hf : f ≠ 0) (rs : List ℤ) (h : Heap) (k : Value) :
    (rs.foldl (fun h r => (heapLua base refs).unref h (.table f) r) h).registry k = h.registry k := by
  induction rs generalizing h with
  | nil => rfl
  | cons r rs ih =>
    rw [List.foldl_cons, ih]
    change get ((h.update f _).tables 0) k = _
    rw [update_other _ _ (Ne.symm hf)]
    rfl

variable (base) in
/-- Both entries of the registry are gone and the others are as they were. -/
theorem cleared_named {h : Heap} {calls : List (Value × ℤ)} (hn : Named refs m h calls) :
    Closed m (cleared (heapLua base refs) m h) ∧
      ∀ k, Other m k → (cleared (heapLua base refs) m h).registry k = h.registry k := by
  rcases hn with ⟨hc,-⟩ | ⟨c,f,rs,ho⟩
  · have hnil : (heapLua base refs).rawget h (heapLua base refs).registry (.lightuserdata m.refPos) = .nil :=
      hc.1
    rw [cleared, hnil]
    exact ⟨hc,fun _ _ => rfl⟩
  · have hf : (heapLua base refs).rawget h (heapLua base refs).registry (.lightuserdata m.refPos) =
        .table f := ho.references
    obtain ⟨numbers,he⟩ : ∃ numbers : List ℤ, cleared (heapLua base refs) m h =
        ((numbers.foldl (fun h r => (heapLua base refs).unref h (.table f) r) h).set 0
          (.lightuserdata m.refPos) .nil).set 0 (.lightuserdata m.tableCachePos) .nil := by
      rw [cleared, hf]
      exact ⟨_,rfl⟩
    have hframe := unref_frame base refs f ho.apart.2.2 numbers h
    have hreg (k : Value) : (cleared (heapLua base refs) m h).registry k =
        get (set (set ((numbers.foldl (fun h r => (heapLua base refs).unref h (.table f) r) h).tables 0)
          (.lightuserdata m.refPos) .nil) (.lightuserdata m.tableCachePos) .nil) k := by
      rw [he, Heap.registry, set_same, set_same]
    refine ⟨⟨?_,?_⟩,fun k hk => ?_⟩
    · rw [hreg, get_set_other _ _ addresses_ne.symm, get_set_same]
    · rw [hreg, get_set_same]
    · rw [hreg, get_set_other _ _ hk.2, get_set_other _ _ hk.1]
      exact hframe k

end Faithful

/-- From a cleared registry on, references name the tables they were given for until the
caches are cleared again. -/
theorem references_faithful (ε : Type) (base : Lua Heap) (refs : References) (m : Addresses)
    (h h' : Heap) (acts : List Act) (hclosed : Closed m h)
    (hr : Runs (Step (ε := ε) base refs m) h acts h') : Faithful ε base refs m h' acts := by
  have hn := runs_named hr (.inl ⟨hclosed,rfl⟩)
  rw [List.append_nil] at hn
  have hmem {s : List Value} {i r : ℤ} (hc : Act.cacheTable s i r ∈ acts) :
      (value s i,r) ∈ (callsOf acts).reverse := List.mem_reverse.mpr (mem_callsOf hc)
  have hopen {s : List Value} {i r : ℤ} (hc : Act.cacheTable s i r ∈ acts) :
      ∃ c f rs, Open refs m h' c f rs (callsOf acts).reverse := by
    rcases hn with ⟨-,he⟩ | ho
    · have := hmem hc
      rw [he] at this
      exact absurd this List.not_mem_nil
    · exact ho
  refine ⟨?_,?_,?_,?_⟩
  · intro s i r s' i' r' hc hc'
    obtain ⟨c,f,rs,ho⟩ := hopen hc
    exact same_reference ho (hmem hc) (hmem hc')
  · intro s i r hc stack
    obtain ⟨c,f,rs,ho⟩ := hopen hc
    exact ⟨.table f,resolve_open ε ho (hmem hc) stack⟩
  · intro s i t hvalid ht
    have hv : value s i ≠ .nil := by rw [ht]; exact fun h => nomatch h
    exact ⟨_,_,cacheTable_apply _ _ hvalid h',(cached_named base hn hv).2⟩
  · intro stack
    obtain ⟨hcl,hother⟩ := cleared_named base hn
    exact ⟨_,clearCache_apply _ _ stack h',hcl,hother,
      fun {s i r} hc stack => ⟨_,_,resolve_closed ε hcl r stack⟩⟩

section Counted

theorem get_append_new (c : Fields) {k : Value} (v : Value) (h : ∀ e ∈ c, e.1 ≠ k) :
    get (c ++ [(k,v)]) k = v := by
  induction c with
  | nil => exact if_pos rfl
  | cons e c ih =>
    obtain ⟨he,hc⟩ := List.forall_mem_cons.mp h
    rw [List.cons_append, get, if_neg he, ih hc]

theorem get_append_other (c : Fields) {k key : Value} (v : Value) (h : k ≠ key) :
    get (c ++ [(k,v)]) key = get c key := by
  induction c with
  | nil => exact if_neg h
  | cons e c ih => rw [List.cons_append, get, get, ih]

theorem get_absent {c : Fields} {k : Value} (h : ∀ e ∈ c, e.1 ≠ k) : get c k = .nil := by
  induction c with
  | nil => rfl
  | cons e c ih =>
    obtain ⟨he,hc⟩ := List.forall_mem_cons.mp h
    rw [get, if_neg he, ih hc]

def countedRef (c : Fields) (v : Value) : ℤ × Fields :=
  let free := tointeger (get c (.integer 0))
  if free ≠ 0 then (free,set (set c (.integer 0) (get c (.integer free))) (.integer free) v)
  else ((c.length : ℤ)+1,c ++ [(.integer (c.length+1),v)])

def countedUnref (c : Fields) (r : ℤ) : Fields :=
  set (set c (.integer r) (get c (.integer 0))) (.integer 0) (.integer r)

/-- The keys are numbers from one on, no more than there are fields. -/
def Counted (c : Fields) : Prop := ∀ e ∈ c, ∃ i : ℤ, e.1 = .integer i ∧ 0 < i ∧ i ≤ c.length

theorem counted_new {c : Fields} (h : Counted c) (v : Value) :
    countedRef c v = ((c.length : ℤ)+1,c ++ [(.integer (c.length+1),v)]) := by
  have hzero : get c (.integer 0) = .nil := by
    refine get_absent (fun e he hk => ?_)
    obtain ⟨i,hi,hpos,-⟩ := h e he
    have := Value.integer.inj (hi.symm.trans hk)
    omega
  rw [countedRef, hzero]
  rfl

theorem counted_holding {c : Fields} {rs : List ℤ} (h : Holding countedRef c rs) :
    Counted c ∧ ∀ r ∈ rs, r ≤ c.length := by
  induction h with
  | empty => exact ⟨List.forall_mem_nil _,List.forall_mem_nil _⟩
  | @ref c rs v _ _ ih =>
    rw [counted_new ih.1]
    dsimp only
    have hl : ((c ++ [(Value.integer (c.length+1),v)]).length : ℤ) = c.length+1 := by simp
    constructor
    · intro e he
      rw [hl]
      rcases List.mem_append.mp he with he | he
      · obtain ⟨i,hi,hpos,hle⟩ := ih.1 e he
        exact ⟨i,hi,hpos,by omega⟩
      · exact ⟨c.length+1,by rw [List.mem_singleton.mp he],by omega,le_rfl⟩
    · intro r hr
      rw [hl]
      rcases List.mem_cons.mp hr with rfl | hr
      · exact le_rfl
      · have := ih.2 r hr
        omega

def counted : References where
  ref := countedRef
  unref := countedUnref
  stored {c rs v} hc _ := by
    obtain ⟨hcount,-⟩ := counted_holding hc
    rw [counted_new hcount]
    refine get_append_new c v (fun e he hk => ?_)
    obtain ⟨i,hi,-,hle⟩ := hcount e he
    have := Value.integer.inj (hi.symm.trans hk)
    omega
  kept {c rs v r} hc _ hr := by
    obtain ⟨hcount,hle⟩ := counted_holding hc
    rw [counted_new hcount]
    refine get_append_other c v (fun he => ?_)
    have := hle r hr
    have := Value.integer.inj he
    omega

def addresses : Addresses := ⟨0,1,Nat.zero_ne_one⟩

def calling (h : Heap) (tables : List Value) : Heap :=
  tables.foldl (fun h t => (cached (heapLua (Lua.idle Heap) counted) addresses h t).2) h

/-- Two tables, the first of them twice. -/
theorem references_faithful_twice :
    Faithful Unit (Lua.idle Heap) counted addresses (calling ⟨fun _ => [],2⟩ [.table 1,.table 2,.table 1])
      [.cacheTable [.table 1] (-1) 1,.cacheTable [.nil,.table 2] 2 2,.cacheTable [.table 1] 1 1] := by
  refine references_faithful Unit (Lua.idle Heap) counted addresses ⟨fun _ => [],2⟩ _ _ ⟨rfl,rfl⟩ ?_
  refine .cons ⟨by decide,⟨1,rfl⟩,⟨_,cacheTable_apply _ _ (by decide) _⟩⟩ ?_
  refine .cons ⟨by decide,⟨2,rfl⟩,⟨_,cacheTable_apply _ _ (by decide) _⟩⟩ ?_
  exact .cons ⟨by decide,⟨1,rfl⟩,⟨_,cacheTable_apply _ _ (by decide) _⟩⟩ (.nil _)

end Counted

end Vecoda.CachedReferences
