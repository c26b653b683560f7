import Mathlib.Logic.Function.Basic
import Vecoda.LuaApi
import Vecoda.Transitions

/-!
# The cache of expanded tables

The registry holds two tables at addresses of the backend: one leads from a
table to its reference, the other is the table of `luaL_ref`. CacheTable makes
both when it finds no cache, ClearCache takes both away.
-/

set_option autoImplicit false

namespace Vecoda.TableCache
open LuaApi Transitions

structure Addresses where
  refPos : ℕ
  tableCachePos : ℕ
  distinct : refPos ≠ tableCachePos

section Programs

variable {ε σ : Type} (lua : Lua σ) (m : Addresses)

def getRegistryRefTable : Program ε σ Unit := do
  push (.lightuserdata m.refPos)
  rawget lua .registry
  if (← look (-1)) = .nil then
    pop 1
    newtable lua

/-- The cache is pushed, and both tables are made when there is none. -/
def openCache : Program ε σ Unit := do
  push (.lightuserdata m.tableCachePos)
  rawget lua .registry
  if (← look (-1)) = .nil then
    pop 1
    newtable lua
    push (.lightuserdata m.tableCachePos)
    pushvalue (-2)
    rawset lua .registry
    push (.lightuserdata m.refPos)
    newtable lua
    rawset lua .registry

def newReference (table cache : ℤ) : Program ε σ ℤ := do
  push (.lightuserdata m.refPos)
  rawget lua .registry
  pushvalue table
  let r ← ref lua (-2 : ℤ)
  pushvalue table
  push (.integer r)
  rawset lua cache
  pop 1
  return r

def cacheTable (table : ℤ) : Program ε σ ℤ := do
  let table ← absindex table
  openCache lua m
  let cache ← gettop
  pushvalue table
  rawget lua cache
  let known ← look (-1)
  let r ← if known = .nil then newReference lua m table cache else pure (tointeger known)
  pop 2
  return r

/-- All references are given back, and both tables forgotten. The loop only reads, so that it has a
round for each field at most. -/
def clearCache : Program ε σ Unit := do
  push (.lightuserdata m.refPos)
  rawget lua .registry
  let ref ← gettop
  if (← look ref) ≠ .nil then
    let rounds := (lua.keys (← world) (← look ref)).length+1
    let refs ← forNext lua ref (do return tointeger (← look (-2))) rounds
    refs.forM (fun r => unref lua ref r)
    pop 1
    push (.lightuserdata m.refPos)
    push .nil
    rawset lua .registry
    push (.lightuserdata m.tableCachePos)
    push .nil
    rawset lua .registry
  else pop 1

end Programs

section Effects

variable {ε σ : Type} (lua : Lua σ) (m : Addresses)

def opened (w : σ) : Value × σ :=
  let cache := lua.rawget w lua.registry (.lightuserdata m.tableCachePos)
  if cache = .nil then
    let (cache,w) := lua.newtable w
    let (refs,w) := lua.newtable (lua.rawset w lua.registry (.lightuserdata m.tableCachePos) cache)
    (cache,lua.rawset w lua.registry (.lightuserdata m.refPos) refs)
  else (cache,w)

def referenced (w : σ) (cache t : Value) : ℤ × σ :=
  let (r,w) := lua.ref w (lua.rawget w lua.registry (.lightuserdata m.refPos)) t
  (r,lua.rawset w cache t (.integer r))

def cached (w : σ) (t : Value) : ℤ × σ :=
  let (cache,w) := opened lua m w
  let known := lua.rawget w cache t
  if known = .nil then referenced lua m w cache t else (tointeger known,w)

theorem openCache_apply (s : List Value) (w : σ) : (openCache lua m : Program ε σ Unit) ⟨s,w⟩ =
    .ok ((),⟨s ++ [(opened lua m w).1],(opened lua m w).2⟩) := by
  by_cases h : lua.rawget w lua.registry (.lightuserdata m.tableCachePos) = .nil
  · simp [openCache, opened, h]
  · simp [openCache, opened, h]

theorem getRegistryRefTable_apply (s : List Value) (w : σ) :
    (getRegistryRefTable lua m : Program ε σ Unit) ⟨s,w⟩ =
      let refs := lua.rawget w lua.registry (.lightuserdata m.refPos)
      if refs = .nil then .ok ((),⟨s ++ [(lua.newtable w).1],(lua.newtable w).2⟩)
      else .ok ((),⟨s ++ [refs],w⟩) := by
  by_cases h : lua.rawget w lua.registry (.lightuserdata m.refPos) = .nil
  · simp [getRegistryRefTable, h]
  · simp [getRegistryRefTable, h]

theorem newReference_apply {s : List Value} {table : ℤ} (cache x : Value) (ht : 0 < table)
    (hts : table ≤ s.length) (w : σ) :
    (newReference lua m table (s.length+1) : Program ε σ ℤ) ⟨s ++ [cache,x],w⟩ =
      .ok ((referenced lua m w cache (value s table)).1,
        ⟨s ++ [cache,x],(referenced lua m w cache (value s table)).2⟩) := by
  have hcache (t : List Value) : value (s ++ cache::t) (s.length+1) = cache := LuaStack.value_above ..
  simp [newReference, referenced, value_append_left _ _ ht hts, hcache]

theorem cacheTable_apply {s : List Value} {i : ℤ} (hi : Valid s i) (w : σ) :
    (cacheTable lua m i : Program ε σ ℤ) ⟨s,w⟩ =
      .ok ((cached lua m w (value s i)).1,⟨s,(cached lua m w (value s i)).2⟩) := by
  obtain ⟨j,hj,hpos,hle,hv⟩ := absindex_valid (ε := ε) hi (w := w)
  rw [← hv]
  have hcache (t : List Value) : value (s ++ (opened lua m w).1::t) (s.length+1) = (opened lua m w).1 :=
    LuaStack.value_above ..
  have hnew (x : Value) := newReference_apply (ε := ε) lua m (opened lua m w).1 x hpos hle (opened lua m w).2
  by_cases hk : lua.rawget (opened lua m w).2 (opened lua m w).1 (value s j) = .nil
  · simp [cacheTable, cached, hj, openCache_apply, value_append_left _ _ hpos hle, hcache, hk, hnew]
  · simp [cacheTable, cached, hj, openCache_apply, value_append_left _ _ hpos hle, hcache, hk]

def cleared (w : σ) : σ :=
  let refs := lua.rawget w lua.registry (.lightuserdata m.refPos)
  if refs = .nil then w
  else
    let numbers := ((lua.keys w refs).filter (fun k => lua.rawget w refs k ≠ .nil)).map tointeger
    let w := numbers.foldl (fun w r => lua.unref w refs r) w
    lua.rawset (lua.rawset w lua.registry (.lightuserdata m.refPos) .nil) lua.registry
      (.lightuserdata m.tableCachePos) .nil

theorem forM_unref (s : List Value) (i : ℤ) (rs : List ℤ) (w : σ) :
    (forM rs (fun r => unref lua i r) : Program ε σ Unit) ⟨s,w⟩ =
      .ok ((),⟨s,rs.foldl (fun w r => lua.unref w (value s i) r) w⟩) := by
  induction rs generalizing w with
  | nil => rfl
  | cons r rs ih =>
    rw [List.forM_cons, bind_apply, unref_apply, ok_bind, ih]
    rfl

theorem clearCache_apply (s : List Value) (w : σ) :
    (clearCache lua m : Program ε σ Unit) ⟨s,w⟩ = .ok ((),⟨s,cleared lua m w⟩) := by
  have htop (v : Value) : value (s ++ [v]) (s.length+1) = v := LuaStack.value_above ..
  by_cases h : lua.rawget w lua.registry (.lightuserdata m.refPos) = .nil
  · simp [clearCache, cleared, h, htop]
  · obtain ⟨t,ht⟩ : ∃ t, t = s ++ [lua.rawget w lua.registry (.lightuserdata m.refPos)] := ⟨_,rfl⟩
    have hbody (k v : Value) (w : σ) : (do return tointeger (← look (-2)) : Program ε σ ℤ) ⟨t ++ [k,v],w⟩ =
        leaving (t ++ [k,v]) (.ok (tointeger k,w)) := by simp
    have hloop := forNext_apply lua (t := s.length+1) (by omega) (by simp [ht]) hbody
      ((lua.keys w (value t (s.length+1))).length+1) w
    rw [fields_pure lua _ _ (Nat.lt_succ_self _)] at hloop
    subst ht
    rw [htop] at hloop
    simp [clearCache, cleared, h, htop, hloop, forM_unref]

end Effects

end Vecoda.TableCache
