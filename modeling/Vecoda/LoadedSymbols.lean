import Vecoda.DepthFirst
import Vecoda.MessagePipe

/-!
# The symbols of the loaded modules

`PostLoadLibrary` and `LoadSymbolsRecursively`. A module is examined together
with what it imports; its symbols go to `LoadLuaFunctions`, the first module
with a symbol deciding its address. The loader and dbghelp are parameters:
`SymLoadModule64` answers zero for a module that dbghelp has loaded already, and
the symbols of a module are those of its own or of the `.pdb` that replaced it.
-/

set_option autoImplicit false

namespace Vecoda.LoadedSymbols
open MessagePipe (Bytes)
open DepthFirst

abbrev HModule := ℕ

local instance lawfulNames : LawfulBEq Bytes := inferInstance

structure Process where
  baseName : HModule → Bytes
  imports : HModule → List Bytes
  getModuleHandle : Bytes → Option HModule
  symbols : HModule → List (Bytes × ℕ)

/-- `symLoaded` are the modules that dbghelp has loaded. -/
structure Loading where
  loadedModules : List Bytes
  symbols : List (Bytes × ℕ)
  symLoaded : List HModule

/-- `GatherSymbolsCallback`: `insert` leaves a symbol that is there. -/
def gatherSymbols (symbols found : List (Bytes × ℕ)) : List (Bytes × ℕ) :=
  found.foldl (fun symbols s => if s.1 ∈ symbols.map Prod.fst then symbols
      else symbols ++ [s]) symbols

/-- The state of the debugger's DLL; `examined` are the symbols that `LoadLuaFunctions` got, with
the module they were gathered for. -/
structure State where
  loadedModules : List Bytes
  initializedDebugHelp : Bool
  symLoaded : List HModule
  examined : List (HModule × List (Bytes × ℕ))

def initial : State := ⟨[],false,[],[]⟩

section Loader

variable (p : Process)

def enumSymbols (s : Loading) (hModule : HModule) : Loading :=
  if hModule ∈ s.symLoaded then s
  else
    {s with
      symbols := gatherSymbols s.symbols (p.symbols hModule),
      symLoaded := s.symLoaded ++ [hModule]}

def loadSymbolsRecursively : ℕ → HModule → Loading → Option Loading
  | 0, _, _ => none
  | depth+1, hModule, s =>
    let moduleName := p.baseName hModule
    if moduleName ∈ s.loadedModules then some s
    else
      let s := enumSymbols p {s with loadedModules := s.loadedModules ++ [moduleName]} hModule
      (p.imports hModule).foldlM (fun s i =>
        match p.getModuleHandle i with
        | none => some s
        | some hImportModule => loadSymbolsRecursively depth hImportModule s) s

def postLoadLibrary (hInstance : HModule) (depth : ℕ) (s : State) (hModule : HModule)
    (symInitialize : Bool) :
    Option State :=
  if hModule = hInstance then some s
  else if p.baseName hModule ∈ s.loadedModules then some s
  else
    let s := {s with loadedModules := s.loadedModules ++ [p.baseName hModule]}
    if !s.initializedDebugHelp && !symInitialize then some s
    else (loadSymbolsRecursively p depth hModule ⟨[],[],s.symLoaded⟩).map (fun l =>
      {s with
        initializedDebugHelp := true, symLoaded := l.symLoaded
        examined := s.examined ++ [(hModule,l.symbols)]})

def imported (hModule : HModule) : List HModule := (p.imports hModule).filterMap p.getModuleHandle

def gathered (symLoaded modules : List HModule) : Loading :=
  let fresh := modules.filter (fun m => m ∉ symLoaded)
  ⟨modules.map p.baseName,fresh.foldl (fun symbols m => gatherSymbols symbols (p.symbols m)) [],
    symLoaded ++ fresh⟩

def ImportedBy : HModule → HModule → Prop := Reaches (imported p)

/-- The modules that are examined with `m` and with none before it. -/
def FirstImportedBy (before : List HModule) (m n : HModule) : Prop :=
  ImportedBy p m n ∧ ∀ d ∈ before, ¬ ImportedBy p d n

end Loader

section Gathering

variable {p : Process}

theorem gather_mem (found symbols : List (Bytes × ℕ)) (f : Bytes) :
    f ∈ (gatherSymbols symbols found).map Prod.fst ↔
        f ∈ symbols.map Prod.fst ∨ f ∈ found.map Prod.fst := by
  induction found generalizing symbols with
  | nil => simp [gatherSymbols]
  | cons s found ih =>
    have hstep : gatherSymbols symbols (s::found) = gatherSymbols
        (if s.1 ∈ symbols.map Prod.fst then symbols else symbols ++ [s]) found := rfl
    rw [hstep, ih]
    split
    · next hmem =>
      rw [List.map_cons, List.mem_cons]
      exact or_congr_right' fun hnot => ⟨.inr,fun h => h.resolve_left fun heq => hnot (heq ▸ hmem)⟩
    · simp only [List.map_append, List.mem_append, List.map_cons, List.map_nil, List.mem_cons,
        List.not_mem_nil, or_false, or_assoc]

/-- A symbol that has been found comes from the module that was examined first of those with it. -/
theorem gather_subset (found symbols : List (Bytes × ℕ)) (s : Bytes × ℕ)
    (hs : s ∈ gatherSymbols symbols found) : s ∈ symbols ∨ s ∈ found := by
  induction found generalizing symbols with
  | nil => exact .inl hs
  | cons t found ih =>
    rcases ih _ hs with hmem | hmem
    · dsimp only at hmem
      split at hmem
      · exact .inl hmem
      · rcases List.mem_append.mp hmem with hmem | hmem
        · exact .inl hmem
        · exact .inr (List.mem_singleton.mp hmem ▸ List.mem_cons_self)
    · exact .inr (List.mem_cons_of_mem _ hmem)

theorem foldl_gather_mem (modules : List HModule) (f : Bytes) :
    f ∈ (modules.foldl (fun symbols m => gatherSymbols symbols (p.symbols m)) []).map Prod.fst ↔
      ∃ m ∈ modules, f ∈ (p.symbols m).map Prod.fst := by
  induction modules using List.reverseRecOn with
  | nil => exact ⟨fun h => absurd h List.not_mem_nil,fun ⟨m,hm,_⟩ => absurd hm List.not_mem_nil⟩
  | append_singleton modules m ih =>
    rw [List.foldl_append, List.foldl_cons, List.foldl_nil, gather_mem, ih]
    simp only [List.mem_append, List.mem_singleton, or_and_right, exists_or, exists_eq_left]

theorem foldl_gather_subset (modules : List HModule) (s : Bytes × ℕ)
    (hs : s ∈ modules.foldl (fun symbols m => gatherSymbols symbols (p.symbols m)) []) :
    ∃ m ∈ modules, s ∈ p.symbols m := by
  induction modules using List.reverseRecOn with
  | nil => exact absurd hs List.not_mem_nil
  | append_singleton modules m ih =>
    rw [List.foldl_append, List.foldl_cons, List.foldl_nil] at hs
    rcases gather_subset _ _ s hs with hmem | hmem
    · obtain ⟨n,hn,hsn⟩ := ih hmem
      exact ⟨n,List.mem_append_left _ hn,hsn⟩
    · exact ⟨m,List.mem_append_right _ List.mem_cons_self,hmem⟩

/-- A module that has not been visited is gathered from unless dbghelp had loaded it before. -/
theorem gathered_snoc (symLoaded modules : List HModule) {m : HModule} (hm : m ∉ modules) :
    gathered p symLoaded (modules ++ [m]) =
      enumSymbols p {gathered p symLoaded modules with
        loadedModules := modules.map p.baseName ++ [p.baseName m]} m := by
  have hloaded : m ∈ (gathered p symLoaded modules).symLoaded ↔ m ∈ symLoaded := by
    refine List.mem_append.trans (or_iff_left fun h => hm (List.mem_of_mem_filter h))
  rw [enumSymbols]
  by_cases hmem : m ∈ symLoaded
  · rw [if_pos (hloaded.mpr hmem)]
    simp [gathered, List.filter_append, hmem]
  · rw [if_neg (fun h => hmem (hloaded.mp h))]
    simp [gathered, List.filter_append, hmem]

theorem loadSymbols_foldlM {depth : ℕ} {symLoaded : List HModule}
    (h : ∀ m seen, loadSymbolsRecursively p depth m (gathered p symLoaded seen) =
      (visit p.baseName (imported p) depth m seen).map (gathered p symLoaded))
    (imports : List Bytes) (seen : List HModule) :
    imports.foldlM (fun s i => match p.getModuleHandle i with
      | none => some s
      | some hImportModule => loadSymbolsRecursively p depth hImportModule s)
          (gathered p symLoaded seen) =
    ((imports.filterMap p.getModuleHandle).foldlM
      (fun seen m => visit p.baseName (imported p) depth m seen) seen).map
          (gathered p symLoaded) := by
  induction imports generalizing seen with
  | nil => rfl
  | cons i rest ih =>
    rw [List.foldlM_cons, List.filterMap_cons]
    cases p.getModuleHandle i with
    | none => exact ih seen
    | some m =>
      rw [List.foldlM_cons]
      dsimp only
      rw [h]
      cases visit p.baseName (imported p) depth m seen with
      | none => rfl
      | some mid => exact ih mid

/-- The recursion is a depth-first search that gathers as it goes. -/
theorem loadSymbols_visit (symLoaded : List HModule) (depth : ℕ) (hModule : HModule)
    (seen : List HModule) :
    loadSymbolsRecursively p depth hModule (gathered p symLoaded seen) =
      (visit p.baseName (imported p) depth hModule seen).map (gathered p symLoaded) := by
  induction depth generalizing hModule seen with
  | zero => rfl
  | succ depth ih =>
    have hloaded : (gathered p symLoaded seen).loadedModules = seen.map p.baseName := rfl
    rw [loadSymbolsRecursively, visit]
    dsimp only
    rw [hloaded]
    by_cases hmem : p.baseName hModule ∈ seen.map p.baseName
    · rw [if_pos hmem, if_pos hmem]
      rfl
    · have hfold := loadSymbols_foldlM ih (p.imports hModule) (seen ++ [hModule])
      rw [gathered_snoc symLoaded seen (fun h => hmem (List.mem_map_of_mem h))] at hfold
      rw [if_neg hmem, if_neg hmem]
      exact hfold

end Gathering

section Sessions

variable {p : Process}

/-- Finitely many modules, closed under their imports, the ones that are imported together having
names of their own. -/
structure Named (p : Process) (names : Finset Bytes) : Prop where
  closed : ∀ m, p.baseName m ∈ names → ∀ n ∈ imported p m, p.baseName n ∈ names
  injective : ∀ m n, p.baseName m ∈ names → p.baseName n ∈ names → p.baseName m = p.baseName n →
      m = n

structure SymbolsOf (p : Process) (examined : HModule → Prop)
    (symbols : List (Bytes × ℕ)) : Prop where
  names : ∀ f, f ∈ symbols.map Prod.fst ↔ ∃ n, examined n ∧ f ∈ (p.symbols n).map Prod.fst
  addresses : ∀ s ∈ symbols, ∃ n, examined n ∧ s ∈ p.symbols n

theorem named_reaches {names : Finset Bytes} (hp : Named p names) {m n : HModule}
    (hm : p.baseName m ∈ names)
    (hn : ImportedBy p m n) : p.baseName n ∈ names := by
  induction hn with
  | refl => exact hm
  | tail _ hstep ih => exact hp.closed _ ih _ hstep

theorem loadSymbols_symbolsOf {names : Finset Bytes} (hp : Named p names) {m : HModule}
    (hm : p.baseName m ∈ names) {depth : ℕ} (hdepth : names.card < depth)
    (symLoaded : List HModule) :
    ∃ l, loadSymbolsRecursively p depth m ⟨[],[],symLoaded⟩ = some l ∧
      SymbolsOf p (fun n => ImportedBy p m n ∧ n ∉ symLoaded) l.symbols ∧
      ∀ n, n ∈ l.symLoaded ↔ n ∈ symLoaded ∨ ImportedBy p m n := by
  obtain ⟨out,hout⟩ := visit_total hp.closed depth m [] hm (by simpa using hdepth)
  have hall := searched_all (searched_visit depth m [] out hout) (fun x y hx hy =>
    hp.injective x y (named_reaches hp hm hx) (named_reaches hp hm hy))
  have hfresh (n : HModule) :
      n ∈ out.filter (fun m => m ∉ symLoaded) ↔ ImportedBy p m n ∧ n ∉ symLoaded := by
    rw [List.mem_filter, decide_eq_true_iff, hall n]
    rfl
  refine ⟨gathered p symLoaded out,?_,⟨fun f => ?_,fun s hs => ?_⟩,fun n => ?_⟩
  · have hvisit := loadSymbols_visit (p := p) symLoaded depth m []
    rw [hout] at hvisit
    have hnone : gathered p symLoaded [] = ⟨[],[],symLoaded⟩ := by simp [gathered]
    rw [hnone] at hvisit
    exact hvisit
  · exact (foldl_gather_mem _ f).trans (exists_congr fun n => and_congr_left' (hfresh n))
  · obtain ⟨n,hn,hsn⟩ := foldl_gather_subset _ s hs
    exact ⟨n,(hfresh n).mp hn,hsn⟩
  · have hsym : (gathered p symLoaded out).symLoaded =
      symLoaded ++ out.filter (fun m => m ∉ symLoaded) :=
      rfl
    rw [hsym, List.mem_append, hfresh]
    by_cases hn : n ∈ symLoaded
    · exact iff_of_true (.inl hn) (.inl hn)
    · rw [or_iff_right hn, or_iff_right hn, and_iff_left hn]

/-- After some calls, the modules among them are examined, once each, and the symbols of each module
are with the first that led to it. -/
structure Examined (p : Process) (hInstance : HModule) (calls : List HModule)
    (s : State) : Prop where
  loaded : s.loadedModules = s.examined.map (fun e => p.baseName e.1)
  symLoaded : ∀ n, n ∈ s.symLoaded ↔ ∃ d ∈ s.examined.map Prod.fst, ImportedBy p d n
  nodup : (s.examined.map Prod.fst).Nodup
  called : ∀ m, m ∈ s.examined.map Prod.fst ↔ m ≠ hInstance ∧ m ∈ calls
  symbols : ∀ before e after, s.examined = before ++ e::after →
    SymbolsOf p (FirstImportedBy p (before.map Prod.fst) e.1) e.2

theorem examined_skip {hInstance m : HModule} {calls : List HModule} {s : State}
    (h : Examined p hInstance calls s)
    (hm : m = hInstance ∨ m ∈ s.examined.map Prod.fst) : Examined p hInstance (calls ++ [m]) s where
  loaded := h.loaded
  symLoaded := h.symLoaded
  nodup := h.nodup
  symbols := h.symbols
  called n := by
    rw [h.called, List.mem_append, List.mem_singleton]
    refine and_congr_right fun hself => ⟨.inl,fun hn => hn.elim id fun heq => ?_⟩
    rcases hm with hm | hm
    · exact absurd (heq.trans hm) hself
    · exact heq ▸ ((h.called m).mp hm).2

theorem examined_snoc {hInstance m : HModule} {calls : List HModule} {s : State} {l : Loading}
    (h : Examined p hInstance calls s) (hself : m ≠ hInstance) (hnew : m ∉ s.examined.map Prod.fst)
    (hsymbols : SymbolsOf p (fun n => ImportedBy p m n ∧ n ∉ s.symLoaded) l.symbols)
    (hsymLoaded : ∀ n, n ∈ l.symLoaded ↔ n ∈ s.symLoaded ∨ ImportedBy p m n) :
    Examined p hInstance (calls ++ [m])
      ⟨s.loadedModules ++ [p.baseName m],true,l.symLoaded,s.examined ++ [(m,l.symbols)]⟩ where
  loaded := by
    rw [List.map_append, h.loaded]
    rfl
  symLoaded n := by
    rw [hsymLoaded, h.symLoaded, List.map_append, List.map_singleton]
    simp only [List.mem_append, List.mem_singleton, or_and_right, exists_or, exists_eq_left]
  nodup := by
    rw [List.map_append]
    exact h.nodup.append (List.nodup_singleton _) (List.disjoint_singleton.mpr hnew)
  called n := by
    rw [List.map_append, List.mem_append, h.called, List.mem_append, List.map_singleton,
      and_or_left]
    exact or_congr_right ⟨fun hn => ⟨List.mem_singleton.mp hn ▸ hself,hn⟩,And.right⟩
  symbols before e after heq := by
    rcases List.eq_nil_or_concat after with rfl | ⟨after,e',rfl⟩
    · obtain ⟨rfl,hlast⟩ := List.append_inj' heq rfl
      obtain rfl := (List.cons.inj hlast).1
      have hfirst : FirstImportedBy p (s.examined.map Prod.fst) m =
          fun n => ImportedBy p m n ∧ n ∉ s.symLoaded := by
        funext n
        rw [FirstImportedBy, h.symLoaded, not_exists]
        simp only [not_and]
      exact hfirst ▸ hsymbols
    · rw [List.concat_eq_append, ← List.cons_append, ← List.append_assoc] at heq
      exact h.symbols before e after (List.append_inj' heq rfl).1

theorem examined_postLoadLibrary {names : Finset Bytes} (hp : Named p names) {hInstance m : HModule}
    {calls : List HModule} {s : State} {depth : ℕ} (hdepth : names.card < depth)
    (hcalls : ∀ n ∈ calls, p.baseName n ∈ names) (hm : p.baseName m ∈ names)
    (h : Examined p hInstance calls s) :
    ∃ t, postLoadLibrary p hInstance depth s m true = some t ∧
        Examined p hInstance (calls ++ [m]) t := by
  have hmem : p.baseName m ∈ s.loadedModules ↔ m ∈ s.examined.map Prod.fst := by
    rw [h.loaded, List.mem_map, List.mem_map]
    refine exists_congr fun e => and_congr_right fun he => ⟨fun hname => ?_,fun heq => heq ▸ rfl⟩
    have hcalled := ((h.called e.1).mp (List.mem_map_of_mem he)).2
    exact hp.injective _ _ (hcalls _ hcalled) hm hname
  rw [postLoadLibrary]
  by_cases hself : m = hInstance
  · exact ⟨s,if_pos hself,examined_skip h (.inl hself)⟩
  rw [if_neg hself]
  by_cases hloaded : p.baseName m ∈ s.loadedModules
  · exact ⟨s,if_pos hloaded,examined_skip h (.inr (hmem.mp hloaded))⟩
  obtain ⟨l,hl,hsymbols,hsymLoaded⟩ := loadSymbols_symbolsOf hp hm hdepth s.symLoaded
  refine ⟨⟨s.loadedModules ++ [p.baseName m],true,l.symLoaded,s.examined ++ [(m,l.symbols)]⟩,?_,
    examined_snoc h hself (fun hin => hloaded (hmem.mpr hin)) hsymbols hsymLoaded⟩
  rw [if_neg hloaded]
  dsimp only
  rw [Bool.not_true, Bool.and_false, if_neg Bool.false_ne_true, hl]
  rfl

/-- However modules come to be loaded, each is examined once, and the symbols of each module they
depend on are gathered for the first of them that leads to it. -/
theorem modules_examined {names : Finset Bytes} (hp : Named p names) (hInstance : HModule)
    {depth : ℕ}
    (hdepth : names.card < depth) (calls : List HModule)
    (hcalls : ∀ m ∈ calls, p.baseName m ∈ names) :
    ∃ s, calls.foldlM (fun s m => postLoadLibrary p hInstance depth s m true) initial = some s ∧
      (s.examined.map Prod.fst).Nodup ∧
          (∀ m, m ∈ s.examined.map Prod.fst ↔ m ≠ hInstance ∧ m ∈ calls) ∧
      ∀ before e after, s.examined = before ++ e::after →
        SymbolsOf p (FirstImportedBy p (before.map Prod.fst) e.1) e.2 := by
  suffices hrun :
      ∃ s, calls.foldlM (fun s m => postLoadLibrary p hInstance depth s m true) initial = some s ∧
      Examined p hInstance calls s from by
    obtain ⟨s,hs,h⟩ := hrun
    exact ⟨s,hs,h.nodup,h.called,h.symbols⟩
  induction calls using List.reverseRecOn with
  | nil =>
    refine ⟨initial,rfl,rfl,fun n => ?_,List.nodup_nil,fun m => ?_,fun before e after heq => ?_⟩
    · exact iff_of_false List.not_mem_nil fun ⟨d,hd,_⟩ => absurd hd List.not_mem_nil
    · exact iff_of_false List.not_mem_nil fun h => absurd h.2 List.not_mem_nil
    · exact absurd heq.symm (List.append_ne_nil_of_right_ne_nil before (List.cons_ne_nil e after))
  | append_singleton calls m ih =>
    obtain ⟨hcalls,hm⟩ := List.forall_mem_append.mp hcalls
    obtain ⟨s,hs,h⟩ := ih hcalls
    obtain ⟨t,ht,hexamined⟩ := examined_postLoadLibrary hp hdepth hcalls (hm m List.mem_cons_self) h
    refine ⟨t,?_,hexamined⟩
    rw [List.foldlM_append, hs]
    rw [Option.bind_eq_bind, Option.bind_some, List.foldlM_cons, ht]
    rfl

def twoModules : Process where
  baseName m := if m = 1 then [1] else if m = 2 then [2] else []
  imports m := if m = 1 then [[2]] else if m = 2 then [[2],[9]] else []
  getModuleHandle name := if name = [2] then some 2 else none
  symbols m := if m = 2 then [([108],4096)] else []

theorem twoModules_name {m : HModule} (h : twoModules.baseName m ∈ ({[1],[2]} : Finset Bytes)) :
    m = 1 ∨ m = 2 := by
  by_contra hne
  obtain ⟨h₁,h₂⟩ := not_or.mp hne
  have hname : twoModules.baseName m = [] := by
    rw [twoModules]
    dsimp only
    rw [if_neg h₁, if_neg h₂]
  rw [hname] at h
  simp at h

theorem named_twoModules : Named twoModules {[1],[2]} where
  closed m hm n hn := by
    rcases twoModules_name hm with rfl | rfl
    · have himported : imported twoModules 1 = [2] := rfl
      rw [himported] at hn
      rw [List.mem_singleton.mp hn]
      decide
    · have himported : imported twoModules 2 = [2] := rfl
      rw [himported] at hn
      rw [List.mem_singleton.mp hn]
      decide
  injective m n hm hn h := by
    rcases twoModules_name hm with rfl | rfl <;> rcases twoModules_name hn with rfl | rfl
    · rfl
    · exact absurd h (by decide)
    · exact absurd h (by decide)
    · rfl

theorem twoModules_examined :
    ∃ s, [1,2,1].foldlM (fun s m => postLoadLibrary twoModules 0 3 s m true) initial = some s ∧
      (s.examined.map Prod.fst).Nodup ∧ (∀ m, m ∈ s.examined.map Prod.fst ↔ m ≠ 0 ∧ m ∈ [1,2,1]) ∧
      ∀ before e after, s.examined = before ++ e::after →
        SymbolsOf twoModules (FirstImportedBy twoModules (before.map Prod.fst) e.1) e.2 := by
  have hnames : ∀ m ∈ [1,2,1], twoModules.baseName m ∈ ({[1],[2]} : Finset Bytes) := by decide
  exact modules_examined named_twoModules 0 (by decide) [1,2,1] hnames

end Sessions

end Vecoda.LoadedSymbols
