import Vecoda.Breakpoints
import Vecoda.DecodedTables

/-!
# The files of the adapter

files.lua numbers the scripts in the order in which it hears of them, and keeps
each under the path the editor knows it by. breakpoint.lua keeps the breakpoints
of a path that has no file yet, and sets them when it is loaded. What the file
system says is a parameter.
-/

set_option autoImplicit false

namespace Vecoda.Files
open MessagePipe LuaText Breakpoints

structure FileSystem where
  isAbsolute : Bytes → Lua Bool
  «exists» : Bytes → Lua Bool

/-- A file on disk has a path and an id, a script in memory has a reference. -/
structure Entry where
  name : Option Bytes
  path : Option Bytes
  content : Bytes
  id : Option ℕ
  sourceReference : Option ℕ
  breakpoints : Table

structure FileTable where
  baseDir : Bytes
  files : ℕ → Option Entry
  path2file : Bytes → Option ℕ
  fileId : ℕ
  unvalidBreakpoints : Bytes → Option (List SourceBreakpoint)
  breakpointId : ℕ

def lower (s : Bytes) : Bytes :=
  s.map (fun c => if byte 'A' ≤ c && c ≤ byte 'Z' then c+32 else c)

def backslashes (s : Bytes) : Bytes := s.map (fun c => if c = byte '/' then byte '\\' else c)

/-- `not baseDir:sub(-1)` is false, which is never a backslash. -/
def init (cwd : Option Bytes) (t : FileTable) : FileTable :=
  {t with baseDir := backslashes (cwd.getD []) ++ [byte '\\']}

def initial : FileTable := ⟨[],fun _ => none,fun _ => none,0,fun _ => none,0⟩

def push (stash : List Bytes) (p : Bytes) : List Bytes :=
  if p = text "." then stash
  else if p = text ".." then stash.dropLast
  else stash ++ [p]

def normalize (path : Bytes) : Bytes :=
  List.intercalate [byte '\\'] (((path.splitOn (byte '\\')).filter (· ≠ [])).foldl push [])

def fileName (name : Bytes) : Option Bytes :=
  let last := (name.reverse.takeWhile (· ≠ byte '/')).reverse
  if last = [] then none else some last

def FileTable.getFileByPath (t : FileTable) (path : Bytes) : Option ℕ :=
  t.path2file (lower (backslashes path))

structure Outcome where
  table : FileTable
  toggled : List (ℕ × ℤ)
  raised : Bool

section Handlers

variable (fs : FileSystem) (load : Load) (pairs : Pairs (ℤ × Breakpoint))

def waiting (id : ℕ) (breakpoints : List SourceBreakpoint) : List SourceBreakpoint :=
  breakpoints.mapIdx (fun i bp => {bp with id := some (id+1+i)})

def setBreakpoints (path : Bytes) (breakpoints : List SourceBreakpoint) (t : FileTable) :
    FileTable × List Reply × List (ℕ × ℤ) :=
  match t.getFileByPath path with
  | none =>
    let unvalidBreakpoint := waiting t.breakpointId breakpoints
    ({t with
       unvalidBreakpoints :=
         Function.update t.unvalidBreakpoints (lower (backslashes path)) (some unvalidBreakpoint),
       breakpointId := t.breakpointId + breakpoints.length},
     unvalidBreakpoint.map (fun bp => ⟨bp.id.getD 0,false,bp.line,none⟩),[])
  | some k =>
    match t.files k with
    | none => (t,[],[])
    | some file =>
      let (objFile,bps,toggled,id) :=
        Breakpoints.setBreakpoints load pairs t.breakpointId ⟨k,file.breakpoints⟩ breakpoints
      ({t with
         files := Function.update t.files k (some {file with breakpoints := objFile.breakpoints}),
         breakpointId := id},
       bps,toggled.map (fun line => (k,line)))

def loadFile (path : Bytes) (t : FileTable) : FileTable × List (ℕ × ℤ) :=
  match t.unvalidBreakpoints path with
  | none => (t,[])
  | some breakpoints =>
    let t := {t with unvalidBreakpoints := Function.update t.unvalidBreakpoints path none}
    let (t,_,toggled) := setBreakpoints load pairs path breakpoints t
    (t,toggled)

def resolve (name baseDir : Bytes) : Lua Bytes := do
  let name := backslashes (if (text ".\\").isPrefixOf name then name.drop 2 else name)
  return if ← fs.isAbsolute name then name else baseDir ++ normalize name

/-- The `loadedSource` event is not shown: `loadedSource_encoded` says that it does not raise. -/
def addFile (name content : Bytes) (t : FileTable) : Outcome :=
  match (do let name ← resolve fs name t.baseDir; return (name,← fs.exists name) : Lua (Bytes × Bool)) with
  | .error _ => ⟨t,[],true⟩
  | .ok (name,true) =>
    let file : Entry := ⟨fileName name,some name,content,some t.fileId,none,[]⟩
    let t := {t with files := Function.update t.files t.fileId (some file)}
    let t := {t with path2file := Function.update t.path2file (lower name) (some t.fileId)}
    let (t,toggled) := loadFile load pairs (lower name) t
    ⟨{t with fileId := t.fileId+1},toggled,false⟩
  | .ok (_,false) =>
    let file : Entry := ⟨some (text "Memory"),none,content,none,some t.fileId,[]⟩
    ⟨{t with files := Function.update t.files t.fileId (some file), fileId := t.fileId+1},[],false⟩

def scriptSource (s : Backend.Script) : Bytes :=
  if s.state = .unavailable then text "<unavailable>" else text "<binary>"

def replay (scripts : List Backend.Script) (t : FileTable) : Outcome :=
  scripts.foldl
    (fun o s =>
      if o.raised then o
      else
        let added := addFile fs load pairs s.name (scriptSource s) o.table
        {added with toggled := o.toggled ++ added.toggled})
    ⟨t,[],false⟩

def eventSource (source : Bytes) : Backend.CodeState → Bytes
  | .normal => source
  | .unavailable => text "<unavailable>"
  | .binary => text "<binary>"

end Handlers

structure SameFiles (t t' : FileTable) : Prop where
  baseDir : t'.baseDir = t.baseDir
  fileId : t'.fileId = t.fileId
  files : ∀ k, (t'.files k).isSome = (t.files k).isSome

/-- What `addFile` asks of the file system goes well. -/
def Addable (fs : FileSystem) (baseDir name : Bytes) : Prop :=
  ∃ path found, resolve fs name baseDir = .ok path ∧ fs.exists path = .ok found

section Spec

variable (fs : FileSystem) (load : Load) (pairs : Pairs (ℤ × Breakpoint)) (t : FileTable)

theorem sameFiles_setBreakpoints (path : Bytes) (breakpoints : List SourceBreakpoint) :
    SameFiles t (setBreakpoints load pairs path breakpoints t).1 := by
  unfold setBreakpoints
  split
  · exact ⟨rfl,rfl,fun _ => rfl⟩
  · rename_i k hk
    split
    · exact ⟨rfl,rfl,fun _ => rfl⟩
    · rename_i file hfile
      refine ⟨rfl,rfl,fun j => ?_⟩
      by_cases hj : j = k
      · rw [hj, hfile]
        dsimp only
        rw [Function.update_self]
        rfl
      · dsimp only
        rw [Function.update_of_ne hj]

theorem sameFiles_loadFile (path : Bytes) : SameFiles t (loadFile load pairs path t).1 := by
  unfold loadFile
  split
  · exact ⟨rfl,rfl,fun _ => rfl⟩
  · rename_i breakpoints hpath
    have hset := sameFiles_setBreakpoints load pairs
      {t with unvalidBreakpoints := Function.update t.unvalidBreakpoints path none} path breakpoints
    exact ⟨hset.baseDir,hset.fileId,hset.files⟩

/-- A new file takes the next number, and the others stay. -/
theorem addFile_spec (name content : Bytes) (h : Addable fs t.baseDir name) :
    (addFile fs load pairs name content t).raised = false ∧
    (addFile fs load pairs name content t).table.baseDir = t.baseDir ∧
    (addFile fs load pairs name content t).table.fileId = t.fileId+1 ∧
    ∀ k, ((addFile fs load pairs name content t).table.files k).isSome =
      (k = t.fileId || (t.files k).isSome) := by
  obtain ⟨path,found,hresolve,hexists⟩ := h
  have hfound (file : Entry) (k : ℕ) : (Function.update t.files t.fileId (some file) k).isSome =
      (k = t.fileId || (t.files k).isSome) := by
    by_cases hk : k = t.fileId
    · simp [hk]
    · simp [hk]
  have hpath : (do let name ← resolve fs name t.baseDir; return (name,← fs.exists name) : Lua (Bytes × Bool)) =
      .ok (path,found) := by
    rw [hresolve]
    change (fs.exists path).bind (fun e => .ok (path,e)) = _
    rw [hexists]
    rfl
  unfold addFile
  rw [hpath]
  cases found with
  | false => exact ⟨rfl,rfl,rfl,hfound _⟩
  | true =>
    dsimp only
    have hload := sameFiles_loadFile load pairs
      {t with
        files := Function.update t.files t.fileId (some ⟨fileName path,some path,content,some t.fileId,none,[]⟩),
        path2file := Function.update t.path2file (lower path) (some t.fileId)} (lower path)
    refine ⟨rfl,hload.baseDir,by rw [hload.fileId],fun k => ?_⟩
    rw [hload.files k]
    exact hfound _ k

end Spec

section Announcement
open JsonGrammar JsonEncode JsonRoundTrip DecodedTables

/-- The package of the event: the message, its body and the source in it. -/
def loadedSource (seq : ℕ) (path : Bytes) (name : Option Bytes) : Heap ℕ 3
  | 0 =>
    ⟨[(.string (text "type"),.string (text "event")),
      (.string (text "event"),.string (text "loadedSource")),
      (.string (text "body"),.table 1),(.string (text "seq"),.number seq)],false,
      by simp only [List.map_cons, List.map_nil]; decide,by simp⟩
  | 1 =>
    ⟨[(.string (text "reason"),.string (text "new")),(.string (text "source"),.table 2)],false,
      by decide,by simp⟩
  | 2 =>
    ⟨(.string (text "path"),.string path) ::
        (name.map (fun s => (Key.string (text "name"),LuaValue.string s))).toList,false,
      by cases name <;> simp only [Option.map, Option.toList, List.map_cons, List.map_nil] <;> decide,
      by cases name <;> simp⟩

variable (seq : ℕ) (path : Bytes) (name : Option Bytes)

def sourceRows : List (Bytes × LuaValue ℕ 3 × Value ℕ) :=
  (text "path",.string path,.string path) ::
    (name.map (fun s => (text "name",LuaValue.string s,Value.string s))).toList

def bodyRows : List (Bytes × LuaValue ℕ 3 × Value ℕ) :=
  [(text "reason",.string (text "new"),.string (text "new")),
    (text "source",.table 2,.object ((sourceRows path name).map (fun r => (r.1,r.2.2))))]

def eventRows : List (Bytes × LuaValue ℕ 3 × Value ℕ) :=
  [(text "type",.string (text "event"),.string (text "event")),
    (text "event",.string (text "loadedSource"),.string (text "loadedSource")),
    (text "body",.table 1,.object ((bodyRows path name).map (fun r => (r.1,r.2.2)))),
    (text "seq",.number seq,.number seq)]

theorem source_holds : Holds (loadedSource seq path name) (.table 2)
    (.object ((sourceRows path name).map (fun r => (r.1,r.2.2)))) := by
  refine .object 2 (sourceRows path name) rfl ?_ ?_
  · cases name with
    | none => exact List.Perm.refl _
    | some s => exact List.Perm.refl _
  · intro r hr
    cases name with
    | none =>
      rw [List.mem_singleton.mp hr]
      exact .string path
    | some s =>
      rcases List.mem_cons.mp hr with rfl | hr
      · exact .string path
      · rw [List.mem_singleton.mp hr]
        exact .string s

theorem body_holds : Holds (loadedSource seq path name) (.table 1)
    (.object ((bodyRows path name).map (fun r => (r.1,r.2.2)))) := by
  refine .object 1 (bodyRows path name) rfl (List.Perm.refl _) ?_
  rintro r (_ | ⟨_,_ | ⟨_,hr⟩⟩)
  · exact .string _
  · exact source_holds seq path name
  · cases hr

theorem event_holds : Holds (loadedSource seq path name) (.table 0)
    (.object ((eventRows seq path name).map (fun r => (r.1,r.2.2)))) := by
  refine .object 0 (eventRows seq path name) rfl (List.Perm.refl _) ?_
  rintro r (_ | ⟨_,_ | ⟨_,_ | ⟨_,_ | ⟨_,hr⟩⟩⟩⟩)
  · exact .string _
  · exact .string _
  · exact body_holds seq path name
  · exact .number seq
  · cases hr

/-- Strings and natural numbers are encoded, whatever bytes the path has. -/
theorem loadedSource_encoded :
    ∃ s, encode naturalFormats (loadedSource seq path name) (.table 0) = .ok s := by
  refine ⟨_,(encode_held (event_holds seq path name) _).mpr ⟨?_,rfl⟩⟩
  cases name with
  | none => rfl
  | some s => rfl

end Announcement

end Vecoda.Files
