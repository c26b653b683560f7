import Vecoda.BreakpointSync
import Vecoda.Files
import Vecoda.Transitions

/-!
# Breakpoints that follow a path

The requests of the user are made for paths, the breakpoints are kept with the
file entries. `path2file` leads to the newest entry of a path and
`unvalidBreakpoints` holds what was asked for before there was one; an entry
that a reload has replaced is reached by neither.
-/

set_option autoImplicit false

namespace Vecoda.PathBreakpoints
open MessagePipe LuaText Breakpoints BreakpointSync Files Transitions

def key (path : Bytes) : Bytes := lower (backslashes path)

structure State where
  table : FileTable
  last : Bytes → Option Request

inductive Act where
  | setBreakpoints (path : Bytes) (breakpoints : Request)
  | addFile (fs : FileSystem) (name content : Bytes)

section Model

variable (load : Load) (pairs : Pairs (ℤ × Breakpoint))

def perform (s : State) : Act → State
  | .setBreakpoints path breakpoints =>
    ⟨(Files.setBreakpoints load pairs path breakpoints s.table).1,
      Function.update s.last (key path) (some breakpoints)⟩
  | .addFile fs name content => {s with table := (addFile fs load pairs name content s.table).table}

def Step (s : State) (a : Act) (s' : State) : Prop := s' = perform load pairs s a

def start (cwd : Option Bytes) : State := ⟨init cwd initial,fun _ => none⟩

def wanted (s : State) (path : Bytes) : List ℤ := validLines load ((s.last path).getD [])

def Follows (s : State) : Prop :=
  ∀ k file path, s.table.files k = some file → file.path = some path →
    ∀ l, l ∈ keys file.breakpoints ↔ l ∈ wanted load s (key path)

/-- A request reaches all entries of its path or changes no line of it; an entry
that is not the first of its path comes when nothing is wanted there. -/
def Reaches (s : State) : Act → Prop
  | .setBreakpoints path breakpoints =>
    ∀ k file p, s.table.files k = some file → file.path = some p → key p = key path →
      s.table.getFileByPath path ≠ some k →
        ∀ l, l ∈ validLines load breakpoints ↔ l ∈ wanted load s (key path)
  | .addFile fs name _ =>
    ∀ path, resolve fs name s.table.baseDir = .ok path → fs.exists path = .ok true →
      s.table.path2file (key path) ≠ none → wanted load s (key path) = []

end Model

section Paths

theorem slash_backslashes (s : Bytes) : byte '/' ∉ backslashes s := by
  intro h
  obtain ⟨c,-,hc⟩ := List.mem_map.mp h
  split at hc
  · exact absurd hc (by decide)
  · exact absurd hc ‹_›

theorem backslashes_id (s : Bytes) (h : byte '/' ∉ s) : backslashes s = s := by
  have hmap : s.map (fun c => if c = byte '/' then byte '\\' else c) = s.map id := by
    apply List.map_congr_left
    intro c hc
    have hne : c ≠ byte '/' := fun he => h (he ▸ hc)
    rw [if_neg hne, id]
  rw [backslashes, hmap, List.map_id]

def lowerByte (c : UInt8) : UInt8 := if byte 'A' ≤ c && c ≤ byte 'Z' then c+32 else c

theorem lowerByte_toNat (c : UInt8) :
    (lowerByte c).toNat = if 65 ≤ c.toNat ∧ c.toNat ≤ 90 then c.toNat + 32 else c.toNat := by
  have hA : (byte 'A').toNat = 65 := rfl
  have hZ : (byte 'Z').toNat = 90 := rfl
  by_cases h : 65 ≤ c.toNat ∧ c.toNat ≤ 90
  · have hc : (byte 'A' ≤ c && c ≤ byte 'Z') = true := by
      simpa [UInt8.le_iff_toNat_le, hA, hZ] using h
    rw [lowerByte, if_pos hc, if_pos h, UInt8.toNat_add]
    exact Nat.mod_eq_of_lt (by change c.toNat + 32 < 256; omega)
  · have hc : ¬ (byte 'A' ≤ c && c ≤ byte 'Z') = true := by
      simpa [UInt8.le_iff_toNat_le, hA, hZ] using h
    rw [lowerByte, if_neg hc, if_neg h]

theorem lower_lowerByte (c : UInt8) : lowerByte (lowerByte c) = lowerByte c := by
  rw [← UInt8.toNat_inj, lowerByte_toNat (lowerByte c), lowerByte_toNat c]
  by_cases h : 65 ≤ c.toNat ∧ c.toNat ≤ 90
  · rw [if_pos h, if_neg (by omega)]
  · rw [if_neg h, if_neg h]

theorem slash_lower (s : Bytes) (h : byte '/' ∉ s) : byte '/' ∉ lower s := by
  intro hs
  obtain ⟨c,hc,he⟩ := List.mem_map.mp hs
  have hn : (lowerByte c).toNat = 47 := congrArg UInt8.toNat he
  rw [lowerByte_toNat] at hn
  have h47 : c.toNat = (byte '/').toNat := by
    change c.toNat = 47
    split at hn <;> omega
  exact h (UInt8.toNat_inj.mp h47 ▸ hc)

theorem key_clean (path : Bytes) (h : byte '/' ∉ path) : key path = lower path := by
  rw [key, backslashes_id path h]

theorem key_lower (path : Bytes) (h : byte '/' ∉ path) : key (lower path) = lower path := by
  rw [key_clean _ (slash_lower path h)]
  change ((path.map lowerByte).map lowerByte) = path.map lowerByte
  rw [List.map_map]
  exact List.map_congr_left (fun c _ => lower_lowerByte c)

theorem mem_intercalate (sep : Bytes) (parts : List Bytes) (c : UInt8) (hs : c ∉ sep) :
    c ∈ List.intercalate sep parts ↔ ∃ p ∈ parts, c ∈ p := by
  induction parts with
  | nil => simp [List.intercalate_nil]
  | cons p parts ih =>
    cases parts with
    | nil => simp [List.intercalate_singleton]
    | cons q parts =>
      rw [List.intercalate_cons_cons, List.append_assoc]
      simp only [List.mem_append, hs, false_or, ih, List.mem_cons, exists_eq_or_imp]

theorem mem_push (stash parts : List Bytes) (p : Bytes) (h : p ∈ parts.foldl push stash) :
    p ∈ stash ∨ p ∈ parts := by
  induction parts generalizing stash with
  | nil => exact .inl h
  | cons q parts ih =>
    rcases ih _ h with hp | hp
    · unfold push at hp
      split at hp
      · exact .inl hp
      · split at hp
        · exact .inl ((List.dropLast_sublist stash).mem hp)
        · rcases List.mem_append.mp hp with hp | hp
          · exact .inl hp
          · exact .inr (by simp [List.mem_singleton.mp hp])
    · exact .inr (List.mem_cons_of_mem q hp)

theorem slash_normalize (path : Bytes) (h : byte '/' ∉ path) : byte '/' ∉ normalize path := by
  have hsep : byte '/' ∉ [byte '\\'] := by decide
  intro hn
  obtain ⟨p,hp,hc⟩ := (mem_intercalate _ _ _ hsep).mp hn
  have hpart : p ∈ path.splitOn (byte '\\') := by
    rcases mem_push _ _ p hp with hp | hp
    · exact absurd hp List.not_mem_nil
    · exact List.mem_of_mem_filter hp
  have hmem := (mem_intercalate [byte '\\'] _ _ hsep).mpr ⟨p,hpart,hc⟩
  rw [List.intercalate_splitOn] at hmem
  exact h hmem

theorem slash_resolve (fs : FileSystem) (name baseDir path : Bytes) (hb : byte '/' ∉ baseDir)
    (h : resolve fs name baseDir = .ok path) : byte '/' ∉ path := by
  unfold resolve at h
  generalize (if (text ".\\").isPrefixOf name then name.drop 2 else name) = name' at h
  have hname := slash_backslashes name'
  cases ha : fs.isAbsolute (backslashes name') with
  | error e =>
    simp only [ha] at h
    cases h
  | ok absolute =>
    simp only [ha] at h
    cases absolute with
    | true =>
      cases h
      exact hname
    | false =>
      cases h
      intro hc
      rcases List.mem_append.mp hc with hc | hc
      · exact hb hc
      · exact slash_normalize _ hname hc

end Paths

section Spec

variable (load : Load) (pairs : Pairs (ℤ × Breakpoint))

theorem validLines_waiting (id : ℕ) (breakpoints : Request) :
    validLines load (waiting id breakpoints) = validLines load breakpoints := by
  have hcond (bp : SourceBreakpoint) (n : Option ℕ) :
      prePostCond load {bp with id := n} = prePostCond load bp := rfl
  unfold waiting
  induction breakpoints generalizing id with
  | nil => rfl
  | cons bp breakpoints ih =>
    have hrest := ih (id+1)
    rw [List.mapIdx_cons]
    simp only [validLines, List.filter_cons, hcond] at hrest ⊢
    have hshift :
        (fun i (bp : SourceBreakpoint) => ({bp with id := some (id+1+(i+1))} : SourceBreakpoint)) =
        fun i bp => {bp with id := some (id+1+1+i)} := by
      funext i bp
      congr 2
      omega
    rw [hshift]
    split <;> simp only [List.map_cons, hrest]

theorem setBreakpoints_keys (nextId : ℕ) (file : ObjFile) (breakpoints : Request) (l : ℤ) :
    l ∈ keys (Breakpoints.setBreakpoints load pairs nextId file breakpoints).1.breakpoints ↔
      l ∈ validLines load breakpoints := by
  obtain ⟨-,hk,-⟩ := checkAndPush_spec load (keys file.breakpoints) ⟨nextId,[],[],[]⟩ breakpoints
    ⟨List.nodup_nil,by simp⟩
  exact (hk l).trans (by simp [keys])

theorem setBreakpoints_unloaded (path : Bytes) (breakpoints : Request) (t : FileTable)
    (h : t.path2file (key path) = none) :
    (Files.setBreakpoints load pairs path breakpoints t).1 =
      {t with
        unvalidBreakpoints := Function.update t.unvalidBreakpoints (key path)
          (some (waiting t.breakpointId breakpoints)),
        breakpointId := t.breakpointId + breakpoints.length} := by
  have hn : t.getFileByPath path = none := h
  rw [Files.setBreakpoints, hn]
  rfl

theorem setBreakpoints_loaded (path : Bytes) (breakpoints : Request) (t : FileTable) (k : ℕ)
    (file : Entry) (h : t.path2file (key path) = some k) (hf : t.files k = some file) :
    ∃ table id, (Files.setBreakpoints load pairs path breakpoints t).1 =
        {t with
          files := Function.update t.files k (some {file with breakpoints := table}),
          breakpointId := id} ∧
      ∀ l, l ∈ keys table ↔ l ∈ validLines load breakpoints := by
  have hk : t.getFileByPath path = some k := h
  rw [Files.setBreakpoints, hk]
  simp only [hf]
  exact ⟨_,_,rfl,setBreakpoints_keys load pairs _ _ breakpoints⟩

inductive Added (fs : FileSystem) (name : Bytes) (t : FileTable) : FileTable → Prop where
  | refused (lost : ∀ path, resolve fs name t.baseDir = .ok path → fs.exists path ≠ .ok true) :
      Added fs name t t
  | memory (file : Entry) (nowhere : file.path = none)
      (lost : ∀ path, resolve fs name t.baseDir = .ok path → fs.exists path ≠ .ok true) :
      Added fs name t {t with
        files := Function.update t.files t.fileId (some file), fileId := t.fileId+1}
  | loaded (path : Bytes) (file : Entry) (id : ℕ) (resolved : resolve fs name t.baseDir = .ok path)
      (found : fs.exists path = .ok true) (at_path : file.path = some path)
      (lines : ∀ l, l ∈ keys file.breakpoints ↔
        l ∈ validLines load ((t.unvalidBreakpoints (key path)).getD [])) :
      Added fs name t {t with
        files := Function.update t.files t.fileId (some file),
        path2file := Function.update t.path2file (key path) (some t.fileId),
        unvalidBreakpoints := Function.update t.unvalidBreakpoints (key path) none,
        breakpointId := id, fileId := t.fileId+1}

/-- The `loadFile` event of a file that has just been entered. -/
theorem loadFile_entered (t : FileTable) (path : Bytes) (file : Entry) (k : ℕ)
    (hkey : key path = path) (hk : t.path2file path = some k) (hf : t.files k = some file)
    (hempty : file.breakpoints = []) :
    ∃ table id, (loadFile load pairs path t).1 =
        {t with
          files := Function.update t.files k (some {file with breakpoints := table}),
          unvalidBreakpoints := Function.update t.unvalidBreakpoints path none,
          breakpointId := id} ∧
      ∀ l, l ∈ keys table ↔ l ∈ validLines load ((t.unvalidBreakpoints path).getD []) := by
  unfold loadFile
  cases hp : t.unvalidBreakpoints path with
  | none =>
    refine ⟨[],t.breakpointId,?_,fun l => Iff.rfl⟩
    have hfile : {file with breakpoints := []} = file := by rw [← hempty]
    have hfiles : Function.update t.files k (some file) = t.files := by
      rw [← hf, Function.update_eq_self]
    have hpending : Function.update t.unvalidBreakpoints path none = t.unvalidBreakpoints := by
      rw [← hp, Function.update_eq_self]
    rw [hfile, hfiles, hpending]
  | some breakpoints =>
    obtain ⟨table,id,he,hl⟩ := setBreakpoints_loaded load pairs path breakpoints
      {t with unvalidBreakpoints := Function.update t.unvalidBreakpoints path none} k file
      (by rw [hkey]; exact hk) hf
    exact ⟨table,id,he,hl⟩

theorem addFile_added (fs : FileSystem) (name content : Bytes) (t : FileTable)
    (hb : byte '/' ∉ t.baseDir) :
    Added load fs name t (addFile fs load pairs name content t).table := by
  unfold addFile
  cases hres : resolve fs name t.baseDir with
  | error e => exact .refused (fun path h => by rw [hres] at h; cases h)
  | ok path =>
    have hlost (hf : fs.exists path ≠ .ok true) (p : Bytes) (h : resolve fs name t.baseDir = .ok p) :
        fs.exists p ≠ .ok true := by
      rw [hres] at h
      cases h
      exact hf
    have hclean := slash_resolve fs name t.baseDir path hb hres
    cases hex : fs.exists path with
    | error e =>
      have hpath :
          (do let name ← .ok path; return (name,← fs.exists name) : Lua (Bytes × Bool)) = .error e := by
        change (fs.exists path).bind (fun b => .ok (path,b)) = _
        rw [hex]
        rfl
      rw [hpath]
      exact .refused (hlost (by rw [hex]; exact fun h => by cases h))
    | ok found =>
      have hpath : (do let name ← .ok path; return (name,← fs.exists name) : Lua (Bytes × Bool)) =
          .ok (path,found) := by
        change (fs.exists path).bind (fun b => .ok (path,b)) = _
        rw [hex]
        rfl
      rw [hpath]
      cases found with
      | false => exact .memory _ rfl (hlost (by rw [hex]; exact fun h => by cases h))
      | true =>
        obtain ⟨table,id,he,hl⟩ := loadFile_entered load pairs
          {t with
            files := Function.update t.files t.fileId
              (some ⟨fileName path,some path,content,some t.fileId,none,[]⟩),
            path2file := Function.update t.path2file (lower path) (some t.fileId)}
          (lower path) _ t.fileId (key_lower path hclean) (Function.update_self ..)
          (Function.update_self ..) rfl
        simp only [he, Function.update_idem]
        rw [← key_clean path hclean] at hl ⊢
        exact .loaded path _ id hres hex rfl hl

end Spec

section Invariant

variable (load : Load) (pairs : Pairs (ℤ × Breakpoint))

/-- `path2file` leads to an entry of the path; a path it does not know has its last
request waiting, and one it knows has none waiting. -/
structure Tracked (s : State) : Prop where
  baseDir : byte '/' ∉ s.table.baseDir
  found : ∀ P k, s.table.path2file P = some k →
    k < s.table.fileId ∧ ∃ file p, s.table.files k = some file ∧ file.path = some p ∧ key p = P
  pending : ∀ P, s.table.path2file P = none →
    validLines load ((s.table.unvalidBreakpoints P).getD []) = wanted load s P
  consumed : ∀ P k, s.table.path2file P = some k → s.table.unvalidBreakpoints P = none
  follows : Follows load s

theorem tracked_start (cwd : Option Bytes) : Tracked load (start cwd) := by
  constructor
  · intro h
    rcases List.mem_append.mp h with h | h
    · exact slash_backslashes _ h
    · revert h
      decide
  · intro P k h
    cases h
  · intro P _
    rfl
  · intro P k h
    cases h
  · intro k file path h
    cases h

theorem wanted_update (s : State) (table : FileTable) (path P : Bytes) (breakpoints : Request) :
    wanted load ⟨table,Function.update s.last path (some breakpoints)⟩ P =
      if P = path then validLines load breakpoints else wanted load s P := by
  unfold wanted
  by_cases h : P = path
  · simp [h]
  · simp [h]

/-- The entry that a request reaches has its lines, the other ones stay. -/
theorem request_files (s : State) (path : Bytes) (breakpoints : Request) (hT : Tracked load s)
    (k : ℕ) (file : Entry)
    (h : (perform load pairs s (.setBreakpoints path breakpoints)).table.files k = some file) :
    if s.table.path2file (key path) = some k then
      (∃ p, file.path = some p ∧ key p = key path) ∧
        ∀ l, l ∈ keys file.breakpoints ↔ l ∈ validLines load breakpoints
    else s.table.files k = some file := by
  cases hp : s.table.path2file (key path) with
  | none =>
    rw [perform, setBreakpoints_unloaded load pairs path breakpoints s.table hp] at h
    rw [if_neg (by simp)]
    exact h
  | some j =>
    obtain ⟨-,old,p,hold,hpath,hkey⟩ := hT.found _ j hp
    obtain ⟨table,id,he,hl⟩ := setBreakpoints_loaded load pairs path breakpoints s.table j old hp hold
    rw [perform, he] at h
    by_cases hk : k = j
    · subst hk
      dsimp only at h
      rw [Function.update_self] at h
      cases h
      rw [if_pos rfl]
      exact ⟨⟨p,hpath,hkey⟩,hl⟩
    · dsimp only at h
      rw [Function.update_of_ne hk] at h
      rw [if_neg (fun he => hk (Option.some.inj he).symm)]
      exact h

theorem request_other (s : State) (path : Bytes) (breakpoints : Request) (hT : Tracked load s)
    (k : ℕ) (file : Entry) (hk : s.table.path2file (key path) ≠ some k)
    (h : s.table.files k = some file) :
    (perform load pairs s (.setBreakpoints path breakpoints)).table.files k = some file := by
  cases hp : s.table.path2file (key path) with
  | none =>
    rw [perform, setBreakpoints_unloaded load pairs path breakpoints s.table hp]
    exact h
  | some j =>
    obtain ⟨-,old,p,hold,-,-⟩ := hT.found _ j hp
    obtain ⟨table,id,he,-⟩ := setBreakpoints_loaded load pairs path breakpoints s.table j old hp hold
    have hne : k ≠ j := fun he => hk (he ▸ hp)
    rw [perform, he]
    dsimp only
    rw [Function.update_of_ne hne]
    exact h

theorem follows_request (s : State) (path : Bytes) (breakpoints : Request) (hT : Tracked load s) :
    Follows load (perform load pairs s (.setBreakpoints path breakpoints)) ↔
      Reaches load s (.setBreakpoints path breakpoints) := by
  have hwanted (P : Bytes) : wanted load (perform load pairs s (.setBreakpoints path breakpoints)) P =
      if P = key path then validLines load breakpoints else wanted load s P :=
    wanted_update load s _ (key path) P breakpoints
  constructor
  · intro hF k file p hfile hp hkey hne l
    have hnew := hF k file p (request_other load pairs s path breakpoints hT k file hne hfile) hp l
    rw [hwanted, if_pos hkey] at hnew
    rw [← hnew, ← hkey]
    exact hT.follows k file p hfile hp l
  · intro hR k file p hfile hp l
    have hd := request_files load pairs s path breakpoints hT k file hfile
    rw [hwanted]
    by_cases hk : s.table.path2file (key path) = some k
    · rw [if_pos hk] at hd
      obtain ⟨⟨q,hq,hkey⟩,hl⟩ := hd
      cases hp.symm.trans hq
      rw [if_pos hkey]
      exact hl l
    · rw [if_neg hk] at hd
      rw [hT.follows k file p hd hp l]
      by_cases hkey : key p = key path
      · rw [if_pos hkey, hR k file p hd hp hkey hk l, hkey]
      · rw [if_neg hkey]

theorem tracked_request (s : State) (path : Bytes) (breakpoints : Request) (hT : Tracked load s)
    (hR : Reaches load s (.setBreakpoints path breakpoints)) :
    Tracked load (perform load pairs s (.setBreakpoints path breakpoints)) := by
  have hF := (follows_request load pairs s path breakpoints hT).mpr hR
  have hwanted (P : Bytes) : wanted load (perform load pairs s (.setBreakpoints path breakpoints)) P =
      if P = key path then validLines load breakpoints else wanted load s P :=
    wanted_update load s _ (key path) P breakpoints
  cases hp : s.table.path2file (key path) with
  | none =>
    have he := setBreakpoints_unloaded load pairs path breakpoints s.table hp
    refine ⟨?_,?_,?_,?_,hF⟩
    · rw [perform, he]
      exact hT.baseDir
    · rw [perform, he]
      exact hT.found
    · intro P hP
      rw [hwanted]
      rw [perform, he] at hP ⊢
      by_cases hk : P = key path
      · simp [hk, validLines_waiting]
      · simpa [hk] using hT.pending P hP
    · intro P k hP
      rw [perform, he] at hP ⊢
      have hk : P ≠ key path := by
        rintro rfl
        rw [hp] at hP
        cases hP
      simpa [hk] using hT.consumed P k hP
  | some j =>
    obtain ⟨-,old,p,hold,hpath,hkey⟩ := hT.found _ j hp
    obtain ⟨table,id,he,-⟩ := setBreakpoints_loaded load pairs path breakpoints s.table j old hp hold
    refine ⟨?_,?_,?_,?_,hF⟩
    · rw [perform, he]
      exact hT.baseDir
    · intro P k hP
      rw [perform, he] at hP ⊢
      obtain ⟨hlt,file,q,hfile,hq,hkq⟩ := hT.found P k hP
      refine ⟨hlt,?_⟩
      by_cases hk : k = j
      · subst hk
        cases hfile.symm.trans hold
        exact ⟨_,q,Function.update_self ..,hq,hkq⟩
      · exact ⟨file,q,by simpa [hk] using hfile,hq,hkq⟩
    · intro P hP
      rw [hwanted]
      rw [perform, he] at hP ⊢
      have hk : P ≠ key path := by
        rintro rfl
        rw [hp] at hP
        cases hP
      rw [if_neg hk]
      exact hT.pending P hP
    · intro P k hP
      rw [perform, he] at hP ⊢
      exact hT.consumed P k hP

theorem entered_cases {s : State} {t : FileTable} {file f : Entry} {k : ℕ}
    (hfiles : t.files = Function.update s.table.files s.table.fileId (some file))
    (hf : t.files k = some f) :
    f = file ∨ s.table.files k = some f := by
  rw [hfiles] at hf
  by_cases hk : k = s.table.fileId
  · rw [hk, Function.update_self] at hf
    exact .inl (Option.some.inj hf).symm
  · rw [Function.update_of_ne hk] at hf
    exact .inr hf

/-- A new entry follows its path if it has the lines wanted there. -/
theorem follows_entered (s : State) (t : FileTable) (file : Entry) (path : Bytes)
    (hT : Tracked load s) (hpath : file.path = some path)
    (hfiles : t.files = Function.update s.table.files s.table.fileId (some file)) :
    Follows load {s with table := t} ↔
      ∀ l, l ∈ keys file.breakpoints ↔ l ∈ wanted load s (key path) := by
  constructor
  · intro hF
    exact hF s.table.fileId file path (by rw [hfiles, Function.update_self]) hpath
  · intro hl k f p hf hp
    rcases entered_cases hfiles hf with rfl | hold
    · cases hp.symm.trans hpath
      exact hl
    · exact hT.follows k f p hold hp

theorem follows_memory (s : State) (t : FileTable) (file : Entry) (hT : Tracked load s)
    (hpath : file.path = none)
    (hfiles : t.files = Function.update s.table.files s.table.fileId (some file)) :
    Follows load {s with table := t} := by
  intro k f p hf hp
  rcases entered_cases hfiles hf with rfl | hold
  · rw [hpath] at hp
    cases hp
  · exact hT.follows k f p hold hp

/-- An empty table has the lines of a path where nothing is wanted. -/
theorem empty_iff (lines : List ℤ) : (∀ l, l ∈ keys [] ↔ l ∈ lines) ↔ lines = [] := by
  constructor
  · intro h
    exact List.eq_nil_iff_forall_not_mem.mpr (fun l hl => List.not_mem_nil ((h l).mpr hl))
  · rintro rfl l
    exact Iff.rfl

theorem follows_add (s : State) (fs : FileSystem) (name content : Bytes) (hT : Tracked load s) :
    Follows load (perform load pairs s (.addFile fs name content)) ↔
      Reaches load s (.addFile fs name content) := by
  have hadded := addFile_added load pairs fs name content s.table hT.baseDir
  change Follows load {s with table := (addFile fs load pairs name content s.table).table} ↔ _
  generalize (addFile fs load pairs name content s.table).table = t at hadded
  have hthe (path : Bytes) (hres : resolve fs name s.table.baseDir = .ok path)
      (hfound : fs.exists path = .ok true) : Reaches load s (.addFile fs name content) ↔
        (s.table.path2file (key path) ≠ none → wanted load s (key path) = []) := by
    constructor
    · intro hR
      exact hR path hres hfound
    · intro h path' hres' _
      cases hres.symm.trans hres'
      exact h
  cases hadded with
  | refused lost =>
    exact ⟨fun _ path hres hfound => absurd hfound (lost path hres),fun _ => hT.follows⟩
  | memory file nowhere lost =>
    refine ⟨fun _ path hres hfound => absurd hfound (lost path hres),fun _ => ?_⟩
    exact follows_memory load s _ file hT nowhere rfl
  | loaded path file id resolved found at_path lines =>
    rw [follows_entered load s _ file path hT at_path rfl, hthe path resolved found]
    cases hp : s.table.path2file (key path) with
    | none =>
      have hl := hT.pending _ hp
      rw [hl] at lines
      exact ⟨fun _ h => absurd rfl h,fun _ => lines⟩
    | some k =>
      rw [hT.consumed _ k hp] at lines
      have hempty : (∀ l, l ∈ keys file.breakpoints ↔ l ∈ wanted load s (key path)) ↔
          ∀ l, l ∈ keys [] ↔ l ∈ wanted load s (key path) :=
        forall_congr' (fun l => by rw [lines l]; rfl)
      rw [hempty, empty_iff]
      exact ⟨fun h _ => h,fun h => h (by simp)⟩

theorem tracked_add (s : State) (fs : FileSystem) (name content : Bytes) (hT : Tracked load s)
    (hR : Reaches load s (.addFile fs name content)) :
    Tracked load (perform load pairs s (.addFile fs name content)) := by
  have hF := (follows_add load pairs s fs name content hT).mpr hR
  have hadded := addFile_added load pairs fs name content s.table hT.baseDir
  change Follows load {s with table := (addFile fs load pairs name content s.table).table} at hF
  change Tracked load {s with table := (addFile fs load pairs name content s.table).table}
  generalize (addFile fs load pairs name content s.table).table = t at hadded hF
  have hfound (file : Entry) (P : Bytes) (k : ℕ) (hP : s.table.path2file P = some k) :
      k < s.table.fileId + 1 ∧ ∃ f p,
        Function.update s.table.files s.table.fileId (some file) k = some f ∧ f.path = some p ∧ key p = P := by
    obtain ⟨hlt,f,p,hf,hp,hkey⟩ := hT.found P k hP
    exact ⟨by omega,f,p,by rw [Function.update_of_ne (by omega)]; exact hf,hp,hkey⟩
  cases hadded with
  | refused lost => exact hT
  | memory file nowhere lost => exact ⟨hT.baseDir,hfound file,hT.pending,hT.consumed,hF⟩
  | loaded path file id resolved found at_path lines =>
    refine ⟨hT.baseDir,fun P k hP => ?_,fun P hP => ?_,fun P k hP => ?_,hF⟩
    · dsimp only at hP
      by_cases hk : P = key path
      · subst hk
        rw [Function.update_self] at hP
        cases hP
        exact ⟨Nat.lt_succ_self _,file,path,Function.update_self ..,at_path,rfl⟩
      · rw [Function.update_of_ne hk] at hP
        exact hfound file P k hP
    · have hk : P ≠ key path := by
        rintro rfl
        simp at hP
      simp only [Function.update_of_ne hk] at hP ⊢
      exact hT.pending P hP
    · by_cases hk : P = key path
      · subst hk
        exact Function.update_self ..
      · simp only [Function.update_of_ne hk] at hP ⊢
        exact hT.consumed P k hP

theorem follows_step_iff (s : State) (a : Act) (hT : Tracked load s) :
    Follows load (perform load pairs s a) ↔ Reaches load s a := by
  cases a with
  | setBreakpoints path breakpoints => exact follows_request load pairs s path breakpoints hT
  | addFile fs name content => exact follows_add load pairs s fs name content hT

theorem tracked_step (s : State) (a : Act) (s' : State) (hT : Tracked load s)
    (hs : Step load pairs s a s') (hR : Reaches load s a) : Tracked load s' := by
  subst hs
  cases a with
  | setBreakpoints path breakpoints => exact tracked_request load pairs s path breakpoints hT hR
  | addFile fs name content => exact tracked_add load pairs s fs name content hT hR

end Invariant

/-- Every loaded entry has the lines last asked for its path, exactly if every step
reaches what it has to. -/
theorem follows_along_iff (load : Load) (pairs : Pairs (ℤ × Breakpoint)) (cwd : Option Bytes)
    (acts : List Act) :
    Along (Step load pairs) (Follows load) (start cwd) acts ↔
      Meets (Step load pairs) (Reaches load) (start cwd) acts := by
  apply along_iff_meets (fun s (hT : Tracked load s) => hT.follows) (tracked_step load pairs)
  · intro s a s' hT hs hR hF
    subst hs
    exact hR ((follows_step_iff load pairs s a hT).mp hF)
  · exact tracked_start load cwd

def disk : FileSystem := ⟨fun _ => .ok true,fun _ => .ok true⟩

def reload : List Act :=
  [.addFile disk (text "C:\\a.lua") (text "return 1"),
   .setBreakpoints (text "C:/a.lua") [⟨3,none,none,none,none⟩],
   .addFile disk (text "C:\\a.lua") (text "return 2")]

theorem follows_last {load : Load} {pairs : Pairs (ℤ × Breakpoint)} {s : State} {acts : List Act}
    (h : Along (Step load pairs) (Follows load) s acts) :
    Follows load (acts.foldl (perform load pairs) s) := by
  induction acts generalizing s with
  | nil => exact h
  | cons a acts ih => exact ih (h.2 _ rfl)

theorem reload_not_follows :
    ¬ Along (Step (fun _ _ => none) inOrder) (Follows (fun _ _ => none)) (start none) reload := by
  intro h
  have hF := follows_last h
  have hempty : ((reload.foldl (perform (fun _ _ => none) inOrder) (start none)).table.files 1).map
      (fun file => (file.path,keys file.breakpoints)) = some (some (text "C:\\a.lua"),[]) := by
    decide +kernel
  obtain ⟨file,hfile,he⟩ := Option.map_eq_some_iff.mp hempty
  have hl := hF 1 file (text "C:\\a.lua") hfile (congrArg Prod.fst he) 3
  have hnone : keys file.breakpoints = [] := congrArg Prod.snd he
  have hlast : (3 : ℤ) ∈ wanted (fun _ _ => none)
      (reload.foldl (perform (fun _ _ => none) inOrder) (start none)) (key (text "C:\\a.lua")) := by
    decide +kernel
  have hmem := hl.mpr hlast
  rw [hnone] at hmem
  exact List.not_mem_nil hmem

end Vecoda.PathBreakpoints
