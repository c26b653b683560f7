import Vecoda.Breakpoints
import Vecoda.Toggles

/-!
# Agreement of the two breakpoint lists

Only flips travel from `setBreakpoints` to `Script::ToggleBreakpoint`. A line
set anew that a request repeats is flipped once for every occurrence, so the
backend's list is the adapter's table with the surplus flips applied to it.
-/

set_option autoImplicit false

namespace Vecoda.BreakpointSync
open MessagePipe LuaText Backend Breakpoints Toggles

abbrev Request := List SourceBreakpoint

def keys (table : Table) : List ℤ := table.map Prod.fst

def wireLine (line : ℤ) : UInt32 := unsigned (line-1)

def serve (load : Load) (pairs : Pairs (ℤ × Breakpoint)) :
    ℕ → ObjFile → List Request → ObjFile × List ℤ
  | _, file, [] => (file,[])
  | nextId, file, r::rs =>
    let (file,_,toggled,nextId) := setBreakpoints load pairs nextId file r
    let (file,rest) := serve load pairs nextId file rs
    (file,toggled ++ rest)

def process (file : ℕ) : DebugBackend → List ℤ → Option DebugBackend
  | b, [] => some b
  | b, line::lines =>
    (b.toggleBreakpoint 0 (unsigned file).toNat (unsigned line)).bind (process file · lines)

section Backend

theorem script_toggleBreakpoint (s : Script) (line : UInt32) :
    (s.toggleBreakpoint line).1 = {s with breakpoints := toggle s.breakpoints line} := by
  unfold Script.toggleBreakpoint toggle
  split <;> rfl

theorem toggleBreakpoint_spec (b : DebugBackend) (L : LuaState) (i : ℕ) (line : UInt32)
    (script : Script) (h : b.scripts[i]? = some script) :
    ∃ b', b.toggleBreakpoint L i line = some b' ∧
      b'.scripts = b.scripts.set i {script with breakpoints := toggle script.breakpoints line} := by
  have hsome : ∃ b', b.toggleBreakpoint L i line = some b' := by
    cases hset : (script.toggleBreakpoint line).2 with
    | true => exact ⟨_,DebugBackend.toggleBreakpoint_set h hset⟩
    | false => exact ⟨_,DebugBackend.toggleBreakpoint_unset h hset⟩
  obtain ⟨b',hb⟩ := hsome
  obtain ⟨s,hs,hscripts,-⟩ := DebugBackend.toggleBreakpoint_script hb
  cases h.symm.trans hs
  exact ⟨b',hb,by rw [hscripts, script_toggleBreakpoint]⟩

theorem process_spec (file : ℕ) (lines : List ℤ) (b : DebugBackend) (script : Script)
    (h : b.scripts[(unsigned file).toNat]? = some script) :
    ∃ b', process file b lines = some b' ∧ b'.scripts[(unsigned file).toNat]? =
      some {script with breakpoints := (lines.map unsigned).foldl toggle script.breakpoints} := by
  induction lines generalizing b script with
  | nil => exact ⟨b,rfl,h⟩
  | cons line lines ih =>
    obtain ⟨b',hb,hs⟩ := toggleBreakpoint_spec b 0 _ (unsigned line) script h
    have hb' : b'.scripts[(unsigned file).toNat]? =
        some {script with breakpoints := toggle script.breakpoints (unsigned line)} := by
      rw [hs, List.getElem?_set_self]
      exact (List.getElem?_eq_some_iff.mp h).1
    rw [process, hb, Option.bind_some, List.map_cons, List.foldl_cons]
    exact ih b' _ hb'

end Backend

section Adapter

variable (load : Load) (pairs : Pairs (ℤ × Breakpoint))

def validLines (request : Request) : List ℤ :=
  (request.filter (fun bp => (prePostCond load bp).toBool)).map SourceBreakpoint.line

def anew (before : List ℤ) (request : Request) : List ℤ :=
  (validLines load request).filter (fun l => l ∉ before)

structure WellFormed (table : Table) : Prop where
  nodup : (keys table).Nodup
  keyed : ∀ e ∈ table, e.2.line = e.1

theorem keys_put (table : Table) (line : ℤ) (bp : Breakpoint) :
    keys (put table line bp) = if line ∈ keys table then keys table else keys table ++ [line] := by
  unfold put keys
  split
  · rw [List.map_map]
    apply List.map_congr_left
    intro e _
    simp only [Function.comp_apply]
    split <;> simp_all
  · rw [List.map_append, List.map_singleton]

theorem wellFormed_put (table : Table) (line : ℤ) (bp : Breakpoint) (h : WellFormed table)
    (hbp : bp.line = line) : WellFormed (put table line bp) := by
  constructor
  · rw [keys_put]
    split
    · exact h.nodup
    · rename_i hl
      have hd := h.nodup
      grind
  · intro e he
    unfold put at he
    split at he
    · obtain ⟨d,hd,rfl⟩ := List.mem_map.mp he
      split
      · exact hbp
      · exact h.keyed d hd
    · rcases List.mem_append.mp he with hm | hm
      · exact h.keyed e hm
      · rw [List.mem_singleton.mp hm]
        exact hbp

theorem checkAndPush_ok (s : Setting) (bp : SourceBreakpoint) (new : Bool)
    (h : (prePostCond load bp).toBool = true) :
    (∃ stored, stored.line = bp.line ∧
      (checkAndPush load s bp new).newBreakpoints = put s.newBreakpoints bp.line stored) ∧
    (checkAndPush load s bp new).toggled = if new then s.toggled ++ [bp.line-1] else s.toggled := by
  cases hc : prePostCond load bp with
  | error err => simp [hc, Except.toBool] at h
  | ok r =>
    rw [checkAndPush, hc]
    exact ⟨⟨_,rfl,rfl⟩,rfl⟩

theorem checkAndPush_error (s : Setting) (bp : SourceBreakpoint) (new : Bool)
    (h : (prePostCond load bp).toBool = false) :
    (checkAndPush load s bp new).newBreakpoints = s.newBreakpoints ∧
    (checkAndPush load s bp new).toggled = s.toggled := by
  cases hc : prePostCond load bp with
  | error err =>
    rw [checkAndPush, hc]
    exact ⟨rfl,rfl⟩
  | ok r => simp [hc, Except.toBool] at h

/-- What the loop over the request adds to the locals. -/
theorem checkAndPush_spec (before : List ℤ) (s : Setting) (request : Request)
    (hs : WellFormed s.newBreakpoints) :
    let s' := request.foldl (fun s bp => checkAndPush load s bp (bp.line ∉ before)) s
    WellFormed s'.newBreakpoints ∧
    (∀ l, l ∈ keys s'.newBreakpoints ↔ l ∈ keys s.newBreakpoints ∨ l ∈ validLines load request) ∧
    s'.toggled = s.toggled ++ (anew load before request).map (· - 1) := by
  induction request generalizing s with
  | nil => exact ⟨hs,by simp [validLines],by simp [anew, validLines]⟩
  | cons bp request ih =>
    rw [List.foldl_cons]
    cases hc : (prePostCond load bp).toBool with
    | true =>
      obtain ⟨⟨stored,hline,hput⟩,htog⟩ := checkAndPush_ok load s bp (bp.line ∉ before) hc
      obtain ⟨hw,hk,ht⟩ := ih (checkAndPush load s bp (bp.line ∉ before))
        (by rw [hput]; exact wellFormed_put _ _ _ hs hline)
      refine ⟨hw,fun l => ?_,?_⟩
      · rw [hk l, hput, keys_put]
        by_cases hm : bp.line ∈ keys s.newBreakpoints <;>
          simp [hm, validLines, hc] <;> grind
      · rw [ht, htog]
        by_cases hm : bp.line ∈ before <;> simp [anew, validLines, hc, hm]
    | false =>
      obtain ⟨hput,htog⟩ := checkAndPush_error load s bp (bp.line ∉ before) hc
      obtain ⟨hw,hk,ht⟩ := ih (checkAndPush load s bp (bp.line ∉ before)) (by rw [hput]; exact hs)
      refine ⟨hw,fun l => ?_,?_⟩
      · rw [hk l, hput]
        simp [validLines, hc]
      · rw [ht, htog]
        simp [anew, validLines, hc]

theorem removed_perm (table : Table) (kept : List ℤ) (h : WellFormed table) :
    (((pairs.list table).filter (fun e => e.2.line ∉ kept)).map (fun e => e.2.line-1)).Perm
      (((keys table).filter (fun l => l ∉ kept)).map (· - 1)) := by
  have hp := ((pairs.perm table).filter (fun e => e.2.line ∉ kept)).map (fun e => e.2.line-1)
  have hfilter : table.filter (fun e => e.2.line ∉ kept) = table.filter (fun e => e.1 ∉ kept) :=
    List.filter_congr (fun e he => by rw [h.keyed e he])
  have hmap : (table.filter (fun e => e.1 ∉ kept)).map (fun e => e.2.line-1) =
      (table.filter (fun e => e.1 ∉ kept)).map (fun e => e.1-1) :=
    List.map_congr_left (fun e he => by rw [h.keyed e (List.mem_of_mem_filter he)])
  rw [hfilter, hmap] at hp
  rw [keys, List.filter_map, List.map_map]
  exact hp

theorem setBreakpoints_spec (nextId : ℕ) (file : ObjFile) (request : Request)
    (hf : WellFormed file.breakpoints) :
    let r := setBreakpoints load pairs nextId file request
    WellFormed r.1.breakpoints ∧ (∀ l, l ∈ keys r.1.breakpoints ↔ l ∈ validLines load request) ∧
    r.2.2.1.Perm ((anew load (keys file.breakpoints) request ++
      (keys file.breakpoints).filter (fun l => l ∉ keys r.1.breakpoints)).map (· - 1)) := by
  obtain ⟨hw,hk,ht⟩ := checkAndPush_spec load (keys file.breakpoints) ⟨nextId,[],[],[]⟩ request
    ⟨List.nodup_nil,by simp⟩
  refine ⟨hw,fun l => (hk l).trans (by simp [keys]),?_⟩
  rw [List.map_append, setBreakpoints]
  exact List.Perm.append (.of_eq (ht.trans (List.nil_append _))) (removed_perm pairs _ _ hf)

/-- Flips of a request, by parity: its surplus, and the tables before and after. -/
theorem setBreakpoints_parity (nextId : ℕ) (file : ObjFile) (request : Request)
    (hf : WellFormed file.breakpoints) (u : UInt32) :
    let r := setBreakpoints load pairs nextId file request
    (r.2.2.1.map unsigned).count u % 2 =
      (((repeated (anew load (keys file.breakpoints) request)).map wireLine).count u +
        ((keys file.breakpoints).map wireLine).count u +
        ((keys r.1.breakpoints).map wireLine).count u) % 2 := by
  intro r
  obtain ⟨hw,hk,hp⟩ := setBreakpoints_spec load pairs nextId file request hf
  rw [(hp.map unsigned).count_eq u, List.map_map]
  exact count_flips wireLine u _ _ _ hf.nodup hw.nodup hk

/-- The surplus valid breakpoints of the lines each request sets anew. -/
def repeats : List ℤ → List Request → List ℤ
  | _, [] => []
  | before, r::rs => repeated (anew load before r) ++ repeats (validLines load r) rs

def lastLines : List ℤ → List Request → List ℤ
  | before, [] => before
  | _, r::rs => lastLines (validLines load r) rs

theorem anew_congr (before before' : List ℤ) (h : ∀ l, l ∈ before ↔ l ∈ before') (r : Request) :
    anew load before r = anew load before' r :=
  List.filter_congr (fun l _ => by simp only [h l])

theorem repeats_congr (before before' : List ℤ) (h : ∀ l, l ∈ before ↔ l ∈ before')
    (requests : List Request) : repeats load before requests = repeats load before' requests := by
  cases requests with
  | nil => rfl
  | cons r rs => rw [repeats, repeats, anew_congr load before before' h]

theorem mem_lastLines_congr (before before' : List ℤ) (h : ∀ l, l ∈ before ↔ l ∈ before')
    (requests : List Request) (l : ℤ) :
    l ∈ lastLines load before requests ↔ l ∈ lastLines load before' requests := by
  cases requests with
  | nil => exact h l
  | cons r rs => exact Iff.rfl

theorem serve_cons (nextId : ℕ) (file : ObjFile) (r : Request) (rs : List Request) :
    let s := setBreakpoints load pairs nextId file r
    serve load pairs nextId file (r::rs) =
      ((serve load pairs s.2.2.2 s.1 rs).1,s.2.2.1 ++ (serve load pairs s.2.2.2 s.1 rs).2) := rfl

theorem serve_keys (nextId : ℕ) (file : ObjFile) (requests : List Request)
    (hf : WellFormed file.breakpoints) :
    (keys (serve load pairs nextId file requests).1.breakpoints).Nodup ∧
    ∀ l, l ∈ keys (serve load pairs nextId file requests).1.breakpoints ↔
      l ∈ lastLines load (keys file.breakpoints) requests := by
  induction requests generalizing nextId file with
  | nil => exact ⟨hf.nodup,fun _ => Iff.rfl⟩
  | cons r rs ih =>
    obtain ⟨hw,hk,-⟩ := setBreakpoints_spec load pairs nextId file r hf
    obtain ⟨hn,hl⟩ := ih (setBreakpoints load pairs nextId file r).2.2.2 _ hw
    exact ⟨hn,fun l => (hl l).trans (mem_lastLines_congr load _ _ hk rs l)⟩

theorem serve_parity (nextId : ℕ) (file : ObjFile) (requests : List Request)
    (hf : WellFormed file.breakpoints) (u : UInt32) :
    ((serve load pairs nextId file requests).2.map unsigned).count u % 2 =
      (((repeats load (keys file.breakpoints) requests).map wireLine).count u +
        ((keys file.breakpoints).map wireLine).count u +
        ((keys (serve load pairs nextId file requests).1.breakpoints).map wireLine).count u) % 2 := by
  induction requests generalizing nextId file with
  | nil =>
    simp only [serve, repeats, List.map_nil, List.count_nil]
    omega
  | cons r rs ih =>
    obtain ⟨hw,hk,-⟩ := setBreakpoints_spec load pairs nextId file r hf
    have hone := setBreakpoints_parity load pairs nextId file r hf u
    have hrest := ih (setBreakpoints load pairs nextId file r).2.2.2 _ hw
    rw [repeats_congr load _ _ hk] at hrest
    rw [serve_cons, repeats, List.map_append, List.map_append, List.count_append,
      List.count_append]
    dsimp only at *
    omega

end Adapter

section Agreement

def Loaded (b : DebugBackend) (file : ObjFile) : Prop :=
  file.breakpoints = [] ∧ ∃ script, b.scripts[(unsigned file.id).toNat]? = some script ∧
    script.breakpoints = []

/-- The backend's list has no duplicates and holds the lines of the table, from zero. -/
def SameLines (b : DebugBackend) (file : ℕ) (lines : List ℤ) : Prop :=
  ∃ script, b.scripts[(unsigned file).toNat]? = some script ∧ script.breakpoints.Nodup ∧
    ∀ n : ℤ, (∃ u ∈ script.breakpoints, (u.toNat : ℤ) = n) ↔ n+1 ∈ lines

/-- Both sides once the commands of all requests have been processed. -/
def InSync (load : Load) (pairs : Pairs (ℤ × Breakpoint)) (b : DebugBackend) (nextId : ℕ)
    (file : ObjFile) (requests : List Request) : Prop :=
  let (file',lines) := serve load pairs nextId file requests
  (∀ l, l ∈ keys file'.breakpoints ↔ l ∈ lastLines load [] requests) ∧
    ∃ b', process file.id b lines = some b' ∧ SameLines b' file.id (keys file'.breakpoints)

def InRange (lines : List ℤ) : Prop := ∀ l ∈ lines, 1 ≤ l ∧ l ≤ 2^32

theorem wireLine_eq_iff (l : ℤ) (u : UInt32) (h : 1 ≤ l ∧ l ≤ 2^32) :
    wireLine l = u ↔ l = u.toNat+1 := by
  have hl := unsigned_toNat (i := l-1) (by omega) (by omega)
  rw [wireLine, ← UInt32.toNat_inj]
  omega

theorem count_wireLine (lines : List ℤ) (hn : lines.Nodup) (h : InRange lines) (u : UInt32) :
    (lines.map wireLine).count u = if (u.toNat+1 : ℤ) ∈ lines then 1 else 0 := by
  have hmap : (lines.map wireLine).Nodup := by
    apply hn.map_on
    intro l hl m hm he
    rw [wireLine_eq_iff l _ (h l hl)] at he
    rw [he, ← (wireLine_eq_iff m _ (h m hm)).mp rfl]
  have hmem : u ∈ lines.map wireLine ↔ (u.toNat+1 : ℤ) ∈ lines := by
    rw [List.mem_map]
    constructor
    · rintro ⟨l,hl,he⟩
      rwa [← (wireLine_eq_iff l u (h l hl)).mp he]
    · intro hm
      exact ⟨_,hm,(wireLine_eq_iff _ u (h _ hm)).mpr rfl⟩
  split
  · rename_i hm
    exact List.count_eq_one_of_mem hmap (hmem.mpr hm)
  · rename_i hm
    exact List.count_eq_zero.mpr (fun hu => hm (hmem.mp hu))

theorem sameSet_iff (breakpoints : List UInt32) (lines : List ℤ) :
    (∀ n : ℤ, (∃ u ∈ breakpoints, (u.toNat : ℤ) = n) ↔ n+1 ∈ lines) ↔
      InRange lines ∧ ∀ u : UInt32, u ∈ breakpoints ↔ (u.toNat+1 : ℤ) ∈ lines := by
  constructor
  · intro h
    refine ⟨fun l hl => ?_,fun u => ?_⟩
    · obtain ⟨u,-,hu⟩ := (h (l-1)).mpr (by rwa [Int.sub_add_cancel])
      have := u.toNat_lt
      omega
    · rw [← h u.toNat]
      constructor
      · exact fun hm => ⟨u,hm,rfl⟩
      · rintro ⟨v,hv,he⟩
        rwa [← UInt32.toNat_inj.mp (Int.ofNat.inj he)]
  · rintro ⟨hrange,hu⟩ n
    constructor
    · rintro ⟨u,hm,rfl⟩
      exact (hu u).mp hm
    · intro hm
      have hr := hrange _ hm
      have hv : ((UInt32.ofNat n.toNat).toNat : ℤ) = n := by
        rw [UInt32.toNat_ofNat_of_lt' (by simp only [UInt32.size]; omega)]
        omega
      exact ⟨UInt32.ofNat n.toNat,(hu _).mpr (by rwa [hv]),hv⟩

/-- Flips and lines of equal parity, up to a surplus, give equal sets exactly
when the surplus is even at every line. -/
theorem flips_iff (flips : List UInt32) (lines surplus : List ℤ) (hn : lines.Nodup)
    (hrange : InRange lines)
    (hp : ∀ u, flips.count u % 2 =
      ((surplus.map wireLine).count u + (lines.map wireLine).count u) % 2) :
    (∀ u : UInt32, u ∈ flips.foldl toggle [] ↔ (u.toNat+1 : ℤ) ∈ lines) ↔
      ∀ u, Even ((surplus.map wireLine).count u) := by
  apply forall_congr'
  intro u
  have hpu := hp u
  rw [count_wireLine lines hn hrange u] at hpu
  rw [mem_toggles flips [] u List.nodup_nil, if_neg List.not_mem_nil, Nat.even_iff]
  by_cases hm : (u.toNat+1 : ℤ) ∈ lines
  · rw [if_pos hm] at hpu
    rw [iff_true_right hm]
    omega
  · rw [if_neg hm] at hpu
    rw [iff_false_right hm]
    omega

/-- The backend mirrors the adapter exactly when the lines of the last request
fit the wire and, line by line, the surplus flips of the session cancel out. -/
theorem inSync_iff (load : Load) (pairs : Pairs (ℤ × Breakpoint)) (b : DebugBackend) (nextId : ℕ)
    (file : ObjFile) (requests : List Request) (h : Loaded b file) :
    InSync load pairs b nextId file requests ↔
      InRange (lastLines load [] requests) ∧
      ∀ u, Even (((repeats load [] requests).map wireLine).count u) := by
  obtain ⟨hf,script,hs,h0⟩ := h
  have hw : WellFormed file.breakpoints := by
    rw [hf]
    exact ⟨List.nodup_nil,by simp⟩
  have hk : keys file.breakpoints = [] := by rw [hf]; rfl
  obtain ⟨hn,hl⟩ := serve_keys load pairs nextId file requests hw
  obtain ⟨b',hb,hb'⟩ := process_spec file.id (serve load pairs nextId file requests).2 b script hs
  have hp := serve_parity load pairs nextId file requests hw
  rw [hk] at hl hp
  have hiff := (sameSet_iff _ _).trans (and_congr_right
    (fun hr => flips_iff _ _ _ hn hr (by simpa using hp)))
  have hrange : InRange (keys (serve load pairs nextId file requests).1.breakpoints) ↔
      InRange (lastLines load [] requests) := by
    simp only [InRange, hl]
  rw [hrange] at hiff
  rw [h0] at hb'
  rw [← hiff]
  constructor
  · rintro ⟨-,b'',hb'',script',hs',-,hset⟩
    cases hb.symm.trans hb''
    cases hb'.symm.trans hs'
    exact hset
  · intro hset
    exact ⟨hl,b',hb,_,hb',nodup_toggles _ _ List.nodup_nil,hset⟩

def oneScript : DebugBackend :=
  {DebugBackend.initial with scripts := [⟨text "a.lua",[],text "a.lua",[],.normal⟩]}

def inOrder : Pairs (ℤ × Breakpoint) := ⟨id,fun _ => .refl _⟩

def plain (line : ℤ) : SourceBreakpoint := ⟨line,none,none,none,none⟩

theorem inSync_iff_single :
    InSync (fun _ _ => none) inOrder oneScript 0 ⟨0,[]⟩ [[plain 5],[plain 5,plain 7]] ↔
      InRange (lastLines (fun _ _ => none) [] [[plain 5],[plain 5,plain 7]]) ∧
      ∀ u, Even (((repeats (fun _ _ => none) [] [[plain 5],[plain 5,plain 7]]).map wireLine).count u) :=
  inSync_iff _ _ _ _ _ _ ⟨rfl,_,rfl,rfl⟩

/-- A new line that one request names twice. -/
theorem doubled_not_inSync :
    ¬ InSync (fun _ _ => none) inOrder oneScript 0 ⟨0,[]⟩ [[plain 5,plain 5]] := by
  rintro ⟨-,b,hb,script,hs,-,h⟩
  cases hb
  cases hs
  obtain ⟨u,hu,-⟩ := (h 4).mpr (by decide)
  exact List.not_mem_nil hu

end Agreement

end Vecoda.BreakpointSync
