import Vecoda.BreakDecision
import Vecoda.Framing

/-!
# Log messages

A log message is cut into its balanced groups and the bytes between them.
`prePostCond` writes a numbered placeholder for each group, and
`processStatLogSequentially` looks for the placeholders in what it has not yet
processed. No literal text is taken for one, since `%b{}` would have matched it.
-/

set_option autoImplicit false

namespace Vecoda.LogMessages
open MessagePipe LuaText Breakpoints EventStream HandleBreak BreakDecision

inductive Piece where
  | literal (c : UInt8)
  | group (inner : Bytes)

def scan : ℕ → Bytes → List Piece
  | _, [] => []
  | skip+1, _::cs => scan skip cs
  | 0, c::cs =>
    match if c = byte '\x7b' then balanced 1 cs else none with
    | some group => .group group.dropLast :: scan group.length cs
    | none => .literal c :: scan 0 cs

def source : List Piece → Bytes
  | [] => []
  | .literal c :: ps => c :: source ps
  | .group inner :: ps => statKey inner ++ source ps

def groups : List Piece → List Bytes
  | [] => []
  | .literal _ :: ps => groups ps
  | .group inner :: ps => inner :: groups ps

def placeholder (n : ℕ) : Bytes := statKey (text (toString n))

def template : ℕ → List Piece → Bytes
  | _, [] => []
  | n, .literal c :: ps => c :: template n ps
  | n, .group _ :: ps => placeholder (n+1) ++ template (n+1) ps

def stats : ℕ → List Piece → List (Bytes × Bytes)
  | _, [] => []
  | n, .literal _ :: ps => stats n ps
  | n, .group inner :: ps => (placeholder (n+1),inner) :: stats (n+1) ps

theorem statements_scan (skip n : ℕ) (msg : Bytes) :
    statements skip n msg = ⟨template n (scan skip msg),stats n (scan skip msg)⟩ := by
  induction msg generalizing skip n with
  | nil => cases skip <;> rfl
  | cons c cs ih =>
    cases skip with
    | succ skip => exact ih skip n
    | zero =>
      rw [statements, scan]
      cases (if c = byte '\x7b' then balanced 1 cs else none) with
      | none => simp only [ih, template, stats]
      | some group => simp only [ih, template, stats, placeholder]

section Balanced

theorem balanced_prefix {depth : ℕ} {s group : Bytes} (h : balanced depth s = some group) :
    ∃ rest, s = group ++ rest ∧ ∃ inner, group = inner ++ [byte '\x7d'] := by
  induction s generalizing depth group with
  | nil => cases h
  | cons c cs ih =>
    have hcons {depth : ℕ} (hmap : (balanced depth cs).map (c :: ·) = some group) :
        ∃ rest, c::cs = group ++ rest ∧ ∃ inner, group = inner ++ [byte '\x7d'] := by
      obtain ⟨tail,htail,rfl⟩ := Option.map_eq_some_iff.mp hmap
      obtain ⟨rest,rfl,inner,rfl⟩ := ih htail
      exact ⟨rest,rfl,c::inner,rfl⟩
    rw [balanced] at h
    split at h
    · rename_i hc
      split at h
      · cases h
        exact ⟨cs,rfl,[],by rw [hc]; rfl⟩
      · exact hcons h
    · split at h
      · exact hcons h
      · exact hcons h

/-- The group is cut out whole, and the scan goes on behind it. -/
theorem scan_skip (skip : ℕ) (msg : Bytes) : scan skip msg = scan 0 (msg.drop skip) := by
  induction msg generalizing skip with
  | nil => cases skip <;> rfl
  | cons c cs ih =>
    cases skip with
    | zero => rfl
    | succ skip => exact ih skip

theorem scan_group {c : UInt8} {cs group : Bytes} (hc : c = byte '\x7b')
    (h : balanced 1 cs = some group) :
    scan 0 (c::cs) = .group group.dropLast :: scan 0 (cs.drop group.length) := by
  rw [scan, if_pos hc, h]
  exact congrArg _ (scan_skip _ _)

theorem scan_literal {c : UInt8} {cs : Bytes} (h : c = byte '\x7b' → balanced 1 cs = none) :
    scan 0 (c::cs) = .literal c :: scan 0 cs := by
  rw [scan]
  split
  · rename_i group hgroup
    obtain ⟨hc,hbalanced⟩ := Option.ite_none_right_eq_some.mp hgroup
    rw [h hc] at hbalanced
    cases hbalanced
  · rfl

/-- Nothing of the message is lost or changed by cutting it. -/
theorem source_scan (msg : Bytes) : source (scan 0 msg) = msg := by
  induction h : msg.length using Nat.strong_induction_on generalizing msg with
  | _ n ih =>
    subst h
    cases msg with
    | nil => rfl
    | cons c cs =>
      by_cases hgroup : ∃ group, c = byte '\x7b' ∧ balanced 1 cs = some group
      · obtain ⟨group,hc,hb⟩ := hgroup
        obtain ⟨rest,hcs,inner,hinner⟩ := balanced_prefix hb
        have hdrop : cs.drop group.length = rest := by rw [hcs, List.drop_left]
        rw [scan_group hc hb, source, hdrop, ih rest.length (by rw [List.length_cons, hcs, List.length_append]; omega) rest rfl, hinner,
          List.dropLast_concat, statKey, hcs, hinner, hc]
        simp [text]
      · have hnone : c = byte '\x7b' → balanced 1 cs = none := fun hc =>
          Option.eq_none_iff_forall_ne_some.mpr (fun group hb => hgroup ⟨group,hc,hb⟩)
        rw [scan_literal hnone, source, ih cs.length (Nat.lt_succ_self _) cs rfl]

end Balanced

section Placeholders

theorem decimal_toString (n : ℕ) : text (toString n) = Framing.decimal n := by
  have hdigit : ∀ d < 10, byte d.digitChar = UInt8.ofNat (48+d) := by decide
  have hlist (n : ℕ) : text (toString n) = (Nat.toDigits 10 n).map byte := by
    rw [text, Nat.toString_eq_ofList_toDigits, String.toList_ofList]
  rw [hlist]
  induction n using Framing.decimal.induct with
  | case1 n hn =>
    rw [Framing.decimal, if_pos hn, Nat.toDigits_of_lt_base hn, List.map_singleton, hdigit n hn]
  | case2 n hn ih =>
    rw [Framing.decimal, if_neg hn, Nat.toDigits_of_base_le (by decide) (not_lt.mp hn), List.map_append, ih,
      List.map_singleton, hdigit _ (Nat.mod_lt _ (by decide))]

theorem placeholder_inj {m n : ℕ} (h : placeholder m = placeholder n) : m = n := by
  rw [placeholder, placeholder, statKey, statKey, List.append_left_inj, List.append_right_inj,
    decimal_toString, decimal_toString] at h
  rw [← Framing.decimalValue_decimal m, h, Framing.decimalValue_decimal]

theorem matchKey_placeholder (n : ℕ) (rest : Bytes) :
    matchKey (placeholder n ++ rest) = some (text (toString n),rest) := by
  have hdigits : ((text (toString n)) ++ byte '\x7d' :: rest).takeWhile isDigit = text (toString n) := by
    rw [decimal_toString, List.takeWhile_append_of_pos (Framing.decimal_digits n),
      List.takeWhile_cons_of_neg (by decide), List.append_nil]
  have hsplit : placeholder n ++ rest = byte '\x7b' :: (text (toString n) ++ byte '\x7d' :: rest) := by
    simp [placeholder, statKey, text]
  have hne : text (toString n) ≠ [] := by
    rw [decimal_toString]
    exact Framing.decimal_ne_nil n
  rw [hsplit, matchKey, hdigits, List.drop_left]
  exact if_pos ⟨rfl,hne,rfl⟩

/-- A key at the first byte is made of a brace, digits and a brace. -/
theorem matchKey_some {b : UInt8} {bs key after : Bytes} (h : matchKey (b::bs) = some (key,after)) :
    b = byte '\x7b' ∧ (∀ d ∈ key, isDigit d = true) ∧ bs = key ++ byte '\x7d' :: after := by
  simp only [matchKey] at h
  split at h
  · cases h
  · rename_i c rest hdrop
    obtain ⟨⟨hb,-,hc⟩,he⟩ := Option.ite_none_right_eq_some.mp h
    cases he
    obtain ⟨tail,htail⟩ := List.takeWhile_prefix isDigit (l := bs)
    refine ⟨hb,fun d hd => List.mem_takeWhile_imp hd,?_⟩
    generalize bs.takeWhile isDigit = key at hdrop htail
    rw [← htail, List.drop_left] at hdrop
    rw [← htail, hdrop, hc]

end Placeholders

section Invariant

/-- No literal brace opens a balanced group. -/
def Scanned : List Piece → Prop
  | [] => True
  | .literal c :: ps => (c = byte '\x7b' → balanced 1 (source ps) = none) ∧ Scanned ps
  | .group _ :: ps => Scanned ps

theorem scanned_scan (msg : Bytes) : Scanned (scan 0 msg) := by
  induction h : msg.length using Nat.strong_induction_on generalizing msg with
  | _ n ih =>
    subst h
    cases msg with
    | nil => trivial
    | cons c cs =>
      by_cases hgroup : ∃ group, c = byte '\x7b' ∧ balanced 1 cs = some group
      · obtain ⟨group,hc,hb⟩ := hgroup
        rw [scan_group hc hb]
        exact ih _ (by simp only [List.length_drop, List.length_cons]; omega) _ rfl
      · have hnone : c = byte '\x7b' → balanced 1 cs = none := fun hc =>
          Option.eq_none_iff_forall_ne_some.mpr (fun group hb => hgroup ⟨group,hc,hb⟩)
        rw [scan_literal hnone]
        exact ⟨fun hc => by rw [source_scan]; exact hnone hc,ih _ (Nat.lt_succ_self _) _ rfl⟩

theorem balanced_newline {depth : ℕ} {s : Bytes} (h : balanced depth s = none) :
    balanced depth (s ++ text "\n") = none := by
  induction s generalizing depth with
  | nil => rfl
  | cons c cs ih =>
    rw [balanced] at h
    rw [List.cons_append, balanced]
    split at h
    · rename_i hc
      rw [if_pos hc]
      split at h
      · cases h
      · rename_i hdepth
        rw [if_neg hdepth, ih (Option.map_eq_none_iff.mp h)]
        rfl
    · rename_i hc
      rw [if_neg hc]
      split at h
      · rename_i hopen
        rw [if_pos hopen, ih (Option.map_eq_none_iff.mp h)]
        rfl
      · rename_i hopen
        rw [if_neg hopen, ih (Option.map_eq_none_iff.mp h)]
        rfl

def withNewline (ps : List Piece) : List Piece := ps ++ [.literal (byte '\n')]

theorem source_withNewline (ps : List Piece) : source (withNewline ps) = source ps ++ text "\n" := by
  induction ps with
  | nil => rfl
  | cons p ps ih =>
    cases p with
    | literal c => exact congrArg _ ih
    | group inner => exact (congrArg _ ih).trans (List.append_assoc _ _ _).symm

theorem template_withNewline (n : ℕ) (ps : List Piece) :
    template n (withNewline ps) = template n ps ++ text "\n" := by
  induction ps generalizing n with
  | nil => rfl
  | cons p ps ih =>
    cases p with
    | literal c => exact congrArg _ (ih n)
    | group inner => exact (congrArg _ (ih (n+1))).trans (List.append_assoc _ _ _).symm

theorem groups_withNewline (ps : List Piece) : groups (withNewline ps) = groups ps := by
  induction ps with
  | nil => rfl
  | cons p ps ih =>
    cases p with
    | literal c => exact ih
    | group inner => exact congrArg (inner :: ·) ih

theorem scanned_withNewline {ps : List Piece} (h : Scanned ps) : Scanned (withNewline ps) := by
  induction ps with
  | nil => exact ⟨fun hc => absurd hc (by decide),trivial⟩
  | cons p ps ih =>
    cases p with
    | literal c =>
      exact ⟨fun hc => (source_withNewline ps) ▸ balanced_newline (h.1 hc),ih h.2⟩
    | group inner => exact ih h

/-- A text of the template without braces is one of the message. -/
theorem template_source {n : ℕ} {ps : List Piece} {s rest : Bytes} (h : template n ps = s ++ rest)
    (hs : byte '\x7b' ∉ s) : ∃ rest', source ps = s ++ rest' := by
  induction s generalizing ps with
  | nil => exact ⟨_,rfl⟩
  | cons b s ih =>
    match ps with
    | [] => cases h
    | .literal c :: ps =>
      rw [template, List.cons_append, List.cons.injEq] at h
      obtain ⟨rest',hrest⟩ := ih h.2 (fun hb => hs (List.mem_cons_of_mem _ hb))
      exact ⟨rest',by rw [source, hrest, h.1]; rfl⟩
    | .group inner :: ps =>
      have hb : byte '\x7b' = b := congrArg (fun l => l.headD 0) h
      exact absurd (hb ▸ List.mem_cons_self) hs

theorem balanced_digits {ds rest : Bytes} (h : ∀ d ∈ ds, isDigit d = true) :
    balanced 1 (ds ++ byte '\x7d' :: rest) = some (ds ++ [byte '\x7d']) := by
  induction ds with
  | nil => rfl
  | cons d ds ih =>
    have hd := h d List.mem_cons_self
    have hclose : d ≠ byte '\x7d' := Framing.ne_of_digit _ _ hd (by decide)
    have hopen : d ≠ byte '\x7b' := Framing.ne_of_digit _ _ hd (by decide)
    rw [List.cons_append, balanced, if_neg hclose, if_neg hopen,
      ih (fun e he => h e (List.mem_cons_of_mem _ he))]
    rfl

/-- No placeholder is found at a literal byte. -/
theorem matchKey_literal {c : UInt8} {ps : List Piece} (n : ℕ) (h : Scanned (.literal c :: ps)) :
    matchKey (c :: template n ps) = none := by
  apply Option.eq_none_iff_forall_ne_some.mpr
  rintro ⟨key,after⟩ hkey
  obtain ⟨hc,hdigits,htemplate⟩ := matchKey_some hkey
  have hsplit : template n ps = (key ++ [byte '\x7d']) ++ after := by rw [htemplate, List.append_cons]
  have hplain : byte '\x7b' ∉ key ++ [byte '\x7d'] := by
    rw [List.mem_append, List.mem_singleton]
    rintro (hb | hb)
    · exact absurd (hdigits _ hb) (by decide)
    · exact absurd hb (by decide)
  obtain ⟨rest,hrest⟩ := template_source hsplit hplain
  have hnone := h.1 hc
  rw [hrest, List.append_assoc, List.singleton_append, balanced_digits hdigits] at hnone
  cases hnone

end Invariant

section Processing

variable (threadId stackLevel : ℕ) (doneCallback : Bytes → Proc)

def logOutput : List Piece → Bytes → Proc
  | [], out => doneCallback out
  | .literal c :: ps, out => logOutput ps (out ++ [c])
  | .group inner :: ps, out => .evaluate inner threadId stackLevel (fun _ success root =>
      if success then
        match tostring root with
        | .ok (some replacement) => logOutput ps (out ++ replacement)
        | _ => .raise
      else logOutput ps (out ++ statKey inner))

/-- The key of every group to come leads to its text. -/
def Listed (table : List (Bytes × Bytes)) (n : ℕ) (ps : List Piece) : Prop :=
  ∀ k, (groups ps)[k]? = table.lookup (placeholder (n+1+k))

theorem listed_stats (n : ℕ) (ps : List Piece) : Listed (stats n ps) n ps := by
  induction ps generalizing n with
  | nil => exact fun _ => rfl
  | cons p ps ih =>
    cases p with
    | literal c => exact ih n
    | group inner =>
      intro k
      rw [groups, stats, List.lookup_cons]
      cases k with
      | zero => simp
      | succ k =>
        have hne : (placeholder (n+1+(k+1)) == placeholder (n+1)) = false := by
          rw [beq_eq_false_iff_ne]
          intro h
          have := placeholder_inj h
          omega
        rw [hne, List.getElem?_cons_succ, ih (n+1) k, Nat.add_right_comm (n+1) 1 k]
        rfl

theorem log_literal (stats : List (Bytes × Bytes)) (before rest : Bytes) (c : UInt8)
    (h : matchKey (c::rest) = none) :
    processStatLogSequentially stats threadId stackLevel doneCallback before (c::rest) =
      processStatLogSequentially stats threadId stackLevel doneCallback (before ++ [c]) rest := by
  have hfind : findKey (c::rest) = (findKey rest).map (fun p => (c::p.1,p.2)) := by rw [findKey, h]
  cases hrest : findKey rest with
  | none =>
    rw [log_none hrest, log_none (by rw [hfind, hrest]; rfl), List.append_assoc]
    rfl
  | some p =>
    obtain ⟨skipped,key,after⟩ := p
    have hcons : findKey (c::rest) = some (c::skipped,key,after) := by rw [hfind, hrest]; rfl
    cases hstat : stats.lookup (statKey key) with
    | none => rw [log_skip hrest hstat, log_skip hcons hstat, List.append_assoc before [c] skipped]; rfl
    | some stat => rw [log_ask hrest hstat, log_ask hcons hstat, List.append_assoc before [c] skipped]; rfl

theorem findKey_placeholder (n : ℕ) (rest : Bytes) :
    findKey (placeholder n ++ rest) = some ([],text (toString n),rest) := by
  have h := matchKey_placeholder n rest
  obtain ⟨b,bs,hb⟩ := List.exists_cons_of_ne_nil (l := placeholder n ++ rest) (by simp [placeholder, statKey, text])
  rw [hb] at h ⊢
  rw [findKey, h]

/-- The template is processed as the pieces are: what has been put out is never looked at again. -/
theorem processed_pieces (table : List (Bytes × Bytes)) (n : ℕ) (ps : List Piece) (out : Bytes)
    (hscanned : Scanned ps) (hlisted : Listed table n ps) :
    processStatLogSequentially table threadId stackLevel doneCallback out (template n ps) =
      logOutput threadId stackLevel doneCallback ps out := by
  induction ps generalizing n out with
  | nil =>
    rw [template, log_none rfl, List.append_nil]
    rfl
  | cons p ps ih =>
    cases p with
    | literal c =>
      rw [template, log_literal threadId stackLevel doneCallback table out _ c (matchKey_literal n hscanned)]
      exact ih n _ hscanned.2 hlisted
    | group inner =>
      have hnext : Listed table (n+1) ps := by
        intro k
        rw [Nat.add_right_comm (n+1) 1 k]
        exact hlisted (k+1)
      have hstat : table.lookup (statKey (text (toString (n+1)))) = some inner := (hlisted 0).symm
      rw [template, log_ask (findKey_placeholder (n+1) _) hstat, logOutput, List.append_nil]
      apply congrArg (Proc.evaluate inner threadId stackLevel)
      funext _ success root
      cases success with
      | false => exact ih (n+1) (out ++ statKey inner) hscanned hnext
      | true =>
        rcases tostring root with e | _ | replacement
        · rfl
        · rfl
        · exact ih (n+1) (out ++ replacement) hscanned hnext

end Processing

section Effects

def askedOf : Effect → Option (Bytes × ℕ × ℕ)
  | .evaluate _ expression nvm stackLevel => some (expression,nvm,stackLevel)
  | _ => none

def outputOf : Effect → Option Bytes
  | .output _ output => some output
  | _ => none

def resultText (a : Answer) : Option Bytes :=
  match a.decode with
  | .ok (_,_,root) =>
    match tostring root with
    | .ok text => text
    | .error _ => none
  | .error _ => none

def replacement (inner : Bytes) (a : Answer) : Bytes :=
  if a.success then (resultText a).getD [] else statKey inner

def expanded : List Piece → Answers → Bytes
  | [], _ => []
  | .literal c :: ps, answers => c :: expanded ps answers
  | .group inner :: ps, answers => replacement inner (answers 0) ++ expanded ps (later answers)

/-- One command for each group, in order, and one output. -/
structure Expanded (threadId stackLevel : ℕ) (ps : List Piece) (output : Bytes) (effects : List Effect) :
    Prop where
  asked : effects.filterMap askedOf = (groups ps).map (fun inner => (inner,threadId,stackLevel))
  shown : effects.filterMap outputOf = [output]

variable {threadId stackLevel : ℕ}

theorem resultText_decode {a : Answer} {hit : Bool} {root : Root} {text : Bytes}
    (h : a.decode = .ok (hit,a.success,root)) (ht : tostring root = .ok (some text)) :
    resultText a = some text := by
  rw [resultText, h]
  simp only [ht]

theorem expanded_withNewline (ps : List Piece) (answers : Answers) :
    expanded (withNewline ps) answers = expanded ps answers ++ text "\n" := by
  induction ps generalizing answers with
  | nil => rfl
  | cons p ps ih =>
    cases p with
    | literal c => exact congrArg (c :: ·) (ih answers)
    | group inner => exact (congrArg _ (ih (later answers))).trans (List.append_assoc _ _ _).symm

theorem expanded_evaluate (seq : ℕ) (inner output : Bytes) (ps : List Piece) (effects : List Effect) :
    Expanded threadId stackLevel (.group inner :: ps) output
      (.evaluate seq inner threadId stackLevel :: effects) ↔
        Expanded threadId stackLevel ps output effects :=
  ⟨fun h => ⟨List.tail_eq_of_cons_eq h.asked,h.shown⟩,
    fun h => ⟨congrArg ((inner,threadId,stackLevel) :: ·) h.asked,h.shown⟩⟩

theorem expanded_congr {ps qs : List Piece} (h : groups ps = groups qs) (output : Bytes)
    (effects : List Effect) :
    Expanded threadId stackLevel ps output effects ↔ Expanded threadId stackLevel qs output effects :=
  ⟨fun hx => ⟨h ▸ hx.asked,hx.shown⟩,fun hx => ⟨h ▸ hx.asked,hx.shown⟩⟩

theorem not_expanded_nil (ps : List Piece) (output : Bytes) :
    ¬ Expanded threadId stackLevel ps output [] := fun h => nomatch h.shown

theorem expanded_literal (b : UInt8) (ps : List Piece) (output : Bytes) (effects : List Effect) :
    Expanded threadId stackLevel (.literal b :: ps) output effects ↔
      Expanded threadId stackLevel ps output effects := by
  have hgroups : groups (.literal b :: ps) = groups ps := rfl
  exact expanded_congr hgroups output effects

theorem loggable_decode {a : Answer} {hit : Bool} {root : Root} (hd : a.decode = .ok (hit,a.success,root)) :
    Loggable a ↔ (a.success = true → ∃ shown, tostring root = .ok (some shown)) := by
  constructor
  · rintro ⟨hit',root',h,hshown⟩
    cases hd.symm.trans h
    exact hshown
  · exact fun h => ⟨hit,root,hd,h⟩

/-- The output is sent exactly when every command it waits for is answered with a text. -/
theorem output_iff {done : Bytes → Proc} (hdone : ∀ output thread c answers,
      (run (done output) thread c answers).filterMap askedOf = [] ∧
      (run (done output) thread c answers).filterMap outputOf = [output])
    (ps : List Piece) (out : Bytes) (thread : ℕ) (c : Counters) (answers : Answers) :
    Expanded threadId stackLevel ps (out ++ expanded ps answers)
      (run (logOutput threadId stackLevel done ps out) thread c answers) ↔
        LogAnswered (groups ps) c.evaluateId answers := by
  induction ps generalizing out thread c answers with
  | nil =>
    obtain ⟨hasked,hshown⟩ := hdone out thread c answers
    rw [logOutput, expanded, List.append_nil]
    exact iff_of_true ⟨hasked,hshown⟩ trivial
  | cons p ps ih =>
    cases p with
    | literal b =>
      have hout : out ++ expanded (.literal b :: ps) answers = (out ++ [b]) ++ expanded ps answers :=
        List.append_cons _ _ _
      rw [logOutput, hout]
      exact (expanded_literal ..).trans (ih _ thread c answers)
    | group inner =>
      have hout (shown : Bytes) (h : replacement inner (answers 0) = shown) :
          out ++ expanded (.group inner :: ps) answers = (out ++ shown) ++ expanded ps (later answers) := by
        rw [expanded, h, List.append_assoc]
      rw [logOutput, run, expanded_evaluate, groups, LogAnswered, ← fits_iff]
      by_cases hfits : reqId c % 2^32 = reqId c
      · rw [if_neg (not_not.mpr hfits), and_iff_right hfits]
        cases hd : (answers 0).decode with
        | error e =>
          apply iff_of_false (not_expanded_nil _ _)
          rintro ⟨⟨hit,root,h,-⟩,-⟩
          rw [hd] at h
          cases h
        | ok p =>
          obtain ⟨hit,success,root⟩ := p
          obtain rfl := decode_success hd
          rw [loggable_decode hd]
          dsimp only
          cases hsuccess : (answers 0).success with
          | false =>
            rw [if_neg Bool.false_ne_true, hout (statKey inner) (by rw [replacement, hsuccess]; rfl)]
            exact (ih _ _ _ (later answers)).trans (and_iff_right (fun h => absurd h Bool.false_ne_true)).symm
          | true =>
            rw [if_pos rfl]
            split
            · rename_i shown hshown
              rw [hout shown (by rw [replacement, if_pos hsuccess, resultText_decode hd hshown]; rfl)]
              exact (ih _ _ _ (later answers)).trans (and_iff_right (fun _ => ⟨shown,hshown⟩)).symm
            · rename_i hnone
              apply iff_of_false (not_expanded_nil _ _)
              rintro ⟨h,-⟩
              obtain ⟨shown,hshown⟩ := h rfl
              exact hnone shown hshown
      · rw [if_pos hfits]
        exact iff_of_false (not_expanded_nil _ _) (fun h => hfits h.1)

end Effects

theorem statLog_of_prePostCond {load : Load} {bp : SourceBreakpoint} {msg : Bytes}
    {condition hitCondition : Option Bytes} {log : Option StatLog}
    (h : prePostCond load bp = .ok (condition,hitCondition,log)) (hmsg : bp.logMessage = some msg)
    (hne : msg ≠ []) : log = some ⟨template 0 (withNewline (scan 0 msg)),stats 0 (scan 0 msg)⟩ := by
  have hlog : log = statLog bp.logMessage := by
    rw [prePostCond] at h
    cases hc : checked load (text "return ") (text "condition error: ") bp.condition with
    | error e =>
      rw [hc] at h
      cases h
    | ok condition =>
      cases hh : checked load (text "return 0 ") (text "hit condition error: ") bp.hitCondition with
      | error e =>
        rw [hc, hh] at h
        cases h
      | ok hitCondition =>
        rw [hc, hh] at h
        cases h
        rfl
  have hnonempty : nonempty (some msg) = some msg := if_neg (fun h => hne (Option.some_inj.mp h))
  rw [hlog, hmsg, statLog, hnonempty, Option.map_some, statements_scan, template_withNewline]

/-- A log message is expanded as it is written exactly when every request number
survives and every result that succeeds has a text. -/
theorem expanded_iff (load : Load) (bp : SourceBreakpoint) (msg : Bytes) (id hit : ℕ)
    (condition hitCondition : Option Bytes) (log : Option StatLog) (hmsg : bp.logMessage = some msg)
    (hne : msg ≠ []) (h : prePostCond load bp = .ok (condition,hitCondition,log))
    (threadId stackLevel nvm : ℕ) (stackFrames : List StackFrame) (reason : UInt32)
    (hitBp : Option Breakpoint) (thread : ℕ) (c : Counters) (answers : Answers) :
    Expanded threadId stackLevel (scan 0 msg) (expanded (scan 0 msg) answers ++ text "\n")
      (run (checkStatLog ⟨id,bp.line,condition,hitCondition,log,hit⟩ threadId stackLevel
        (breakOrContinue nvm stackFrames reason hitBp)) thread c answers) ↔
          LogAnswered (groups (scan 0 msg)) c.evaluateId answers := by
  have hlog : log = some ⟨template 0 (withNewline (scan 0 msg)),stats 0 (scan 0 msg)⟩ :=
    statLog_of_prePostCond h hmsg hne
  have hlisted : Listed (stats 0 (scan 0 msg)) 0 (withNewline (scan 0 msg)) := by
    rw [Listed, groups_withNewline]
    exact listed_stats 0 (scan 0 msg)
  have hdone (output : Bytes) (thread : ℕ) (c : Counters) (answers : Answers) :
      (run (.emit (.output (text "stdout") output) (breakOrContinue nvm stackFrames reason hitBp false))
        thread c answers).filterMap askedOf = [] ∧
      (run (.emit (.output (text "stdout") output) (breakOrContinue nvm stackFrames reason hitBp false))
        thread c answers).filterMap outputOf = [output] := ⟨rfl,rfl⟩
  have hiff : Expanded threadId stackLevel (withNewline (scan 0 msg)) _ _ ↔ _ :=
    output_iff hdone (withNewline (scan 0 msg)) [] thread c answers
  rw [groups_withNewline, expanded_withNewline, List.nil_append, expanded_congr (groups_withNewline _)] at hiff
  rw [checkStatLog, hlog]
  dsimp only
  rw [processed_pieces threadId stackLevel _ _ 0 _ [] (scanned_withNewline (scanned_scan msg)) hlisted]
  exact hiff

/-- `x \x7bx\x7d, \x7b1\x7d`: the first result is a text that looks like a placeholder, the second one fails. -/
def logged : SourceBreakpoint := ⟨5,none,none,none,some (text "x \x7bx\x7d, \x7b1\x7d")⟩

def loggedAnswers : Answers := fun i =>
  if i = 0 then ⟨true,text "<value><data>\x7b2\x7d</data><type>string</type></value>",⟨1,1⟩⟩
  else ⟨false,text "<error>Error: 1</error>",⟨2,1⟩⟩

theorem expanded_iff_logged : Expanded 16 0 (scan 0 (text "x \x7bx\x7d, \x7b1\x7d"))
    (expanded (scan 0 (text "x \x7bx\x7d, \x7b1\x7d")) loggedAnswers ++ text "\n")
    (run (checkStatLog ⟨1,5,none,none,statLog logged.logMessage,0⟩ 16 0 (breakOrContinue 16 [] 1 none)) 16
      ⟨0,1⟩ loggedAnswers) :=
  (expanded_iff (fun _ _ => none) logged _ 1 0 none none _ rfl (by decide) rfl 16 0 16 [] 1 none 16 ⟨0,1⟩
    loggedAnswers).mpr ⟨(by decide : 0 + 1 < 2^16),
      ⟨true,_,by with_unfolding_all rfl,fun _ => ⟨text "\x7b2\x7d",by with_unfolding_all rfl⟩⟩,
      (by decide : 1 + 1 < 2^16),⟨false,_,by with_unfolding_all rfl,nofun⟩,trivial⟩

/-- A group without a result loses the whole message: the handler raises. -/
theorem valueless_not_expanded :
    ¬ Expanded 16 0 (scan 0 (text "\x7bf()\x7d"))
      (expanded (scan 0 (text "\x7bf()\x7d")) (fun _ => ⟨true,[],⟨1,1⟩⟩) ++ text "\n")
      (run (checkStatLog ⟨1,5,none,none,statLog (some (text "\x7bf()\x7d")),0⟩ 16 0
        (breakOrContinue 16 [] 1 none)) 16 ⟨0,1⟩ (fun _ => ⟨true,[],⟨1,1⟩⟩)) := by
  intro h
  exact absurd (congrArg List.length h.shown) (by decide +kernel)

end Vecoda.LogMessages
