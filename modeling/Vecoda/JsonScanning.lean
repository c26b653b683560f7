import Vecoda.JsonDecode

/-!
# What the scanners of json.lua take

Each scanner takes from the front of a text what the grammar allows there, and
all of it: the lemmas come in pairs, one for what a scanner accepts and one for
what it has to accept.
-/

set_option autoImplicit false

namespace Vecoda.JsonScanning
open MessagePipe LuaText JsonGrammar JsonStrings JsonDecode

section Runs

variable {p : UInt8 → Bool}

theorem takeWhile_run {w t : Bytes} (hw : ∀ b ∈ w, p b = true) (ht : t.head?.any p = false) :
    (w ++ t).takeWhile p = w := by
  rw [List.takeWhile_append_of_pos hw]
  cases t with
  | nil => simp
  | cons b t =>
    have hb : p b = false := ht
    simp [hb]

theorem dropWhile_run {w t : Bytes} (hw : ∀ b ∈ w, p b = true) (ht : t.head?.any p = false) :
    (w ++ t).dropWhile p = t := by
  rw [List.dropWhile_append_of_pos hw]
  cases t with
  | nil => rfl
  | cons b t =>
    have hb : p b = false := ht
    simp [hb]

theorem head_dropWhile (p : UInt8 → Bool) (s : Bytes) : (s.dropWhile p).head?.any p = false := by
  cases h : s.dropWhile p with
  | nil => rfl
  | cons b bs =>
    have := List.head?_dropWhile_not p s
    rw [h] at this
    simpa using this

theorem mem_takeWhile {s : Bytes} : ∀ b ∈ s.takeWhile p, p b = true := fun _ h => List.mem_takeWhile_imp h

/-- The blanks in front of a text. -/
theorem exists_blank (s : Bytes) : ∃ w, Blank w ∧ s = w ++ s.dropWhile blank :=
  ⟨s.takeWhile blank,mem_takeWhile,(List.takeWhile_append_dropWhile).symm⟩

end Runs

section Expected

theorem expectByte_sound (c : UInt8) (s s' : Bytes) (h : expectByte c s = .ok s') :
    ∃ w rest, Blank w ∧ s = w ++ s' ∧ s' = c::rest := by
  rw [expectByte] at h
  split at h
  · next hc =>
    injection h with h
    obtain ⟨w,hw,hs⟩ := exists_blank s
    rw [h] at hc hs
    obtain ⟨rest,hr⟩ := List.head?_eq_some_iff.mp hc
    exact ⟨w,rest,hw,hs,hr⟩
  · cases h

theorem expectByte_blank {w : Bytes} (hw : Blank w) (c : UInt8) (hc : blank c = false)
    (rest : Bytes) : expectByte c (w ++ c::rest) = .ok (c::rest) := by
  have hd : (w ++ c::rest).dropWhile blank = c::rest := dropWhile_run hw (by simpa using hc)
  rw [expectByte, hd]
  simp

end Expected

section Bodies

theorem map_ok {ε α β : Type} {f : α → β} {x : Except ε α} {b : β} (h : x.map f = .ok b) :
    ∃ a, x = .ok a ∧ f a = b := by
  cases x with
  | error e => cases h
  | ok a => exact ⟨a,rfl,by injection h⟩

theorem decodeEscapeSet_eq (b : UInt8) : decodeEscapeSet b = escapable b := by
  rw [Bool.eq_iff_iff]
  simp only [escapable, Bool.or_eq_true, decide_eq_true_eq]
  simp [decodeEscapeSet, escapeMap, code, or_assoc]

theorem ordinary_of_scan {b : UInt8} (hl : ¬ b < 32) (hq : b ≠ code '"') (hb : b ≠ code '\\') :
    ordinary b = true := by
  have hl : 32 ≤ b := by simpa using hl
  simp only [ordinary, Bool.and_eq_true, decide_eq_true_eq]
  exact ⟨⟨hl,hq⟩,hb⟩

theorem flagsOf_plain (b : UInt8) (bs : Bytes) (hb : b ≠ code '\\') : flagsOf (b::bs) = flagsOf bs := by
  cases bs <;> simp [flagsOf, hb]

theorem flagsOf_simple (c : UInt8) (cs : Bytes) (hc : c ≠ code 'u') :
    flagsOf (code '\\'::c::cs) = { flagsOf cs with simple := true } := by
  rw [flagsOf, if_pos rfl]
  simp only [if_neg hc]

theorem hexadecimal_ne (b : UInt8) (h : hexadecimal b = true) : b ≠ code '\\' := by
  rintro rfl
  exact absurd h (by decide)

theorem flagsOf_unicode (xs cs : Bytes) (hx : ∀ x ∈ xs, hexadecimal x = true) :
    flagsOf (code '\\'::code 'u'::xs ++ cs) = { flagsOf cs with unicode := true } := by
  have hpass : flagsOf (xs ++ cs) = flagsOf cs := by
    induction xs with
    | nil => rfl
    | cons x xs ih =>
      rw [List.cons_append, flagsOf_plain x _ (hexadecimal_ne x (hx x (by simp)))]
      exact ih (fun y hy => hx y (by simp [hy]))
  rw [List.cons_append, List.cons_append, flagsOf, if_pos rfl]
  simp only [if_pos, hpass]

/-- The loop stops at the first quote that no backslash stands before. -/
theorem scanString_sound (opening s : Bytes) (r : Scanned) (h : scanString opening s = .ok r) :
    s = r.body ++ code '"'::r.rest ∧ Body r.body ∧ r.flags = flagsOf r.body := by
  fun_induction scanString opening s generalizing r with
  | case1 => cases h
  | case2 => cases h
  | case3 =>
    injection h with h
    subst h
    exact ⟨rfl,.nil,rfl⟩
  | case4 => cases h
  | case5 x y z w ds hx hl hq ih =>
    obtain ⟨r',hr,rfl⟩ := map_ok h
    obtain ⟨hs,hb,hf⟩ := ih r' hr
    have hx : ∀ b ∈ [x,y,z,w], hexadecimal b = true := List.all_eq_true.mp hx
    refine ⟨?_,.unicode [x,y,z,w] r'.body rfl hx hb,?_⟩
    · simp [Scanned.pushUnicode, ← hs]
    · have := flagsOf_unicode [x,y,z,w] r'.body hx
      exact (congrArg (fun f : Flags => { f with unicode := true }) hf).trans this.symm
  | case6 => cases h
  | case7 => cases h
  | case8 c cs hu hc hl hq ih =>
    obtain ⟨r',hr,rfl⟩ := map_ok h
    obtain ⟨hs,hb,hf⟩ := ih r' hr
    rw [decodeEscapeSet_eq] at hc
    refine ⟨?_,.escape c r'.body hc hb,?_⟩
    · simp [Scanned.pushSimple, ← hs]
    · exact (congrArg (fun f : Flags => { f with simple := true }) hf).trans
        (flagsOf_simple c r'.body hu).symm
  | case9 => cases h
  | case10 b bs hl hq hb ih =>
    obtain ⟨r',hr,rfl⟩ := map_ok h
    obtain ⟨hs,hbody,hf⟩ := ih r' hr
    refine ⟨?_,.plain b r'.body (ordinary_of_scan hl hq hb) hbody,?_⟩
    · simp [Scanned.push, ← hs]
    · exact hf.trans (flagsOf_plain b r'.body hb).symm

theorem ordinary_ne (b : UInt8) (h : ordinary b = true) :
    ¬ b < 32 ∧ b ≠ code '"' ∧ b ≠ code '\\' := by
  simp only [ordinary, Bool.and_eq_true, decide_eq_true_eq] at h
  exact ⟨by simpa using h.1.1,h.1.2,h.2⟩

theorem escapable_ne (c : UInt8) (h : escapable c = true) : c ≠ code 'u' := by
  rintro rfl
  exact absurd h (by decide)

theorem scanString_plain (opening bs : Bytes) (b : UInt8) (hb : ordinary b = true) :
    scanString opening (b::bs) = (scanString opening bs).map (·.push [b]) := by
  obtain ⟨hl,hq,hs⟩ := ordinary_ne b hb
  rw [scanString.eq_def]
  simp only [hl, hq, hs, if_false]

theorem scanString_simple (opening cs : Bytes) (c : UInt8) (hc : escapable c = true) :
    scanString opening (code '\\'::c::cs) =
      (scanString opening cs).map (·.pushSimple [code '\\',c]) := by
  have hl : ¬ code '\\' < 32 := by decide
  have hq : code '\\' ≠ code '"' := by decide
  rw [← decodeEscapeSet_eq] at hc
  rw [scanString.eq_def]
  simp only [hl, hq, escapable_ne c (decodeEscapeSet_eq c ▸ hc), hc, if_false, if_true]

theorem scanString_unicode (opening ds : Bytes) (x y z w : UInt8)
    (hx : [x,y,z,w].all hexadecimal = true) :
    scanString opening (code '\\'::code 'u'::x::y::z::w::ds) =
      (scanString opening ds).map (·.pushUnicode [code '\\',code 'u',x,y,z,w]) := by
  have hl : ¬ code '\\' < 32 := by decide
  have hq : code '\\' ≠ code '"' := by decide
  rw [scanString.eq_def]
  simp only [hl, hq, hx, if_false, if_true]

theorem scanString_body (opening rest body : Bytes) (h : Body body) :
    scanString opening (body ++ code '"'::rest) = .ok ⟨body,flagsOf body,rest⟩ := by
  induction h with
  | nil =>
    rw [List.nil_append, scanString.eq_def]
    exact (if_neg (by decide)).trans (if_pos rfl)
  | plain b bs hb h ih =>
    rw [List.cons_append, scanString_plain opening _ b hb, ih,
      flagsOf_plain b bs (ordinary_ne b hb).2.2]
    rfl
  | escape c bs hc h ih =>
    have hstep := scanString_simple opening (bs ++ code '"'::rest) c hc
    have hflags := flagsOf_simple c bs (escapable_ne c hc)
    rw [ih] at hstep
    apply hstep.trans
    change _ = Except.ok (Scanned.mk _ (flagsOf (code '\\'::c::bs)) rest)
    rw [hflags]
    rfl
  | unicode xs bs hlen hx h ih =>
    obtain ⟨x,y,z,w,rfl⟩ := List.length_eq_four.mp hlen
    have hstep := scanString_unicode opening (bs ++ code '"'::rest) x y z w
      (List.all_eq_true.mpr hx)
    have hflags := flagsOf_unicode [x,y,z,w] bs hx
    rw [ih] at hstep
    apply hstep.trans
    change _ = Except.ok (Scanned.mk _ (flagsOf (code '\\'::code 'u'::[x,y,z,w] ++ bs)) rest)
    rw [hflags]
    rfl

theorem decodeString_sound (rest v s' : Bytes)
    (h : decodeString (code '"'::rest) = .ok (v,s')) :
    ∃ body, Body body ∧ code '"'::rest = quoted body ++ s' ∧ v = bodyValue body := by
  obtain ⟨r,hr,he⟩ := map_ok h
  obtain ⟨hs,hb,hf⟩ := scanString_sound _ _ r hr
  injection he with hv hr
  refine ⟨r.body,hb,?_,?_⟩
  · rw [List.tail_cons] at hs
    rw [quoted, hs, ← hr]
    simp [code]
  · rw [← hv, hf, bodyValue]

theorem decodeString_quoted (body rest : Bytes) (h : Body body) :
    decodeString (quoted body ++ rest) = .ok (bodyValue body,rest) := by
  have hs : (quoted body ++ rest).tail = body ++ code '"'::rest := by simp [quoted, code]
  rw [decodeString, hs, scanString_body _ _ _ h]
  rfl

end Bodies

section Numerals

def Follows (bare : Bool) (tail : Bytes) : Prop :=
  tail.head?.any separator = true ∨ bare = false ∧ tail = []

theorem separator_cases (b : UInt8) (h : separator b = true) :
    digit b = false ∧ b ≠ code '.' ∧ exponentMark b = false := by
  simp only [separator, blank, Bool.or_eq_true, decide_eq_true_eq] at h
  rcases h with (((((rfl | rfl) | rfl) | rfl) | rfl) | rfl) | rfl <;> decide

theorem head_any_false {p : UInt8 → Bool} {tail : Bytes} (h : ∀ b, separator b = true → p b = false)
    {bare : Bool} (hf : Follows bare tail) : tail.head?.any p = false := by
  cases tail with
  | nil => rfl
  | cons b bs =>
    rcases hf with hs | ⟨-,hn⟩
    · exact h b hs
    · cases hn

theorem point_parts (rest : Bytes) (h : rest.head?.any digit = false) :
    ((point rest).1 = [] ∧ (point rest).2 = rest) ∨
      ∃ ds, (point rest).1 = code '.'::ds ∧ (∀ b ∈ ds, digit b = true) ∧
        rest = (point rest).1 ++ (point rest).2 := by
  cases rest with
  | nil => exact .inl ⟨rfl,rfl⟩
  | cons b bs =>
    by_cases hb : b = code '.'
    · refine .inr ⟨bs.takeWhile digit,?_,mem_takeWhile,?_⟩
      · simp [point, hb]
      · simp [point, hb]
    · have hd : digit b = false := h
      exact .inl (by simp [point, hb, hd])

theorem digit_ne_point (b : UInt8) (h : digit b = true) : b ≠ code '.' := by
  rintro rfl
  exact absurd h (by decide)

theorem getLast_digits (pre : Bytes) {ds : Bytes} (hne : ds ≠ []) (hds : ∀ b ∈ ds, digit b = true) :
    (pre ++ ds).getLast? ≠ some (code '.') := by
  intro h
  rw [List.getLast?_append_of_ne_nil _ hne] at h
  exact digit_ne_point _ (hds _ (List.mem_of_getLast? h)) rfl

theorem whole_digits {whole : Bytes} (h : Whole whole) :
    whole ≠ [] ∧ ∀ b ∈ whole, digit b = true := by
  cases h with
  | zero => exact ⟨by simp,by simp [digit, code]⟩
  | other d ds hd h0 hds =>
    refine ⟨by simp,fun b hb => ?_⟩
    rcases List.mem_cons.mp hb with rfl | hb
    · exact hd
    · exact hds b hb

theorem point_fraction {fraction tail : Bytes} (hf : Fraction fraction) (h : tail.head?.any digit = false)
    (hp : tail.head? ≠ some (code '.')) : point (fraction ++ tail) = (fraction,tail) := by
  cases hf with
  | none =>
    cases tail with
    | nil => rfl
    | cons b bs =>
      have hb : b ≠ code '.' := fun he => hp (by rw [he]; rfl)
      have hd : digit b = false := h
      simp [point, hb, hd]
  | point ds hne hds =>
    rw [List.cons_append, point, if_pos rfl, takeWhile_run hds h, dropWhile_run hds h]

theorem signed_parts (s : Bytes) : Sign (signed s).1 ∧ s = (signed s).1 ++ (signed s).2 := by
  cases s with
  | nil => exact ⟨.none,rfl⟩
  | cons b bs =>
    rw [signed]
    split
    · next h =>
      rcases h with rfl | rfl
      · exact ⟨.minus,rfl⟩
      · exact ⟨.plus,rfl⟩
    · exact ⟨.none,rfl⟩

theorem exponent_sound (s e tail : Bytes) (hs : s.head?.any exponentMark = true)
    (h : exponent s = some (e,tail)) :
    Exponent e ∧ s = e ++ tail ∧ tail.head?.any separator = true := by
  cases s with
  | nil => cases hs
  | cons b bs =>
    rw [exponent] at h
    split at h
    · next hc =>
      obtain ⟨hsign,hbs⟩ := signed_parts bs
      injection h with h
      injection h with he ht
      subst he ht
      refine ⟨?_,?_,hc.2⟩
      · have hb : exponentMark b = true := hs
        simp only [exponentMark, Bool.or_eq_true, decide_eq_true_eq] at hb
        rcases hb with rfl | rfl
        · exact .lower _ _ hsign hc.1 mem_takeWhile
        · exact .upper _ _ hsign hc.1 mem_takeWhile
      · rw [List.cons_append, List.cons_append, List.append_assoc, List.takeWhile_append_dropWhile, ← hbs]
    · cases h

theorem signed_digits {sign ds : Bytes} (hs : Sign sign) (hne : ds ≠ [])
    (hds : ∀ b ∈ ds, digit b = true) (tail : Bytes) :
    signed (sign ++ (ds ++ tail)) = (sign,ds ++ tail) := by
  cases hs with
  | none =>
    cases ds with
    | nil => exact absurd rfl hne
    | cons d ds =>
      have hd := hds d (by simp)
      have hm : d ≠ code '-' := by rintro rfl; exact absurd hd (by decide)
      have hp : d ≠ code '+' := by rintro rfl; exact absurd hd (by decide)
      simp [signed, hm, hp]
  | plus => rfl
  | minus => rfl

theorem exponent_complete {e tail : Bytes} (he : Exponent e) (ht : tail.head?.any separator = true) :
    exponent (e ++ tail) = some (e,tail) := by
  have hd : tail.head?.any digit = false :=
    head_any_false (fun b hb => (separator_cases b hb).1) (.inl ht : Follows true tail)
  have hall (b : UInt8) (sign ds : Bytes) (hs : Sign sign) (hne : ds ≠ [])
      (hds : ∀ b ∈ ds, digit b = true) :
      exponent (b::sign ++ ds ++ tail) = some (b::sign ++ ds,tail) := by
    rw [List.cons_append, List.cons_append, List.append_assoc, exponent,
      signed_digits hs hne hds tail]
    simp only [takeWhile_run hds hd, dropWhile_run hds hd]
    rw [if_pos ⟨hne,ht⟩]
    rfl
  cases he with
  | lower sign ds hs hne hds => exact hall _ sign ds hs hne hds
  | upper sign ds hs hne hds => exact hall _ sign ds hs hne hds

theorem exponent_head {e : Bytes} (h : Exponent e) (tail : Bytes) :
    (e ++ tail).head?.any exponentMark = true ∧ (e ++ tail).head?.any digit = false ∧
      (e ++ tail).head? ≠ some (code '.') := by
  cases h <;> exact ⟨rfl,rfl,by simp [code]⟩

/-- What both number functions take behind the digits before the point. -/
theorem numberFrom_sound (s whole rest num tail : Bytes) (hw : Whole whole)
    (hd : rest.head?.any digit = false) (h : numberFrom s whole rest = .ok (num,tail)) :
    ∃ bare, Numeral bare num ∧ whole ++ rest = num ++ tail ∧
      (bare = true → tail.head?.any separator = true) := by
  have hparts : (whole ++ (point rest).1).getLast? ≠ some (code '.') →
      Fraction (point rest).1 ∧ rest = (point rest).1 ++ (point rest).2 := by
    intro hl
    rcases point_parts rest hd with ⟨h1,h2⟩ | ⟨ds,h1,hds,hr⟩
    · rw [h1, h2]
      exact ⟨.none,rfl⟩
    · refine ⟨?_,hr⟩
      rw [h1]
      refine .point ds ?_ hds
      rintro rfl
      exact hl (by rw [h1]; simp)
  rw [numberFrom] at h
  split_ifs at h with hl he
  · cases h
  · obtain ⟨hf,hr⟩ := hparts hl
    split at h
    · next e rest' hx =>
      injection h with h
      injection h with hn ht
      subst hn ht
      obtain ⟨hexp,hrest,hsep⟩ := exponent_sound _ _ _ he hx
      refine ⟨true,.exponential _ _ _ hw hf hexp,?_,fun _ => hsep⟩
      rw [List.append_assoc, ← hrest, List.append_assoc, ← hr]
    · cases h
  · obtain ⟨hf,hr⟩ := hparts hl
    injection h with h
    injection h with hn ht
    subst hn ht
    refine ⟨false,.plain _ _ hw hf,?_,nofun⟩
    rw [List.append_assoc, ← hr]

theorem getLast_fraction {whole fraction : Bytes} (hw : Whole whole) (hf : Fraction fraction) :
    (whole ++ fraction).getLast? ≠ some (code '.') := by
  cases hf with
  | none =>
    rw [List.append_nil]
    exact getLast_digits [] (whole_digits hw).1 (whole_digits hw).2
  | point ds hne hds =>
    have : whole ++ code '.'::ds = (whole ++ [code '.']) ++ ds := by simp
    rw [this]
    exact getLast_digits _ hne hds

/-- The text of a numeral behind its whole part, with what follows it. -/
theorem numberFrom_complete (bare : Bool) (t tail : Bytes) (h : Numeral bare t)
    (hf : Follows bare tail) :
    ∃ whole rest, Whole whole ∧ t ++ tail = whole ++ rest ∧ rest.head?.any digit = false ∧
      ∀ s, numberFrom s whole rest = .ok (t,tail) := by
  have hd : tail.head?.any digit = false :=
    head_any_false (fun b hb => (separator_cases b hb).1) hf
  have hexp : tail.head?.any exponentMark = false :=
    head_any_false (fun b hb => (separator_cases b hb).2.2) hf
  have hp : tail.head? ≠ some (code '.') := by
    intro hc
    have := head_any_false (p := (· = code '.'))
      (fun b hb => by simpa using (separator_cases b hb).2.1) hf
    rw [hc] at this
    simp at this
  have hhead (fraction more : Bytes) (hfr : Fraction fraction) (hm : more.head?.any digit = false) :
      (fraction ++ more).head?.any digit = false := by
    cases hfr with
    | none => exact hm
    | point ds hne hds => rfl
  cases h with
  | plain whole fraction hw hfr =>
    refine ⟨whole,fraction ++ tail,hw,List.append_assoc _ _ _,hhead _ _ hfr hd,fun s => ?_⟩
    rw [numberFrom, point_fraction hfr hd hp, if_neg (getLast_fraction hw hfr)]
    simp only [hexp]
    rfl
  | exponential whole fraction e hw hfr he =>
    have ht : tail.head?.any separator = true := by
      rcases hf with hs | ⟨hb,-⟩
      · exact hs
      · cases hb
    obtain ⟨hmark,hdigit,hpoint⟩ := exponent_head he tail
    refine ⟨whole,fraction ++ (e ++ tail),hw,by simp only [List.append_assoc],
      hhead _ _ hfr hdigit,fun s => ?_⟩
    rw [numberFrom, point_fraction hfr hdigit hpoint, if_neg (getLast_fraction hw hfr)]
    simp only [hmark, if_true, exponent_complete he ht]

theorem decodeNumber_sound (b : UInt8) (bs num tail : Bytes) (hb : digit b = true) (h0 : b ≠ code '0')
    (h : decodeNumber (b::bs) = .ok (num,tail)) :
    ∃ bare, Numeral bare num ∧ b::bs = num ++ tail ∧
      (bare = true → tail.head?.any separator = true) := by
  rw [decodeNumber] at h
  split at h
  · cases h
  · have hw : Whole ((b::bs).takeWhile digit) := by
      rw [List.takeWhile_cons_of_pos hb]
      exact .other b _ hb h0 mem_takeWhile
    obtain ⟨bare,hn,hs,hf⟩ := numberFrom_sound _ _ _ num tail hw (head_dropWhile digit _) h
    rw [List.takeWhile_append_dropWhile] at hs
    exact ⟨bare,hn,hs,hf⟩

theorem decodeNumberZero_sound (bs num tail : Bytes)
    (h : decodeNumberZero (code '0'::bs) = .ok (num,tail)) :
    ∃ bare, Numeral bare num ∧ code '0'::bs = num ++ tail ∧
      (bare = true → tail.head?.any separator = true) := by
  rw [decodeNumberZero] at h
  split at h
  · cases h
  · next hd => exact numberFrom_sound _ _ _ num tail .zero (by simpa using hd) h

/-- A numeral is read whole by the function that its first digit leads to. -/
theorem numeral_complete (bare : Bool) (t tail : Bytes) (h : Numeral bare t) (hf : Follows bare tail) :
    (∃ bs, t ++ tail = code '0'::bs ∧ decodeNumberZero (t ++ tail) = .ok (t,tail)) ∨
      ∃ b bs, t ++ tail = b::bs ∧ digit b = true ∧ b ≠ code '0' ∧
        decodeNumber (t ++ tail) = .ok (t,tail) := by
  obtain ⟨whole,rest,hw,ht,hd,hn⟩ := numberFrom_complete bare t tail h hf
  rw [ht]
  cases hw with
  | zero =>
    refine .inl ⟨rest,rfl,?_⟩
    have : (code '0'::rest).tail.head?.any digit = false := hd
    rw [List.singleton_append, decodeNumberZero, this]
    exact hn _
  | other b ds hb h0 hds =>
    have hall : ∀ c ∈ b::ds, digit c = true := List.forall_mem_cons.mpr ⟨hb,hds⟩
    refine .inr ⟨b,ds ++ rest,rfl,hb,h0,?_⟩
    rw [decodeNumber, takeWhile_run hall hd, dropWhile_run hall hd, if_neg (List.cons_ne_nil b ds)]
    exact hn _

end Numerals

end Vecoda.JsonScanning
