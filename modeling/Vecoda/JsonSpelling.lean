import Vecoda.JsonEscapes

/-!
# The strings that are decoded as they are meant

What the three calls of `decode_string` leave of a body, against what its escapes
denote one by one. The first two calls see the body with every backslash taken for
the start of a Unicode escape that can be one; the third goes over what they leave,
where a backslash that a Unicode escape denotes looks like any other.
-/

set_option autoImplicit false

namespace Vecoda.JsonSpelling
open MessagePipe (Bytes)
open LuaText JsonGrammar JsonStrings JsonScanning JsonEscapes

section ThirdCall

def Symbol.raw : Symbol → Bytes
  | .byte b => [b]
  | .escape c => [code '\\',c]

def Known (ss : List Symbol) : Prop := ∀ c, Symbol.escape c ∈ ss → (decodeEscape c).isSome = true

def simple (ss : List Symbol) : Bytes := gsub decodeSimpleEscape (ss.flatMap Symbol.raw)

def behind (ss : List Symbol) : Bytes :=
  gsub decodeSimpleEscape (code '\\'::ss.flatMap Symbol.raw)

theorem decodeEscapeSet_isSome (c : UInt8) : decodeEscapeSet c = (decodeEscape c).isSome := by
  rw [Bool.eq_iff_iff, decodeEscapeSet, decodeEscape, List.lookup_isSome_iff]
  simp [escapeMap]

theorem simple_byte {b : UInt8} (hb : b ≠ code '\\') (ss : List Symbol) :
    simple (.byte b::ss) = b::simple ss :=
  gsub_pass _ b _ (decodeSimpleEscape_none hb)

theorem simple_escape {c b : UInt8} (hc : decodeEscape c = some b) (ss : List Symbol) :
    simple (.escape c::ss) = b::simple ss :=
  gsub_match decodeSimpleEscape (code '\\') _ [b] 1 (by simp [decodeSimpleEscape, hc])

theorem behind_known {c b : UInt8} (hc : decodeEscape c = some b) (ss : List Symbol) :
    behind (.byte c::ss) = b::simple ss :=
  simple_escape hc ss

theorem behind_unknown {c : UInt8} (hc : decodeEscape c = none) (ss : List Symbol) :
    behind (.byte c::ss) = code '\\'::c::simple ss :=
  gsub_match decodeSimpleEscape (code '\\') _ [code '\\',c] 1
    (by simp [decodeSimpleEscape, Symbol.raw, hc])

/-- The backslash of the escape is taken for what the first backslash stands before. -/
theorem behind_escape (c : UInt8) (ss : List Symbol) :
    behind (.escape c::ss) = code '\\'::gsub decodeSimpleEscape (c::ss.flatMap Symbol.raw) :=
  gsub_match decodeSimpleEscape (code '\\') _ [code '\\'] 1 rfl

theorem behind_other {c : UInt8} (hc : c ≠ code '\\') (ss : List Symbol) :
    behind (.escape c::ss) = code '\\'::c::simple ss := by
  rw [behind_escape, gsub_pass _ c _ (decodeSimpleEscape_none hc), simple]

theorem known_cons {s : Symbol} {ss : List Symbol} (h : Known (s::ss)) : Known ss :=
  fun c hc => h c (List.mem_cons_of_mem _ hc)

theorem known_head {c : UInt8} {ss : List Symbol} (h : Known (.escape c::ss)) :
    ∃ b, decodeEscape c = some b :=
  Option.isSome_iff_exists.mp (h c List.mem_cons_self)

theorem thirdCall_length (ss : List Symbol) (h : Known ss) :
    (simple ss).length ≤ ss.length ∧ (behind ss).length ≤ ss.length + 1 := by
  induction ss with
  | nil => exact ⟨le_rfl,le_rfl⟩
  | cons s ss ih =>
    obtain ⟨hs,hb⟩ := ih (known_cons h)
    cases s with
    | byte b =>
      constructor
      · by_cases hslash : b = code '\\'
        · subst hslash
          exact hb
        · rw [simple_byte hslash]
          exact Nat.succ_le_succ hs
      · cases hd : decodeEscape b with
        | none =>
          rw [behind_unknown hd]
          exact Nat.succ_le_succ (Nat.succ_le_succ hs)
        | some v =>
          rw [behind_known hd]
          exact Nat.succ_le_succ (hs.trans (Nat.le_succ _))
    | escape c =>
      obtain ⟨v,hv⟩ := known_head h
      constructor
      · rw [simple_escape hv]
        exact Nat.succ_le_succ hs
      · by_cases hslash : c = code '\\'
        · rw [behind_escape, hslash]
          exact Nat.succ_le_succ hb
        · rw [behind_other hslash]
          exact Nat.succ_le_succ (Nat.succ_le_succ hs)

/-- The third call leaves what is meant exactly if no backslash strays: one that does makes the
result shorter, or takes the backslash of an escape that stands for another byte. -/
theorem thirdCall_iff (ss : List Symbol) (h : Known ss) :
    (simple ss = ss.map Symbol.value ↔ strays ss = false) ∧
      (behind ss = code '\\'::ss.map Symbol.value ↔ takes ss = false ∧ strays ss = false) := by
  induction ss with
  | nil => exact ⟨iff_of_true rfl rfl,iff_of_true rfl ⟨rfl,rfl⟩⟩
  | cons s ss ih =>
    obtain ⟨hs,hb⟩ := ih (known_cons h)
    cases s with
    | byte b =>
      have hset := decodeEscapeSet_isSome b
      constructor
      · by_cases hslash : b = code '\\'
        · subst hslash
          apply hb.trans
          simp [strays]
        · rw [simple_byte hslash, List.map_cons, Symbol.value, List.cons.injEq, strays]
          simp [hs, hslash]
      · cases hd : decodeEscape b with
        | none =>
          have hslash : b ≠ code '\\' := by
            rintro rfl
            cases hd
          rw [behind_unknown hd, List.map_cons, Symbol.value, strays, takes, hset, hd]
          simp [hs, hslash]
        | some v =>
          have hlt : (behind (.byte b::ss)).length <
              (code '\\'::(Symbol.byte b::ss).map Symbol.value).length := by
            rw [behind_known hd]
            simpa using Nat.lt_succ_of_le (thirdCall_length ss (known_cons h)).1
          refine iff_of_false (fun heq => ?_) (fun ht => ?_)
          · rw [heq] at hlt
            exact lt_irrefl _ hlt
          · rw [takes, hset, hd] at ht
            cases ht.1
    | escape c =>
      obtain ⟨v,hv⟩ := known_head h
      have hvalue : (Symbol.escape c).value = v := by rw [Symbol.value, hv, Option.getD_some]
      constructor
      · rw [simple_escape hv, List.map_cons, hvalue, strays]
        simp [hs]
      · by_cases hslash : c = code '\\'
        · subst hslash
          obtain rfl : code '\\' = v := Option.some.inj hv
          rw [behind_escape, List.map_cons, hvalue, takes, if_pos rfl, strays, List.cons.injEq]
          refine Iff.trans ?_ hb
          simp [behind]
        · rw [behind_other hslash, List.map_cons, hvalue, takes, if_neg hslash, strays, hv]
          simp [hs, eq_comm (a := c)]

end ThirdCall

section FirstCalls

def twice (s : Bytes) : Bytes := gsub decodeUnicodeEscape (gsub decodeUnicodeSurrogate s)

def Pair (s1 s2 : ℕ) : Prop := (0xD800 ≤ s1 ∧ s1 ≤ 0xDBFF) ∧ 0xDC00 ≤ s2 ∧ s2 ≤ 0xDFFF

def pairCode (s1 s2 : ℕ) : ℕ := 0x10000 + (s1 - 0xD800) * 0x400 + (s2 - 0xDC00)

def lead : List Segment → Option ℕ
  | .unicode code::_ => some code
  | _ => none

theorem surrogate_pass {b : UInt8} {s : Bytes} (h : unicodeEscape (b::s) = none) :
    decodeUnicodeSurrogate (b::s) = none :=
  surrogate_none fun n hn => by rw [h] at hn; cases hn

/-- A character that two escapes denote has no ASCII byte. -/
theorem pair_bytes {s1 s2 : ℕ} (h : Pair s1 s2) :
    ∃ b bs, utf8Char (pairCode s1 s2) = b::bs ∧ bs.length = 3 ∧ ∀ d ∈ b::bs, 0x80 ≤ d.toNat := by
  obtain ⟨h1,h2⟩ := h
  have hcode : 0x10000 ≤ pairCode s1 s2 ∧ pairCode s1 s2 < 0x110000 := by
    unfold pairCode
    omega
  rw [utf8Char, if_neg (by omega), if_neg (by omega), if_neg (by omega)]
  refine ⟨_,_,rfl,rfl,?_⟩
  simp only [List.forall_mem_cons, UInt8.toNat_ofNat']
  refine ⟨by omega,by omega,by omega,by omega,List.forall_mem_nil _⟩

theorem hexadecimal_lt {b : UInt8} (h : hexadecimal b = true) : b.toNat < 0x80 := by
  simp only [hexadecimal, digit, Bool.or_eq_true, Bool.and_eq_true, decide_eq_true_eq,
    UInt8.le_iff_toNat_le] at h
  have h9 : (code '9').toNat = 57 := rfl
  have hf : (code 'f').toNat = 102 := rfl
  have hF : (code 'F').toNat = 70 := rfl
  omega

theorem surrogate_some {s repl : Bytes} {n : ℕ} (h : decodeUnicodeSurrogate s = some (n,repl)) :
    ∃ s1 s2, Pair s1 s2 ∧ repl = utf8Char (pairCode s1 s2) := by
  rw [decodeUnicodeSurrogate] at h
  split at h
  · next s1 s2 _ _ =>
    split at h
    · next hpair =>
      injection h with h
      injection h with _ hrepl
      exact ⟨s1,s2,hpair,hrepl.symm⟩
    · cases h
  · cases h

/-- An ASCII byte in front of what the first call leaves was there before. -/
theorem surrogate_front {s r : Bytes} {b : UInt8} (hb : b.toNat < 0x80)
    (h : gsub decodeUnicodeSurrogate s = b::r) :
    ∃ s', s = b::s' ∧ gsub decodeUnicodeSurrogate s' = r := by
  cases s with
  | nil => cases h
  | cons a s =>
    cases hm : decodeUnicodeSurrogate (a::s) with
    | none =>
      rw [gsub_pass _ _ _ hm] at h
      injection h with ha hr
      exact ⟨s,by rw [ha],hr⟩
    | some m =>
      obtain ⟨s1,s2,hpair,hrepl⟩ := surrogate_some hm
      obtain ⟨d,ds,hd,-,hlarge⟩ := pair_bytes hpair
      rw [gsub_match _ _ _ _ _ hm, hrepl, hd] at h
      injection h with hdb
      have := hlarge d List.mem_cons_self
      rw [hdb] at this
      omega

/-- The first call makes no escape. -/
theorem surrogate_keeps {b : UInt8} {s : Bytes} (h : unicodeEscape (b::s) = none) :
    unicodeEscape (b::gsub decodeUnicodeSurrogate s) = none := by
  rw [Option.eq_none_iff_forall_ne_some]
  intro n hn
  obtain ⟨x,y,z,w,t,ht,hx,-⟩ := unicodeEscape_some hn
  injection ht with hb ht
  simp only [List.all_cons, List.all_nil, Bool.and_true, Bool.and_eq_true] at hx
  obtain ⟨s₁,rfl,h₁⟩ := surrogate_front (by decide) ht
  obtain ⟨s₂,rfl,h₂⟩ := surrogate_front (hexadecimal_lt hx.1) h₁
  obtain ⟨s₃,rfl,h₃⟩ := surrogate_front (hexadecimal_lt hx.2.1) h₂
  obtain ⟨s₄,rfl,h₄⟩ := surrogate_front (hexadecimal_lt hx.2.2.1) h₃
  obtain ⟨s₅,rfl,h₅⟩ := surrogate_front (hexadecimal_lt hx.2.2.2) h₄
  rw [hb, unicodeEscape_text x y z w s₅ (by simp [hx])] at h
  cases h

theorem twice_pass {b : UInt8} {s : Bytes} (h : unicodeEscape (b::s) = none) :
    twice (b::s) = b::twice s := by
  rw [twice, gsub_pass _ _ _ (surrogate_pass h),
    gsub_pass _ _ _ (decodeUnicodeEscape_none (surrogate_keeps h)), twice]

theorem twice_pair {s t : Bytes} {s1 s2 : ℕ} (h1 : unicodeEscape s = some s1)
    (h2 : unicodeEscape (s.drop 6) = some s2) (hpair : Pair s1 s2) (ht : s.drop 12 = t) :
    twice s = utf8Char (pairCode s1 s2) ++ twice t := by
  cases s with
  | nil => cases h1
  | cons b s =>
    have hm : decodeUnicodeSurrogate (b::s) = some (11,utf8Char (pairCode s1 s2)) := by
      rw [decodeUnicodeSurrogate, h1, h2]
      exact if_pos hpair
    obtain ⟨d,ds,hd,-,hlarge⟩ := pair_bytes hpair
    rw [twice, gsub_match _ _ _ _ _ hm, gsub_through]
    · rw [← ht]
      rfl
    · intro v hv hne
      obtain ⟨a,v,rfl⟩ := List.exists_cons_of_ne_nil hne
      refine decodeUnicodeEscape_none (unicodeEscape_none ?_)
      rintro rfl
      rw [hd] at hv
      have := hlarge _ (hv.mem List.mem_cons_self)
      exact absurd this (by decide)

theorem twice_code {x y z w : UInt8} {t : Bytes} (hx : [x,y,z,w].all hexadecimal = true)
    (hpair : ∀ s2, unicodeEscape t = some s2 → ¬ Pair (ofDigits hexDigit 16 [x,y,z,w]) s2) :
    twice (code '\\'::code 'u'::x::y::z::w::t) =
      utf8Char (ofDigits hexDigit 16 [x,y,z,w]) ++ twice t := by
  have hescape (t : Bytes) := unicodeEscape_text x y z w t hx
  have hm : decodeUnicodeSurrogate (code '\\'::code 'u'::x::y::z::w::t) = none := by
    rw [decodeUnicodeSurrogate]
    split
    · next s1 s2 h1 h2 =>
      rw [hescape] at h1
      injection h1 with h1
      rw [← h1]
      exact if_neg (hpair s2 h2)
    · rfl
  have hthrough : gsub decodeUnicodeSurrogate ([code 'u',x,y,z,w] ++ t) =
      [code 'u',x,y,z,w] ++ gsub decodeUnicodeSurrogate t := by
    refine gsub_through _ _ _ fun v hv hne => ?_
    obtain ⟨a,v,rfl⟩ := List.exists_cons_of_ne_nil hne
    refine surrogate_pass (unicodeEscape_none ?_)
    have ha : a = code 'u' ∨ hexadecimal a = true := by
      have := hv.mem List.mem_cons_self
      simp only [List.mem_cons, List.not_mem_nil, or_false] at this
      simp only [List.all_cons, List.all_nil, Bool.and_true, Bool.and_eq_true] at hx
      rcases this with rfl | rfl | rfl | rfl | rfl
      · exact .inl rfl
      · exact .inr hx.1
      · exact .inr hx.2.1
      · exact .inr hx.2.2.1
      · exact .inr hx.2.2.2
    rcases ha with rfl | ha
    · decide
    · exact hexadecimal_ne a ha
  rw [twice, gsub_pass _ _ _ hm]
  refine (congrArg (fun s => gsub decodeUnicodeEscape (code '\\'::s)) hthrough).trans ?_
  refine (gsub_match decodeUnicodeEscape _ _ (utf8Char (ofDigits hexDigit 16 [x,y,z,w])) 5 ?_).trans rfl
  rw [decodeUnicodeEscape]
  exact congrArg (Option.map _) (hescape _)

theorem symbols_pair {s1 s2 : ℕ} (h : Pair s1 s2) (ps : List Segment) :
    symbols (.unicode s1::.unicode s2::ps) =
      (utf8Char (pairCode s1 s2)).map .byte ++ symbols ps :=
  if_pos h

theorem symbols_code {s1 : ℕ} {ps : List Segment} (h : ∀ s2, lead ps = some s2 → ¬ Pair s1 s2) :
    symbols (.unicode s1::ps) = (utf8Char s1).map .byte ++ symbols ps := by
  match ps, h with
  | [], _ => rfl
  | .symbol s::ps, _ => rfl
  | .unicode s2::ps, h => exact if_neg (h s2 rfl)

theorem raw_bytes (bs : Bytes) : (bs.map Symbol.byte).flatMap Symbol.raw = bs := by
  induction bs with
  | nil => rfl
  | cons b bs ih => exact congrArg (b::·) ih

end FirstCalls

section Pieces

theorem segments_plain {b : UInt8} (hb : b ≠ code '\\') (bs : Bytes) :
    segments (b::bs) = .symbol (.byte b)::segments bs := by
  rw [segments.eq_def]
  simp only [hb, if_false]

theorem segments_escape {c : UInt8} (hc : c ≠ code 'u') (cs : Bytes) :
    segments (code '\\'::c::cs) = .symbol (.escape c)::segments cs := by
  rw [segments.eq_def]
  simp only [if_true, hc, if_false]

theorem segments_unicode (x y z w : UInt8) (ds : Bytes) :
    segments (code '\\'::code 'u'::x::y::z::w::ds) =
      .unicode (ofDigits hexDigit 16 [x,y,z,w])::segments ds :=
  rfl

theorem body_rest {b : UInt8} {bs : Bytes} (hb : b ≠ code '\\') (h : Body (b::bs)) : Body bs := by
  generalize hs : b::bs = s at h
  cases h with
  | nil => cases hs
  | plain c cs hc h =>
    injection hs with _ hbs
    rw [hbs]
    exact h
  | escape c cs hc h =>
    injection hs with hslash
    exact absurd hslash hb
  | unicode xs cs hl hx h =>
    injection hs with hslash
    exact absurd hslash hb

theorem body_behind {x y z w : UInt8} {ds : Bytes}
    (h : Body (code '\\'::code 'u'::x::y::z::w::ds)) : Body ds := by
  generalize hs : code '\\'::code 'u'::x::y::z::w::ds = s at h
  cases h with
  | nil => cases hs
  | plain c cs hc h =>
    injection hs with hslash
    rw [← hslash] at hc
    cases hc
  | escape c cs hc h =>
    injection hs with _ hs
    injection hs with hu
    rw [← hu] at hc
    cases hc
  | unicode xs cs hl hx h =>
    obtain ⟨a,b,c,d,rfl⟩ := List.length_eq_four.mp hl
    simp only [List.cons_append, List.nil_append, List.cons.injEq] at hs
    rw [hs.2.2.2.2.2.2]
    exact h

theorem lead_segments {s : Bytes} (h : Body s) : lead (segments s) = unicodeEscape s := by
  cases h with
  | nil => rfl
  | plain b bs hb h =>
    have hslash := (ordinary_ne b hb).2.2
    rw [segments_plain hslash, unicodeEscape_none hslash, lead]
    nofun
  | escape c bs hc h =>
    have hu := escapable_ne c hc
    rw [segments_escape hu, unicodeEscape_other hu, lead]
    nofun
  | unicode xs bs hl hx h =>
    obtain ⟨x,y,z,w,rfl⟩ := List.length_eq_four.mp hl
    exact (unicodeEscape_text x y z w bs (List.all_eq_true.mpr hx)).symm

theorem byte_front {s : Bytes} {b : UInt8} {ps : List Segment} (h : Body s)
    (hp : segments s = .symbol (.byte b)::ps) : ∃ s', s = b::s' ∧ Body s' ∧ segments s' = ps := by
  cases h with
  | nil => cases hp
  | plain c cs hc h =>
    rw [segments_plain (ordinary_ne c hc).2.2] at hp
    injection hp with hb hps
    injection hb with hb
    injection hb with hb
    exact ⟨cs,by rw [hb],h,hps⟩
  | escape c cs hc h =>
    rw [segments_escape (escapable_ne c hc)] at hp
    injection hp with hb
    injection hb with hb
    cases hb
  | unicode xs cs hl hx h =>
    obtain ⟨x,y,z,w,rfl⟩ := List.length_eq_four.mp hl
    injection hp with hb
    cases hb

theorem unescaped_some {ps : List Segment} (h : unescaped ps = true) :
    ∃ x y z w qs, ps = .symbol (.byte (code 'u'))::.symbol (.byte x)::.symbol (.byte y)::
      .symbol (.byte z)::.symbol (.byte w)::qs ∧ [x,y,z,w].all hexadecimal = true := by
  rw [unescaped] at h
  split at h
  · next u x y z w htake =>
    simp only [Bool.and_eq_true, decide_eq_true_eq] at h
    refine ⟨x,y,z,w,ps.drop 5,?_,h.2⟩
    rw [← h.1, ← List.take_append_drop 5 ps, htake]
    rfl
  · cases h

theorem not_unescaped {bs : Bytes} (h : Body bs) (hcode : unicodeEscape (code '\\'::bs) = none) :
    unescaped (segments bs) = false := by
  rw [Bool.eq_false_iff]
  intro hu
  obtain ⟨x,y,z,w,qs,hqs,hx⟩ := unescaped_some hu
  obtain ⟨s₁,rfl,h₁,hp₁⟩ := byte_front h hqs
  obtain ⟨s₂,rfl,h₂,hp₂⟩ := byte_front h₁ hp₁
  obtain ⟨s₃,rfl,h₃,hp₃⟩ := byte_front h₂ hp₂
  obtain ⟨s₄,rfl,h₄,hp₄⟩ := byte_front h₃ hp₃
  obtain ⟨s₅,rfl,-,-⟩ := byte_front h₄ hp₄
  rw [unicodeEscape_text x y z w s₅ hx] at hcode
  cases hcode

/-- How the first two calls see the segments of a body. -/
inductive Seen : List Segment → List Segment → Prop
  | nil : Seen [] []
  | same (p : Segment) {ps qs : List Segment}
      (hp : p = .symbol (.escape (code '\\')) → unescaped ps = false) (h : Seen ps qs) :
      Seen (p::ps) (p::qs)
  | split {x y z w : UInt8} (hx : [x,y,z,w].all hexadecimal = true) {ps qs : List Segment}
      (h : Seen ps qs) :
      Seen (.symbol (.escape (code '\\'))::.symbol (.byte (code 'u'))::.symbol (.byte x)::
          .symbol (.byte y)::.symbol (.byte z)::.symbol (.byte w)::ps)
        (.symbol (.byte (code '\\'))::.unicode (ofDigits hexDigit 16 [x,y,z,w])::qs)

theorem lead_seen {ps qs : List Segment} (h : Seen ps qs) : lead qs = lead ps := by
  cases h with
  | nil => rfl
  | same p hp h => cases p <;> rfl
  | split hx h => rfl

def Reading (s : Bytes) : Prop :=
  ∃ qs, Seen (segments s) qs ∧ twice s = (symbols qs).flatMap Symbol.raw

theorem reading_unicode {x y z w : UInt8} (hx : [x,y,z,w].all hexadecimal = true) {ds : Bytes}
    (hds : Body ds) (ih : ∀ s : Bytes, s.length ≤ ds.length → Body s → Reading s) :
    ∃ qs, Seen (segments ds) qs ∧ twice (code '\\'::code 'u'::x::y::z::w::ds) =
      (symbols (.unicode (ofDigits hexDigit 16 [x,y,z,w])::qs)).flatMap Symbol.raw := by
  by_cases hpair : ∃ s2, unicodeEscape ds = some s2 ∧ Pair (ofDigits hexDigit 16 [x,y,z,w]) s2
  · obtain ⟨s2,hs2,hpair⟩ := hpair
    obtain ⟨a,b,c,d,t,rfl,hd,rfl⟩ := unicodeEscape_some hs2
    obtain ⟨qs,hqs,ht⟩ := ih t (by simp only [List.length_cons]; omega) (body_behind hds)
    refine ⟨.unicode (ofDigits hexDigit 16 [a,b,c,d])::qs,.same _ nofun hqs,?_⟩
    rw [twice_pair (unicodeEscape_text x y z w _ hx) hs2 hpair rfl, symbols_pair hpair,
      List.flatMap_append, raw_bytes, ← ht]
    rfl
  · have hpair : ∀ s2, unicodeEscape ds = some s2 →
        ¬ Pair (ofDigits hexDigit 16 [x,y,z,w]) s2 := fun s2 hs2 hp => hpair ⟨s2,hs2,hp⟩
    obtain ⟨qs,hqs,ht⟩ := ih ds le_rfl hds
    have hlead : lead qs = unicodeEscape ds := (lead_seen hqs).trans (lead_segments hds)
    refine ⟨qs,hqs,?_⟩
    rw [twice_code hx hpair, symbols_code (hlead ▸ hpair), List.flatMap_append, raw_bytes, ht]

theorem reading {s : Bytes} (h : Body s) : Reading s := by
  induction hn : s.length using Nat.strong_induction_on generalizing s with
  | _ n ih =>
    have ih (ds : Bytes) (hlt : ds.length < n) (s : Bytes) (hs : s.length ≤ ds.length)
        (h : Body s) : Reading s := ih s.length (lt_of_le_of_lt hs hlt) h rfl
    cases h with
    | nil => exact ⟨[],.nil,rfl⟩
    | plain b bs hb h =>
      have hslash := (ordinary_ne b hb).2.2
      obtain ⟨qs,hqs,ht⟩ := ih bs (by rw [← hn]; simp) bs le_rfl h
      refine ⟨.symbol (.byte b)::qs,segments_plain hslash bs ▸ .same _ nofun hqs,?_⟩
      rw [twice_pass (unicodeEscape_none hslash), ht]
      rfl
    | escape c bs hc h =>
      have hu := escapable_ne c hc
      rw [Reading, segments_escape hu, twice_pass (unicodeEscape_other hu)]
      cases hcode : unicodeEscape (c::bs) with
      | none =>
        obtain ⟨qs,hqs,ht⟩ := ih bs (by rw [← hn]; simp only [List.length_cons]; omega)
          bs le_rfl h
        have hbare : Segment.symbol (.escape c) = .symbol (.escape (code '\\')) →
            unescaped (segments bs) = false := by
          intro hc
          injection hc with hc
          injection hc with hc
          exact not_unescaped h (hc ▸ hcode)
        refine ⟨.symbol (.escape c)::qs,.same _ hbare hqs,?_⟩
        rw [twice_pass hcode, ht]
        rfl
      | some m =>
        obtain ⟨x,y,z,w,ds,hbs,hx,-⟩ := unicodeEscape_some hcode
        injection hbs with hslash hbs
        subst hslash hbs
        have hplain {b : UInt8} (hb : hexadecimal b = true) : b ≠ code '\\' := hexadecimal_ne b hb
        have hx' := hx
        simp only [List.all_cons, List.all_nil, Bool.and_true, Bool.and_eq_true] at hx'
        obtain ⟨h1,h2,h3,h4⟩ := hx'
        have hds : Body ds := body_rest (hplain h4) (body_rest (hplain h3) (body_rest (hplain h2)
          (body_rest (hplain h1) (body_rest (by decide) h))))
        obtain ⟨qs,hqs,ht⟩ := reading_unicode hx hds
          (ih ds (by rw [← hn]; simp only [List.length_cons]; omega))
        refine ⟨.symbol (.byte (code '\\'))::.unicode (ofDigits hexDigit 16 [x,y,z,w])::qs,?_,
          congrArg (code '\\'::·) ht⟩
        rw [segments_plain (by decide), segments_plain (hplain h1), segments_plain (hplain h2),
          segments_plain (hplain h3), segments_plain (hplain h4)]
        exact .split hx hqs
    | unicode xs bs hl hx h =>
      obtain ⟨x,y,z,w,rfl⟩ := List.length_eq_four.mp hl
      obtain ⟨qs,hqs,ht⟩ := reading_unicode (List.all_eq_true.mpr hx) h
        (ih bs (by rw [← hn]; simp only [List.length_cons, List.length_append]; omega))
      exact ⟨.unicode (ofDigits hexDigit 16 [x,y,z,w])::qs,.same _ nofun hqs,ht⟩

end Pieces

section Lengths

theorem utf8Char_length (n : ℕ) : (utf8Char n).length ≤ 4 := by
  rw [utf8Char]
  split_ifs <;> simp

theorem symbols_cons_length (p : Segment) (ps : List Segment) :
    (symbols ps).length ≤ (symbols (p::ps)).length := by
  cases p with
  | symbol s => exact Nat.le_succ _
  | unicode s1 =>
    by_cases hpair : ∃ s2, lead ps = some s2 ∧ Pair s1 s2
    · obtain ⟨s2,hs2,hpair⟩ := hpair
      match ps, hs2 with
      | .unicode s2::ps, rfl =>
        -- the second of a pair is no first
        have hlow : ∀ s3, lead ps = some s3 → ¬ Pair s2 s3 := by
          intro s3 _ hlow
          have := hpair.2
          have := hlow.1
          omega
        obtain ⟨b,bs,hb,hbs,-⟩ := pair_bytes hpair
        have := utf8Char_length s2
        rw [symbols_code hlow, symbols_pair hpair, hb]
        simp only [List.length_append, List.length_map, List.length_cons, hbs]
        omega
    · rw [symbols_code fun s2 hs2 hp => hpair ⟨s2,hs2,hp⟩, List.length_append]
      exact Nat.le_add_left _ _

theorem symbols_unicode_length (s1 : ℕ) (ps : List Segment) :
    (symbols (.unicode s1::ps)).length ≤ (symbols ps).length + 4 := by
  by_cases hpair : ∃ s2, lead ps = some s2 ∧ Pair s1 s2
  · obtain ⟨s2,hs2,hpair⟩ := hpair
    match ps, hs2 with
    | .unicode s2::ps, rfl =>
      obtain ⟨b,bs,hb,hbs,-⟩ := pair_bytes hpair
      have := symbols_cons_length (.unicode s2) ps
      rw [symbols_pair hpair, hb]
      simp only [List.length_append, List.length_map, List.length_cons, hbs]
      omega
  · have := utf8Char_length s1
    rw [symbols_code fun s2 hs2 hp => hpair ⟨s2,hs2,hp⟩, List.length_append, List.length_map]
    omega

theorem hides_unicode (n : ℕ) (ps : List Segment) : hides (.unicode n::ps) = hides ps := rfl

/-- What the first two calls split is shorter than what it denotes. -/
theorem seen_length : ∀ {ps qs : List Segment}, Seen ps qs →
    (symbols qs).length + (hides ps).toNat ≤ (symbols ps).length
  | _, _, .nil => le_rfl
  | .symbol s::ps, .symbol _::qs, .same _ hp h => by
    have ih := seen_length h
    have hhides : hides (.symbol s::ps) = hides ps := by
      rw [hides]
      by_cases hs : Segment.symbol s = .symbol (.escape (code '\\'))
      · rw [hp hs, Bool.and_false, Bool.false_or]
      · rw [decide_eq_false hs, Bool.false_and, Bool.false_or]
    rw [hhides]
    exact (Nat.succ_add _ _).trans_le (Nat.succ_le_succ ih)
  | .unicode s1::ps, .unicode _::qs, .same _ _ h => by
    by_cases hpair : ∃ s2, lead ps = some s2 ∧ Pair s1 s2
    · obtain ⟨s2,hs2,hpair⟩ := hpair
      match h, hs2 with
      | .same (.unicode _) _ h, rfl =>
        have ih := seen_length h
        rw [symbols_pair hpair, symbols_pair hpair, hides_unicode, hides_unicode]
        simp only [List.length_append]
        omega
    · have hpair : ∀ s2, lead ps = some s2 → ¬ Pair s1 s2 := fun s2 hs2 hp => hpair ⟨s2,hs2,hp⟩
      have ih := seen_length h
      rw [symbols_code hpair, symbols_code ((lead_seen h).symm ▸ hpair), hides_unicode]
      simp only [List.length_append]
      omega
  | _::_::.symbol (.byte x)::.symbol (.byte y)::.symbol (.byte z)::.symbol (.byte w)::ps, _::_::qs,
      .split _ h => by
    have ih := seen_length h
    have := symbols_unicode_length (ofDigits hexDigit 16 [x,y,z,w]) qs
    have hle := Bool.toNat_le (hides (.symbol (.escape (code '\\'))::.symbol (.byte (code 'u'))::
      .symbol (.byte x)::.symbol (.byte y)::.symbol (.byte z)::.symbol (.byte w)::ps))
    simp only [symbols, List.length_cons]
    omega

theorem seen_same {ps qs : List Segment} (h : Seen ps qs) (hh : hides ps = false) : qs = ps := by
  induction h with
  | nil => rfl
  | same p hp h ih =>
    rw [hides, Bool.or_eq_false_iff] at hh
    rw [ih hh.2]
  | split hx h ih =>
    rw [hides, Bool.or_eq_false_iff, decide_eq_true rfl, Bool.true_and] at hh
    exact absurd (hh.1.symm.trans hx) Bool.false_ne_true

theorem seen_escape {ps qs : List Segment} (h : Seen ps qs) {c : UInt8}
    (hc : .symbol (.escape c) ∈ qs) : .symbol (.escape c) ∈ ps := by
  induction h with
  | nil => exact hc
  | same p hp h ih =>
    rcases List.mem_cons.mp hc with hc | hc
    · exact List.mem_cons.mpr (.inl hc)
    · exact List.mem_cons_of_mem _ (ih hc)
  | split hx h ih =>
    have hc := ih (by simpa using hc)
    simp [hc]

end Lengths

section Bodies

theorem mem_symbols : ∀ {ps : List Segment} {c : UInt8}, .escape c ∈ symbols ps →
    .symbol (.escape c) ∈ ps
  | [], _, h => by cases h
  | .symbol s::ps, c, h => by
    rcases List.mem_cons.mp h with rfl | h
    · exact List.mem_cons_self
    · exact List.mem_cons_of_mem _ (mem_symbols h)
  | .unicode s1::ps, c, h => by
    by_cases hpair : ∃ s2, lead ps = some s2 ∧ Pair s1 s2
    · obtain ⟨s2,hs2,hpair⟩ := hpair
      match ps, hs2 with
      | .unicode _::ps, rfl =>
        rw [symbols_pair hpair] at h
        have h : .escape c ∈ symbols ps := by simpa using h
        exact List.mem_cons_of_mem _ (List.mem_cons_of_mem _ (mem_symbols h))
    · rw [symbols_code fun s2 hs2 hp => hpair ⟨s2,hs2,hp⟩] at h
      have h : .escape c ∈ symbols ps := by simpa using h
      exact List.mem_cons_of_mem _ (mem_symbols h)

theorem symbols_map (ss : List Symbol) : symbols (ss.map .symbol) = ss := by
  induction ss with
  | nil => rfl
  | cons s ss ih => exact congrArg (s::·) ih

theorem segments_known {s : Bytes} (h : Body s) {c : UInt8} (hc : .symbol (.escape c) ∈ segments s) :
    (decodeEscape c).isSome = true := by
  induction h with
  | nil => cases hc
  | plain b bs hb h ih =>
    rw [segments_plain (ordinary_ne b hb).2.2] at hc
    exact ih (by simpa using hc)
  | escape d bs hd h ih =>
    rw [segments_escape (escapable_ne d hd)] at hc
    rcases List.mem_cons.mp hc with hc | hc
    · injection hc with hc
      injection hc with hc
      rw [hc, ← decodeEscapeSet_isSome, decodeEscapeSet_eq, hd]
    · exact ih hc
  | unicode xs bs hl hx h ih =>
    obtain ⟨x,y,z,w,rfl⟩ := List.length_eq_four.mp hl
    exact ih (by simpa [segments_unicode] using hc)

/-- A body without Unicode escapes is its symbols, and no byte of them is a backslash. -/
theorem segments_simple {s : Bytes} (h : Body s) (hf : (flagsOf s).unicode = false) :
    ∃ ss : List Symbol, segments s = ss.map .symbol ∧ ss.flatMap Symbol.raw = s ∧
      ∀ b, .byte b ∈ ss → b ≠ code '\\' := by
  induction h with
  | nil => exact ⟨[],rfl,rfl,nofun⟩
  | plain b bs hb h ih =>
    have hslash := (ordinary_ne b hb).2.2
    obtain ⟨ss,hp,hraw,hss⟩ := ih (by rw [flagsOf_plain b bs hslash] at hf; exact hf)
    refine ⟨.byte b::ss,?_,congrArg (b::·) hraw,fun a ha => ?_⟩
    · rw [segments_plain hslash, hp, List.map_cons]
    · rcases List.mem_cons.mp ha with ha | ha
      · injection ha with ha
        rw [ha]
        exact hslash
      · exact hss a ha
  | escape c bs hc h ih =>
    have hu := escapable_ne c hc
    obtain ⟨ss,hp,hraw,hss⟩ := ih (by rw [flagsOf_simple c bs hu] at hf; exact hf)
    refine ⟨.escape c::ss,?_,congrArg (code '\\'::c::·) hraw,fun a ha => hss a (by simpa using ha)⟩
    rw [segments_escape hu, hp, List.map_cons]
  | unicode xs bs hl hx h ih =>
    rw [flagsOf_unicode xs bs hx] at hf
    cases hf

theorem segments_unicodeOnly {s : Bytes} (h : Body s) (hf : (flagsOf s).simple = false) (c : UInt8) :
    .symbol (.escape c) ∉ segments s := by
  induction h with
  | nil => exact List.not_mem_nil
  | plain b bs hb h ih =>
    have hslash := (ordinary_ne b hb).2.2
    rw [flagsOf_plain b bs hslash] at hf
    rw [segments_plain hslash]
    simpa using ih hf
  | escape d bs hd h ih =>
    rw [flagsOf_simple d bs (escapable_ne d hd)] at hf
    cases hf
  | unicode xs bs hl hx h ih =>
    rw [flagsOf_unicode xs bs hx] at hf
    obtain ⟨x,y,z,w,rfl⟩ := List.length_eq_four.mp hl
    simpa [segments_unicode] using ih hf

theorem raw_value {ss : List Symbol} (h : ∀ c, .escape c ∉ ss) :
    ss.flatMap Symbol.raw = ss.map Symbol.value := by
  induction ss with
  | nil => rfl
  | cons s ss ih =>
    have ih := ih fun c hc => h c (List.mem_cons_of_mem _ hc)
    cases s with
    | byte b => exact congrArg (b::·) ih
    | escape c => exact absurd List.mem_cons_self (h c)

theorem not_strays {ss : List Symbol} (h : ∀ b, .byte b ∈ ss → b ≠ code '\\') :
    strays ss = false := by
  induction ss with
  | nil => rfl
  | cons s ss ih =>
    have ih := ih fun b hb => h b (List.mem_cons_of_mem _ hb)
    cases s with
    | byte b => simp [strays, h b List.mem_cons_self, ih]
    | escape c => exact ih

theorem not_hides {ps : List Segment} (h : ∀ c, .symbol (.escape c) ∉ ps) : hides ps = false := by
  induction ps with
  | nil => rfl
  | cons p ps ih =>
    have hp : p ≠ .symbol (.escape (code '\\')) := by
      rintro rfl
      exact h _ List.mem_cons_self
    rw [hides, decide_eq_false hp, Bool.false_and, Bool.false_or]
    exact ih fun c hc => h c (List.mem_cons_of_mem _ hc)

/-- Without a Unicode escape only the third call is made, and it finds the escapes. -/
theorem bodyValue_simple {s : Bytes} (h : Body s) (hf : (flagsOf s).unicode = false) :
    bodyValue s = meant s := by
  obtain ⟨ss,hp,hraw,hss⟩ := segments_simple h hf
  have hknown : Known ss := fun c hc =>
    segments_known h (hp ▸ List.mem_map_of_mem (f := Segment.symbol) hc)
  have hmeant : meant s = ss.map Symbol.value := by rw [meant, hp, symbols_map]
  rw [bodyValue, decodeBody, hf, hmeant]
  cases hsimple : (flagsOf s).simple with
  | false =>
    have hplain : ∀ c, .escape c ∉ ss := fun c hc =>
      segments_unicodeOnly h hsimple c (hp ▸ List.mem_map_of_mem (f := Segment.symbol) hc)
    rw [← raw_value hplain, hraw]
    rfl
  | true =>
    rw [← (thirdCall_iff ss hknown).1.mpr (not_strays hss), simple, hraw]
    rfl

/-- Without a short escape there is no third call. -/
theorem bodyValue_unicode {s : Bytes} (h : Body s) (hf : (flagsOf s).unicode = true)
    (hsimple : (flagsOf s).simple = false) : bodyValue s = meant s := by
  have hplain := segments_unicodeOnly h hsimple
  obtain ⟨qs,hqs,ht⟩ := reading h
  have hvalue : bodyValue s = twice s := by
    rw [bodyValue, decodeBody, hf, hsimple]
    rfl
  rw [hvalue, ht, seen_same hqs (not_hides hplain), meant,
    raw_value fun c hc => hplain c (mem_symbols hc)]

theorem bodyValue_both {s : Bytes} (h : Body s) (hf : (flagsOf s).unicode = true)
    (hsimple : (flagsOf s).simple = true) :
    bodyValue s = meant s ↔ (hides (segments s) || strays (symbols (segments s))) = false := by
  obtain ⟨qs,hqs,ht⟩ := reading h
  have hknown : Known (symbols qs) := fun c hc => segments_known h (seen_escape hqs (mem_symbols hc))
  have hvalue : bodyValue s = simple (symbols qs) := by
    rw [bodyValue, decodeBody, hf, hsimple, simple, ← ht]
    rfl
  cases hh : hides (segments s) with
  | false =>
    rw [hvalue, Bool.false_or, meant, ← seen_same hqs hh]
    exact (thirdCall_iff _ hknown).1
  | true =>
    refine iff_of_false (fun heq => ?_) (by simp)
    have hshort := (thirdCall_length _ hknown).1
    have hlt := seen_length hqs
    rw [← hvalue, heq, meant, List.length_map] at hshort
    rw [hh, Bool.toNat_true] at hlt
    omega

/-- What `decode_string` makes of a body is what it denotes exactly if it is not mistaken. -/
theorem bodyValue_iff {s : Bytes} (h : Body s) : bodyValue s = meant s ↔ mistaken s = false := by
  rw [mistaken]
  cases hf : (flagsOf s).unicode with
  | false => exact iff_of_true (bodyValue_simple h hf) rfl
  | true =>
    cases hsimple : (flagsOf s).simple with
    | false => exact iff_of_true (bodyValue_unicode h hf hsimple) rfl
    | true => exact bodyValue_both h hf hsimple

theorem meaning_string {N : Type} (nums : JsonDecode.Numbers N) {s : Bytes} (h : Body s) :
    nums.meaning.string s = bodyValue s := by
  change (if mistaken s then bodyValue s else meant s) = _
  split
  · rfl
  · next hs => exact ((bodyValue_iff h).mpr (Bool.eq_false_iff.mpr hs)).symm

end Bodies

end Vecoda.JsonSpelling
