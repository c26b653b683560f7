import Vecoda.JsonScanning

/-!
# The strings that come back

What `decode_string` makes of the text that `encode_string` writes. Where the
string holds a control character that is written as a Unicode escape, the
decoder looks for such escapes everywhere, also behind an escaped backslash; so
the string comes back exactly if nothing in it reads as a Unicode escape, or it
holds no such character.
-/

set_option autoImplicit false

namespace Vecoda.JsonEscapes
open MessagePipe LuaText JsonGrammar JsonStrings JsonDecode JsonScanning

section Cases

def control (b : UInt8) : Bool := special b && (encodeEscape b).isNone

def shortened (b : UInt8) : Bool := special b && (encodeEscape b).isSome

inductive Written (b : UInt8) : Prop
  | plain (hb : ordinary b = true) (he : encodeByte b = [b]) (hc : control b = false)
      (hs : shortened b = false)
  | simple (c : UInt8) (he : encodeByte b = [code '\\',c]) (hd : decodeEscape c = some b)
      (hset : escapable c = true) (hb : c = code '\\' ↔ b = code '\\') (hc : control b = false)
      (hs : shortened b = true)
  | unicode (hlt : b.toNat < 32) (he : encodeByte b = unicodeText b.toNat) (hc : control b = true)
      (hs : shortened b = false)

theorem written_simple {b c : UInt8} (h : encodeEscape b = some c) :
    decodeEscape c = some b ∧ escapable c = true ∧ (c = code '\\' ↔ b = code '\\') := by
  obtain ⟨l,l',hl,-⟩ := List.lookup_eq_some_iff.mp h
  have hm : (b,c) ∈ escapeMap := by simp [hl]
  simp only [escapeMap, List.mem_cons, Prod.mk.injEq, List.not_mem_nil, or_false] at hm
  rcases hm with h | h | h | h | h | h | h | h <;> obtain ⟨rfl,rfl⟩ := h <;> decide

theorem written (b : UInt8) : Written b := by
  cases hs : special b with
  | false =>
    refine .plain ?_ (by rw [encodeByte, hs]; rfl) (by simp [control, hs]) (by simp [shortened, hs])
    simp only [special, Bool.or_eq_false_iff, decide_eq_false_iff_not] at hs
    exact ordinary_of_scan hs.1.1 hs.2 hs.1.2
  | true =>
    cases he : encodeEscape b with
    | some c =>
      obtain ⟨hd,hset,hb⟩ := written_simple he
      exact .simple c (by rw [encodeByte, hs, he]; rfl) hd hset hb (by simp [control, he])
        (by simp [shortened, hs, he])
    | none =>
      refine .unicode ?_ (by rw [encodeByte, hs, he]; rfl) (by simp [control, hs, he])
        (by simp [shortened, he])
      simp only [special, Bool.or_eq_true, decide_eq_true_eq] at hs
      rcases hs with (hs | rfl) | rfl
      · exact UInt8.lt_iff_toNat_lt.mp hs
      · cases he
      · cases he

theorem encodeString_cons (b : UInt8) (s : Bytes) :
    encodeString (b::s) = encodeByte b ++ encodeString s := rfl

theorem unicodeText_digits (n : ℕ) (h : n < 32) :
    ∃ x y z w, unicodeText n = code '\\'::code 'u'::[x,y,z,w] ∧
      (∀ d ∈ [x,y,z,w], hexadecimal d = true) ∧ ofDigits hexDigit 16 [x,y,z,w] = n := by
  have hall : ∀ k < 32, [lowerDigit (k / 4096 % 16),lowerDigit (k / 256 % 16),lowerDigit (k / 16 % 16),
      lowerDigit (k % 16)].all hexadecimal = true ∧ ofDigits hexDigit 16 [lowerDigit (k / 4096 % 16),
        lowerDigit (k / 256 % 16),lowerDigit (k / 16 % 16),lowerDigit (k % 16)] = k := by decide
  exact ⟨_,_,_,_,rfl,List.all_eq_true.mp (hall n h).1,(hall n h).2⟩

/-- What `encode_string` writes may stand between quotes. -/
theorem body_encode (s : Bytes) : Body (encodeString s) := by
  induction s with
  | nil => exact .nil
  | cons b s ih =>
    rw [encodeString_cons]
    cases written b with
    | plain hb he => rw [he]; exact .plain b _ hb ih
    | simple c he hd hset => rw [he]; exact .escape c _ hset ih
    | unicode hlt he =>
      obtain ⟨x,y,z,w,hu,hx,-⟩ := unicodeText_digits b.toNat hlt
      rw [he, hu]
      exact .unicode [x,y,z,w] _ rfl hx ih

theorem flagsOf_encode (s : Bytes) : flagsOf (encodeString s) = ⟨s.any control,s.any shortened⟩ := by
  induction s with
  | nil => rfl
  | cons b s ih =>
    rw [encodeString_cons, List.any_cons, List.any_cons]
    cases written b with
    | plain hb he hc hs =>
      rw [he, List.singleton_append, flagsOf_plain b _ (ordinary_ne b hb).2.2, ih, hc, hs]
      rfl
    | simple c he hd hset hb hc hs =>
      have hf := flagsOf_simple c (encodeString s) (escapable_ne c hset)
      rw [he, hc, hs]
      apply hf.trans
      rw [ih]
      rfl
    | unicode hlt he hc hs =>
      obtain ⟨x,y,z,w,hu,hx,-⟩ := unicodeText_digits b.toNat hlt
      have hf := flagsOf_unicode [x,y,z,w] (encodeString s) hx
      rw [he, hu, hc, hs]
      apply hf.trans
      rw [ih]
      rfl

end Cases

section Matches

theorem unicodeEscape_some {t : Bytes} {n : ℕ} (h : unicodeEscape t = some n) :
    ∃ x y z w t', t = code '\\'::code 'u'::x::y::z::w::t' ∧
      [x,y,z,w].all hexadecimal = true ∧ n = ofDigits hexDigit 16 [x,y,z,w] := by
  match t, h with
  | a::u::x::y::z::w::t', h =>
    rw [unicodeEscape] at h
    split at h
    · next hc =>
      injection h with h
      exact ⟨x,y,z,w,t',by rw [hc.1, hc.2.1],hc.2.2,h.symm⟩
    · cases h

theorem unicodeEscape_text (x y z w : UInt8) (t : Bytes) (h : [x,y,z,w].all hexadecimal = true) :
    unicodeEscape (code '\\'::code 'u'::x::y::z::w::t) = some (ofDigits hexDigit 16 [x,y,z,w]) :=
  if_pos ⟨rfl,rfl,h⟩

theorem unicodeEscape_none {a : UInt8} {t : Bytes} (h : a ≠ code '\\') :
    unicodeEscape (a::t) = none := by
  cases hu : unicodeEscape (a::t) with
  | none => rfl
  | some n =>
    obtain ⟨x,y,z,w,t',ht,-⟩ := unicodeEscape_some hu
    injection ht with ha
    exact absurd ha h

theorem unicodeEscape_other {c : UInt8} {t : Bytes} (h : c ≠ code 'u') :
    unicodeEscape (code '\\'::c::t) = none := by
  cases hu : unicodeEscape (code '\\'::c::t) with
  | none => rfl
  | some n =>
    obtain ⟨x,y,z,w,t',ht,-⟩ := unicodeEscape_some hu
    injection ht with _ ht
    injection ht with hc
    exact absurd hc h

/-- A byte in front of the written text other than a backslash is the byte of the string. -/
theorem encodeString_head {b : UInt8} {s t : Bytes} (h : encodeString s = b::t)
    (hb : b ≠ code '\\') : ∃ s', s = b::s' ∧ t = encodeString s' := by
  cases s with
  | nil => cases h
  | cons a s =>
    rw [encodeString_cons] at h
    cases written a with
    | plain ha he =>
      rw [he] at h
      injection h with hab ht
      exact ⟨s,by rw [hab],ht.symm⟩
    | simple c he =>
      rw [he] at h
      injection h with hab
      exact absurd hab.symm hb
    | unicode hlt he =>
      rw [he] at h
      injection h with hab
      exact absurd hab.symm hb

theorem encodeString_ordinary {b : UInt8} {s : Bytes} (h : ordinary b = true) :
    encodeString (b::s) = b::encodeString s := by
  rw [encodeString_cons]
  cases written b with
  | plain hb he => rw [he]; rfl
  | simple c he hd hset hb hc hs =>
    obtain ⟨hl,hq,hbs⟩ := ordinary_ne b h
    simp [shortened, special, hl, hq, hbs] at hs
  | unicode hlt he hc hs =>
    obtain ⟨hl,hq,hbs⟩ := ordinary_ne b h
    simp [control, special, hl, hq, hbs] at hc

theorem hexadecimal_ordinary (b : UInt8) (h : hexadecimal b = true) : ordinary b = true := by
  have hvalue (c : Char) (n : ℕ) (hc : (code c).toNat = n) (hb : b.toNat ≠ n) : b ≠ code c := by
    rintro rfl
    exact hb hc
  have hrange : 48 ≤ b.toNat ∧ b.toNat ≠ 92 := by
    simp only [hexadecimal, digit, Bool.or_eq_true, Bool.and_eq_true, decide_eq_true_eq,
      UInt8.le_iff_toNat_le] at h
    have h0 : (code '0').toNat = 48 := rfl
    have h9 : (code '9').toNat = 57 := rfl
    have ha : (code 'a').toNat = 97 := rfl
    have hF : (code 'F').toNat = 70 := rfl
    have hA : (code 'A').toNat = 65 := rfl
    omega
  have h32 : (32 : UInt8).toNat = 32 := rfl
  refine ordinary_of_scan ?_ (hvalue '"' 34 rfl (by omega)) (hvalue '\\' 92 rfl hrange.2)
  rw [UInt8.lt_iff_toNat_lt]
  omega

/-- Five ordinary bytes are written as they are. -/
theorem encodeString_escape {s : Bytes} {x y z w : UInt8} (h : [x,y,z,w].all hexadecimal = true)
    {t : Bytes} :
    (encodeString s = code 'u'::x::y::z::w::t →
      ∃ s', s = code 'u'::x::y::z::w::s' ∧ t = encodeString s') ∧
    (s = code 'u'::x::y::z::w::t → encodeString s = code 'u'::x::y::z::w::encodeString t) := by
  have hall : ∀ d ∈ [x,y,z,w], ordinary d = true := fun d hd =>
    hexadecimal_ordinary d (List.all_eq_true.mp h d hd)
  simp only [List.forall_mem_cons] at hall
  obtain ⟨hx,hy,hz,hw,-⟩ := hall
  have hne (d : UInt8) (hd : ordinary d = true) : d ≠ code '\\' := (ordinary_ne d hd).2.2
  constructor
  · intro he
    obtain ⟨s,rfl,h₁⟩ := encodeString_head he (by decide)
    obtain ⟨s,rfl,h₂⟩ := encodeString_head h₁.symm (hne x hx)
    obtain ⟨s,rfl,h₃⟩ := encodeString_head h₂.symm (hne y hy)
    obtain ⟨s,rfl,h₄⟩ := encodeString_head h₃.symm (hne z hz)
    obtain ⟨s,rfl,h₅⟩ := encodeString_head h₄.symm (hne w hw)
    exact ⟨s,rfl,h₅⟩
  · rintro rfl
    rw [encodeString_ordinary (by decide), encodeString_ordinary hx, encodeString_ordinary hy,
      encodeString_ordinary hz, encodeString_ordinary hw]

/-- Behind a backslash the written text reads as a Unicode escape where the string does. -/
theorem unicodeEscape_encode (s : Bytes) :
    (unicodeEscape (code '\\'::s) = none → unicodeEscape (code '\\'::encodeString s) = none) ∧
      ∀ n, unicodeEscape (code '\\'::s) = some n →
        ∃ s', s.length = s'.length + 5 ∧ (encodeString s).drop 5 = encodeString s' ∧
          unicodeEscape (code '\\'::encodeString s) = some n := by
  constructor
  · intro hs
    cases he : unicodeEscape (code '\\'::encodeString s) with
    | none => rfl
    | some n =>
      obtain ⟨x,y,z,w,t,ht,hx,-⟩ := unicodeEscape_some he
      injection ht with _ ht
      obtain ⟨s',rfl,-⟩ := (encodeString_escape hx).1 ht
      rw [unicodeEscape_text x y z w s' hx] at hs
      cases hs
  · intro n hn
    obtain ⟨x,y,z,w,t,ht,hx,rfl⟩ := unicodeEscape_some hn
    injection ht with _ ht
    have he := (encodeString_escape hx).2 ht
    refine ⟨t,by rw [ht]; rfl,by rw [he]; rfl,?_⟩
    rw [he]
    exact unicodeEscape_text x y z w _ hx

/-- The written text itself starts with no other Unicode escapes than those of its bytes. -/
theorem unicodeEscape_written {s : Bytes} {n : ℕ} (h : unicodeEscape (encodeString s) = some n) :
    n < 32 := by
  cases s with
  | nil => cases h
  | cons b s =>
    rw [encodeString_cons] at h
    cases written b with
    | plain hb he =>
      rw [he, List.singleton_append, unicodeEscape_none (ordinary_ne b hb).2.2] at h
      cases h
    | simple c he hd hset =>
      rw [he] at h
      exact absurd ((unicodeEscape_other (escapable_ne c hset)).symm.trans h) (by simp)
    | unicode hlt he =>
      obtain ⟨x,y,z,w,hu,hx,hv⟩ := unicodeText_digits b.toNat hlt
      have ht := unicodeEscape_text x y z w (encodeString s) (List.all_eq_true.mpr hx)
      rw [he, hu] at h
      have := ht.symm.trans h
      injection this with this
      omega

end Matches

section Passes

theorem surrogate_none {t : Bytes} (h : ∀ n, unicodeEscape t = some n → n < 32) :
    decodeUnicodeSurrogate t = none := by
  rw [decodeUnicodeSurrogate]
  split
  · next s1 s2 h1 h2 =>
    have := h s1 h1
    rw [if_neg (by omega)]
  · rfl

theorem suffix_singleton {v : Bytes} {b : UInt8} (h : v <:+ [b]) (hv : v ≠ []) : v = [b] := by
  rcases List.suffix_cons_iff.mp h with h | h
  · exact h
  · exact absurd (List.suffix_nil.mp h) hv

theorem suffix_pair {v : Bytes} {a b : UInt8} (h : v <:+ [a,b]) (hv : v ≠ []) : v = [a,b] ∨ v = [b] := by
  rcases List.suffix_cons_iff.mp h with h | h
  · exact .inl h
  · exact .inr (suffix_singleton h hv)

/-- The first call finds nothing: no escape of a control character is half of a surrogate pair,
and no escape follows the digits of another that is none of the string's bytes. -/
theorem gsub_surrogate (s : Bytes) : gsub decodeUnicodeSurrogate (encodeString s) = encodeString s := by
  have hafter (s : Bytes) : decodeUnicodeSurrogate (code '\\'::encodeString s) = none := by
    obtain ⟨hnone,hsome⟩ := unicodeEscape_encode s
    cases hs : unicodeEscape (code '\\'::s) with
    | none =>
      refine surrogate_none (fun n hn => ?_)
      rw [hnone hs] at hn
      cases hn
    | some n =>
      obtain ⟨s',-,hd,hn⟩ := hsome n hs
      rw [decodeUnicodeSurrogate, hn, List.drop_succ_cons, hd]
      split
      · next s1 s2 h1 h2 =>
        have := unicodeEscape_written h2
        rw [if_neg (by omega)]
      · rfl
  induction s with
  | nil => rfl
  | cons b s ih =>
    rw [encodeString_cons, gsub_through decodeUnicodeSurrogate (encodeByte b) _ ?_, ih]
    intro v hv hne
    cases written b with
    | plain hb he =>
      rw [he] at hv
      rw [suffix_singleton hv hne]
      exact surrogate_none (fun n hn => by
        rw [List.singleton_append, unicodeEscape_none (ordinary_ne b hb).2.2] at hn
        cases hn)
    | simple c he hd hset =>
      rw [he] at hv
      rcases suffix_pair hv hne with rfl | rfl
      · exact surrogate_none (fun n hn =>
          absurd ((unicodeEscape_other (escapable_ne c hset)).symm.trans hn) (by simp))
      · by_cases hc : c = code '\\'
        · subst hc
          exact hafter s
        · exact surrogate_none (fun n hn => by
            rw [List.singleton_append, unicodeEscape_none hc] at hn
            cases hn)
    | unicode hlt he =>
      refine surrogate_none (fun n hn => ?_)
      obtain ⟨x,y,z,w,hu,hx,hval⟩ := unicodeText_digits b.toNat hlt
      rw [he, hu] at hv
      rcases List.suffix_cons_iff.mp hv with rfl | hv
      · have := (unicodeEscape_text x y z w (encodeString s) (List.all_eq_true.mpr hx)).symm.trans hn
        injection this with this
        omega
      · obtain ⟨a,v,rfl⟩ := List.exists_cons_of_ne_nil hne
        have ha : a ∈ code 'u'::[x,y,z,w] := hv.mem (by simp)
        have hne : a ≠ code '\\' := by
          rcases List.mem_cons.mp ha with rfl | ha
          · decide
          · exact (ordinary_ne a (hexadecimal_ordinary a (hx a ha))).2.2
        rw [List.cons_append, unicodeEscape_none hne] at hn
        cases hn

def reduced (b : UInt8) : Bytes := if control b then [b] else encodeByte b

theorem decodeUnicodeEscape_none {t : Bytes} (h : unicodeEscape t = none) :
    decodeUnicodeEscape t = none := by
  rw [decodeUnicodeEscape, h]
  rfl

theorem gsub_unicode_cons {b : UInt8} {s : Bytes} (h : unicodeEscape (b::s) = none) :
    gsub decodeUnicodeEscape (encodeString (b::s)) =
      reduced b ++ gsub decodeUnicodeEscape (encodeString s) := by
  rw [encodeString_cons, reduced]
  cases written b with
  | plain hb he hc =>
    rw [hc, he]
    exact gsub_pass _ b _ (decodeUnicodeEscape_none (unicodeEscape_none (ordinary_ne b hb).2.2))
  | simple c he hd hset hb hc =>
    rw [hc]
    refine gsub_through decodeUnicodeEscape _ _ (fun v hv hne => decodeUnicodeEscape_none ?_)
    rw [he] at hv
    rcases suffix_pair hv hne with rfl | rfl
    · exact unicodeEscape_other (escapable_ne c hset)
    · by_cases hs : c = code '\\'
      · rw [hb.mp hs] at h
        rw [hs]
        exact (unicodeEscape_encode s).1 h
      · exact unicodeEscape_none hs
  | unicode hlt he hc =>
    obtain ⟨x,y,z,w,hu,hx,hv⟩ := unicodeText_digits b.toNat hlt
    have hn := unicodeEscape_text x y z w (encodeString s) (List.all_eq_true.mpr hx)
    rw [hc, he, hu]
    refine (gsub_match decodeUnicodeEscape (code '\\') _ (utf8Char b.toNat) 5 ?_).trans ?_
    · change decodeUnicodeEscape (code '\\'::code 'u'::x::y::z::w::encodeString s) = _
      rw [decodeUnicodeEscape, hn, hv]
      rfl
    · rw [utf8Char, if_pos (by omega), UInt8.ofNat_toNat]
      rfl

theorem decodeSimpleEscape_none {b : UInt8} {t : Bytes} (h : b ≠ code '\\') :
    decodeSimpleEscape (b::t) = none := by
  cases t with
  | nil => rfl
  | cons c t => exact if_neg h

theorem control_ne {b : UInt8} (h : control b = true) : b ≠ code '\\' := by
  rintro rfl
  exact absurd h (by decide)

theorem gsub_simple_cons (b : UInt8) (t : Bytes) :
    gsub decodeSimpleEscape (reduced b ++ t) = b::gsub decodeSimpleEscape t := by
  rw [reduced]
  cases written b with
  | plain hb he hc =>
    rw [hc, he]
    exact gsub_pass _ b t (decodeSimpleEscape_none (ordinary_ne b hb).2.2)
  | simple c he hd hset hb hc =>
    rw [hc, he]
    exact gsub_match decodeSimpleEscape (code '\\') (c::t) [b] 1 (by simp [decodeSimpleEscape, hd])
  | unicode hlt he hc =>
    rw [hc, if_pos rfl]
    exact gsub_pass _ b t (decodeSimpleEscape_none (control_ne hc))

def reread (s : Bytes) : Bytes := gsub decodeSimpleEscape (gsub decodeUnicodeEscape (encodeString s))

theorem reread_cons {b : UInt8} {s : Bytes} (h : unicodeEscape (b::s) = none) :
    reread (b::s) = b::reread s := by
  rw [reread, gsub_unicode_cons h, gsub_simple_cons]
  rfl

theorem utf8Char_parts (n : ℕ) (h : n < 0x10000) :
    ∃ d ds, utf8Char n = d::ds ∧ ds.length ≤ 2 ∧ ∀ b ∈ ds, b ≠ code '\\' := by
  have hne (k : ℕ) : UInt8.ofNat (0x80 + k % 64) ≠ code '\\' := by
    intro he
    have h92 : (code '\\').toNat = 92 := rfl
    have := congrArg UInt8.toNat he
    rw [h92, UInt8.toNat_ofNat'] at this
    omega
  rw [utf8Char]
  split_ifs with h1 h2
  · exact ⟨_,[],rfl,by simp,nofun⟩
  · exact ⟨_,_,rfl,by simp,List.forall_mem_singleton.mpr (hne n)⟩
  · exact ⟨_,_,rfl,by simp,List.forall_mem_cons.mpr ⟨hne (n / 64),List.forall_mem_singleton.mpr (hne n)⟩⟩

theorem hexDigit_lt (d : UInt8) : (hexDigit d).getD 0 < 16 := by
  have ha : (byte 'a').toNat = 97 := rfl
  have hf : (byte 'f').toNat = 102 := rfl
  have hA : (byte 'A').toNat = 65 := rfl
  have hF : (byte 'F').toNat = 70 := rfl
  have h0 : (byte '0').toNat = 48 := rfl
  have h9 : (byte '9').toNat = 57 := rfl
  simp only [hexDigit, decDigit, isDigit, Bool.and_eq_true, decide_eq_true_eq, UInt8.le_iff_toNat_le]
  split_ifs <;> simp only [Option.getD_some, Option.getD_none] <;> omega

theorem unicodeEscape_lt {t : Bytes} {n : ℕ} (h : unicodeEscape t = some n) : n < 0x10000 := by
  obtain ⟨x,y,z,w,t',-,-,rfl⟩ := unicodeEscape_some h
  have hx := hexDigit_lt x
  have hy := hexDigit_lt y
  have hz := hexDigit_lt z
  have hw := hexDigit_lt w
  simp only [ofDigits, List.foldl_cons, List.foldl_nil]
  omega

/-- Where a backslash and what follows read as a Unicode escape, six bytes become four or less. -/
theorem reread_escape {s : Bytes} {n : ℕ} (h : unicodeEscape (code '\\'::s) = some n) :
    ∃ s', s.length = s'.length + 5 ∧ (reread (code '\\'::s)).length ≤ (reread s').length + 4 := by
  obtain ⟨s',hlen,hdrop,hn⟩ := (unicodeEscape_encode s).2 n h
  obtain ⟨d,ds,hu,hds,hplain⟩ := utf8Char_parts n (unicodeEscape_lt h)
  refine ⟨s',hlen,?_⟩
  have hmatch : gsub decodeUnicodeEscape (code '\\'::encodeString s) =
      d::(ds ++ gsub decodeUnicodeEscape (encodeString s')) := by
    rw [gsub_match decodeUnicodeEscape (code '\\') (encodeString s) (utf8Char n) 5
      (by rw [decodeUnicodeEscape, hn]; rfl), hdrop, hu]
    rfl
  have hpass : gsub decodeUnicodeEscape (encodeString (code '\\'::s)) =
      code '\\'::d::(ds ++ gsub decodeUnicodeEscape (encodeString s')) := by
    rw [← hmatch]
    exact gsub_pass _ _ _ (decodeUnicodeEscape_none (unicodeEscape_other (by decide)))
  have hrest : gsub decodeSimpleEscape (ds ++ gsub decodeUnicodeEscape (encodeString s')) =
      ds ++ reread s' := by
    refine gsub_through _ ds _ (fun v hv hne => ?_)
    obtain ⟨b,v,rfl⟩ := List.exists_cons_of_ne_nil hne
    exact decodeSimpleEscape_none (hplain b (hv.mem (by simp)))
  rw [reread, hpass]
  cases hd : decodeEscape d with
  | some b =>
    rw [gsub_match decodeSimpleEscape (code '\\') _ [b] 1 (by simp [decodeSimpleEscape, hd]),
      List.drop_succ_cons, List.drop_zero, hrest]
    simp only [List.length_append, List.length_cons, List.length_nil]
    omega
  | none =>
    rw [gsub_match decodeSimpleEscape (code '\\') _ [code '\\',d] 1
      (by simp [decodeSimpleEscape, hd]), List.drop_succ_cons, List.drop_zero, hrest]
    simp only [List.length_append, List.length_cons, List.length_nil]
    omega

/-- Some bytes of the string read as a Unicode escape. -/
def spelled (s : Bytes) : Bool := s.tails.any (fun t => (unicodeEscape t).isSome)

/-- The string holds a control character that has no short escape, and something that reads as
a Unicode escape. -/
def misread (s : Bytes) : Bool := s.any control && spelled s

theorem spelled_cons (b : UInt8) (s : Bytes) :
    spelled (b::s) = ((unicodeEscape (b::s)).isSome || spelled s) := by
  rw [spelled, List.tails, List.any_cons, spelled]

theorem backslash_of_spelled {s : Bytes} (h : spelled s = true) : code '\\' ∈ s := by
  induction s with
  | nil => cases h
  | cons b s ih =>
    rw [spelled_cons, Bool.or_eq_true] at h
    rcases h with h | h
    · obtain ⟨n,hn⟩ := Option.isSome_iff_exists.mp h
      obtain ⟨x,y,z,w,t,ht,-⟩ := unicodeEscape_some hn
      rw [ht]
      exact List.mem_cons_self
    · exact List.mem_cons_of_mem b (ih h)

theorem reread_length (s : Bytes) :
    (reread s).length ≤ s.length ∧ (spelled s = true → (reread s).length < s.length) := by
  induction hn : s.length using Nat.strong_induction_on generalizing s with
  | _ k ih =>
    subst hn
    cases s with
    | nil => exact ⟨le_rfl,fun h => nomatch h⟩
    | cons b s =>
      cases hu : unicodeEscape (b::s) with
      | none =>
        obtain ⟨hle,hlt⟩ := ih s.length (Nat.lt_succ_self _) s rfl
        rw [reread_cons hu, spelled_cons, hu]
        simp only [List.length_cons, Option.isSome_none, Bool.false_or, Nat.add_lt_add_iff_right]
        exact ⟨Nat.succ_le_succ hle,hlt⟩
      | some n =>
        have hb : b = code '\\' := by
          obtain ⟨x,y,z,w,t,ht,-⟩ := unicodeEscape_some hu
          injection ht
        subst hb
        obtain ⟨s',hlen,hle⟩ := reread_escape hu
        have := (ih s'.length (by rw [List.length_cons]; omega) s' rfl).1
        have hlt : (reread (code '\\'::s)).length < (code '\\'::s).length := by
          rw [List.length_cons]
          omega
        exact ⟨hlt.le,fun _ => hlt⟩

theorem gsub_reduced (s : Bytes) : gsub decodeSimpleEscape (s.flatMap reduced) = s := by
  induction s with
  | nil => rfl
  | cons b s ih => rw [List.flatMap_cons, gsub_simple_cons, ih]

theorem reduced_plain (s : Bytes) (h : s.any shortened = false) : s.flatMap reduced = s := by
  induction s with
  | nil => rfl
  | cons b s ih =>
    rw [List.any_cons, Bool.or_eq_false_iff] at h
    have hb : reduced b = [b] := by
      rw [reduced]
      cases written b with
      | plain hb he => rw [he, ite_self]
      | simple c he hd hset hb hc hs => rw [h.1] at hs; cases hs
      | unicode hlt he hc => rw [hc, if_pos rfl]
    rw [List.flatMap_cons, hb, ih h.2, List.singleton_append]

theorem encodeString_reduced (s : Bytes) (h : s.any control = false) :
    encodeString s = s.flatMap reduced := by
  induction s with
  | nil => rfl
  | cons b s ih =>
    rw [List.any_cons, Bool.or_eq_false_iff] at h
    rw [encodeString_cons, ih h.2, List.flatMap_cons, reduced, h.1]
    rfl

theorem gsub_unicode (s : Bytes) (h : spelled s = false) :
    gsub decodeUnicodeEscape (encodeString s) = s.flatMap reduced := by
  induction s with
  | nil => rfl
  | cons b s ih =>
    rw [spelled_cons, Bool.or_eq_false_iff, Option.isSome_eq_false_iff, Option.isNone_iff_eq_none] at h
    rw [gsub_unicode_cons h.1, ih h.2, List.flatMap_cons]

/-- The flags decide nothing where no byte is misread. -/
theorem simple_pass (s : Bytes) :
    (if s.any shortened then gsub decodeSimpleEscape (s.flatMap reduced) else s.flatMap reduced) = s := by
  split
  · exact gsub_reduced s
  · next h => exact reduced_plain s (by simpa using h)

/-- A string comes back unless it is misread, and then it comes back shorter. -/
theorem bodyValue_encode (s : Bytes) :
    (misread s = false → bodyValue (encodeString s) = s) ∧
      (misread s = true → (bodyValue (encodeString s)).length < s.length) := by
  rw [bodyValue, flagsOf_encode, decodeBody, gsub_surrogate]
  constructor
  · intro h
    rw [misread, Bool.and_eq_false_iff] at h
    cases hc : s.any control with
    | false =>
      simp only [Bool.false_eq_true, if_false]
      rw [encodeString_reduced s hc]
      exact simple_pass s
    | true =>
      rw [hc] at h
      simp only [if_true]
      rw [gsub_unicode s (by simpa using h)]
      exact simple_pass s
  · intro h
    rw [misread, Bool.and_eq_true] at h
    have hs : s.any shortened = true :=
      List.any_eq_true.mpr ⟨_,backslash_of_spelled h.2,by decide⟩
    simp only [h.1, hs, if_true]
    exact (reread_length s).2 h.2

/-- Between quotes a string comes back exactly if it is not misread. -/
theorem decodeString_encodeString (s rest : Bytes) :
    decodeString (quoted (encodeString s) ++ rest) = .ok (s,rest) ↔ misread s = false := by
  obtain ⟨hid,hshort⟩ := bodyValue_encode s
  rw [decodeString_quoted _ rest (body_encode s)]
  constructor
  · intro h
    injection h with h
    injection h with hv
    rw [Bool.eq_false_iff]
    intro hm
    have := hshort hm
    rw [hv] at this
    exact absurd this (lt_irrefl _)
  · intro h
    rw [hid h]

example : misread (text "a\\u0041") = false ∧ misread (1::text "a\\u0041") = true := by decide

end Passes

end Vecoda.JsonEscapes
