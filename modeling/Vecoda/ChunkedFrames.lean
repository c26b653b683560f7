import Vecoda.Framing

/-!
# Reading in pieces

What `slicePkg` does with the bytes it has got so far it also does with more of
them there, unless a header announces a negative length: then `sub` counts from
the end of whatever has been read. A reader that takes one message a call comes
to the same messages however its input is cut.
-/

set_option autoImplicit false

namespace Vecoda.ChunkedFrames
open MessagePipe LuaText Framing

section Readers

variable {σ : Type} (pass : σ → Bytes → σ) (extend : σ → Bytes → σ)

def idle (s : σ) : σ := extend (pass s []) []

/-- A call leaves the state, with the text that is still to come there already, or does what a call
without new bytes does there. -/
structure Resumes (fine : σ → Prop) : Prop where
  cut : ∀ s chunk more, fine (extend s (chunk ++ more)) →
    extend (pass s chunk) more = extend s (chunk ++ more) ∨
      extend (pass s chunk) more = idle pass extend (extend s (chunk ++ more))
  idles : ∀ s, fine (extend s []) → extend (pass s []) [] = idle pass extend (extend s [])

variable {pass extend} {fine : σ → Prop}

theorem foldl_chunks (h : Resumes pass extend fine) (chunks : List Bytes) (s : σ) (more : Bytes)
    (hfine : ∀ m, fine ((idle pass extend)^[m] (extend s (chunks.flatten ++ more)))) :
    ∃ m, extend (chunks.foldl pass s) more =
        (idle pass extend)^[m] (extend s (chunks.flatten ++ more)) := by
  induction chunks generalizing s with
  | nil => exact ⟨0,rfl⟩
  | cons chunk chunks ih =>
    rw [List.flatten_cons, List.append_assoc] at hfine ⊢
    rw [List.foldl_cons]
    rcases h.cut s chunk (chunks.flatten ++ more) (hfine 0) with hsame | hidle
    · rw [← hsame] at hfine ⊢
      exact ih (pass s chunk) hfine
    · obtain ⟨m,hm⟩ := ih (pass s chunk) (fun m => by
        rw [hidle]
        exact hfine (m + 1))
      exact ⟨m + 1,by rw [hm, hidle, Function.iterate_succ_apply]⟩

theorem foldl_idles (h : Resumes pass extend fine) (n : ℕ) (s : σ)
    (hfine : ∀ m, fine ((idle pass extend)^[m] (extend s []))) :
    extend ((List.replicate n []).foldl pass s) [] = (idle pass extend)^[n] (extend s []) := by
  induction n generalizing s with
  | zero => rfl
  | succ n ih =>
    have hidle := h.idles s (hfine 0)
    rw [List.replicate_succ, List.foldl_cons, Function.iterate_succ_apply, ← hidle]
    refine ih (pass s []) (fun m => ?_)
    rw [hidle]
    exact hfine (m + 1)

/-- Calls that get a text in pieces, and calls without new bytes after them, are calls on the whole
text. -/
theorem foldl_text (h : Resumes pass extend fine) (chunks : List Bytes) (n : ℕ) (s : σ)
    (hfine : ∀ m, fine ((idle pass extend)^[m] (extend s chunks.flatten))) :
    ∃ m, extend ((chunks ++ List.replicate n []).foldl pass s) [] =
      (idle pass extend)^[n + m] (extend s chunks.flatten) := by
  have hstart := hfine
  rw [← List.append_nil chunks.flatten] at hfine
  obtain ⟨m,hm⟩ := foldl_chunks h chunks s [] hfine
  rw [List.append_nil] at hm
  refine ⟨m,?_⟩
  rw [List.foldl_append, foldl_idles h n _ (fun k => by
    rw [hm, ← Function.iterate_add_apply]
    exact hstart (k + m)), hm, ← Function.iterate_add_apply]

end Readers

section Text

theorem find_bounds {pat s : Bytes} {pos : ℕ} (hpat : pat ≠ []) (h : find pat s = some pos) :
    1 ≤ pos ∧ pos + pat.length ≤ s.length + 1 := by
  induction s generalizing pos with
  | nil =>
    rw [find, if_neg hpat] at h
    cases h
  | cons b bs ih =>
    rw [find] at h
    split at h
    · next hprefix =>
      have := (List.isPrefixOf_iff_prefix.mp hprefix).length_le
      cases h
      omega
    · obtain ⟨k,hk,rfl⟩ := Option.map_eq_some_iff.mp h
      have := ih hk
      rw [List.length_cons]
      omega

theorem find_append {pat s : Bytes} {pos : ℕ} (hpat : pat ≠ []) (h : find pat s = some pos)
    (more : Bytes) :
    find pat (s ++ more) = some pos := by
  induction s generalizing pos with
  | nil =>
    rw [find, if_neg hpat] at h
    cases h
  | cons b bs ih =>
    rw [List.cons_append, find]
    rw [find] at h
    split at h
    · next hprefix =>
      have hlong : pat.isPrefixOf (b::(bs ++ more)) = true :=
        List.isPrefixOf_iff_prefix.mpr ((List.isPrefixOf_iff_prefix.mp hprefix).trans
          (List.prefix_append (b::bs) more))
      rw [if_pos hlong]
      exact h
    · next hnot =>
      obtain ⟨k,hk,rfl⟩ := Option.map_eq_some_iff.mp h
      rw [ih hk]
      split
      · next hprefix =>
        -- a match at the front of the longer text would lie in the shorter one
        have hlen := (find_bounds hpat hk).2
        rw [List.isPrefixOf_iff_prefix, ← List.cons_append] at hprefix
        have := List.prefix_of_prefix_length_le hprefix (List.prefix_append (b::bs) more)
          (by rw [List.length_cons]; omega)
        exact absurd (List.isPrefixOf_iff_prefix.mpr this) hnot
      · rfl

/-- Positions that lie in a text select the same with more behind it. -/
theorem sub_append (s more : Bytes) {i j : ℤ} (hi : 0 < i) (hj : 0 ≤ j) (hlen : j ≤ s.length) :
    sub (s ++ more) i j = sub s i j := by
  have hlong : ¬ (((s ++ more).length : ℕ) : ℤ) < j := by
    rw [List.length_append]
    omega
  rw [sub, sub]
  simp only [if_pos hi, if_neg hlong, if_neg (by omega : ¬ (s.length : ℤ) < j), if_pos hj]
  rw [List.take_append_of_le_length (by omega)]

theorem drop_append (s more : Bytes) {i : ℕ} (hi : i ≤ s.length) :
    sub (s ++ more) (i + 1) (-1) = sub s (i + 1) (-1) ++ more := by
  rw [sub_suffix, sub_suffix, List.drop_append_of_le_length hi]

end Text

section Slices

def negative : Number → Bool
  | .integer n => n < 0
  | .float x => x < 0
  | .huge sign => sign

/-- The length that a complete header announces, and what stands behind it. -/
def announced (strtod : Bytes → Option Number) (buffer : Bytes) : Option (Number × Bytes) :=
  match find (text "\r\n\r\n") buffer with
  | none => none
  | some pos =>
    if pos ≤ 15 ∨ sub buffer 1 16 ≠ text "Content-Length: " then none
    else (tonumber strtod (sub buffer 17 (pos - 1))).map (fun l => (l,sub buffer (pos + 4) (-1)))

/-- The state with more bytes behind those that it has, and a header that is complete taken off. -/
def extend (strtod : Bytes → Option Number) (s : PkgState) (more : Bytes) : PkgState :=
  match s.length, announced strtod (s.buffer ++ more) with
  | some length, _ => ⟨some (s.buffer ++ more),some length⟩
  | none, some (length,rest) => ⟨some rest,some length⟩
  | none, none => ⟨some (s.buffer ++ more),none⟩

variable {strtod : Bytes → Option Number}

theorem checkInteger_add {l : Number} {n : ℤ} (h : l.checkInteger = some n) :
    (l.add 1).checkInteger = some (n + 1) := by
  cases l with
  | integer k =>
    cases h
    rfl
  | float x =>
    rw [Number.checkInteger] at h
    split at h
    · next hden =>
      cases h
      have hx : x + ((1 : ℤ) : ℚ) = ((x.num + 1 : ℤ) : ℚ) := by
        rw [Int.cast_add, Rat.coe_int_num_of_den_eq_one hden]
      rw [Number.add, Number.checkInteger, hx, if_pos (Rat.den_intCast _), Rat.num_intCast]
    · cases h
  | huge sign => cases h

theorem checkInteger_bounds {l : Number} {n : ℤ} {k : ℕ} (h : l.checkInteger = some n)
    (hl : negative l = false) (hk : l.le k = true) : 0 ≤ n ∧ n ≤ k := by
  cases l with
  | integer m =>
    cases h
    exact ⟨not_lt.mp (of_decide_eq_false hl),of_decide_eq_true hk⟩
  | float x =>
    rw [Number.checkInteger] at h
    split at h
    · next hden =>
      cases h
      have hx := Rat.coe_int_num_of_den_eq_one hden
      have h0 : (0 : ℚ) ≤ x := not_lt.mp (of_decide_eq_false hl)
      have h1 : x ≤ k := of_decide_eq_true hk
      rw [← hx] at h0 h1
      exact ⟨by exact_mod_cast h0,by exact_mod_cast h1⟩
    · cases h
  | huge sign => cases h

theorem le_mono {l : Number} {j k : ℕ} (hjk : j ≤ k) (h : l.le j = true) : l.le k = true := by
  cases l with
  | integer n =>
    have hn : n ≤ j := of_decide_eq_true h
    exact decide_eq_true (by omega)
  | float x => exact decide_eq_true ((of_decide_eq_true h).trans (Nat.cast_le.mpr hjk))
  | huge sign => exact h

/-- A message that can be cut off is cut off as well with more bytes there. -/
theorem takePkg_more {l : Number} (hl : negative l = false) (b more : Bytes) :
    (takePkg b l).outcome = .returned none ∨
      ((takePkg (b ++ more) l).outcome = (takePkg b l).outcome ∧
        (takePkg (b ++ more) l).state =
            ⟨some ((takePkg b l).state.buffer ++ more),(takePkg b l).state.length⟩) := by
  by_cases hle : l.le b.length = true
  · right
    have hle' : l.le (b ++ more).length = true := le_mono (by simp) hle
    rw [takePkg, takePkg, if_pos hle, if_pos hle']
    cases hn : l.checkInteger with
    | none => exact ⟨rfl,rfl⟩
    | some n =>
      obtain ⟨h0,h1⟩ := checkInteger_bounds hn hl hle
      obtain ⟨k,rfl⟩ := Int.eq_ofNat_of_zero_le h0
      rw [checkInteger_add hn]
      refine ⟨?_,?_⟩
      · dsimp only
        rw [sub_append b more one_pos h0 h1]
      · dsimp only [PkgState.buffer, Option.getD_some]
        rw [drop_append b more (by omega)]
  · left
    rw [takePkg, if_neg hle]

theorem extend_pending (b more : Bytes) (l : Number) :
    extend strtod ⟨some b,some l⟩ more = ⟨some (b ++ more),some l⟩ := rfl

theorem extend_announced {s : PkgState} {more rest : Bytes} {l : Number} (hs : s.length = none)
    (h : announced strtod (s.buffer ++ more) = some (l,rest)) :
        extend strtod s more = ⟨some rest,some l⟩ := by
  rw [extend, hs, h]

theorem extend_silent {s : PkgState} {more : Bytes} (hs : s.length = none)
    (h : announced strtod (s.buffer ++ more) = none) :
    extend strtod s more = ⟨some (s.buffer ++ more),none⟩ := by
  rw [extend, hs, h]

theorem rest_drop (b : Bytes) (pos : ℕ) : sub b (pos + 4) (-1) = b.drop (pos + 3) := by
  rw [← sub_suffix]
  congr 1

theorem announced_iff {b rest : Bytes} {l : Number} : announced strtod b = some (l,rest) ↔
    ∃ pos, find (text "\r\n\r\n") b = some pos ∧
        ¬ (pos ≤ 15 ∨ sub b 1 16 ≠ text "Content-Length: ") ∧
      tonumber strtod (sub b 17 (pos - 1)) = some l ∧ rest = b.drop (pos + 3) := by
  rw [announced]
  cases hpos : find (text "\r\n\r\n") b with
  | none => simp
  | some pos =>
    dsimp only
    by_cases hbad : pos ≤ 15 ∨ sub b 1 16 ≠ text "Content-Length: "
    · rw [if_pos hbad]
      exact ⟨nofun,fun ⟨_,heq,hgood,_⟩ => absurd (Option.some.inj heq ▸ hbad) hgood⟩
    · rw [if_neg hbad, rest_drop, Option.map_eq_some_iff]
      constructor
      · rintro ⟨k,hk,heq⟩
        injection heq with hl hrest
        exact ⟨pos,rfl,hbad,hl ▸ hk,hrest.symm⟩
      · rintro ⟨_,heq,-,hl,hrest⟩
        cases heq
        exact ⟨l,hl,by rw [hrest]⟩

theorem announced_append {b rest : Bytes} {l : Number} (h : announced strtod b = some (l,rest))
    (more : Bytes) :
    announced strtod (b ++ more) = some (l,rest ++ more) := by
  obtain ⟨pos,hpos,hgood,hl,rfl⟩ := announced_iff.mp h
  have hlen := (find_bounds (by decide) hpos).2
  have hcr : (text "\r\n\r\n").length = 4 := rfl
  have h15 := (not_or.mp hgood).1
  refine announced_iff.mpr ⟨pos,find_append (by decide) hpos more,?_,?_,?_⟩
  · rw [sub_append b more one_pos (by omega) (by omega)]
    exact hgood
  · rw [sub_append b more (by omega) (by omega) (by omega)]
    exact hl
  · rw [List.drop_append_of_le_length (by omega)]

theorem announced_shorter {b rest : Bytes} {l : Number} (h : announced strtod b = some (l,rest)) :
    rest.length < b.length := by
  obtain ⟨pos,hpos,-,-,rfl⟩ := announced_iff.mp h
  have hlen := (find_bounds (by decide) hpos).2
  have hcr : (text "\r\n\r\n").length = 4 := rfl
  rw [List.length_drop]
  omega

theorem takeHeader_announced {b rest : Bytes} {l : Number}
    (h : announced strtod b = some (l,rest)) :
    takeHeader strtod b = takePkg rest l := by
  obtain ⟨pos,hpos,hgood,hl,rfl⟩ := announced_iff.mp h
  rw [takeHeader, hpos]
  dsimp only
  rw [if_neg hgood, hl, rest_drop]

/-- Without a length, more bytes are waited for, or never will do. -/
theorem takeHeader_silent {b : Bytes} (h : announced strtod b = none) :
    takeHeader strtod b = ⟨⟨some b,none⟩,[],.returned none⟩ ∨
      ∀ more, takeHeader strtod (b ++ more) =
          ⟨⟨some (b ++ more),none⟩,[],.raised (some "Invalid protocol.")⟩ := by
  rw [announced] at h
  split at h
  · next hnone =>
    left
    rw [takeHeader, hnone]
  · next pos hpos =>
    right
    intro more
    have hlen := (find_bounds (by decide) hpos).2
    have hcr : (text "\r\n\r\n").length = 4 := rfl
    rw [takeHeader, find_append (by decide) hpos more]
    by_cases h15 : pos ≤ 15
    · exact if_pos (.inl h15)
    · dsimp only
      rw [sub_append b more one_pos (by omega) (by omega)]
      split at h
      · next hbad => rw [if_pos hbad]
      · next hgood =>
        rw [if_neg hgood,
          sub_append b more (i := 17) (j := pos - 1) (by omega) (by omega) (by omega),
          Option.map_eq_none_iff.mp h]

theorem slicePkg_pending (s : PkgState) (chunk : Bytes) {l : Number} (h : s.length = some l) :
    slicePkg strtod s chunk = takePkg (s.buffer ++ chunk) l := by
  rw [slicePkg, h]
  cases hs : s.bytes <;> simp [PkgState.buffer, hs]

theorem slicePkg_idle (s : PkgState) (chunk : Bytes) (h : s.length = none) :
    slicePkg strtod s chunk = takeHeader strtod (s.buffer ++ chunk) := by
  rw [slicePkg, h]
  cases hs : s.bytes <;> simp [PkgState.buffer, hs]

/-- It does not matter whether the bytes are there before the call or come with it. -/
theorem slicePkg_extend (s : PkgState) (chunk : Bytes) :
    slicePkg strtod s chunk = slicePkg strtod (extend strtod s chunk) [] := by
  cases hs : s.length with
  | some l =>
    have hextend : extend strtod s chunk = ⟨some (s.buffer ++ chunk),some l⟩ := by rw [extend, hs]
    rw [slicePkg_pending s chunk hs, hextend, slicePkg_pending _ [] rfl, List.append_nil]
    rfl
  | none =>
    rw [slicePkg_idle s chunk hs]
    cases h : announced strtod (s.buffer ++ chunk) with
    | none =>
      rw [extend_silent hs h, slicePkg_idle _ [] rfl, List.append_nil]
      rfl
    | some a =>
      rw [extend_announced hs h, slicePkg_pending _ [] rfl, List.append_nil, takeHeader_announced h]
      rfl

theorem extend_extend (s : PkgState) (chunk more : Bytes) :
    extend strtod (extend strtod s chunk) more = extend strtod s (chunk ++ more) := by
  cases hs : s.length with
  | some l =>
    have hextend (bs : Bytes) : extend strtod s bs = ⟨some (s.buffer ++ bs),some l⟩ := by
      rw [extend, hs]
    rw [hextend, hextend, extend_pending, List.append_assoc]
  | none =>
    cases h : announced strtod (s.buffer ++ chunk) with
    | none =>
      rw [extend_silent hs h, extend, extend, hs, ← List.append_assoc]
      rfl
    | some a =>
      have happend := announced_append h more
      rw [List.append_assoc] at happend
      rw [extend_announced hs h, extend_announced hs happend, extend_pending]

theorem slicePkg_waits {s : PkgState} {chunk : Bytes}
    (h : (slicePkg strtod s chunk).outcome = .returned none) :
    (slicePkg strtod s chunk).state = extend strtod s chunk := by
  have htake {b : Bytes} {l : Number} (h : (takePkg b l).outcome = .returned none) :
      (takePkg b l).state = ⟨some b,some l⟩ := by
    rw [takePkg] at h ⊢
    split at h
    · split at h <;> cases h
    · next hle => rw [if_neg hle]
  cases hs : s.length with
  | some l =>
    rw [slicePkg_pending s chunk hs] at h ⊢
    rw [htake h, extend, hs]
  | none =>
    rw [slicePkg_idle s chunk hs] at h ⊢
    cases ha : announced strtod (s.buffer ++ chunk) with
    | none =>
      rw [extend_silent hs ha]
      rcases takeHeader_silent ha with heq | hraised
      · rw [heq]
      · have hnow := hraised []
        rw [List.append_nil] at hnow
        rw [hnow] at h
        cases h
    | some a =>
      rw [takeHeader_announced ha] at h ⊢
      rw [htake h, extend_announced hs ha]

/-- No length is pending that `sub` would count from the end. -/
def Forward (s : PkgState) : Prop := ∀ l, s.length = some l → negative l = false

/-- What a call comes to at last it comes to as well with more bytes there. -/
theorem slicePkg_more {s : PkgState} {chunk more : Bytes}
    (hf : Forward (extend strtod s (chunk ++ more))) :
    (slicePkg strtod s chunk).outcome = .returned none ∨
      ((slicePkg strtod s (chunk ++ more)).outcome = (slicePkg strtod s chunk).outcome ∧
        extend strtod (slicePkg strtod s (chunk ++ more)).state [] =
          extend strtod (slicePkg strtod s chunk).state more) := by
  have hstate {r R : Sliced} (hr : R.outcome = r.outcome ∧
      R.state = ⟨some (r.state.buffer ++ more),r.state.length⟩) :
      R.outcome = r.outcome ∧ extend strtod R.state [] = extend strtod r.state more := by
    refine ⟨hr.1,?_⟩
    rw [hr.2, extend, extend]
    simp only [PkgState.buffer, Option.getD_some, List.append_nil]
  cases hs : s.length with
  | some l =>
    rw [slicePkg_pending s chunk hs, slicePkg_pending s (chunk ++ more) hs, ← List.append_assoc]
    have hl : negative l = false := hf l (by rw [extend, hs])
    exact (takePkg_more hl _ more).imp id hstate
  | none =>
    rw [slicePkg_idle s chunk hs, slicePkg_idle s (chunk ++ more) hs, ← List.append_assoc]
    cases ha : announced strtod (s.buffer ++ chunk) with
    | none =>
      rcases takeHeader_silent ha with heq | hraised
      · left
        rw [heq]
      · right
        have hnow := hraised []
        rw [List.append_nil] at hnow
        rw [hnow, hraised more]
        exact hstate ⟨rfl,rfl⟩
    | some a =>
      have happend := announced_append ha more
      have hl : negative a.1 = false := by
        apply hf a.1
        rw [List.append_assoc] at happend
        rw [extend_announced hs happend]
      rw [takeHeader_announced ha, takeHeader_announced happend]
      exact (takePkg_more hl _ more).imp id hstate

def size (s : PkgState) : ℕ := s.buffer.length + (if s.length.isSome then 1 else 0)

theorem size_extend (s : PkgState) (more : Bytes) :
    size (extend strtod s more) ≤ size s + more.length := by
  cases hs : s.length with
  | some l =>
    have hextend : extend strtod s more = ⟨some (s.buffer ++ more),some l⟩ := by rw [extend, hs]
    rw [hextend, size, size, hs]
    simp only [PkgState.buffer, Option.getD_some, List.length_append]
    omega
  | none =>
    rw [size, size, hs]
    cases h : announced strtod (s.buffer ++ more) with
    | none =>
      rw [extend_silent hs h]
      simp [PkgState.buffer]
    | some a =>
      have hlt := announced_shorter h
      rw [List.length_append] at hlt
      rw [extend_announced hs h]
      simp only [PkgState.buffer, Option.getD_some, Option.isSome_some, Option.isSome_none, if_true,
        Bool.false_eq_true, if_false] at hlt ⊢
      omega

theorem slicePkg_shorter {s : PkgState} {body : Bytes} (hf : Forward s)
    (h : (slicePkg strtod s []).outcome = .returned (some body)) (hs : extend strtod s [] = s) :
    size (extend strtod (slicePkg strtod s []).state []) < size s := by
  cases hl : s.length with
  | none =>
    rw [slicePkg_idle s [] hl] at h
    cases ha : announced strtod (s.buffer ++ []) with
    | none =>
      rcases takeHeader_silent ha with heq | hraised
      · rw [heq] at h
        cases h
      · have hnow := hraised []
        rw [List.append_nil] at hnow
        rw [hnow] at h
        cases h
    | some a =>
      rw [extend_announced hl ha] at hs
      rw [← hs] at hl
      cases hl
  | some l =>
    rw [slicePkg_pending s [] hl, List.append_nil] at h ⊢
    apply (size_extend _ []).trans_lt
    rw [size, size, hl]
    rw [takePkg] at h ⊢
    split at h
    · next hle =>
      rw [if_pos hle]
      cases hn : l.checkInteger with
      | none =>
        rw [hn] at h
        cases h
      | some n =>
        rw [checkInteger_add hn]
        obtain ⟨k,rfl⟩ := Int.eq_ofNat_of_zero_le (checkInteger_bounds hn (hf l hl) hle).1
        simp only [PkgState.buffer, Option.getD_some, sub_suffix, List.length_drop,
          Option.isSome_none, Bool.false_eq_true, if_false, Option.isSome_some, if_true,
          List.length_nil]
        omega
    · cases h

theorem announced_header (n : ℕ) (t : Bytes) :
    announced strtod (header n ++ (text "\r\n\r\n" ++ t)) = some (.integer n,t) := by
  have hl := header_length n
  have hcr : (text "\r\n\r\n").length = 4 := rfl
  have hpos : 0 < (decimal n).length := List.length_pos_iff.mpr (decimal_ne_nil n)
  refine announced_iff.mpr ⟨(header n).length + 1,find_header n t,?_,?_,?_⟩
  · have h16 := sub_take (header n ++ (text "\r\n\r\n" ++ t)) 16 (by rw [List.length_append]; omega)
    rw [Nat.cast_ofNat, header, List.append_assoc] at h16
    have hname : sub (header n ++ (text "\r\n\r\n" ++ t)) 1 16 = text "Content-Length: " := by
      rw [header, List.append_assoc, h16]
      rfl
    rw [hname]
    exact not_or.mpr ⟨by omega,not_not_intro rfl⟩
  · have hdigits :=
      sub_between (text "Content-Length: ") (decimal n) (text "\r\n\r\n" ++ t) (decimal_ne_nil n)
    have hend : ((text "Content-Length: ").length : ℤ) + (decimal n).length =
        ((header n).length + 1 : ℕ) - 1 := by
      rw [header, List.length_append]
      push_cast
      ring
    rw [← List.append_assoc, hend] at hdigits
    have hnumber : Framing.tonumber strtod (decimal n) = some (.integer n) := by
      rw [Framing.tonumber, str2int_decimal]
    rw [← hnumber]
    exact congrArg (Framing.tonumber strtod) hdigits
  · have hlen : (header n).length + 1 + 3 = (header n ++ text "\r\n\r\n").length := by
      rw [List.length_append, hcr]
    rw [hlen, ← List.append_assoc, List.drop_left]

/-- Behind a header of -1 everything is taken, however much has been read. -/
example : (slicePkg (fun _ => none) .initial (text "Content-Length: -1\r\n\r\nab")).outcome =
      .returned (some (text "ab")) ∧
    (slicePkg (fun _ => none) .initial (text "Content-Length: -1\r\n\r\n")).outcome =
        .returned (some []) := by
  decide

end Slices

end Vecoda.ChunkedFrames
