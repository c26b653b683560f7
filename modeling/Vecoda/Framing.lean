import Vecoda.LuaText

/-!
# The framing of messages

`slicePkg` of message.lua, the resumable parser behind `m.update`, and the
frame that `m.send` writes. The parser keeps a buffer and the length it waits
for, and returns at most one message a call. What `tonumber` makes of text
that is no integer numeral is a parameter, the C library's `strtod`.
-/

set_option autoImplicit false

namespace Vecoda.Framing
open MessagePipe LuaText

inductive Number where
  | integer (n : ℤ)
  | float (x : ℚ)
  | huge (negative : Bool)
  deriving DecidableEq

def Number.le : Number → ℕ → Bool
  | integer n, k => n ≤ k
  | float x, k => x ≤ k
  | huge negative, _ => negative

def Number.add : Number → ℤ → Number
  | integer n, k => integer (n + k)
  | float x, k => float (x + k)
  | huge negative, _ => huge negative

/-- `luaL_checkinteger`: a float serves if it is integral. -/
def Number.checkInteger : Number → Option ℤ
  | integer n => some n
  | float x => if x.den = 1 then some x.num else none
  | huge _ => none

/-- `string.sub`, with positions from the end where they are negative. -/
def sub (s : Bytes) (i j : ℤ) : Bytes :=
  let start : ℤ := if 0 < i then i else if i = 0 ∨ i < -s.length then 1 else s.length + i + 1
  let stop : ℤ :=
    if s.length < j then s.length else if 0 ≤ j then j
    else if j < -s.length then 0 else s.length + j + 1
  (s.take stop.toNat).drop (start.toNat - 1)

def find (pat : Bytes) : Bytes → Option ℕ
  | [] => if pat = [] then some 1 else none
  | b::bs => if pat.isPrefixOf (b::bs) then some 1 else (find pat bs).map (· + 1)

def decimalValue (ds : Bytes) : ℕ :=
  ds.foldl (fun n b => n * 10 + (b.toNat - (byte '0').toNat)) 0

def isHex (b : UInt8) : Bool := (hexDigit b).isSome

def asSigned (n : ℕ) : ℤ := if n < 2^63 then n else (n : ℤ) - 2^64

/-- `l_str2int`. Hexadecimal numerals wrap; decimal ones are not cut at 64 bits, since a
length that large exceeds every buffer as the float does that the code makes of it. -/
def str2int (s : Bytes) : Option ℤ :=
  let body := trim s
  let neg := body.head? = some (byte '-')
  let ds := if neg ∨ body.head? = some (byte '+') then body.tail else body
  if ds.take 2 = text "0x" ∨ ds.take 2 = text "0X" then
    let hs := ds.drop 2
    if hs ≠ [] ∧ hs.all isHex then
      let a := ofDigits hexDigit 16 hs
      some (asSigned (if neg then (2^64 - a) % 2^64 else a))
    else none
  else if ds ≠ [] ∧ ds.all isDigit then
    some (if neg then -(decimalValue ds : ℤ) else decimalValue ds)
  else none

structure PkgState where
  bytes : Option Bytes
  length : Option Number
  deriving DecidableEq

def PkgState.initial : PkgState := ⟨none,none⟩

inductive Part where
  | str (s : String)
  | num (n : Number)
  deriving DecidableEq

structure Output where
  category : String
  output : List Part
  deriving DecidableEq

/-- `none` for the error that `sub` raises itself. -/
inductive Outcome where
  | returned (pkg : Option Bytes)
  | raised (message : Option String)
  deriving DecidableEq

structure Sliced where
  state : PkgState
  output : List Output
  outcome : Outcome
  deriving DecidableEq

def takePkg (buffer : Bytes) (length : Number) : Sliced :=
  if length.le buffer.length then
    -- `sub` raises on a float that is not integral, before anything is assigned
    match length.checkInteger, (length.add 1).checkInteger with
    | some n, some m => ⟨⟨some (sub buffer m (-1)),none⟩,[],.returned (some (sub buffer 1 n))⟩
    | _, _ => ⟨⟨some buffer,some length⟩,[],.raised none⟩
  else
    ⟨⟨some buffer,some length⟩,
      [⟨"stdout",[.str "Waiting for more data, current length: ",.num (.integer buffer.length),
        .str ", expected length: ",.num length]⟩],
      .returned none⟩

section Slicing

variable (strtod : Bytes → Option Number)

def tonumber (s : Bytes) : Option Number :=
  match str2int s with
  | some n => some (.integer n)
  | none => strtod s

def takeHeader (buffer : Bytes) : Sliced :=
  match find (text "\r\n\r\n") buffer with
  | none => ⟨⟨some buffer,none⟩,[],.returned none⟩
  | some pos =>
    if pos ≤ 15 ∨ sub buffer 1 16 ≠ text "Content-Length: " then
      ⟨⟨some buffer,none⟩,[],.raised (some "Invalid protocol.")⟩
    else
      match tonumber strtod (sub buffer 17 (pos - 1)) with
      | none => ⟨⟨some buffer,none⟩,[],.raised (some "Invalid protocol.")⟩
      | some length => takePkg (sub buffer (pos + 4) (-1)) length

def slicePkg (s : PkgState) (bytes : Bytes) : Sliced :=
  let buffer := match s.bytes with
    | some old => old ++ bytes
    | none => bytes
  match s.length with
  | some length => takePkg buffer length
  | none => takeHeader strtod buffer

end Slicing

def decimal (n : ℕ) : Bytes :=
  if n < 10 then [UInt8.ofNat (48 + n)] else decimal (n / 10) ++ [UInt8.ofNat (48 + n % 10)]

def header (n : ℕ) : Bytes := text "Content-Length: " ++ decimal n

def frame (content : Bytes) : Bytes := header content.length ++ text "\r\n\r\n" ++ content

def frames (bodies : List Bytes) : Bytes := (bodies.map frame).flatten

inductive Failure where
  | raised (message : Option String)
  | outOfFuel
  deriving DecidableEq

section Receiving

variable (strtod : Bytes → Option Number)

def feed : List Bytes → PkgState → Except Failure (List Bytes × PkgState)
  | [], s => .ok ([],s)
  | chunk::chunks, s =>
    let r := slicePkg strtod s chunk
    match r.outcome with
    | .raised message => .error (.raised message)
    | .returned pkg => (feed chunks r.state).map (fun (pkgs,s') => (pkg.toList ++ pkgs,s'))

def drain : ℕ → PkgState → Except Failure (List Bytes × PkgState)
  | 0, _ => .error .outOfFuel
  | fuel+1, s =>
    let r := slicePkg strtod s []
    match r.outcome with
    | .raised message => .error (.raised message)
    | .returned none => .ok ([],r.state)
    | .returned (some pkg) => (drain fuel r.state).map (fun (pkgs,s') => (pkg::pkgs,s'))

def receive (chunks : List Bytes) (fuel : ℕ) : Except Failure (List Bytes × PkgState) :=
  match feed strtod chunks .initial with
  | .error e => .error e
  | .ok (fed,s) => (drain strtod fuel s).map (fun (drained,s') => (fed ++ drained,s'))

end Receiving

section Text

theorem sub_take (s : Bytes) (n : ℕ) (h : n ≤ s.length) : sub s 1 n = s.take n := by
  have hn : ¬ ((s.length : ℤ) < n) := by omega
  simp [sub, hn]

theorem sub_suffix (s : Bytes) (n : ℕ) : sub s (n + 1) (-1) = s.drop n := by
  have hi : (0 : ℤ) < n + 1 := by omega
  have hj : ¬ ((s.length : ℤ) < -1) := by omega
  by_cases hs : s = []
  · simp [sub, hs]
  · have hl : 0 < s.length := List.length_pos_iff.mpr hs
    have hm : ¬ ((-1 : ℤ) < -s.length) := by omega
    have ht : ((s.length : ℤ) + -1 + 1).toNat = s.length := by omega
    simp [sub, hi, hj, hm]

theorem sub_between (a b c : Bytes) (h : b ≠ []) :
    sub (a ++ (b ++ c)) (a.length + 1) (a.length + b.length) = b := by
  have hpos : 0 < b.length := List.length_pos_iff.mpr h
  have hi : (0 : ℤ) < a.length + 1 := by omega
  have hj : ¬ (((a ++ (b ++ c)).length : ℤ) < a.length + b.length) := by
    simp only [List.length_append]
    omega
  have hj' : (0 : ℤ) ≤ a.length + b.length := by omega
  have hstop : ((a.length : ℤ) + b.length).toNat = (a ++ b).length := by
    simp only [List.length_append]
    omega
  have hstart : ((a.length : ℤ) + 1).toNat - 1 = a.length := by omega
  simp only [sub, hi, hj, hj', if_true, if_false, hstop, hstart]
  rw [← List.append_assoc, List.take_left, List.drop_left]

theorem decimal_digits (n : ℕ) : ∀ b ∈ decimal n, isDigit b = true := by
  have hdigit : ∀ d < 10, isDigit (UInt8.ofNat (48 + d)) = true := by decide
  induction n using decimal.induct with
  | case1 n hn =>
    rw [decimal, if_pos hn]
    simpa using hdigit n hn
  | case2 n hn ih =>
    rw [decimal, if_neg hn]
    intro b hb
    rcases List.mem_append.mp hb with hb | hb
    · exact ih b hb
    · rw [List.mem_singleton.mp hb]
      exact hdigit _ (Nat.mod_lt n (by decide))

theorem decimal_ne_nil (n : ℕ) : decimal n ≠ [] := by
  rw [decimal]
  split <;> simp

theorem decimalValue_decimal (n : ℕ) : decimalValue (decimal n) = n := by
  have hdigit : ∀ d < 10, (UInt8.ofNat (48 + d)).toNat - (byte '0').toNat = d := by decide
  induction n using decimal.induct with
  | case1 n hn =>
    rw [decimal, if_pos hn]
    simpa [decimalValue] using hdigit n hn
  | case2 n hn ih =>
    rw [decimal, if_neg hn, decimalValue, List.foldl_append]
    change decimalValue (decimal (n / 10)) * 10 + _ = n
    rw [ih, hdigit _ (Nat.mod_lt n (by decide))]
    omega

theorem trim_id (s : Bytes) (h : ∀ b ∈ s, isSpace b = false) : trim s = s := by
  have hd : ∀ t : Bytes, (∀ b ∈ t, isSpace b = false) → t.dropWhile isSpace = t := by
    intro t ht
    cases t with
    | nil => rfl
    | cons b bs => simp [ht b (by simp)]
  rw [trim, hd s h, hd s.reverse (fun b hb => h b (by simpa using hb)), List.reverse_reverse]

theorem digit_bounds (b : UInt8) (h : isDigit b = true) : 48 ≤ b.toNat ∧ b.toNat ≤ 57 := by
  simp only [isDigit, byte, Bool.and_eq_true, decide_eq_true_eq, UInt8.le_iff_toNat_le] at h
  exact h

theorem digit_not_space (b : UInt8) (h : isDigit b = true) : isSpace b = false := by
  have := digit_bounds b h
  simp [isSpace, ← UInt8.toNat_inj, UInt8.le_iff_toNat_le]
  omega

theorem ne_of_digit (b c : UInt8) (h : isDigit b = true) (hc : isDigit c = false) : b ≠ c := by
  rintro rfl
  rw [h] at hc
  cases hc

theorem not_hex_prefix (ds : Bytes) (x : UInt8) (h : ∀ b ∈ ds, isDigit b = true)
    (hx : isDigit x = false) : ds.take 2 ≠ [byte '0',x] := by
  intro he
  have hm : x ∈ ds := List.mem_of_mem_take (i := 2) (by simp [he])
  exact ne_of_digit x x (h x hm) hx rfl

theorem str2int_digits (ds : Bytes) (hn : ds ≠ []) (h : ∀ b ∈ ds, isDigit b = true) :
    str2int ds = some (decimalValue ds : ℤ) := by
  have ht : trim ds = ds := trim_id ds (fun b hb => digit_not_space b (h b hb))
  have hsign (c : UInt8) (hc : isDigit c = false) : ds.head? ≠ some c := by
    intro he
    exact ne_of_digit c c (h c (List.mem_of_head? he)) hc rfl
  have hminus : ds.head? ≠ some (byte '-') := hsign _ (by decide)
  have hplus : ds.head? ≠ some (byte '+') := hsign _ (by decide)
  have hx : ds.take 2 ≠ text "0x" := not_hex_prefix ds (byte 'x') h (by decide)
  have hX : ds.take 2 ≠ text "0X" := not_hex_prefix ds (byte 'X') h (by decide)
  have hall : ds.all isDigit = true := List.all_eq_true.mpr h
  simp [str2int, ht, hminus, hplus, hx, hX, hn, hall]

theorem str2int_decimal (n : ℕ) : str2int (decimal n) = some (n : ℤ) := by
  rw [str2int_digits _ (decimal_ne_nil n) (decimal_digits n), decimalValue_decimal]

theorem find_short (pat s : Bytes) (h : s.length < pat.length) : find pat s = none := by
  induction s with
  | nil =>
    have hp : pat ≠ [] := by
      rintro rfl
      simp at h
    simp [find, hp]
  | cons b bs ih =>
    have hp : pat.isPrefixOf (b::bs) = false := by
      rw [Bool.eq_false_iff]
      intro hp
      have := (List.isPrefixOf_iff_prefix.mp hp).length_le
      omega
    rw [find, hp, ih (by simp only [List.length_cons] at h; omega)]
    rfl

/-- Bytes that cannot start a match are passed over. -/
theorem find_skip (c : UInt8) (pat s t : Bytes) (h : c ∉ s) :
    find (c::pat) (s ++ t) = (find (c::pat) t).map (· + s.length) := by
  induction s with
  | nil => simp
  | cons b bs ih =>
    have hb : c ≠ b := fun he => h (by simp [he])
    rw [List.cons_append, find, ih (fun hc => h (by simp [hc]))]
    simp [hb, Function.comp_def, Nat.add_assoc]

theorem find_prefix (pat t : Bytes) (h : pat ≠ []) : find pat (pat ++ t) = some 1 := by
  cases pat with
  | nil => exact absurd rfl h
  | cons b bs =>
    have hp : (b::bs).isPrefixOf (b::(bs ++ t)) = true :=
      List.isPrefixOf_iff_prefix.mpr (List.prefix_append (b::bs) t)
    rw [List.cons_append, find, hp]
    rfl

end Text

section Headers

theorem header_no_cr (n : ℕ) : byte '\r' ∉ header n := by
  intro h
  rcases List.mem_append.mp h with h | h
  · revert h
    decide
  · exact ne_of_digit _ _ (decimal_digits n _ h) (by decide) rfl

theorem header_length (n : ℕ) : (header n).length = 16 + (decimal n).length := by
  rw [header, List.length_append]
  rfl

theorem find_header (n : ℕ) (t : Bytes) :
    find (text "\r\n\r\n") (header n ++ (text "\r\n\r\n" ++ t)) = some ((header n).length + 1) := by
  have h := find_skip (byte '\r') (text "\n\r\n") (header n) (text "\r\n\r\n" ++ t) (header_no_cr n)
  have hp := find_prefix (text "\r\n\r\n") t (by decide)
  change find (text "\r\n\r\n") _ = _ at h
  rw [h]
  change Option.map _ (find (text "\r\n\r\n") _) = _
  rw [hp, Option.map_some, Nat.add_comm]

/-- While its header is not complete, a frame shows no end of a header. -/
theorem find_cut (n : ℕ) (buffer rest : Bytes) (hr : rest ≠ [])
    (h : buffer ++ rest = header n ++ text "\r\n\r\n") :
    find (text "\r\n\r\n") buffer = none := by
  have hskip (s t : Bytes) (hs : byte '\r' ∉ s) (ht : t.length < 4) :
      find (text "\r\n\r\n") (s ++ t) = none := by
    have hf := find_skip (byte '\r') (text "\n\r\n") s t hs
    change find (text "\r\n\r\n") _ = Option.map _ (find (text "\r\n\r\n") _) at hf
    rw [hf, find_short (text "\r\n\r\n") t ht]
    rfl
  rcases List.append_eq_append_iff.mp h with ⟨more,hm,-⟩ | ⟨t,ht,hc⟩
  · have hb : byte '\r' ∉ buffer := fun hb =>
      header_no_cr n (hm ▸ List.mem_append_left more hb)
    simpa using hskip buffer [] hb (by simp)
  · have hl : t.length + rest.length = 4 := by
      rw [← List.length_append, ← hc]
      rfl
    have hpos : 0 < rest.length := List.length_pos_iff.mpr hr
    rw [ht]
    exact hskip (header n) t (header_no_cr n) (by omega)

theorem takePkg_full (body t : Bytes) :
    takePkg (body ++ t) (.integer body.length) =
      ⟨⟨some t,none⟩,[],.returned (some body)⟩ := by
  have hle : (Number.integer body.length).le (body ++ t).length = true := by
    simp [Number.le]
  have hpre : sub (body ++ t) 1 body.length = body := by
    rw [sub_take _ _ (by simp), List.take_left]
  have hsuf : sub (body ++ t) (body.length + 1) (-1) = t := by
    rw [sub_suffix, List.drop_left]
  simp only [takePkg, hle, if_true, Number.checkInteger, Number.add, hpre, hsuf]

theorem takePkg_short (buffer : Bytes) (n : ℕ) (h : buffer.length < n) :
    ∃ output, takePkg buffer (.integer n) =
      ⟨⟨some buffer,some (.integer n)⟩,output,.returned none⟩ := by
  have hle : (Number.integer n).le buffer.length = false := by
    simpa [Number.le] using h
  simp only [takePkg, hle, Bool.false_eq_true, if_false]
  exact ⟨_,rfl⟩

theorem takeHeader_full (strtod : Bytes → Option Number) (n : ℕ) (t : Bytes) :
    takeHeader strtod (header n ++ (text "\r\n\r\n" ++ t)) = takePkg t (.integer n) := by
  have hl := header_length n
  have hpos : 0 < (decimal n).length := List.length_pos_iff.mpr (decimal_ne_nil n)
  have hlen : (header n).length + 4 ≤ (header n ++ (text "\r\n\r\n" ++ t)).length := by
    simp only [List.length_append]
    have : (text "\r\n\r\n").length = 4 := rfl
    omega
  have hname : sub (header n ++ (text "\r\n\r\n" ++ t)) 1 16 = text "Content-Length: " := by
    have h16 := sub_take (header n ++ (text "\r\n\r\n" ++ t)) 16 (by omega)
    rw [Nat.cast_ofNat] at h16
    rw [h16, header, List.append_assoc]
    rfl
  have hdigits : sub (header n ++ (text "\r\n\r\n" ++ t)) 17 ((header n).length + 1 - 1) =
      decimal n := by
    have hb := sub_between (text "Content-Length: ") (decimal n) (text "\r\n\r\n" ++ t)
      (decimal_ne_nil n)
    rw [← List.append_assoc] at hb
    change sub (header n ++ _) (16 + 1) (16 + (decimal n).length) = _ at hb
    have he : (16 : ℤ) + (decimal n).length = (header n).length + 1 - 1 := by omega
    rw [he] at hb
    exact hb
  have hrest : sub (header n ++ (text "\r\n\r\n" ++ t)) ((header n).length + 1 + 4) (-1) = t := by
    have hcr : (text "\r\n\r\n").length = 4 := rfl
    have he : ((header n).length : ℤ) + 1 + 4 = ((header n ++ text "\r\n\r\n").length : ℕ) + 1 := by
      rw [List.length_append, hcr]
      push_cast
      ring
    rw [he, ← List.append_assoc, sub_suffix, List.drop_left]
  have hposn : ¬ ((header n).length + 1 ≤ 15) := by omega
  have hnum : tonumber strtod (decimal n) = some (.integer n) := by
    rw [tonumber, str2int_decimal]
  rw [takeHeader, find_header]
  simp only [hposn, hname, ne_eq, not_true_eq_false, or_self, if_false, Nat.cast_add, Nat.cast_one,
    hdigits, hnum, hrest]

theorem takeHeader_cut (strtod : Bytes → Option Number) (n : ℕ) (buffer rest : Bytes) (hr : rest ≠ [])
    (h : buffer ++ rest = header n ++ text "\r\n\r\n") :
    takeHeader strtod buffer = ⟨⟨some buffer,none⟩,[],.returned none⟩ := by
  rw [takeHeader, find_cut n buffer rest hr h]

end Headers

section Chunks

def PkgState.buffer (s : PkgState) : Bytes := s.bytes.getD []

/-- The buffer and the unread part of the stream hold the frames of `bodies`, the
first of them without its header where a length is pending. -/
inductive Ahead (s : PkgState) (unread : Bytes) : List Bytes → Prop where
  | header (bodies : List Bytes) (idle : s.length = none)
      (rest : s.buffer ++ unread = frames bodies) : Ahead s unread bodies
  | body (body : Bytes) (bodies : List Bytes) (pending : s.length = some (.integer body.length))
      (rest : s.buffer ++ unread = body ++ frames bodies) : Ahead s unread (body::bodies)

def PkgState.done : PkgState := ⟨some [],none⟩

inductive Progress (r : Sliced) (unread : Bytes) : List Bytes → Prop where
  | waits (bodies : List Bytes) (nil : r.outcome = .returned none)
      (ahead : Ahead r.state unread bodies)
      (last : unread = [] → bodies = [] ∧ r.state = .done) : Progress r unread bodies
  | returns (body : Bytes) (bodies : List Bytes) (pkg : r.outcome = .returned (some body))
      (ahead : Ahead r.state unread bodies) : Progress r unread (body::bodies)

theorem frames_cons (body : Bytes) (bodies : List Bytes) :
    frames (body::bodies) = (header body.length ++ text "\r\n\r\n") ++ (body ++ frames bodies) := by
  simp [frames, frame, List.append_assoc]

theorem takePkg_progress (buffer unread body : Bytes) (bodies : List Bytes)
    (h : buffer ++ unread = body ++ frames bodies) :
    Progress (takePkg buffer (.integer body.length)) unread (body::bodies) := by
  rcases List.append_eq_append_iff.mp h with ⟨more,hb,hu⟩ | ⟨t,hb,hf⟩
  · by_cases hm : more = []
    · subst hm
      rw [List.append_nil] at hb
      have hp := takePkg_full body []
      rw [List.append_nil] at hp
      rw [← hb, hp]
      exact .returns body bodies rfl (.header bodies rfl hu)
    · have hlt : buffer.length < body.length := by
        have := List.length_pos_iff.mpr hm
        rw [hb, List.length_append]
        omega
      obtain ⟨output,ht⟩ := takePkg_short buffer body.length hlt
      rw [ht]
      refine .waits _ rfl (.body body bodies rfl h) ?_
      rintro rfl
      exact absurd (List.append_eq_nil_iff.mp hu.symm).1 hm
  · rw [hb, takePkg_full]
    exact .returns body bodies rfl (.header bodies rfl hf.symm)

theorem takeHeader_progress (strtod : Bytes → Option Number) (buffer unread : Bytes)
    (bodies : List Bytes) (h : buffer ++ unread = frames bodies) :
    Progress (takeHeader strtod buffer) unread bodies := by
  cases bodies with
  | nil =>
    obtain ⟨rfl,rfl⟩ := List.append_eq_nil_iff.mp h
    exact .waits [] rfl (.header [] rfl rfl) (fun _ => ⟨rfl,rfl⟩)
  | cons body bodies =>
    rw [frames_cons] at h
    have hwhole (t : Bytes) (hb : buffer = (header body.length ++ text "\r\n\r\n") ++ t)
        (ht : t ++ unread = body ++ frames bodies) :
        Progress (takeHeader strtod buffer) unread (body::bodies) := by
      rw [hb, List.append_assoc, takeHeader_full]
      exact takePkg_progress t unread body bodies ht
    rcases List.append_eq_append_iff.mp h with ⟨more,hm,hu⟩ | ⟨t,hb,hf⟩
    · by_cases he : more = []
      · subst he
        rw [List.append_nil] at hm
        exact hwhole [] (by rw [List.append_nil, hm]) hu
      · rw [takeHeader_cut strtod body.length buffer more he hm.symm]
        refine .waits _ rfl (.header _ rfl (by rw [frames_cons]; exact h)) ?_
        rintro rfl
        exact absurd (List.append_eq_nil_iff.mp hu.symm).1 he
    · exact hwhole t hb hf.symm

/-- One call, wherever the chunk it gets ends. -/
theorem slicePkg_progress (strtod : Bytes → Option Number) (s : PkgState) (chunk unread : Bytes)
    (bodies : List Bytes) (h : Ahead s (chunk ++ unread) bodies) :
    Progress (slicePkg strtod s chunk) unread bodies := by
  have hbuffer : (match s.bytes with | some old => old ++ chunk | none => chunk) = s.buffer ++ chunk := by
    cases hs : s.bytes <;> simp [PkgState.buffer, hs]
  cases h with
  | header bodies idle rest =>
    rw [slicePkg, hbuffer, idle]
    exact takeHeader_progress strtod _ unread bodies (by rw [List.append_assoc]; exact rest)
  | body body bodies pending rest =>
    rw [slicePkg, hbuffer, pending]
    exact takePkg_progress _ unread body bodies (by rw [List.append_assoc]; exact rest)

theorem feed_ahead (strtod : Bytes → Option Number) (chunks : List Bytes) (s : PkgState)
    (unread : Bytes) (bodies : List Bytes) (h : Ahead s (chunks.flatten ++ unread) bodies) :
    ∃ pkgs left s', feed strtod chunks s = .ok (pkgs,s') ∧ bodies = pkgs ++ left ∧
      Ahead s' unread left := by
  induction chunks generalizing s bodies with
  | nil => exact ⟨[],bodies,s,rfl,rfl,h⟩
  | cons chunk chunks ih =>
    rw [List.flatten_cons, List.append_assoc] at h
    cases slicePkg_progress strtod s chunk (chunks.flatten ++ unread) bodies h with
    | waits bodies nil ahead last =>
      obtain ⟨pkgs,left,s',hf,hb,ha⟩ := ih _ _ ahead
      refine ⟨pkgs,left,s',?_,hb,ha⟩
      simp only [feed, nil, hf]
      rfl
    | returns body bodies pkg ahead =>
      obtain ⟨pkgs,left,s',hf,hb,ha⟩ := ih _ _ ahead
      refine ⟨body::pkgs,left,s',?_,by rw [hb, List.cons_append],ha⟩
      simp only [feed, pkg, hf]
      rfl

theorem drain_ahead (strtod : Bytes → Option Number) (fuel : ℕ) (s : PkgState) (bodies : List Bytes)
    (h : Ahead s [] bodies) (hfuel : bodies.length < fuel) :
    drain strtod fuel s = .ok (bodies,.done) := by
  induction fuel generalizing s bodies with
  | zero => exact absurd hfuel (Nat.not_lt_zero _)
  | succ fuel ih =>
    cases slicePkg_progress strtod s [] [] bodies h with
    | waits bodies nil ahead last =>
      obtain ⟨rfl,hs⟩ := last rfl
      simp only [drain, nil, hs]
    | returns body bodies pkg ahead =>
      have hd := ih _ bodies ahead (by simpa using hfuel)
      simp only [drain, pkg, hd]
      rfl

/-- Framed messages come out as they were sent, however the stream is cut. -/
theorem slicePkg_chunking (strtod : Bytes → Option Number) (bodies chunks : List Bytes)
    (h : chunks.flatten = frames bodies) (fuel : ℕ) (hfuel : bodies.length < fuel) :
    receive strtod chunks fuel = .ok (bodies,.done) := by
  have hstart : Ahead .initial (chunks.flatten ++ []) bodies :=
    .header bodies rfl (by rw [List.append_nil]; exact h)
  obtain ⟨pkgs,left,s,hf,rfl,ha⟩ := feed_ahead strtod chunks .initial [] bodies hstart
  have hl : left.length < fuel := by
    rw [List.length_append] at hfuel
    omega
  rw [receive, hf]
  simp only [drain_ahead strtod fuel s left ha hl]
  rfl

/-- A message with a header in it, the stream cut in its first header and its body. -/
theorem slicePkg_chunking_cut :
    receive (fun _ => none) [(frames [text "\r\n\r\nContent-Length: 9",[]]).take 7,[],
        (frames [text "\r\n\r\nContent-Length: 9",[]]).drop 7] 3 =
      .ok ([text "\r\n\r\nContent-Length: 9",[]],.done) := by
  apply slicePkg_chunking
  · simp
  · decide

end Chunks

end Vecoda.Framing
