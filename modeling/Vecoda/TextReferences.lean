import Vecoda.XmlPrinter

/-!
# References in a text

FromXmlString goes over a text seven times, each time for the references of one
kind. What EncodeString writes is a list of letters: a byte that stands for
itself, or one that is written by a reference. Where no run of bytes that stand
for themselves is a reference of some kind, the text is read as it was; where
one is, it is read as a shorter text or not at all.
-/

set_option autoImplicit false

namespace Vecoda.TextReferences
open MessagePipe LuaText XmlSimple XmlPrinter

section Passes

abbrev Decoder := Bytes → Option (Lua UInt8)

def isNameByte (b : UInt8) : Bool := isAlnum b || b = byte '#'

def reference {α : Type} (view : α → Option UInt8) : List α → Option (Bytes × List α)
  | [] => none
  | a::s =>
    match view a with
    | none => none
    | some b =>
      if b = byte ';' then some ([],s)
      else if isNameByte b then (reference view s).map (fun p => (b::p.1,p.2))
      else none

def replaced {α : Type} (view : α → Option UInt8) (dec : Decoder) (a : α) (s : List α) :
    Option (Lua UInt8 × List α) :=
  if view a = some (byte '&') then
    (reference view s).bind (fun p => (dec p.1).map (fun c => (c,p.2)))
  else none

theorem reference_suffix {α : Type} {view : α → Option UInt8} {s t : List α} {u : Bytes}
    (h : reference view s = some (u,t)) : t <:+ s ∧ t.length < s.length := by
  induction s generalizing u with
  | nil => cases h
  | cons a s ih =>
    rw [reference] at h
    cases hb : view a with
    | none => simp [hb] at h
    | some b =>
      simp only [hb] at h
      split at h
      · cases h
        exact ⟨List.suffix_cons a _,Nat.lt_succ_self _⟩
      · split at h
        · obtain ⟨p,hp,he⟩ := Option.map_eq_some_iff.mp h
          obtain ⟨rfl,rfl⟩ := Prod.mk.inj he
          obtain ⟨hsuffix,hlength⟩ := ih hp
          exact ⟨hsuffix.trans (List.suffix_cons a s),hlength.trans (Nat.lt_succ_self _)⟩
        · cases h

theorem replaced_suffix {α : Type} {view : α → Option UInt8} {dec : Decoder} {a : α} {s t : List α}
    {c : Lua UInt8} (h : replaced view dec a s = some (c,t)) : t <:+ s ∧ t.length < s.length := by
  rw [replaced, Option.ite_none_right_eq_some] at h
  obtain ⟨p,hp,h⟩ := Option.bind_eq_some_iff.mp h.2
  obtain ⟨_,_,he⟩ := Option.map_eq_some_iff.mp h
  obtain ⟨rfl,rfl⟩ := Prod.mk.inj he
  exact reference_suffix hp

theorem replaced_length {α : Type} {view : α → Option UInt8} {dec : Decoder} {a : α} {s t : List α}
    {c : Lua UInt8} (h : replaced view dec a s = some (c,t)) : t.length < s.length :=
  (replaced_suffix h).2

/-- One pass: the references of a kind are replaced from left to right. -/
def substitute (dec : Decoder) (s : Bytes) : Lua Bytes :=
  match s with
  | [] => .ok []
  | b::s =>
    match _h : replaced some dec b s with
    | some p => do
      let c ← p.1
      return c :: (← substitute dec p.2)
    | none => do return b :: (← substitute dec s)
termination_by s.length
decreasing_by
  · exact (replaced_length _h).trans (Nat.lt_succ_self _)
  · exact Nat.lt_succ_self _

theorem substitute_replaced {dec : Decoder} {b : UInt8} {s t : Bytes} {c : Lua UInt8}
    (h : replaced some dec b s = some (c,t)) :
    substitute dec (b::s) = (do
      let c ← c
      return c :: (← substitute dec t)) := by
  rw [substitute]
  split
  · rename_i p hp
    rw [h] at hp
    cases hp
    rfl
  · rename_i hnone
    rw [h] at hnone
    cases hnone

theorem substitute_kept {dec : Decoder} {b : UInt8} {s : Bytes} (h : replaced some dec b s = none) :
    substitute dec (b::s) = (do return b :: (← substitute dec s)) := by
  rw [substitute]
  split
  · rename_i p hp
    rw [h] at hp
    cases hp
  · rfl

/-- Bytes without a `&` are copied. -/
theorem substitute_append (dec : Decoder) {w : Bytes} (h : byte '&' ∉ w) (s : Bytes) :
    substitute dec (w ++ s) = (do return w ++ (← substitute dec s)) := by
  induction w with
  | nil =>
    rw [List.nil_append]
    cases substitute dec s <;> rfl
  | cons b w ih =>
    have hb : replaced some dec b (w ++ s) = none := by
      rw [replaced, if_neg]
      exact fun he => h (Option.some.inj he ▸ List.mem_cons_self)
    rw [List.cons_append, substitute_kept hb, ih (fun hw => h (List.mem_cons_of_mem _ hw))]
    cases substitute dec s <;> rfl

theorem semicolon_not_name : isNameByte (byte ';') = false := by decide

theorem reference_eq_some {s u t : Bytes} :
    reference some s = some (u,t) ↔ s = u ++ byte ';' :: t ∧ ∀ b ∈ u, isNameByte b = true := by
  induction s generalizing u with
  | nil => simp [reference]
  | cons b s ih =>
    simp only [reference]
    by_cases hb : b = byte ';'
    · subst hb
      rw [if_pos rfl]
      cases u with
      | nil => simp
      | cons c u =>
        constructor
        · intro h
          cases h
        · rintro ⟨h,hu⟩
          obtain ⟨rfl,-⟩ := List.cons.inj h
          have := hu _ List.mem_cons_self
          rw [semicolon_not_name] at this
          cases this
    · rw [if_neg hb]
      cases u with
      | nil =>
        simp [hb]
      | cons c u =>
        by_cases hn : isNameByte b = true
        · rw [if_pos hn]
          simp only [Option.map_eq_some_iff, Prod.exists, Prod.mk.injEq, List.cons.injEq,
            List.cons_append, List.forall_mem_cons]
          constructor
          · rintro ⟨_,_,h,⟨rfl,rfl⟩,rfl⟩
            obtain ⟨rfl,hu⟩ := ih.mp h
            exact ⟨⟨rfl,rfl⟩,hn,hu⟩
          · rintro ⟨⟨rfl,rfl⟩,-,hu⟩
            exact ⟨u,t,ih.mpr ⟨rfl,hu⟩,⟨rfl,rfl⟩,rfl⟩
        · rw [if_neg hn]
          constructor
          · intro h
            cases h
          · rintro ⟨h,hu⟩
            obtain ⟨rfl,-⟩ := List.cons.inj h
            exact absurd (hu _ List.mem_cons_self) hn

end Passes

section Reader

def code (mark : Bytes) (digit : UInt8 → Option ℕ) (base : ℕ) : Decoder := fun u =>
  let ds := u.drop mark.length
  if mark.isPrefixOf u ∧ ds ≠ [] ∧ ds.all (fun c => (digit c).isSome) then
    some (char (ofDigits digit base ds))
  else none

def named (name : Bytes) (c : UInt8) : Decoder := fun u => if u = name then some (.ok c) else none

def hexadecimal : Decoder := code (text "#x") hexDigit 16
def decimal : Decoder := code (text "#") decDigit 10

theorem code_eq_some {mark u : Bytes} {digit : UInt8 → Option ℕ} {base : ℕ} {c : Lua UInt8} :
    code mark digit base u = some c ↔ ∃ ds, u = mark ++ ds ∧ ds ≠ [] ∧
      (∀ b ∈ ds, (digit b).isSome = true) ∧ char (ofDigits digit base ds) = c := by
  rw [code]
  constructor
  · intro h
    rw [Option.ite_none_right_eq_some] at h
    obtain ⟨⟨hmark,hds,hall⟩,he⟩ := h
    obtain ⟨ds,rfl⟩ := List.isPrefixOf_iff_prefix.mp hmark
    rw [List.drop_left] at *
    exact ⟨ds,rfl,hds,List.all_eq_true.mp hall,Option.some.inj he⟩
  · rintro ⟨ds,rfl,hds,hall,rfl⟩
    rw [List.drop_left, if_pos ⟨List.isPrefixOf_iff_prefix.mpr ⟨ds,rfl⟩,hds,List.all_eq_true.mpr hall⟩]

theorem takeWhile_digits {digit : UInt8 → Option ℕ} {ds : Bytes} (h : ∀ b ∈ ds, (digit b).isSome = true)
    {e : UInt8} (he : (digit e).isSome = false) (t : Bytes) :
    (ds ++ e :: t).takeWhile (fun c => (digit c).isSome) = ds := by
  rw [List.takeWhile_append_of_pos h, List.takeWhile_cons_of_neg (by simp [he]), List.append_nil]

section Codes

variable {mark : Bytes} {digit : UInt8 → Option ℕ}

theorem charRefs_reference {ds : Bytes} (hds : ds ≠ []) (hall : ∀ b ∈ ds, (digit b).isSome = true)
    (hend : (digit (byte ';')).isSome = false) (base : ℕ) (t : Bytes) :
    charRefs (byte '&' :: mark) digit base (byte '&' :: (mark ++ ds ++ byte ';' :: t)) = (do
      let c ← char (ofDigits digit base ds)
      return c :: (← charRefs (byte '&' :: mark) digit base t)) := by
  have hpre : (byte '&' :: mark).isPrefixOf (byte '&' :: (mark ++ ds ++ byte ';' :: t)) = true :=
    List.isPrefixOf_iff_prefix.mpr ⟨ds ++ byte ';' :: t,by simp⟩
  have hbody : (byte '&' :: (mark ++ ds ++ byte ';' :: t)).drop (byte '&' :: mark).length =
      ds ++ byte ';' :: t := by simp
  rw [charRefs]
  simp only [hbody, takeWhile_digits hall hend, List.drop_left, List.head?_cons, List.tail_cons]
  rw [if_pos ⟨List.cons_ne_nil _ _,hpre,hds,trivial⟩]

theorem charRefs_other {b : UInt8} {bs : Bytes}
    (h : ∀ ds t, ds ≠ [] → (∀ b ∈ ds, (digit b).isSome = true) →
      b::bs ≠ byte '&' :: (mark ++ ds ++ byte ';' :: t)) (base : ℕ) :
    charRefs (byte '&' :: mark) digit base (b::bs) = (do
      return b :: (← charRefs (byte '&' :: mark) digit base bs)) := by
  rw [charRefs, if_neg]
  rintro ⟨-,hpre,hds,hafter⟩
  obtain ⟨rest,hrest⟩ := List.isPrefixOf_iff_prefix.mp hpre
  have hbody : (b::bs).drop (byte '&' :: mark).length = rest := by rw [← hrest, List.drop_left]
  rw [hbody] at hds hafter
  obtain ⟨ds,hds'⟩ : ∃ ds, ds = rest.takeWhile (fun c => (digit c).isSome) := ⟨_,rfl⟩
  have hsplit : ds ++ rest.drop ds.length = rest := by
    conv_rhs => rw [← List.take_append_drop ds.length rest]
    rw [hds', ← List.prefix_iff_eq_take.mp (List.takeWhile_prefix _)]
  rw [← hds'] at hds hafter
  cases hd : rest.drop ds.length with
  | nil => simp [hd] at hafter
  | cons e t =>
    rw [hd] at hafter hsplit
    obtain rfl := Option.some.inj hafter
    refine h ds t hds (fun b hb => ?_) ?_
    · rw [hds'] at hb
      exact List.mem_takeWhile_imp (p := fun c => (digit c).isSome) hb
    · rw [← hrest, ← hsplit]
      simp

/-- A pass over the codes, as the reader makes it. -/
theorem charRefs_eq (hmark : ∀ b ∈ mark, isNameByte b = true)
    (hdigit : ∀ b, (digit b).isSome = true → isNameByte b = true) (base : ℕ) (s : Bytes) :
    charRefs (byte '&' :: mark) digit base s = substitute (code mark digit base) s := by
  have hend : (digit (byte ';')).isSome = false := by
    rw [Bool.eq_false_iff]
    exact fun h => absurd (hdigit _ h) (by decide)
  induction hn : s.length using Nat.strong_induction_on generalizing s with
  | _ n ih =>
    cases s with
    | nil => simp [charRefs, substitute]
    | cons b s =>
      subst hn
      cases h : replaced some (code mark digit base) b s with
      | none =>
        rw [substitute_kept h, charRefs_other, ih s.length (Nat.lt_succ_self _) s rfl]
        rintro ds t hds hall he
        obtain ⟨rfl,rfl⟩ := List.cons.inj he
        have hnames : ∀ b ∈ mark ++ ds, isNameByte b = true := by
          intro b hb
          exact (List.mem_append.mp hb).elim (hmark b) (fun hb => hdigit b (hall b hb))
        rw [replaced, if_pos rfl, reference_eq_some.mpr ⟨rfl,hnames⟩, Option.bind_some,
          code_eq_some.mpr ⟨ds,rfl,hds,hall,rfl⟩] at h
        cases h
      | some p =>
        obtain ⟨c,t⟩ := p
        have hlength := replaced_length h
        rw [substitute_replaced h]
        rw [replaced, Option.ite_none_right_eq_some] at h
        obtain ⟨hb,h⟩ := h
        obtain ⟨⟨u,t'⟩,href,h⟩ := Option.bind_eq_some_iff.mp h
        obtain ⟨c',hcode,he⟩ := Option.map_eq_some_iff.mp h
        obtain ⟨rfl,rfl⟩ := Prod.mk.inj he
        obtain ⟨ds,rfl,hds,hall,rfl⟩ := code_eq_some.mp hcode
        obtain ⟨rfl,-⟩ := reference_eq_some.mp href
        obtain rfl := Option.some.inj hb
        rw [charRefs_reference hds hall hend,
          ih _ (Nat.lt_succ_of_lt hlength) _ rfl]

end Codes

/-- A pass over a name, as the reader makes it. -/
theorem replaceAll_eq {name : Bytes} (hname : ∀ b ∈ name, isNameByte b = true) (c : UInt8) (s : Bytes) :
    substitute (named name c) s = .ok (replaceAll (byte '&' :: name ++ [byte ';']) [c] s) := by
  induction hn : s.length using Nat.strong_induction_on generalizing s with
  | _ n ih =>
    cases s with
    | nil => simp [replaceAll, substitute]
    | cons b s =>
      subst hn
      rw [replaceAll]
      split
      · rename_i h
        obtain ⟨t,ht⟩ := List.isPrefixOf_iff_prefix.mp h.2
        have hs : b::s = byte '&' :: (name ++ byte ';' :: t) := by rw [← ht]; simp
        obtain ⟨rfl,rfl⟩ := List.cons.inj hs
        have hreplaced : replaced some (named name c) (byte '&') (name ++ byte ';' :: t) = some (.ok c,t) := by
          rw [replaced, if_pos rfl, reference_eq_some.mpr ⟨rfl,hname⟩, Option.bind_some, named, if_pos rfl]
          rfl
        have hdrop : (name ++ byte ';' :: t).drop ((byte '&' :: name ++ [byte ';']).length-1) = t := by simp
        rw [substitute_replaced hreplaced, hdrop,
          ih t.length ((replaced_length hreplaced).trans (Nat.lt_succ_self _)) t rfl]
        rfl
      · rename_i h
        have hkept : replaced some (named name c) b s = none := by
          rw [Option.eq_none_iff_forall_ne_some]
          rintro ⟨c',t⟩ hr
          rw [replaced, Option.ite_none_right_eq_some] at hr
          obtain ⟨hb,hr⟩ := hr
          obtain ⟨⟨u,t'⟩,href,hr⟩ := Option.bind_eq_some_iff.mp hr
          obtain ⟨_,hnamed,-⟩ := Option.map_eq_some_iff.mp hr
          rw [named, Option.ite_none_right_eq_some] at hnamed
          obtain ⟨rfl,-⟩ := hnamed
          obtain ⟨rfl,-⟩ := reference_eq_some.mp href
          obtain rfl := Option.some.inj hb
          exact h ⟨List.cons_ne_nil _ _,List.isPrefixOf_iff_prefix.mpr ⟨t',by simp⟩⟩
        rw [substitute_kept hkept, ih s.length (Nat.lt_succ_self _) s rfl]
        rfl

end Reader

section Letters

abbrev Special := {c : UInt8 // (entity c).isSome = true}

def Special.name (c : Special) : Bytes := (entity c.val).get c.property

inductive Letter where
  | raw (b : UInt8)
  | coded (c : Special)

namespace Letter

def value : Letter → UInt8
  | raw b => b
  | coded c => c.val

def view : Letter → Option UInt8
  | raw b => some b
  | coded _ => none

def written : Letter → Bytes
  | raw b => [b]
  | coded c => byte '&' :: c.name ++ [byte ';']

end Letter

open Letter

def render (X : List Letter) : Bytes := X.flatMap written

@[simp] theorem render_nil : render [] = [] := rfl

@[simp] theorem render_cons (a : Letter) (X : List Letter) : render (a::X) = a.written ++ render X := rfl

theorem forall_byte {p : UInt8 → Prop} (h : ∀ n : Fin 256, p (UInt8.ofNat n)) (c : UInt8) : p c := by
  have hc := h ⟨c.toNat,c.toNat_lt⟩
  rwa [UInt8.ofNat_toNat] at hc

/-- What names a byte, and what a byte with a name is not. -/
theorem entity_bytes (c : UInt8) :
    (entity c).all (fun u => u.all isNameByte && !isNameByte c && decide (c ≠ byte ';')) = true := by
  revert c
  exact forall_byte (by decide +kernel)

theorem name_entity (c : Special) : entity c.val = some c.name := (Option.some_get _).symm

theorem name_bytes (c : Special) :
    (∀ b ∈ c.name, isNameByte b = true) ∧ isNameByte c.val = false ∧ c.val ≠ byte ';' := by
  have h := entity_bytes c.val
  simp only [name_entity, Option.all_some, Bool.and_eq_true, List.all_eq_true, Bool.not_eq_true',
    decide_eq_true_eq] at h
  exact ⟨h.1.1,h.1.2,h.2⟩

theorem ampersand_not_name (c : Special) : byte '&' ∉ c.name ++ [byte ';'] := by
  intro h
  rcases List.mem_append.mp h with h | h
  · exact absurd ((name_bytes c).1 _ h) (by decide)
  · exact absurd (List.mem_singleton.mp h) (by decide)

/-- A reference goes over what is written just as over the letters. -/
theorem reference_render (X : List Letter) :
    reference some (render X) = (reference view X).map (fun p => (p.1,render p.2)) := by
  induction X with
  | nil => rfl
  | cons a X ih =>
    cases a with
    | coded c => rfl
    | raw b =>
      simp only [render_cons, written, List.cons_append, List.nil_append, reference, view, ih]
      split
      · rfl
      · split
        · simp only [Option.map_map]
          rfl
        · rfl

theorem reference_coded (c : Special) (s : Bytes) :
    reference some (c.name ++ byte ';' :: s) = some (c.name,s) :=
  reference_eq_some.mpr ⟨rfl,(name_bytes c).1⟩

def Faithful (dec : Decoder) : Prop := ∀ c : Special, ∀ r, dec c.name = some r → r = .ok c.val

def settle (dec : Decoder) : Letter → Letter
  | raw b => raw b
  | coded c => if (dec c.name).isSome then raw c.val else coded c

@[simp] theorem settle_value (dec : Decoder) (a : Letter) : (settle dec a).value = a.value := by
  cases a with
  | raw b => rfl
  | coded c =>
    rw [settle]
    split <;> rfl

/-- A run of bytes that stand for themselves is a reference of the kind. -/
def live (dec : Decoder) : List Letter → Bool
  | [] => false
  | a::X => (replaced view dec a X).isSome || live dec X

section Pass

variable {dec : Decoder}

theorem replaced_raw (b : UInt8) (X : List Letter) :
    replaced some dec b (render X) = (replaced view dec (raw b) X).map (fun p => (p.1,render p.2)) := by
  rw [replaced, replaced, reference_render]
  change (if some b = some (byte '&') then _ else _) = (if some b = some (byte '&') then _ else _ : Option _).map _
  split
  · cases reference view X with
    | none => rfl
    | some p => cases h : dec p.1 <;> simp [h]
  · rfl

theorem substitute_coded (hdec : Faithful dec) (c : Special) (X : List Letter) :
    substitute dec (render (coded c :: X)) = (do
      return (settle dec (coded c)).written ++ (← substitute dec (render X))) := by
  have hrender : render (coded c :: X) = byte '&' :: (c.name ++ byte ';' :: render X) := by
    simp [written]
  have hreplaced : replaced some dec (byte '&') (c.name ++ byte ';' :: render X) =
      (dec c.name).map (fun r => (r,render X)) := by
    rw [replaced, if_pos rfl, reference_coded, Option.bind_some]
  rw [hrender, settle]
  cases h : dec c.name with
  | none =>
    rw [h] at hreplaced
    have hcopied : c.name ++ byte ';' :: render X = (c.name ++ [byte ';']) ++ render X := by simp
    rw [substitute_kept hreplaced, hcopied, substitute_append dec (ampersand_not_name c)]
    cases substitute dec (render X) <;> rfl
  | some r =>
    rw [h] at hreplaced
    rw [substitute_replaced hreplaced, hdec c r h]
    rfl

theorem substitute_raw_kept {b : UInt8} {X : List Letter} (h : replaced view dec (raw b) X = none) :
    substitute dec (render (raw b :: X)) = (do return b :: (← substitute dec (render X))) := by
  have hreplaced := @replaced_raw dec b X
  rw [h] at hreplaced
  exact substitute_kept hreplaced

theorem substitute_raw_replaced {b : UInt8} {X Y : List Letter} {c : Lua UInt8}
    (h : replaced view dec (raw b) X = some (c,Y)) :
    substitute dec (render (raw b :: X)) = (do
      let c ← c
      return c :: (← substitute dec (render Y))) := by
  have hreplaced := @replaced_raw dec b X
  rw [h] at hreplaced
  exact substitute_replaced hreplaced

/-- Without such a run, a pass replaces what EncodeString wrote by references of the kind. -/
theorem substitute_dead (hdec : Faithful dec) (X : List Letter) (h : live dec X = false) :
    substitute dec (render X) = .ok (render (X.map (settle dec))) := by
  induction X with
  | nil => simp [substitute]
  | cons a X ih =>
    obtain ⟨hfirst,hrest⟩ := Bool.or_eq_false_iff.mp h
    cases a with
    | coded c =>
      rw [substitute_coded hdec, ih hrest]
      rfl
    | raw b =>
      rw [substitute_raw_kept (by simpa using hfirst), ih hrest]
      rfl

theorem bind_eq_ok {α β : Type} {x : Lua α} {f : α → Lua β} {v : β} :
    x >>= f = .ok v ↔ ∃ a, x = .ok a ∧ f a = .ok v := by
  cases x with
  | ok a => exact ⟨fun h => ⟨a,rfl,h⟩,fun ⟨_,h,hf⟩ => Except.ok.inj h ▸ hf⟩
  | error _ => exact ⟨fun h => (by cases h),fun ⟨_,h,_⟩ => (by cases h)⟩

structure Passed (dec : Decoder) (X Y : List Letter) : Prop where
  settled : ∀ c, coded c ∈ Y → coded c ∈ X ∧ dec c.name = none
  shorter : live dec X = true ∧ Y.length < X.length ∨ live dec X = false ∧ Y = X.map (settle dec)

theorem Passed.length_le {X Y : List Letter} (h : Passed dec X Y) : Y.length ≤ X.length := by
  rcases h.shorter with ⟨-,h⟩ | ⟨-,rfl⟩
  · exact h.le
  · rw [List.length_map]

/-- A letter that is kept or settled. -/
theorem Passed.cons {X Y : List Letter} (h : Passed dec X Y) {a : Letter}
    (ha : replaced view dec a X = none) : Passed dec (a::X) (settle dec a :: Y) := by
  constructor
  · intro c hc
    rcases List.mem_cons.mp hc with he | hc
    · cases a with
      | raw b => cases he
      | coded c' =>
        rw [settle] at he
        split at he
        · cases he
        · rename_i hnone
          cases he
          exact ⟨List.mem_cons_self,by simpa using hnone⟩
    · exact ⟨List.mem_cons_of_mem _ (h.settled c hc).1,(h.settled c hc).2⟩
  · rcases h.shorter with ⟨hlive,hlt⟩ | ⟨hlive,rfl⟩
    · exact .inl ⟨by rw [live, ha, hlive]; rfl,Nat.succ_lt_succ hlt⟩
    · exact .inr ⟨by rw [live, ha, hlive]; rfl,rfl⟩

/-- A reference that is replaced. -/
theorem Passed.replace {X Y Z : List Letter} (h : Passed dec Z Y) {a : Letter} {c : UInt8} {r : Lua UInt8}
    (ha : replaced view dec a X = some (r,Z)) : Passed dec (a::X) (raw c :: Y) := by
  obtain ⟨hsuffix,hlength⟩ := replaced_suffix ha
  constructor
  · intro c' hc
    rcases List.mem_cons.mp hc with he | hc
    · cases he
    · obtain ⟨hmem,hnone⟩ := h.settled c' hc
      exact ⟨List.mem_cons_of_mem _ (hsuffix.mem hmem),hnone⟩
  · exact .inl ⟨by rw [live, ha]; rfl,Nat.succ_lt_succ (h.length_le.trans_lt hlength)⟩

/-- With such a run, a pass leaves fewer letters. -/
theorem substitute_passed (hdec : Faithful dec) (X : List Letter) {v : Bytes}
    (h : substitute dec (render X) = .ok v) : ∃ Y, v = render Y ∧ Passed dec X Y := by
  induction hn : X.length using Nat.strong_induction_on generalizing X v with
  | _ n ih =>
    subst hn
    cases X with
    | nil =>
      have hv : substitute dec (render []) = .ok [] := by simp [substitute]
      rw [hv] at h
      cases h
      exact ⟨[],rfl,fun c hc => absurd hc List.not_mem_nil,.inr ⟨rfl,rfl⟩⟩
    | cons a X =>
      have hX : X.length < (a::X).length := Nat.lt_succ_self _
      cases a with
      | coded c =>
        rw [substitute_coded hdec] at h
        obtain ⟨v',hv,he⟩ := bind_eq_ok.mp h
        obtain ⟨Y,rfl,hY⟩ := ih _ hX X hv rfl
        cases he
        exact ⟨settle dec (coded c) :: Y,rfl,hY.cons rfl⟩
      | raw b =>
        cases hr : replaced view dec (raw b) X with
        | none =>
          rw [substitute_raw_kept hr] at h
          obtain ⟨v',hv,he⟩ := bind_eq_ok.mp h
          obtain ⟨Y,rfl,hY⟩ := ih _ hX X hv rfl
          cases he
          exact ⟨raw b :: Y,rfl,hY.cons hr⟩
        | some p =>
          obtain ⟨r,Z⟩ := p
          rw [substitute_raw_replaced hr] at h
          obtain ⟨c,rfl,hread⟩ := bind_eq_ok.mp h
          obtain ⟨v',hv,he⟩ := bind_eq_ok.mp hread
          obtain ⟨Y,rfl,hY⟩ := ih _ ((replaced_length hr).trans hX) Z hv rfl
          cases he
          exact ⟨raw c :: Y,rfl,hY.replace hr⟩

end Pass

section Kinds

def kinds : List Decoder :=
  [hexadecimal,decimal,named (text "quot") (byte '"'),named (text "apos") (byte '\''),
   named (text "gt") (byte '>'),named (text "lt") (byte '<'),named (text "amp") (byte '&')]

def substituteAll (decs : List Decoder) (s : Bytes) : Lua Bytes := decs.foldlM (fun s dec => substitute dec s) s

theorem fromXmlString_eq (s : Bytes) : fromXmlString s = substituteAll kinds s := by
  have hhex : ∀ s, charRefs (text "&#x") hexDigit 16 s = substitute hexadecimal s :=
    charRefs_eq (List.all_eq_true.mp (by decide)) (forall_byte (by decide +kernel)) 16
  have hdec : ∀ s, charRefs (text "&#") decDigit 10 s = substitute decimal s :=
    charRefs_eq (List.all_eq_true.mp (by decide)) (forall_byte (by decide +kernel)) 10
  have hquot : ∀ s, substitute (named (text "quot") (byte '"')) s =
      .ok (replaceAll (text "&quot;") (text "\"") s) := replaceAll_eq (List.all_eq_true.mp (by decide)) _
  have hapos : ∀ s, substitute (named (text "apos") (byte '\'')) s =
      .ok (replaceAll (text "&apos;") (text "'") s) := replaceAll_eq (List.all_eq_true.mp (by decide)) _
  have hgt : ∀ s, substitute (named (text "gt") (byte '>')) s =
      .ok (replaceAll (text "&gt;") (text ">") s) := replaceAll_eq (List.all_eq_true.mp (by decide)) _
  have hlt : ∀ s, substitute (named (text "lt") (byte '<')) s =
      .ok (replaceAll (text "&lt;") (text "<") s) := replaceAll_eq (List.all_eq_true.mp (by decide)) _
  have hamp : ∀ s, substitute (named (text "amp") (byte '&')) s =
      .ok (replaceAll (text "&amp;") (text "&") s) := replaceAll_eq (List.all_eq_true.mp (by decide)) _
  rw [fromXmlString, hhex, substituteAll, kinds, List.foldlM_cons]
  cases substitute hexadecimal s with
  | error _ => rfl
  | ok v =>
    change charRefs (text "&#") decDigit 10 v >>= _ = substitute decimal v >>= _
    rw [hdec]
    cases substitute decimal v with
    | error _ => rfl
    | ok w =>
      simp only [List.foldlM_cons, List.foldlM_nil, bind, Except.bind, hquot, hapos, hgt, hlt, hamp]

theorem kinds_read (c : UInt8) :
    (entity c).all (fun u => kinds.all (fun dec => (dec u).all (· = .ok c)) &&
      kinds.any (fun dec => (dec u).isSome)) = true := by
  revert c
  exact forall_byte (by decide +kernel)

theorem kinds_faithful : ∀ dec ∈ kinds, Faithful dec := by
  intro dec hdec c r hr
  have h := kinds_read c.val
  rw [name_entity, Option.all_some, Bool.and_eq_true] at h
  have hall := List.all_eq_true.mp h.1 dec hdec
  rw [hr] at hall
  simpa using hall

theorem kinds_complete (c : Special) : ∃ dec ∈ kinds, (dec c.name).isSome = true := by
  have h := kinds_read c.val
  rw [name_entity, Option.all_some, Bool.and_eq_true] at h
  exact List.any_eq_true.mp h.2

/-- The `&` comes back in the last pass, so that no pass reads it again. -/
theorem ampersand_last : kinds.Pairwise (fun dec _ => dec (text "amp") = none) := by decide

/-- What a pass settles is no part of a later reference. -/
theorem reference_settle (dec : Decoder) (X : List Letter) :
    reference view (X.map (settle dec)) = (reference view X).map (fun p => (p.1,p.2.map (settle dec))) := by
  induction X with
  | nil => rfl
  | cons a X ih =>
    cases a with
    | raw b =>
      simp only [List.map_cons, settle, reference, view, ih]
      split
      · rfl
      · split
        · simp only [Option.map_map]
          rfl
        · rfl
    | coded c =>
      obtain ⟨-,hname,hsemicolon⟩ := name_bytes c
      rw [List.map_cons, settle]
      split
      · simp only [reference, view, if_neg hsemicolon, hname, Bool.false_eq_true, if_false, Option.map_none]
      · rfl

theorem live_settle {dec' : Decoder} (h : dec' (text "amp") = none) (dec : Decoder) (X : List Letter) :
    live dec (X.map (settle dec')) = live dec X := by
  induction X with
  | nil => rfl
  | cons a X ih =>
    rw [List.map_cons, live, live, ih]
    congr 1
    rw [replaced, replaced, reference_settle]
    have hview : (settle dec' a).view = some (byte '&') ↔ a.view = some (byte '&') := by
      cases a with
      | raw b => rfl
      | coded c =>
        rw [settle]
        split
        · rename_i hc
          constructor
          · intro he
            have hamp : c.name = text "amp" := by
              have hentity := name_entity c
              rw [Option.some.inj he] at hentity
              exact (Option.some.inj hentity).symm
            rw [hamp, h] at hc
            cases hc
          · intro he
            cases he
        · rfl
    by_cases ha : a.view = some (byte '&')
    · rw [if_pos ha, if_pos (hview.mpr ha)]
      cases reference view X with
      | none => rfl
      | some p => cases hd : dec p.1 <;> simp [hd]
    · rw [if_neg ha, if_neg (fun he => ha (hview.mp he))]

def Live (X : List Letter) : Prop := ∃ dec ∈ kinds, live dec X = true

instance (X : List Letter) : Decidable (Live X) := inferInstanceAs (Decidable (∃ dec ∈ kinds, live dec X = true))

theorem substituteAll_dead (decs : List Decoder) (hfaithful : ∀ dec ∈ decs, Faithful dec)
    (hamp : decs.Pairwise (fun dec _ => dec (text "amp") = none)) (X : List Letter)
    (h : ∀ dec ∈ decs, live dec X = false) : ∃ v, substituteAll decs (render X) = .ok v := by
  induction decs generalizing X with
  | nil => exact ⟨_,rfl⟩
  | cons dec decs ih =>
    obtain ⟨hlast,hamp⟩ := List.pairwise_cons.mp hamp
    obtain ⟨hfirst,hrest⟩ := List.forall_mem_cons.mp h
    obtain ⟨hdec,hfaithful⟩ := List.forall_mem_cons.mp hfaithful
    rw [substituteAll, List.foldlM_cons, substitute_dead hdec X hfirst]
    refine ih hfaithful hamp (X.map (settle dec)) (fun dec' hmem => ?_)
    rw [live_settle (hlast dec' hmem)]
    exact hrest dec' hmem

theorem substituteAll_letters (decs : List Decoder) (hfaithful : ∀ dec ∈ decs, Faithful dec)
    (hamp : decs.Pairwise (fun dec _ => dec (text "amp") = none)) (X : List Letter) {v : Bytes}
    (h : substituteAll decs (render X) = .ok v) :
    ∃ Y, v = render Y ∧ (∀ c, coded c ∈ Y → coded c ∈ X ∧ ∀ dec ∈ decs, dec c.name = none) ∧
      ((∃ dec ∈ decs, live dec X = true) ∧ Y.length < X.length ∨
        (∀ dec ∈ decs, live dec X = false) ∧ Y.map value = X.map value) := by
  induction decs generalizing X with
  | nil =>
    cases h
    exact ⟨X,rfl,fun c hc => ⟨hc,fun _ hd => absurd hd List.not_mem_nil⟩,
      .inr ⟨fun _ hd => absurd hd List.not_mem_nil,rfl⟩⟩
  | cons dec decs ih =>
    obtain ⟨hlast,hamp⟩ := List.pairwise_cons.mp hamp
    obtain ⟨hdec,hfaithful⟩ := List.forall_mem_cons.mp hfaithful
    rw [substituteAll, List.foldlM_cons] at h
    obtain ⟨v',hv,hrest⟩ := bind_eq_ok.mp h
    obtain ⟨Y,rfl,hpassed⟩ := substitute_passed hdec X hv
    obtain ⟨Z,rfl,hsettled,hshorter⟩ := ih hfaithful hamp Y hrest
    refine ⟨Z,rfl,fun c hc => ?_,?_⟩
    · obtain ⟨hmem,hnone⟩ := hsettled c hc
      obtain ⟨hmem,hfirst⟩ := hpassed.settled c hmem
      exact ⟨hmem,List.forall_mem_cons.mpr ⟨hfirst,hnone⟩⟩
    · rcases hpassed.shorter with ⟨hlive,hlt⟩ | ⟨hfirst,rfl⟩
      · refine .inl ⟨⟨dec,List.mem_cons_self,hlive⟩,?_⟩
        rcases hshorter with ⟨-,hlt'⟩ | ⟨-,hsame⟩
        · exact hlt'.trans hlt
        · refine lt_of_eq_of_lt ?_ hlt
          simpa using congrArg List.length hsame
      · have hkept (dec' : Decoder) (hmem : dec' ∈ decs) := live_settle (hlast dec' hmem) dec' X
        rcases hshorter with ⟨⟨dec',hmem,hlive⟩,hlt⟩ | ⟨hdead,hsame⟩
        · rw [hkept dec' hmem] at hlive
          rw [List.length_map] at hlt
          exact .inl ⟨⟨dec',List.mem_cons_of_mem _ hmem,hlive⟩,hlt⟩
        · refine .inr ⟨List.forall_mem_cons.mpr ⟨hfirst,fun dec' hmem => ?_⟩,?_⟩
          · rw [← hkept dec' hmem]
            exact hdead dec' hmem
          · rw [hsame, List.map_map]
            exact List.map_congr_left (fun a _ => settle_value dec a)

theorem render_raw {X : List Letter} (h : ∀ c, coded c ∉ X) : render X = X.map value := by
  induction X with
  | nil => rfl
  | cons a X ih =>
    cases a with
    | coded c => exact absurd List.mem_cons_self (h c)
    | raw b =>
      rw [render_cons, ih (fun c hc => h c (List.mem_cons_of_mem _ hc))]
      rfl

/-- What FromXmlString makes of a written text. -/
theorem fromXmlString_letters (X : List Letter) {v : Bytes} (h : fromXmlString (render X) = .ok v) :
    Live X ∧ v.length < X.length ∨ ¬ Live X ∧ v = X.map value := by
  rw [fromXmlString_eq] at h
  obtain ⟨Y,rfl,hsettled,hshorter⟩ := substituteAll_letters kinds kinds_faithful ampersand_last X h
  have hraw : ∀ c, coded c ∉ Y := by
    intro c hc
    obtain ⟨dec,hdec,hsome⟩ := kinds_complete c
    rw [(hsettled c hc).2 dec hdec] at hsome
    cases hsome
  rw [render_raw hraw]
  rcases hshorter with ⟨hlive,hlt⟩ | ⟨hdead,hsame⟩
  · exact .inl ⟨hlive,by rwa [List.length_map]⟩
  · refine .inr ⟨?_,hsame⟩
    rintro ⟨dec,hdec,hlive⟩
    rw [hdead dec hdec] at hlive
    cases hlive

theorem fromXmlString_render {X : List Letter} (h : ¬ Live X) : fromXmlString (render X) = .ok (X.map value) := by
  have hdead : ∀ dec ∈ kinds, live dec X = false :=
    fun dec hdec => Bool.eq_false_iff.mpr (fun hlive => h ⟨dec,hdec,hlive⟩)
  obtain ⟨v,hv⟩ := substituteAll_dead kinds kinds_faithful ampersand_last X hdead
  rw [← fromXmlString_eq] at hv
  rcases fromXmlString_letters X hv with ⟨hlive,-⟩ | ⟨-,rfl⟩
  · exact absurd hlive h
  · exact hv

end Kinds

section Encoding

def letterOf (c : UInt8) : Letter := if h : (entity c).isSome = true then coded ⟨c,h⟩ else raw c

def lettersFrom (unchanged : ℕ) : Bytes → List Letter
  | [] => []
  | c::cs =>
    let unchanged := if unchanged = 0 then (passed (c::cs)).length else unchanged
    if unchanged = 0 then letterOf c :: lettersFrom 0 cs else raw c :: lettersFrom (unchanged-1) cs

def letters (str : Bytes) : List Letter := lettersFrom 0 str

theorem letterOf_value (c : UInt8) : (letterOf c).value = c := by
  rw [letterOf]
  split <;> rfl

theorem letterOf_written (c : UInt8) : (letterOf c).written = encodeByte c := by
  rw [letterOf, encodeByte]
  split
  · rename_i h
    rw [name_entity ⟨c,h⟩]
    rfl
  · rename_i h
    rw [Option.not_isSome_iff_eq_none.mp h]
    rfl

theorem encodeFrom_eq (unchanged : ℕ) (str : Bytes) :
    encodeFrom unchanged str = render (lettersFrom unchanged str) := by
  induction str generalizing unchanged with
  | nil => rfl
  | cons c cs ih =>
    rw [encodeFrom, lettersFrom]
    simp only [ih]
    generalize (if unchanged = 0 then (passed (c::cs)).length else unchanged) = n
    split
    · rw [render_cons, letterOf_written]
    · rfl

theorem encodeString_eq (str : Bytes) : encodeString str = render (letters str) := encodeFrom_eq 0 str

theorem lettersFrom_value (unchanged : ℕ) (str : Bytes) : (lettersFrom unchanged str).map value = str := by
  induction str generalizing unchanged with
  | nil => rfl
  | cons c cs ih =>
    rw [lettersFrom]
    generalize (if unchanged = 0 then (passed (c::cs)).length else unchanged) = n
    split
    · rw [List.map_cons, letterOf_value, ih]
    · rw [List.map_cons, ih]
      rfl

@[simp] theorem letters_value (str : Bytes) : (letters str).map value = str := lettersFrom_value 0 str

@[simp] theorem letters_length (str : Bytes) : (letters str).length = str.length := by
  conv_rhs => rw [← letters_value str, List.length_map]

/-- The written text is read as the text that was written exactly if nothing in it is live. -/
theorem fromXmlString_encodeString (str : Bytes) :
    fromXmlString (encodeString str) = .ok str ↔ ¬ Live (letters str) := by
  rw [encodeString_eq]
  constructor
  · intro h hlive
    rcases fromXmlString_letters _ h with ⟨-,hlt⟩ | ⟨hdead,-⟩
    · simp at hlt
    · exact hdead hlive
  · intro h
    rw [fromXmlString_render h, letters_value]

end Encoding

end Letters

end Vecoda.TextReferences
