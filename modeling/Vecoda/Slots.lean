import Mathlib.Data.List.Forall2
import Mathlib.Logic.Function.Basic

/-!
# Slots with shadowing

An ordered list of named slots, of which the last of a name hides the others.
Slots whose name is not shown cannot be named at all. A table holds one value
for each name, so that slots filled from one agree with their innermost.
-/

set_option autoImplicit false

namespace Vecoda.Slots

variable {ν α β : Type} [DecidableEq ν] (shown : ν → Bool)

def find (n : ν) : List (ν × α) → Option α
  | [] => none
  | p::rest => (find n rest).or (if p.1 = n ∧ shown p.1 = true then some p.2 else none)

def assign (n : ν) (v : α) : List (ν × α) → List (ν × α)
  | [] => []
  | p::rest =>
    if (find shown n rest).isSome then p :: assign n v rest
    else if p.1 = n ∧ shown p.1 = true then (n,v)::rest else p::rest

def refill (table : ν → α) (slots : List (ν × α)) : List (ν × α) :=
  slots.map (fun p => if shown p.1 then (p.1,table p.1) else p)

def Settled (slots : List (ν × α)) : Prop :=
  ∀ p ∈ slots, shown p.1 = true → find shown p.1 slots = some p.2

def Kept (p q : ν × α) : Prop := p.1 = q.1 ∧ (shown p.1 = false → p = q)

variable {shown}

theorem find_mem {n : ν} {slots : List (ν × α)} {v : α} (hv : (n,v) ∈ slots)
    (hn : shown n = true) : (find shown n slots).isSome = true := by
  induction slots with
  | nil => cases hv
  | cons p rest ih =>
    rw [find, Option.isSome_or]
    rcases List.mem_cons.mp hv with rfl | hv
    · simp [hn]
    · simp [ih hv]

theorem find_assign (m n : ν) (v : α) (slots : List (ν × α)) :
    find shown m (assign shown n v slots) =
      if m = n ∧ (find shown n slots).isSome = true then some v else find shown m slots := by
  induction slots with
  | nil => simp [assign, find]
  | cons p rest ih =>
    rw [assign]
    by_cases hrest : (find shown n rest).isSome = true
    · rw [if_pos hrest, find, ih]
      by_cases hm : m = n
      · simp [hm, hrest, find]
      · simp [hm, find]
    · have hnone : find shown n rest = none := by simpa using hrest
      rw [if_neg hrest]
      by_cases hp : p.1 = n ∧ shown p.1 = true
      · obtain ⟨rfl,hshown⟩ := hp
        by_cases hm : m = p.1
        · subst hm
          simp [find, hnone, hshown]
        · simp [find, hshown, hm, Ne.symm hm]
      · simp [find, hnone, hp]

omit [DecidableEq ν] in
theorem kept_refl (slots : List (ν × α)) : List.Forall₂ (Kept shown) slots slots :=
  List.forall₂_same.mpr (fun _ _ => ⟨rfl,fun _ => rfl⟩)

theorem kept_assign (n : ν) (v : α) {slots slots' : List (ν × α)}
    (h : List.Forall₂ (Kept shown) slots slots') :
    List.Forall₂ (Kept shown) slots (assign shown n v slots') := by
  induction h with
  | nil => exact .nil
  | @cons p q rest rest' hpq hrest ih =>
    rw [assign]
    split
    · exact .cons hpq ih
    · split
      · rename_i hn
        obtain ⟨hq,hshown⟩ := hn
        refine .cons ⟨hpq.1.trans hq,fun hhidden => ?_⟩ hrest
        rw [hpq.1, hshown] at hhidden
        cases hhidden
      · exact .cons hpq hrest

/-- Filling a table from the front leaves the innermost value of each name. -/
theorem foldl_find (mark : α → β) (slots : List (ν × α)) (table : ν → β) (n : ν) :
    slots.foldl (fun t p => if shown p.1 then Function.update t p.1 (mark p.2) else t) table n =
      ((find shown n slots).map mark).getD (table n) := by
  induction slots generalizing table with
  | nil => rfl
  | cons p rest ih =>
    rw [List.foldl_cons, ih, find]
    cases find shown n rest with
    | some v => rfl
    | none =>
      by_cases hshown : shown p.1 = true
      · by_cases hn : p.1 = n
        · subst hn
          simp [hshown]
        · simp [hshown, hn, Function.update_of_ne (Ne.symm hn)]
      · simp [hshown]

omit [DecidableEq ν] in
theorem refill_iff (table : ν → α) {slots slots' : List (ν × α)}
    (h : List.Forall₂ (Kept shown) slots slots') :
    refill shown table slots = slots' ↔ ∀ p ∈ slots', shown p.1 = true → table p.1 = p.2 := by
  induction h with
  | nil => simp [refill]
  | @cons p q rest rest' hpq hrest ih =>
    obtain ⟨hname,hhidden⟩ := hpq
    have hhead : (if shown p.1 then (p.1,table p.1) else p) = q ↔
        (shown q.1 = true → table q.1 = q.2) := by
      cases hshown : shown p.1 with
      | true => simp [hname, hname ▸ hshown, Prod.ext_iff]
      | false => simp [← hhidden hshown, hshown]
    rw [List.forall_mem_cons, ← ih, ← hhead, refill, List.map_cons, List.cons.injEq]
    rfl

/-- Slots filled from the table of their innermost values come out as they
are exactly when no hidden slot differs. -/
theorem refill_settled {table : ν → α} {slots slots' : List (ν × α)}
    (h : List.Forall₂ (Kept shown) slots slots')
    (ht : ∀ n v, find shown n slots' = some v → table n = v) :
    refill shown table slots = slots' ↔ Settled shown slots' := by
  rw [refill_iff table h]
  refine forall₂_congr (fun p hp => forall_congr' (fun hshown => ?_))
  obtain ⟨v,hv⟩ := Option.isSome_iff_exists.mp (find_mem hp hshown)
  rw [ht _ _ hv, hv, Option.some.injEq]

end Vecoda.Slots
