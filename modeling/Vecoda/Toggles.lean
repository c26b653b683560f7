import Mathlib.Data.List.Dedup
import Mathlib.Data.List.Perm.Basic
import Mathlib.Data.List.Nodup

/-!
# Sets kept by flips

A list without duplicates that is changed only by flipping the membership of
one element holds an element exactly when it was flipped an odd number of
times. `repeated` lists the occurrences of a list that `dedup` drops.
-/

set_option autoImplicit false

namespace Vecoda.Toggles

variable {α : Type} [DecidableEq α]

def toggle (xs : List α) (a : α) : List α := if a ∈ xs then xs.erase a else xs ++ [a]

theorem nodup_toggle (xs : List α) (a : α) (h : xs.Nodup) : (toggle xs a).Nodup := by
  unfold toggle
  split
  · exact h.erase a
  · rename_i ha
    exact List.nodup_append.mpr ⟨h,List.nodup_singleton a,by
      rintro x hx y hy rfl
      exact ha (List.mem_singleton.mp hy ▸ hx)⟩

theorem mem_toggle (xs : List α) (a b : α) (h : xs.Nodup) :
    b ∈ toggle xs a ↔ if b = a then b ∉ xs else b ∈ xs := by
  unfold toggle
  split
  · rename_i ha
    rw [h.mem_erase_iff]
    split <;> simp_all
  · rename_i ha
    split <;> simp_all

theorem nodup_toggles (ts xs : List α) (h : xs.Nodup) : (ts.foldl toggle xs).Nodup := by
  induction ts generalizing xs with
  | nil => exact h
  | cons t ts ih => exact ih _ (nodup_toggle xs t h)

/-- Membership after any number of flips is decided by their parity. -/
theorem mem_toggles (ts xs : List α) (b : α) (h : xs.Nodup) :
    b ∈ ts.foldl toggle xs ↔ (ts.count b + if b ∈ xs then 1 else 0) % 2 = 1 := by
  induction ts generalizing xs with
  | nil => by_cases hb : b ∈ xs <;> simp [hb]
  | cons t ts ih =>
    rw [List.foldl_cons, ih _ (nodup_toggle xs t h)]
    by_cases hbt : b = t
    · subst hbt
      rw [List.count_cons_self]
      simp only [mem_toggle xs b b h, if_true]
      by_cases hb : b ∈ xs
      · simp only [hb, not_true, if_true, if_false]
        omega
      · simp only [hb, not_false_iff, if_true, if_false, Nat.add_zero]
    · rw [List.count_cons_of_ne (Ne.symm hbt)]
      simp only [mem_toggle xs t b h, hbt, if_false]

def repeated : List α → List α
  | [] => []
  | a::as => if a ∈ as then a :: repeated as else repeated as

theorem perm_repeated_dedup (xs : List α) : xs.Perm (repeated xs ++ xs.dedup) := by
  induction xs with
  | nil => exact .nil
  | cons a as ih =>
    rw [repeated]
    split
    · rename_i ha
      rw [List.dedup_cons_of_mem ha]
      exact ih.cons a
    · rename_i ha
      rw [List.dedup_cons_of_notMem ha]
      exact (ih.cons a).trans List.perm_middle.symm

theorem count_map_filter {γ β : Type} [DecidableEq β] (f : γ → β) (b : β) (p : γ → Bool)
    (xs : List γ) :
    (xs.map f).count b =
      ((xs.filter p).map f).count b + ((xs.filter (fun a => !p a)).map f).count b := by
  induction xs with
  | nil => rfl
  | cons a as ih => cases hp : p a <;> simp [List.count_cons, hp, ih] <;> omega

theorem perm_filter_swap (xs ys : List α) (hx : xs.Nodup) (hy : ys.Nodup) :
    (xs.filter (fun a => !(decide (a ∉ ys)))).Perm (ys.filter (fun a => !(decide (a ∉ xs)))) := by
  apply (List.perm_ext_iff_of_nodup (hx.filter _) (hy.filter _)).mpr
  intro a
  simp [and_comm]

/-- Flipping what is asked for anew, with its repetitions, and what is asked for
no longer, takes `before` to `after` up to the parity of the repetitions. -/
theorem count_flips {β : Type} [DecidableEq β] (f : α → β) (b : β) (before after asked : List α)
    (hb : before.Nodup) (ha : after.Nodup) (hs : ∀ a, a ∈ after ↔ a ∈ asked) :
    ((asked.filter (· ∉ before) ++ before.filter (· ∉ after)).map f).count b % 2 =
      (((repeated (asked.filter (· ∉ before))).map f).count b + (before.map f).count b +
        (after.map f).count b) % 2 := by
  have hfresh := ((perm_repeated_dedup (asked.filter (· ∉ before))).map f).count_eq b
  have hset : (asked.filter (· ∉ before)).dedup.Perm (after.filter (· ∉ before)) := by
    apply (List.perm_ext_iff_of_nodup (List.nodup_dedup _) (ha.filter _)).mpr
    intro a
    simp [hs a]
  have hnew := (hset.map f).count_eq b
  have hcommon := ((perm_filter_swap after before ha hb).map f).count_eq b
  have hafter := count_map_filter f b (· ∉ before) after
  have hbefore := count_map_filter f b (· ∉ after) before
  rw [List.map_append, List.count_append] at hfresh ⊢
  omega

end Vecoda.Toggles
