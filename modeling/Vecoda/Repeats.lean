import Mathlib.Data.List.Basic

/-!
# Repeated marks in a sequence

Two ways to report the marked elements of a sequence once: a mark is dropped if
it equals the last mark, or if it equals the element directly before it. They
agree exactly on the sequences in which no mark returns after other elements.
The elements before the current one are kept newest first.
-/

set_option autoImplicit false

namespace Vecoda.Repeats

variable {α : Type} [DecidableEq α] (f : α → Bool)

def sinceMarked : List α → List α → List Bool
  | _, [] => []
  | past, x::xs => (f x && past.find? f ≠ some x) :: sinceMarked (x::past) xs

def sincePrevious : List α → List α → List Bool
  | _, [] => []
  | past, x::xs => (f x && past.head? ≠ some x) :: sincePrevious (x::past) xs

/-- The marks of one kind that follow one another are adjacent. -/
def NoReturn (xs : List α) : Prop :=
  ∀ before x between after, xs = before ++ x :: (between ++ x :: after) → f x = true →
    (∀ y ∈ between, f y = false) → between = []

theorem reports_eq_iff (past xs : List α) :
    sinceMarked f past xs = sincePrevious f past xs ↔
      ∀ pre x post, xs = pre ++ x :: post → f x = true →
        (pre.reverse ++ past).find? f = some x → (pre.reverse ++ past).head? = some x := by
  induction xs generalizing past with
  | nil => simp [sinceMarked, sincePrevious]
  | cons y xs ih =>
    have hhead (h : past.head? = some y) (hy : f y = true) : past.find? f = some y := by
      cases past with
      | nil => cases h
      | cons z past =>
        cases h
        simp [hy]
    rw [sinceMarked, sincePrevious, List.cons.injEq, ih (y::past)]
    constructor
    · rintro ⟨hy,hrest⟩ pre x post he hx hfind
      cases pre with
      | nil =>
        cases he
        have hlast : past.find? f = some y := hfind
        by_contra hn
        have hne : past.head? ≠ some y := hn
        simp [hx, hlast, hne] at hy
      | cons z pre =>
        cases he
        rw [List.reverse_cons, List.append_assoc] at hfind ⊢
        exact hrest pre x post rfl hx hfind
    · intro h
      constructor
      · cases hy : f y with
        | false => rfl
        | true =>
          have hiff : past.find? f = some y ↔ past.head? = some y :=
            ⟨h [] y xs rfl hy,fun hp => hhead hp hy⟩
          simp only [ne_eq, hiff]
      · intro pre x post he hx hfind
        have hall := h (y::pre) x post (by rw [he, List.cons_append]) hx
        rw [List.reverse_cons, List.append_assoc] at hall
        exact hall hfind

theorem sinceMarked_eq_iff (xs : List α) :
    sinceMarked f [] xs = sincePrevious f [] xs ↔ NoReturn f xs := by
  rw [reports_eq_iff]
  constructor
  · intro h before x between after he hx hb
    have hfind : ((before ++ x :: between).reverse ++ []).find? f = some x := by
      rw [List.append_nil, List.reverse_append, List.reverse_cons, List.append_assoc,
        List.find?_append, List.find?_eq_none.mpr (by simpa using hb)]
      simp [hx]
    have hhead := h (before ++ x :: between) x after (by rw [he]; simp) hx hfind
    rw [List.append_nil, List.head?_reverse] at hhead
    cases hl : between.getLast? with
    | none => exact List.getLast?_eq_none_iff.mp hl
    | some y =>
      have hy : (before ++ x :: between).getLast? = some y := by
        rw [List.getLast?_append, List.getLast?_cons, hl]
        rfl
      rw [hy] at hhead
      cases hhead
      have hf := hb x (List.mem_of_getLast? hl)
      rw [hx] at hf
      cases hf
  · intro h pre x post he hx hfind
    rw [List.append_nil] at hfind ⊢
    obtain ⟨-,rev,rest,hpre,hrev⟩ := List.find?_eq_some_iff_append.mp hfind
    have hsplit : pre = rest.reverse ++ x :: rev.reverse := by
      rw [← List.reverse_reverse pre, hpre]
      simp
    have hnil := h rest.reverse x rev.reverse post (by rw [he, hsplit]; simp) hx
      (fun y hy => by simpa using hrev y (List.mem_reverse.mp hy))
    rw [hpre, List.reverse_eq_nil_iff.mp hnil]
    rfl

end Vecoda.Repeats
