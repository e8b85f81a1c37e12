import Mathlib.Algebra.BigOperators.Group.List.Basic
import Mathlib.Algebra.BigOperators.Ring.Finset
import Mathlib.Algebra.Order.BigOperators.Group.List
import Mathlib.Algebra.Order.Ring.Int
import Mathlib.Tactic.Ring

namespace Sto.Library

variable {α : Type*} {f g : α → ℤ} {l : List α}

theorem sum_eq_iff_of_le (h : ∀ a ∈ l, f a ≤ g a) :
    (l.map f).sum = (l.map g).sum ↔ ∀ a ∈ l, f a = g a := by
  induction l with
  | nil => simp
  | cons a l ih =>
    have htail : ∀ b ∈ l, f b ≤ g b := fun b hb ↦ h b (by simp [hb])
    have hhead := h a (by simp)
    have hle := List.sum_le_sum htail
    rw [List.forall_mem_cons, ← ih htail, List.map_cons, List.map_cons, List.sum_cons,
      List.sum_cons]
    constructor
    · intro hsum
      exact ⟨by omega, by omega⟩
    · intro hx
      omega

theorem sum_pos_of_mem (h : ∀ a ∈ l, 0 ≤ f a) {a : α} (ha : a ∈ l) (hpos : 0 < f a) :
    0 < (l.map f).sum := by
  have hle := List.single_le_sum (fun x hx ↦ by
    obtain ⟨b, hb, rfl⟩ := List.mem_map.mp hx
    exact h b hb) _ (List.mem_map_of_mem (f := f) ha)
  omega

theorem sum_of_filtered {p : α → Bool} {c : ℤ} (h : ∀ a ∈ l, f a = if p a then c else 0) :
    (l.map f).sum = c * ((l.filter p).length : ℤ) := by
  induction l with
  | nil => simp
  | cons a l ih =>
    rw [List.forall_mem_cons] at h
    rw [List.map_cons, List.sum_cons, ih h.2, h.1]
    by_cases hp : p a
    · rw [if_pos hp, List.filter_cons_of_pos hp, List.length_cons]
      push_cast
      ring
    · rw [if_neg hp, List.filter_cons_of_neg hp, zero_add]

theorem sum_flatMap {β : Type*} (l : List α) (f : α → List β) (p : β → Bool) (c : β → ℤ) :
    (((l.flatMap f).filter p).map c).sum = (l.map fun a ↦ (((f a).filter p).map c).sum).sum := by
  induction l with
  | nil => rfl
  | cons a l ih => simp [List.flatMap_cons, List.filter_append, ih]

theorem sum_map_flatMap {β : Type*} (l : List α) (f : α → List β) (c : β → ℕ) :
    ((l.flatMap f).map c).sum = (l.map fun a ↦ ((f a).map c).sum).sum := by
  induction l with
  | nil => rfl
  | cons a l ih => rw [List.flatMap_cons, List.map_append, List.sum_append, ih, List.map_cons,
      List.sum_cons]

theorem sum_drop_eq_zero {c : α → ℕ} (hc : ∀ a, 0 < c a) (l : List α) (n : ℕ) :
    ((l.drop n).map c).sum = 0 ↔ l.length ≤ n := by
  rw [← List.drop_eq_nil_iff]
  cases l.drop n with
  | nil => exact iff_of_true rfl rfl
  | cons a as =>
    have ha := hc a
    rw [List.map_cons, List.sum_cons]
    exact iff_of_false (by omega) (List.cons_ne_nil _ _)

theorem sum_take_add_sum_drop (c : α → ℕ) (l : List α) (n : ℕ) :
    ((l.take n).map c).sum + ((l.drop n).map c).sum = (l.map c).sum := by
  rw [← List.sum_append, ← List.map_append, List.take_append_drop]

theorem natCast_sum (l : List α) (f : α → ℕ) :
    (((l.map f).sum : ℕ) : ℤ) = (l.map fun a ↦ (f a : ℤ)).sum := by
  rw [Nat.cast_list_sum, List.map_map]
  rfl

theorem sum_filter (p : α → Bool) (f : α → ℤ) (l : List α) :
    ((l.filter p).map f).sum = (l.map fun a ↦ if p a = true then f a else 0).sum := by
  induction l with
  | nil => rfl
  | cons a l ih => by_cases h : p a = true <;> simp [h, ih]

theorem sum_filter_eq_iff {p : α → Bool} (h : ∀ a ∈ l, 0 ≤ f a) :
    ((l.filter p).map f).sum = (l.map f).sum ↔ ∀ a ∈ l, f a ≠ 0 → p a = true := by
  rw [sum_filter, sum_eq_iff_of_le]
  · refine forall₂_congr fun a _ ↦ ?_
    by_cases hp : p a = true <;> simp [hp, eq_comm]
  · intro a ha
    have := h a ha
    split <;> omega

end Sto.Library
