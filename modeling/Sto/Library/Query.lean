import Mathlib.Data.List.Dedup
import Mathlib.Data.List.Perm.Basic

namespace Sto.Library

inductive QueryError
  | stackDepthExceeded
  | divisionByZero
  deriving DecidableEq, Repr

variable {α κ : Type*} [DecidableEq κ] {key : α → κ} {rows : List α}

def groupBy (key : α → κ) (rows : List α) : List (κ × List α) :=
  (rows.map key).dedup.map fun k ↦ (k, rows.filter fun r ↦ key r = k)

@[simp] theorem groupBy_nil : groupBy key [] = [] := rfl

theorem mem_groupBy {k : κ} {g : List α} : (k, g) ∈ groupBy key rows ↔
    k ∈ rows.map key ∧ g = rows.filter fun r ↦ key r = k := by
  simp only [groupBy, List.mem_map, List.mem_dedup, Prod.mk.injEq]
  constructor
  · intro hx
    obtain ⟨k, hk, rfl, rfl⟩ := hx
    exact ⟨hk, rfl⟩
  · intro hx
    obtain ⟨hk, rfl⟩ := hx
    exact ⟨k, hk, rfl, rfl⟩

theorem groupBy_same {k : κ} (hne : rows ≠ []) (h : ∀ r ∈ rows, key r = k) :
    groupBy key rows = [(k, rows)] := by
  have hkeys : rows.map key = List.replicate rows.length k :=
    List.eq_replicate_iff.mpr ⟨List.length_map _, by simpa using h⟩
  have hfilter : (rows.filter fun r ↦ key r = k) = rows :=
    List.filter_eq_self.mpr fun r hr ↦ decide_eq_true (h r hr)
  rw [groupBy, hkeys, List.replicate_dedup (by simpa using hne), List.map_singleton, hfilter]

theorem flatMap_filter_perm {ks : List κ} (hks : ks.Nodup) (h : ∀ r ∈ rows, key r ∈ ks) :
    (ks.flatMap fun k ↦ rows.filter fun r ↦ key r = k).Perm rows := by
  induction rows with
  | nil => simp
  | cons r rows ih =>
    obtain ⟨before, after, rfl⟩ := List.append_of_mem (h r (by simp))
    obtain ⟨hbefore, hafter⟩ : (∀ k ∈ before, ¬ key r = k) ∧ ∀ k ∈ after, ¬ key r = k := by
      rw [List.nodup_middle, List.nodup_cons, List.mem_append] at hks
      exact ⟨fun k hk he ↦ hks.1 (.inl (he ▸ hk)), fun k hk he ↦ hks.1 (.inr (he ▸ hk))⟩
    have hskip : ∀ l : List κ, (∀ k ∈ l, ¬ key r = k) →
        (l.flatMap fun k ↦ (r :: rows).filter fun r ↦ key r = k) =
          l.flatMap fun k ↦ rows.filter fun r ↦ key r = k := fun l hl ↦
      List.flatMap_congr fun k hk ↦ List.filter_cons_of_neg (by simpa using hl k hk)
    have ih := ih fun x hx ↦ h x (by simp [hx])
    rw [List.flatMap_append, List.flatMap_cons] at ih ⊢
    have hself : ((r :: rows).filter fun x ↦ key x = key r) =
        r :: rows.filter fun x ↦ key x = key r := List.filter_cons_of_pos (by simp)
    rw [hskip before hbefore, hskip after hafter, hself, List.cons_append]
    exact List.perm_middle.trans (ih.cons r)

theorem flatMap_ite {β : Type*} (p : α → Prop) [DecidablePred p] (f : α → β) (l : List α) :
    (l.flatMap fun a ↦ if p a then [f a] else []) = (l.filter fun a ↦ p a).map f := by
  induction l with
  | nil => rfl
  | cons a l ih => by_cases h : p a <;> simp [h, ih]

theorem flatMap_of_unique {β : Type*} {l : List α} (hl : l.Nodup) {x : α} (hx : x ∈ l)
    {f : α → List β} (h : ∀ y ∈ l, y ≠ x → f y = []) : l.flatMap f = f x := by
  obtain ⟨before, after, rfl⟩ := List.append_of_mem hx
  rw [List.nodup_middle, List.nodup_cons, List.mem_append] at hl
  have hbefore : before.flatMap f = [] := List.flatMap_eq_nil_iff.mpr fun y hy ↦
    h y (by simp [hy]) fun he ↦ hl.1 (.inl (he ▸ hy))
  have hafter : after.flatMap f = [] := List.flatMap_eq_nil_iff.mpr fun y hy ↦
    h y (by simp [hy]) fun he ↦ hl.1 (.inr (he ▸ hy))
  rw [List.flatMap_append, List.flatMap_cons, hbefore, hafter, List.nil_append, List.append_nil]

end Sto.Library
