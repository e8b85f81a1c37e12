import Mathlib.Algebra.BigOperators.Group.List.Basic
import Mathlib.Algebra.GroupWithZero.Nat
import Mathlib.Data.List.Basic
import Mathlib.Data.List.Nodup
import Mathlib.Data.List.Perm.Subperm

namespace Sto.Library

variable {α ν : Type} [DecidableEq α]

def Starts (paths : List (List α)) (p : List α) : Prop := ∃ path ∈ paths, p <+: path

def countStarts (paths : List (List α)) (p : List α) : ℕ :=
  paths.countP fun path ↦ p <+: path

/-- The trees below the prefix `p` in a prefix tree of the paths, in whatever order: one for
each longer prefix `p ++ [a]`, drawn from its last element, the number of paths that start
with it and the trees below it. -/
inductive PrefixForest (draw : α → ℕ → List ν → ν) (paths : List (List α)) : List α → List ν → Prop
  | intro {p} (subtrees : List (α × List ν)) (nodup : (subtrees.map Prod.fst).Nodup)
      (complete : ∀ a, a ∈ subtrees.map Prod.fst ↔ Starts paths (p ++ [a]))
      (below : ∀ s ∈ subtrees, PrefixForest draw paths (p ++ [s.1]) s.2) :
      PrefixForest draw paths p
        (subtrees.map fun s ↦ draw s.1 (countStarts paths (p ++ [s.1])) s.2)

variable {paths : List (List α)} {p : List α}

omit [DecidableEq α] in
theorem Starts.append {q : List α} (h : Starts paths (p ++ q)) : Starts paths p := by
  obtain ⟨path, hpath, hpq⟩ := h
  exact ⟨path, hpath, (List.prefix_append p q).trans hpq⟩

omit [DecidableEq α] in
theorem starts_iff_append {a : α} :
    Starts paths (p ++ [a]) ↔ ∃ path ∈ paths, ∃ s, path = p ++ a :: s := by
  refine exists_congr fun path ↦ and_congr_right fun _ ↦ exists_congr fun s ↦ ?_
  rw [List.append_assoc, List.singleton_append, eq_comm]

theorem countStarts_cons (path : List α) (paths : List (List α)) (p : List α) :
    countStarts (path :: paths) p = countStarts paths p + if p <+: path then 1 else 0 := by
  simp [countStarts, List.countP_cons]

theorem countStarts_append (paths paths' : List (List α)) (p : List α) :
    countStarts (paths ++ paths') p = countStarts paths p + countStarts paths' p :=
  List.countP_append

theorem sum_indicator (a : α) (l : List α) :
    (l.map fun b ↦ if b = a then 1 else 0).sum = l.count a := by
  induction l with
  | nil => rfl
  | cons b l ih => simp [ih, List.count_cons, add_comm]

theorem sum_countStarts {heads : List α} (hnodup : heads.Nodup)
    (hcomplete : ∀ a, Starts paths (p ++ [a]) → a ∈ heads) :
    (heads.map fun a ↦ countStarts paths (p ++ [a])).sum =
      paths.countP fun path ↦ p <+: path ∧ path ≠ p := by
  induction paths with
  | nil => simp [countStarts]
  | cons path paths ih =>
    have hrest := ih fun a ⟨q, hq, ha⟩ ↦ hcomplete a ⟨q, List.mem_cons_of_mem _ hq, ha⟩
    have hone : (heads.map fun a ↦ if p ++ [a] <+: path then 1 else 0).sum =
        if p <+: path ∧ path ≠ p then 1 else 0 := by
      by_cases hp : p <+: path ∧ path ≠ p
      · obtain ⟨⟨s, rfl⟩, hne⟩ := hp
        cases s with
        | nil => simp at hne
        | cons a s =>
          have ha : a ∈ heads := hcomplete a ⟨_, List.mem_cons_self, s, by simp⟩
          have hiff : ∀ b, p ++ [b] <+: p ++ a :: s ↔ b = a := fun b ↦ by simp
          simp only [hiff, sum_indicator, List.count_eq_one_of_mem hnodup ha]
          simp
      · rw [if_neg hp]
        apply List.sum_eq_zero
        intro x hx
        obtain ⟨a, _, rfl⟩ := List.mem_map.mp hx
        refine if_neg fun ⟨s, hs⟩ ↦ hp ⟨⟨a :: s, by simpa using hs⟩, ?_⟩
        rintro rfl
        simpa using congrArg List.length hs
    simp only [countStarts_cons, List.sum_map_add, hrest, hone, List.countP_cons, decide_eq_true_eq]

/-- Each of the first trees stands in a relation to one of the second ones, no two of them to
the same. -/
def Covered (R : ν → ν → Prop) (ts ts' : List ν) : Prop :=
  ∃ ks : List ν, List.Forall₂ R ts ks ∧ ks.Subperm ts'

omit [DecidableEq α] in
theorem covered_of_nodup {β : Type} {R : ν → ν → Prop} {key : β → α} {f g : β → ν}
    {l l' : List β} (hnodup : (l.map key).Nodup)
    (h : ∀ s ∈ l, ∃ s' ∈ l', key s' = key s ∧ R (f s) (g s')) :
    Covered R (l.map f) (l'.map g) := by
  have hmatch : ∃ m : List β, m.map key = l.map key ∧ (∀ s' ∈ m, s' ∈ l') ∧
      List.Forall₂ R (l.map f) (m.map g) := by
    clear hnodup
    induction l with
    | nil => exact ⟨[], rfl, nofun, .nil⟩
    | cons s l ih =>
      rw [List.forall_mem_cons] at h
      obtain ⟨⟨s', hs', hkey, hr⟩, h⟩ := h
      obtain ⟨m, hkeys, hmem, hall⟩ := ih h
      refine ⟨s' :: m, ?_, List.forall_mem_cons.mpr ⟨hs', hmem⟩, .cons hr hall⟩
      rw [List.map_cons, hkey, hkeys, List.map_cons]
  obtain ⟨m, hkeys, hmem, hall⟩ := hmatch
  refine ⟨m.map g, hall, ?_⟩
  obtain ⟨k, hperm, hsub⟩ := List.subperm_of_subset (hkeys ▸ hnodup).of_map hmem
  exact ⟨k.map g, hperm.map g, hsub.map g⟩

theorem starts_iff_countStarts : Starts paths p ↔ 0 < countStarts paths p := by
  rw [countStarts, List.countP_pos_iff]
  simp only [decide_eq_true_eq]
  rfl

theorem PrefixForest.congr {draw : α → ℕ → List ν → ν} {paths' : List (List α)}
    (heq : ∀ p a, countStarts paths (p ++ [a]) = countStarts paths' (p ++ [a])) {ts : List ν}
    (h : PrefixForest draw paths p ts) : PrefixForest draw paths' p ts := by
  induction h with
  | @intro p subtrees nodup complete below ih =>
    have hcounts : (subtrees.map fun s ↦ draw s.1 (countStarts paths (p ++ [s.1])) s.2) =
        subtrees.map fun s ↦ draw s.1 (countStarts paths' (p ++ [s.1])) s.2 :=
      List.map_congr_left fun s _ ↦ by rw [heq]
    rw [hcounts]
    refine .intro subtrees nodup (fun a ↦ ?_) ih
    rw [complete, starts_iff_countStarts, starts_iff_countStarts, heq]

theorem PrefixForest.covered {draw : α → ℕ → List ν → ν} {R : ν → ν → Prop}
    (hR : ∀ a c c' kids kids', c ≤ c' → Covered R kids kids' → R (draw a c kids) (draw a c' kids'))
    {paths' : List (List α)} (hle : ∀ q, countStarts paths q ≤ countStarts paths' q)
    {ts ts' : List ν} (h : PrefixForest draw paths p ts) (h' : PrefixForest draw paths' p ts') :
    Covered R ts ts' := by
  induction h generalizing ts' with
  | @intro p subtrees nodup complete below ih =>
    obtain ⟨subtrees', _, complete', below'⟩ := h'
    refine covered_of_nodup nodup fun s hs ↦ ?_
    have hstarts := (complete s.1).mp (List.mem_map_of_mem hs)
    have hstarts' : Starts paths' (p ++ [s.1]) :=
      starts_iff_countStarts.mpr (Nat.lt_of_lt_of_le (starts_iff_countStarts.mp hstarts) (hle _))
    obtain ⟨s', hs', hkey⟩ := List.mem_map.mp ((complete' s.1).mpr hstarts')
    refine ⟨s', hs', hkey, ?_⟩
    rw [hkey]
    exact hR _ _ _ _ _ (hle _) (ih s hs (hkey ▸ below' s' hs'))

end Sto.Library
