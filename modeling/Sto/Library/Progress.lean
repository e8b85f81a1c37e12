import Mathlib.Data.List.Basic
import Mathlib.Order.Nat

namespace Sto.Library

universe u v

variable {σ : Type u} {ι : Type v}

/-- Each of the steps in question does nothing or brings down the work that is left. -/
def UsesUp (step : σ → ι → σ) (allowed : ι → Prop) (work : σ → ℕ) : Prop :=
  ∀ s i, allowed i → step s i = s ∨ work (step s i) < work s

namespace UsesUp

variable {step : σ → ι → σ} {allowed : ι → Prop} {work : σ → ℕ} {s : σ} {steps : List ι}

theorem le (h : UsesUp step allowed work) (hsteps : ∀ i ∈ steps, allowed i) :
    work (steps.foldl step s) ≤ work s := by
  induction steps generalizing s with
  | nil => exact le_rfl
  | cons i steps ih =>
    rw [List.forall_mem_cons] at hsteps
    apply (ih hsteps.2).trans
    obtain he | hlt := h s i hsteps.1
    · exact (congrArg work he).le
    · exact hlt.le

theorem idle (h : UsesUp step allowed work) (hsteps : ∀ i ∈ steps, allowed i)
    (hwork : work s ≤ work (steps.foldl step s)) : ∀ i ∈ steps, step s i = s := by
  induction steps with
  | nil => exact nofun
  | cons i steps ih =>
    rw [List.forall_mem_cons] at hsteps
    rw [List.foldl_cons] at hwork
    obtain he | hlt := h s i hsteps.1
    · rw [he] at hwork
      exact List.forall_mem_cons.mpr ⟨he, ih hsteps.2 hwork⟩
    · have hle : work (steps.foldl step (step s i)) ≤ work (step s i) := h.le hsteps.2
      exact absurd (hwork.trans hle) (Nat.not_le_of_lt hlt)

theorem rests (h : UsesUp step allowed work) (hsteps : ∀ i ∈ steps, allowed i)
    (hwork : work s = 0) : steps.foldl step s = s := by
  induction steps with
  | nil => rfl
  | cons i steps ih =>
    rw [List.forall_mem_cons] at hsteps
    obtain he | hlt := h s i hsteps.1
    · rw [List.foldl_cons, he]
      exact ih hsteps.2
    · exact absurd hlt (hwork ▸ Nat.not_lt_zero _)

/-- Rounds that cannot pass without effect while there is work left, and as many of them as
there is work, leave none. -/
theorem settles (h : UsesUp step allowed work) {rounds : List (List ι)}
    (hsteps : ∀ round ∈ rounds, ∀ i ∈ round, allowed i)
    (hfair : ∀ done round rest, rounds = done ++ round :: rest →
      (∀ i ∈ round, step (done.flatten.foldl step s) i = done.flatten.foldl step s) →
        work (done.flatten.foldl step s) = 0)
    (hlen : work s ≤ rounds.length) : work (rounds.flatten.foldl step s) = 0 := by
  induction rounds generalizing s with
  | nil => exact Nat.le_zero.mp hlen
  | cons round rounds ih =>
    rw [List.forall_mem_cons] at hsteps
    rw [List.flatten_cons, List.foldl_append]
    by_cases hlt : work (round.foldl step s) < work s
    · apply ih hsteps.2
      · intro done next rest hsplit
        have hnext := hfair (round :: done) next rest (by rw [hsplit, List.cons_append])
        rwa [List.flatten_cons, List.foldl_append] at hnext
      · exact Nat.lt_succ_iff.mp (hlt.trans_le hlen)
    · have hidle := h.idle hsteps.1 (Nat.le_of_not_lt hlt)
      have hzero : work s = 0 := hfair [] round rounds rfl hidle
      have hrest : ∀ i ∈ rounds.flatten, allowed i := by
        intro i hi
        obtain ⟨next, hnext, hi⟩ := List.mem_flatten.mp hi
        exact hsteps.2 next hnext i hi
      rw [h.rests hsteps.1 hzero, h.rests hrest hzero]
      exact hzero

end UsesUp

end Sto.Library
