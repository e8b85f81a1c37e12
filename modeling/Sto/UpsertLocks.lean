import Sto.Upload
import Sto.Library.RowLocks
import Mathlib.Data.List.Rotate

namespace Sto

open Library

variable {env : Externals} {u v : Upload}

/-- The rows that the upsert of `stack_node` locks, in `VALUES` order. -/
def lockOrder (r : Request) : List Int64 := r.nodes.map StackNode.id

/-- Two uploads cannot deadlock exactly when they share no node, or reach the same shared
node first. -/
theorem uploads_deadlock_free_iff (env : Externals) (u v : Upload) :
    ¬ Locks.CanDeadlock (lockOrder (u.request env)) (lockOrder (v.request env)) ↔
      firstShared (lockOrder (u.request env)) (lockOrder (v.request env)) =
        firstShared (lockOrder (v.request env)) (lockOrder (u.request env)) := by
  rw [Locks.canDeadlock_iff, not_not]

theorem same_samples_deadlock :
    Locks.CanDeadlock (lockOrder ((demoCall .asIs).request demoExternals))
      (lockOrder ((demoCall .reversed).request demoExternals)) :=
  Locks.canDeadlock_iff.mpr (by decide +kernel)

def Arrangement.rotated (n : ℕ) : Arrangement := ⟨fun l ↦ l.rotate n, fun l ↦ l.rotate_perm n⟩

def Upload.inOrder (u : Upload) (order : Arrangement) : Upload := { u with order := order }

theorem lockOrder_inOrder (hl : u.WithinLimit env) (order : Arrangement) :
    lockOrder ((u.inOrder order).request env) =
      (order.arrange (gather env u.args u.symlists).stackNodeMap.rows).map StackNode.id := by
  have hperm : ((u.inOrder order).payload env).stackNodes.Perm (u.payload env).stackNodes :=
    (order.perm _).trans (u.order.perm _).symm
  rw [lockOrder, Request.nodes]
  exact congrArg _ (List.take_of_length_le (hperm.length_eq.trans_le hl.1))

theorem mem_lockOrder_inOrder (hl : u.WithinLimit env) (order : Arrangement) {k : Int64} :
    k ∈ lockOrder ((u.inOrder order).request env) ↔ k ∈ lockOrder (u.request env) := by
  have hself := lockOrder_inOrder hl u.order
  rw [lockOrder_inOrder hl, show u.request env = (u.inOrder u.order).request env from rfl, hself]
  exact ((order.perm _).map _).mem_iff.trans ((u.order.perm _).map _).mem_iff.symm

theorem exists_first (hl : u.WithinLimit env) {k : Int64} (hk : k ∈ lockOrder (u.request env)) :
    ∃ n rest, lockOrder ((u.inOrder (.rotated n)).request env) = k :: rest := by
  rw [← mem_lockOrder_inOrder hl .asIs, lockOrder_inOrder hl] at hk
  obtain ⟨as, bs, hsplit⟩ := List.append_of_mem hk
  change (gather env u.args u.symlists).stackNodeMap.rows.map StackNode.id = _ at hsplit
  refine ⟨as.length, bs ++ as, ?_⟩
  rw [lockOrder_inOrder hl]
  change ((gather env u.args u.symlists).stackNodeMap.rows.rotate as.length).map StackNode.id = _
  rw [List.map_rotate, hsplit, List.rotate_append_length_eq]
  rfl

theorem firstShared_of_head {k : Int64} {xs ys : List Int64} (hk : k ∈ ys) :
    firstShared (k :: xs) ys = some k := by
  simp [firstShared, hk]

/-- Whether two batches can deadlock is left to the iteration order of the client's maps as
soon as they share two nodes. -/
theorem deadlock_free_in_every_order_iff (hu : u.WithinLimit env) (hv : v.WithinLimit env) :
    (∀ order order', ¬ Locks.CanDeadlock (lockOrder ((u.inOrder order).request env))
      (lockOrder ((v.inOrder order').request env))) ↔
      ∀ a b, a ∈ lockOrder (u.request env) → a ∈ lockOrder (v.request env) →
        b ∈ lockOrder (u.request env) → b ∈ lockOrder (v.request env) → a = b := by
  simp only [Locks.canDeadlock_iff, not_not]
  constructor
  · intro h a b hau hav hbu hbv
    obtain ⟨m, xs, hm⟩ := exists_first hu hau
    obtain ⟨n, ys, hn⟩ := exists_first hv hbv
    have heq := h (.rotated m) (.rotated n)
    have hleft : firstShared (lockOrder ((u.inOrder (.rotated m)).request env))
        (lockOrder ((v.inOrder (.rotated n)).request env)) = some a := by
      rw [hm]
      exact firstShared_of_head ((mem_lockOrder_inOrder hv _).mpr hav)
    have hright : firstShared (lockOrder ((v.inOrder (.rotated n)).request env))
        (lockOrder ((u.inOrder (.rotated m)).request env)) = some b := by
      rw [hn]
      exact firstShared_of_head ((mem_lockOrder_inOrder hu _).mpr hbu)
    exact Option.some_inj.mp (hleft.symm.trans (heq.trans hright))
  · intro h order order'
    cases hx : firstShared (lockOrder ((u.inOrder order).request env))
        (lockOrder ((v.inOrder order').request env)) with
    | none =>
      refine (firstShared_eq_none.mpr fun k hk hk' ↦ ?_).symm
      exact firstShared_eq_none.mp hx k hk' hk
    | some a =>
      obtain ⟨hav, as, as', hxs, _⟩ := firstShared_eq_some.mp hx
      have hau : a ∈ lockOrder ((u.inOrder order).request env) := by simp [hxs]
      obtain ⟨b, hy⟩ := exists_firstShared ⟨a, hav, hau⟩
      obtain ⟨hbu, bs, bs', hys, _⟩ := firstShared_eq_some.mp hy
      have hbv : b ∈ lockOrder ((v.inOrder order').request env) := by simp [hys]
      rw [mem_lockOrder_inOrder hu] at hau hbu
      rw [mem_lockOrder_inOrder hv] at hav hbv
      rw [hy, h a b hau hav hbu hbv]

end Sto
