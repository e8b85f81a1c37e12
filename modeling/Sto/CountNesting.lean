import Sto.ConcurrentIngest

namespace Sto

open Library

variable {env : Externals} {pg : Postgres}

/-- In the uploads, an id stands for one place below one parent. -/
def NodeIdsDistinct (env : Externals) (us : List Upload) : Prop :=
  ∀ a ∈ us.flatMap (Upload.occurrences env), ∀ b ∈ us.flatMap (Upload.occurrences env),
    a.id = b.id → a.parentId = b.parentId ∧ a.stackNodeDataId = b.stackNodeDataId ∧
      a.executableId = b.executableId

instance (us : List Upload) : Decidable (NodeIdsDistinct env us) :=
  inferInstanceAs (Decidable (∀ a ∈ us.flatMap (Upload.occurrences env),
    ∀ b ∈ us.flatMap (Upload.occurrences env), a.id = b.id → a.parentId = b.parentId ∧
      a.stackNodeDataId = b.stackNodeDataId ∧ a.executableId = b.executableId))

def Db.childTotal (db : Db) (k : Int64) : ℤ :=
  ((db.stackNode.rows.filter fun m ↦ m.parentId = some k).map StackNode.sampleCount).sum

def endingAt (env : Externals) (us : List Upload) (e k : Int64) : ℕ :=
  (samplesOf env us e).countP fun path ↦ pathId env e none path = some k

theorem occurrences_subset {us vs : List Upload} (h : ∀ u ∈ vs, u ∈ us) :
    ∀ n ∈ vs.flatMap (Upload.occurrences env), n ∈ us.flatMap (Upload.occurrences env) := by
  intro n hn
  obtain ⟨u, hu, hn⟩ := List.mem_flatMap.mp hn
  exact List.mem_flatMap.mpr ⟨u, h u hu, hn⟩

theorem NodeIdsDistinct.mono {us vs : List Upload} (h : NodeIdsDistinct env us)
    (hsub : ∀ v ∈ vs, v ∈ us) : NodeIdsDistinct env vs :=
  fun a ha b hb ↦ h a (occurrences_subset hsub a ha) b (occurrences_subset hsub b hb)

theorem pathNodes_balance (env : Externals) (e k : Int64) (p : Option Int64) (path : List Frame) :
    ((pathNodes env e p path).countP fun n ↦ n.id = k) + (if p = some k then 1 else 0) =
      ((pathNodes env e p path).countP fun n ↦ n.parentId = some k) +
        if pathId env e p path = some k then 1 else 0 := by
  induction path generalizing p with
  | nil => rfl
  | cons f path ih =>
    have hrest := ih (some (pathNode env e p f).id)
    simp only [Option.some_inj] at hrest
    have hlast : pathId env e p (f :: path) =
        pathId env e (some (pathNode env e p f).id) path := rfl
    rw [pathNodes, hlast, List.countP_cons, List.countP_cons, pathNode_parent]
    by_cases hp : p = some k
    · simp only [hp, decide_true, if_true, decide_eq_true_eq] at hrest ⊢
      omega
    · simp only [hp, decide_false, if_false, decide_eq_true_eq, Bool.false_eq_true] at hrest ⊢
      omega

theorem paths_balance (env : Externals) (e k : Int64) (paths : List (List Frame)) :
    ((paths.flatMap (pathNodes env e none)).countP fun n ↦ n.id = k) =
      ((paths.flatMap (pathNodes env e none)).countP fun n ↦ n.parentId = some k) +
        paths.countP fun path ↦ pathId env e none path = some k := by
  induction paths with
  | nil => rfl
  | cons path paths ih =>
    have hpath := pathNodes_balance env e k none path
    simp only [List.flatMap_cons, List.countP_append, List.countP_cons, reduceCtorEq, if_false,
      decide_eq_true_eq] at hpath ⊢
    omega

theorem exists_of_pathId {e k : Int64} {p : Option Int64} {path : List Frame}
    (h : pathId env e p path = some k) :
    p = some k ∨ ∃ n ∈ pathNodes env e p path, n.id = k := by
  have hbalance := pathNodes_balance env e k p path
  rw [if_pos h] at hbalance
  by_cases hp : p = some k
  · exact .inl hp
  · rw [if_neg hp] at hbalance
    obtain ⟨n, hn, hk⟩ := List.countP_pos_iff.mp
      (show 0 < (pathNodes env e p path).countP fun n ↦ decide (n.id = k) by omega)
    exact .inr ⟨n, hn, by simpa using hk⟩

theorem endingAt_cons (u : Upload) (us : List Upload) (e k : Int64) :
    endingAt env (u :: us) e k =
      (if u.executableId env = e then
        (u.paths env).countP fun path ↦ decide (pathId env e none path = some k) else 0) +
        endingAt env us e k := by
  unfold endingAt samplesOf
  by_cases h : u.executableId env = e <;> simp [h]

theorem occurrences_balance {e k : Int64} {us : List Upload}
    (he : ∀ n ∈ us.flatMap (Upload.occurrences env), n.id = k → n.executableId = e) :
    ((us.flatMap (Upload.occurrences env)).countP fun n ↦ n.id = k) =
      ((us.flatMap (Upload.occurrences env)).countP fun n ↦ n.parentId = some k) +
        endingAt env us e k := by
  induction us with
  | nil => rfl
  | cons u us ih =>
    have hrest := ih fun n hn ↦ he n (by
      rw [List.flatMap_cons]
      exact List.mem_append_right _ hn)
    have hu := paths_balance env (u.executableId env) k (u.paths env)
    rw [← Upload.occurrences_eq] at hu
    have hzero : u.executableId env ≠ e →
        ((u.paths env).countP fun path ↦
          pathId env (u.executableId env) none path = some k) = 0 := by
      intro hne
      refine List.countP_eq_zero.mpr fun path hpath hend ↦ hne ?_
      obtain ⟨⟨⟩⟩ | ⟨n, hn, hk⟩ := exists_of_pathId (of_decide_eq_true hend)
      have hocc : n ∈ u.occurrences env := by
        rw [Upload.occurrences_eq]
        exact List.mem_flatMap.mpr ⟨path, hpath, hn⟩
      rw [← (Upload.occurrence_refs hocc).2.2.1]
      refine he n ?_ hk
      rw [List.flatMap_cons]
      exact List.mem_append_left _ hocc
    rw [List.flatMap_cons, List.countP_append, List.countP_append, endingAt_cons]
    by_cases hexe : u.executableId env = e
    · rw [if_pos hexe]
      rw [hexe] at hu
      omega
    · rw [if_neg hexe]
      have := hzero hexe
      omega

theorem endingAt_perm {us vs : List Upload} (h : us.Perm vs) (e k : Int64) :
    endingAt env us e k = endingAt env vs e k :=
  ((h.filter _).flatMap_right _).countP_eq _

theorem sum_counts {us : List Upload} (q : StackNode → Bool) :
    (((us.flatMap (Upload.occurrences env)).filter q).map StackNode.sampleCount).sum =
      ((us.flatMap (Upload.occurrences env)).countP q : ℤ) := by
  have hone : ((us.flatMap (Upload.occurrences env)).filter q).map StackNode.sampleCount =
      ((us.flatMap (Upload.occurrences env)).filter q).map fun _ ↦ (1 : ℤ) := by
    apply List.map_congr_left
    intro n hn
    obtain ⟨u, _, hu⟩ := List.mem_flatMap.mp (List.mem_filter.mp hn).1
    exact (Upload.occurrence_refs hu).2.2.2
  rw [hone, List.countP_eq_length_filter]
  simp

theorem sampleCount_eq {t : Table StackNode.id} {us : List Upload}
    (h : t.Same (Table.empty.upsertAll addStackNode (us.flatMap (Upload.occurrences env))))
    {n : StackNode} (hn : n ∈ t.rows) : n.sampleCount =
      ((us.flatMap (Upload.occurrences env)).countP fun o ↦ decide (o.id = n.id) : ℤ) := by
  have hweight := h.weight StackNode.sampleCount n.id
  rw [Table.weight_of_mem _ hn, Table.weight_upsertAll addStackNode _ (fun _ _ ↦ rfl), sum_counts]
    at hweight
  exact hweight.trans (zero_add _)

theorem Replay.childTotal {s : System Upload Db SqlError} (h : Replay env s) {us : List Upload}
    (hids : NodeIdsDistinct env us) (hsub : ∀ u ∈ s.past 3, u ∈ us) (k : Int64) :
    ∃ vs : List Upload, vs.Perm (s.past 3) ∧ s.store.stackNode.Same
        (Table.empty.upsertAll addStackNode (vs.flatMap (Upload.occurrences env))) ∧
      s.store.childTotal k = ((vs.flatMap (Upload.occurrences env)).countP fun n ↦
        decide (n.parentId = some k) : ℤ) := by
  obtain ⟨vs, hvs, hsame⟩ := h.nodes
  refine ⟨vs, hvs, hsame, ?_⟩
  have hall := @occurrences_subset env us vs fun u hu ↦ hsub u (hvs.mem_iff.mp hu)
  have hkey : ∀ r ∈ vs.flatMap (Upload.occurrences env),
      ∀ x ∈ (Table.empty : Table StackNode.id).rows ++ vs.flatMap (Upload.occurrences env),
        x.id = r.id → decide (x.parentId = some k) = decide (r.parentId = some k) := by
    intro r hr x hx hid
    rw [(hids x (hall x hx) r (hall r hr) hid).1]
  have hsum := Table.sum_filter_upsertAll addStackNode StackNode.sampleCount (fun _ _ ↦ rfl)
    (fun n ↦ n.parentId = some k) (fun _ _ ↦ rfl) .empty _ hkey
  rw [← sum_counts, Db.childTotal, ((hsame.perm.filter _).map _).sum_eq, hsum]
  exact zero_add _

/-- In every table on the way, a node's count is that of the nodes below it plus the number
of committed samples that end at it. -/
theorem counts_nest {us : List Upload} (hl : ∀ u ∈ us, u.WithinLimit env)
    (hids : NodeIdsDistinct env us) (sched : List ℕ) :
    ∀ n ∈ (reached pg env us sched).store.stackNode.rows,
      (reached pg env us sched).store.childTotal n.id ≤ n.sampleCount ∧
      n.sampleCount - (reached pg env us sched).store.childTotal n.id =
        endingAt env ((reached pg env us sched).past 3) n.executableId n.id := by
  have h := replay_run pg hl sched
  have hsub : ∀ u ∈ (reached pg env us sched).past 3, u ∈ us := fun u hu ↦
    past_subset pg env us sched hu
  generalize reached pg env us sched = s at *
  intro n hn
  obtain ⟨vs, hvs, hsame, hchild⟩ := h.childTotal hids hsub n.id
  have hrow := hsame.perm.mem_iff.mp hn
  -- every occurrence with the id of the row is of the executable of the row
  have hexe : ∀ o ∈ vs.flatMap (Upload.occurrences env), o.id = n.id →
      o.executableId = n.executableId := by
    have hall := @occurrences_subset env us vs fun u hu ↦ hsub u (hvs.mem_iff.mp hu)
    obtain ⟨y, ⟨⟨⟩⟩ | hy, hk, hf⟩ :=
      Table.exists_source (f := StackNode.executableId) (fun _ _ ↦ rfl) hrow
    intro o ho hid
    rw [← hf]
    exact (hids o (hall o ho) y (hall y hy) (hid.trans hk.symm)).2.2
  have hcount := sampleCount_eq hsame hn
  have hbalance := occurrences_balance hexe
  rw [endingAt_perm hvs] at hbalance
  omega

theorem demoCall_nodeIds : NodeIdsDistinct demoExternals [demoCall .asIs] := by
  decide +kernel

theorem counts_nest_demo :
    let s := reached lenientPostgres demoExternals [demoCall .asIs] [0, 0, 0]
    s.store.childTotal 6289059828643931365 ≤ 1 ∧
      1 - s.store.childTotal 6289059828643931365 =
        endingAt demoExternals (s.past 3) 9544298 6289059828643931365 := by
  have hl : ∀ u ∈ [demoCall .asIs], u.WithinLimit demoExternals := by
    intro u hu
    rw [List.mem_singleton.mp hu]
    exact demoCall_withinLimit
  exact counts_nest hl demoCall_nodeIds [0, 0, 0]
    ⟨6289059828643931365, none, 2465835249415133397, 9544298, 1⟩ (by decide +kernel)

end Sto
