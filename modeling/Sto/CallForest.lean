import Sto.Replay
import Sto.ConcurrentIngest
import Sto.Library.ParentForest

namespace Sto

open Library

variable {env : Externals} {pg : Postgres}

def Upload.nodeTable (env : Externals) (u : Upload) : Table StackNode.id :=
  ⟨(u.payload env).stackNodes, u.nodes_nodup⟩

theorem pathNodes_parentsFirst (e : Int64) (p : Option Int64) (path : List Frame) :
    Table.ParentsFirst StackNode.id StackNode.parentId (fun k ↦ p = some k)
      (pathNodes env e p path) := by
  induction path generalizing p with
  | nil => trivial
  | cons f path ih =>
    refine ⟨fun q hq ↦ hq, (ih _).mono fun k hk ↦ .inr ?_⟩
    exact Option.some_inj.mp hk

theorem occurrences_parentsFirst (us : List Upload) :
    Table.ParentsFirst StackNode.id StackNode.parentId (Table.empty : Table StackNode.id).Has
      (us.flatMap (Upload.occurrences env)) := by
  refine .flatMap fun u _ ↦ ?_
  rw [Upload.occurrences_eq]
  exact .flatMap fun path _ ↦ (pathNodes_parentsFirst _ none path).mono nofun

theorem depth_of_occurrences (env : Externals) (us : List Upload) :
    ∀ k, ((Table.empty : Table StackNode.id).upsertAll addStackNode
        (us.flatMap (Upload.occurrences env))).Has k →
      ∃ n, ((Table.empty : Table StackNode.id).upsertAll addStackNode
        (us.flatMap (Upload.occurrences env))).Depth StackNode.parentId k n :=
  Table.upsertAll_depth (fun _ _ ↦ rfl) (fun _ h ↦ by cases h) (occurrences_parentsFirst us)

theorem Replay.depth {s : System Upload Db SqlError} (h : Replay env s) :
    ∀ k, s.store.stackNode.Has k → ∃ n, s.store.stackNode.Depth StackNode.parentId k n := by
  obtain ⟨us, _, hsame⟩ := h.nodes
  exact hsame.symm.depth (depth_of_occurrences env us)

theorem Upload.nodeTable_isForest (u : Upload) : (u.nodeTable env).IsForest StackNode.parentId := by
  have hsame : (u.nodeTable env).Same (Table.empty.upsertAll addStackNode (u.occurrences env)) :=
    .of_perm u.payload_nodes
  have hdepth := depth_of_occurrences env [u]
  rw [List.flatMap_singleton] at hdepth
  exact Table.isForest_of_depth (hsame.symm.depth hdepth)

/-- In every payload, in the table that any sequence of payloads leaves, and in every table
on the way there under any interleaving, the parent links form a forest. -/
theorem parents_form_a_forest {us : List Upload} (hl : ∀ u ∈ us, u.WithinLimit env) :
    (∀ u ∈ us, (u.nodeTable env).IsForest StackNode.parentId) ∧
      (serialAll (program pg env) us Db.empty).stackNode.IsForest StackNode.parentId ∧
      ∀ sched, (reached pg env us sched).store.stackNode.IsForest
        StackNode.parentId := by
  have hrun : ∀ sched, (reached pg env us sched).store.stackNode.IsForest
      StackNode.parentId := fun sched ↦ Table.isForest_of_depth (replay_run pg hl sched).depth
  refine ⟨fun u _ ↦ u.nodeTable_isForest, ?_, hrun⟩
  obtain ⟨sched, hserial, _⟩ := System.exists_serial_run (program pg env) us Db.empty
  exact hserial ▸ hrun sched

theorem parents_form_a_forest_demo :
    let us := [demoUpload, demoCall .asIs]
    (∀ u ∈ us, (u.nodeTable demoExternals).IsForest StackNode.parentId) ∧
      (serialAll (program lenientPostgres demoExternals) us Db.empty).stackNode.IsForest
        StackNode.parentId ∧
      ∀ sched, (reached lenientPostgres demoExternals us sched).store.stackNode.IsForest
        StackNode.parentId := by
  apply parents_form_a_forest
  intro u hu
  obtain rfl | rfl : u = demoUpload ∨ u = demoCall .asIs := by simpa using hu
  · exact demoUpload_withinLimit
  · exact demoCall_withinLimit

end Sto
