import Sto.Totals

namespace Sto

open Library

variable {env : Externals} {pg : Postgres} {u : Upload} {us : List Upload} {db db' : Db}

/-- What holds of every state that uploads lead to, and is all that an ingest needs. -/
structure Db.Regular (env : Externals) (db : Db) : Prop where
  frames : FrameRows env db.stackNodeData.rows
  nodes : ∀ k, 0 ≤ db.stackNode.weight StackNode.sampleCount k
  executables : ∀ c ∈ counters, ∀ k, 0 ≤ db.executable.weight c k

structure Db.Fits (env : Externals) (us : List Upload) (db : Db) : Prop where
  nodes : ∀ k, db.stackNode.weight StackNode.sampleCount k + nodeTotal env us k < 2 ^ 63
  executables : ∀ c ∈ counters, ∀ k,
    db.executable.weight c k + executableTotal env c us k < 2 ^ 63

theorem carried_nodes_request (u : Upload) (k : Int64) :
    0 ≤ carried StackNode.id StackNode.sampleCount (u.request env).nodes k ∧
      carried StackNode.id StackNode.sampleCount (u.request env).nodes k ≤
        carried StackNode.id StackNode.sampleCount (u.payload env).stackNodes k := by
  have hpos : ∀ n ∈ (u.payload env).stackNodes, 0 ≤ n.sampleCount := fun n hn ↦
    (payload_count_pos hn).le
  constructor
  · apply List.sum_nonneg
    intro x hx
    obtain ⟨n, hn, rfl⟩ := List.mem_map.mp hx
    exact hpos n (Upload.mem_request_nodes (List.mem_filter.mp hn).1)
  · apply (((List.take_sublist _ _).filter _).map _).sum_le_sum
    intro x hx
    obtain ⟨n, hn, rfl⟩ := List.mem_map.mp hx
    exact hpos n (List.mem_filter.mp hn).1

theorem upsert_nodes_weight (t : Table StackNode.id) (u : Upload) (k : Int64) :
    (t.upsertAll addStackNode (u.request env).nodes).weight StackNode.sampleCount k =
      t.weight StackNode.sampleCount k +
        carried StackNode.id StackNode.sampleCount (u.request env).nodes k :=
  Table.weight_upsertAll addStackNode _ (fun _ _ ↦ rfl) _ _ _

theorem upsert_executables_weight {c : Executable → ℤ} (hc : Counter c) (t : Table Executable.id)
    (u : Upload) (k : Int64) :
    (t.upsertAll addExecutable (u.request env).executables).weight c k =
      t.weight c k + carried Executable.id c (u.payload env).profiledBinaries k := by
  rw [Table.weight_upsertAll addExecutable _ hc.add, ← carried_request hc]
  rfl

theorem Db.Regular.upsert_datas (h : db.Regular env) (u : Upload) :
    FrameRows env (db.stackNodeData.upsertAll .first (u.request env).datas).rows := by
  intro d hd
  exact h.frames.append u d (List.mem_append.mpr (mem_upsertAll_first hd))

theorem Db.Regular.upsert_executables (h : db.Regular env) (u : Upload) {c : Executable → ℤ}
    (hc : c ∈ counters) (k : Int64) :
    0 ≤ (db.executable.upsertAll addExecutable (u.request env).executables).weight c k := by
  rw [upsert_executables_weight (counter_of_mem hc)]
  exact add_nonneg (h.executables c hc k) (carried_executables_nonneg (counter_of_mem hc) u k)

theorem Db.Regular.upsert_nodes (h : db.Regular env) (u : Upload) (k : Int64) :
    0 ≤ (db.stackNode.upsertAll addStackNode (u.request env).nodes).weight
      StackNode.sampleCount k := by
  rw [upsert_nodes_weight]
  exact add_nonneg (h.nodes k) (carried_nodes_request u k).1

theorem Db.Regular.transaction {i : ℕ} {tx : Db → Except SqlError Db} (h : db.Regular env)
    (htx : (program pg env u)[i]? = some tx) (hst : tx db = .ok db') : db'.Regular env := by
  obtain ⟨_, rfl⟩ | ⟨_, rfl⟩ | ⟨_, rfl⟩ := program_cases htx
  · obtain rfl := insertStackNodeData_eq (h.frames.append u).underOneId hst
    exact ⟨h.upsert_datas u, h.nodes, h.executables⟩
  · obtain ⟨_, _, _, rfl⟩ := insertExecutable_ok.mp hst
    exact ⟨h.frames, h.nodes, fun _ hc ↦ h.upsert_executables u hc⟩
  · obtain ⟨_, _, _, rfl, _⟩ := insertStackNode_ok.mp hst
    exact ⟨h.frames, h.upsert_nodes u, h.executables⟩

theorem Db.Regular.applyTo (h : db.Regular env) (u : Upload) :
    ((u.request env).applyTo db).Regular env :=
  ⟨h.upsert_datas u, h.upsert_nodes u, fun _ hc ↦ h.upsert_executables u hc⟩

theorem Db.Regular.empty : Db.empty.Regular env where
  frames _ h := by cases h
  nodes _ := le_rfl
  executables _ _ _ := le_rfl

/-- Every state on the way is regular, also when the server drops rows of some uploads. -/
theorem regular_run (pg : Postgres) (env : Externals) (us : List Upload) (sched : List ℕ) :
    (reached pg env us sched).store.Regular env :=
  (System.run_induction (P := fun s : System Upload Db SqlError ↦ s.store.Regular env) .empty
    (fun _ _ _ _ _ h _ _ _ htx hst ↦ h.transaction htx hst) (fun _ _ _ _ _ h _ _ _ _ _ ↦ h) sched).1

theorem Db.Regular.room_for_executable (h : db.Regular env) (hfit : db.Fits env (u :: us))
    (hres : u.Resolves env) : u.RoomForExecutable env db.executable := by
  intro c hc
  have hcarried : 0 ≤ carried Executable.id c (u.payload env).profiledBinaries
      (u.executableId env) := carried_executables_nonneg (counter_of_mem hc) u _
  have hothers : 0 ≤ executableTotal env c us (u.executableId env) :=
    totals_nonneg (fun u' ↦ carried_executables_nonneg (counter_of_mem hc) u' _) us
  have hsum := hfit.executables c hc (u.executableId env)
  rw [executableTotal, List.map_cons, List.sum_cons, ← executableTotal] at hsum
  rw [carried_own hres] at hcarried hsum
  exact ⟨h.executables c hc _, hcarried, by omega⟩

theorem Db.Regular.room_for_nodes (h : db.Regular env) (hfit : db.Fits env (u :: us)) :
    u.RoomForNodes env db.stackNode := by
  intro n hn
  have hcarried := @carried_nodes_nonneg env u n.id
  have hothers : 0 ≤ nodeTotal env us n.id :=
    totals_nonneg (fun u' ↦ carried_nodes_nonneg u' n.id) us
  have hsum := hfit.nodes n.id
  rw [nodeTotal, List.map_cons, List.sum_cons, ← nodeTotal] at hsum
  rw [carried_of_mem u.nodes_nodup hn] at hcarried hsum
  exact ⟨h.nodes n.id, hcarried, by omega⟩

theorem Db.Regular.ingest (h : db.Regular env) (hfit : db.Fits env (u :: us))
    (hres : u.Resolves env) (ha : u.Acceptable pg env) :
    let after := (u.request env).applyTo db
    let references := ∀ n ∈ (u.request env).nodes, ¬ db.stackNode.Has n.id → after.resolves n = true
    (references → dataIngest pg (u.request env) db = (after, none)) ∧
    (¬ references →
      (dataIngest pg (u.request env) db).1 = { after with stackNode := db.stackNode }) := by
  intro after references
  have hframes := (h.frames.append u).underOneId
  obtain ⟨hdatas, hindexable⟩ := Upload.datas_accepted ha hres
  obtain ⟨hexecutables, hexecutables_fit⟩ :=
    Upload.executables_accepted ha hres (h.room_for_executable hfit hres)
  obtain ⟨hnodes, hnodes_fit⟩ := Upload.nodes_accepted hres (h.room_for_nodes hfit)
  refine ⟨fun hr ↦ dataIngest_of_acceptable
    ⟨hdatas, hindexable, hexecutables, hexecutables_fit, hnodes, hnodes_fit⟩ hframes
    (Upload.executables_nodup hres) u.request_nodes_nodup hr, fun hr ↦ ?_⟩
  have h₁ := insertStackNodeData_of_admits hframes hdatas hindexable
  have h₂ : insertExecutable pg (u.request env)
      { db with stackNodeData := db.stackNodeData.upsertAll .first (u.request env).datas } =
      .ok { after with stackNode := db.stackNode } :=
    insertExecutable_ok.mpr ⟨hexecutables, Upload.executables_nodup hres, hexecutables_fit, rfl⟩
  cases h₃ : insertStackNode (u.request env) { after with stackNode := db.stackNode } with
  | ok db₃ =>
    obtain ⟨_, _, _, rfl, href⟩ := insertStackNode_ok.mp h₃
    exact absurd href hr
  | error e => simp only [dataIngest, transactions, serial, h₁, h₂, h₃]

end Sto
