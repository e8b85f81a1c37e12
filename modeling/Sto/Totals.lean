import Sto.Acceptance
import Sto.Replay
import Sto.Library.ListSums

namespace Sto

open Library

variable {env : Externals} {pg : Postgres}

/-- The values that the rows of one id carry; a payload has at most one such row. -/
def carried {ρ : Type} (key : ρ → Int64) (c : ρ → ℤ) (rows : List ρ) (k : Int64) : ℤ :=
  ((rows.filter fun r ↦ key r = k).map c).sum

def nodeTotal (env : Externals) (us : List Upload) (k : Int64) : ℤ :=
  (us.map fun u ↦ carried StackNode.id StackNode.sampleCount (u.payload env).stackNodes k).sum

def executableTotal (env : Externals) (c : Executable → ℤ) (us : List Upload) (k : Int64) : ℤ :=
  (us.map fun u ↦ carried Executable.id c (u.payload env).profiledBinaries k).sum

/-- No counter leaves the range of `bigint`. -/
structure SumsFit (env : Externals) (us : List Upload) : Prop where
  nodes : ∀ k, nodeTotal env us k < 2 ^ 63
  executables : ∀ c ∈ counters, ∀ k, executableTotal env c us k < 2 ^ 63

structure Counter (c : Executable → ℤ) : Prop where
  add : ∀ a b, c (addExecutable.op a b) = c a + c b
  stamp : ∀ r e, c (stamp r e) = c e
  nonneg : ∀ (env : Externals) (u : Upload), 0 ≤ c (u.executableRow env)

theorem Counter.sampleCount : Counter Executable.sampleCount where
  add _ _ := rfl
  stamp _ _ := rfl
  nonneg env u := by
    change (0 : ℤ) ≤ 0 + ((batchStacks u.symlists).length : ℤ)
    omega

theorem Counter.rawDataSize : Counter Executable.rawDataSize where
  add _ _ := rfl
  stamp _ _ := rfl
  nonneg env u := by
    change (0 : ℤ) ≤ 0 + ((batchStacks u.symlists).map fun s ↦ (env.stackSize s : ℤ)).sum
    rw [zero_add]
    apply List.sum_nonneg
    intro x hx
    obtain ⟨s, _, rfl⟩ := List.mem_map.mp hx
    exact Int.natCast_nonneg _

theorem Counter.processedDataSize : Counter Executable.processedDataSize where
  add _ _ := rfl
  stamp _ _ := rfl
  nonneg _ _ := Int.natCast_nonneg _

theorem counter_of_mem {c : Executable → ℤ} (h : c ∈ counters) : Counter c := by
  simp only [counters, List.mem_cons, List.not_mem_nil, or_false] at h
  rcases h with rfl | rfl | rfl
  · exact .sampleCount
  · exact .rawDataSize
  · exact .processedDataSize

theorem totals_nonneg {f : Upload → ℤ} (hf : ∀ u, 0 ≤ f u) (us : List Upload) :
    0 ≤ (us.map f).sum := by
  apply List.sum_nonneg
  intro x hx
  obtain ⟨u, _, rfl⟩ := List.mem_map.mp hx
  exact hf u

theorem carried_nodes (u : Upload) (k : Int64) :
    carried StackNode.id StackNode.sampleCount (u.payload env).stackNodes k =
      (((u.occurrences env).filter fun n ↦ n.id = k).map StackNode.sampleCount).sum := by
  rw [carried, Table.sum_filter_key _ _ u.payload_nodes,
    Table.weight_upsertAll addStackNode _ (fun _ _ ↦ rfl)]
  exact zero_add _

theorem carried_nodes_nonneg (u : Upload) (k : Int64) :
    0 ≤ carried StackNode.id StackNode.sampleCount (u.payload env).stackNodes k := by
  rw [carried_nodes]
  apply List.sum_nonneg
  intro x hx
  obtain ⟨n, hn, rfl⟩ := List.mem_map.mp hx
  rw [(Upload.occurrence_refs (List.mem_filter.mp hn).1).2.2.2]
  decide

theorem carried_executables_nonneg {c : Executable → ℤ} (hc : Counter c) (u : Upload) (k : Int64) :
    0 ≤ carried Executable.id c (u.payload env).profiledBinaries k := by
  rw [carried, Upload.payload_executables]
  apply List.sum_nonneg
  intro x hx
  obtain ⟨e, he, rfl⟩ := List.mem_map.mp hx
  have hmem := (List.mem_filter.mp he).1
  split at hmem
  · cases hmem
  · rw [List.mem_singleton.mp hmem]
    exact hc.nonneg env u

theorem carried_request {c : Executable → ℤ} (hc : Counter c) (u : Upload) (k : Int64) :
    carried Executable.id c (u.request env).executables k =
      carried Executable.id c (u.payload env).profiledBinaries k := by
  rw [Request.executables]
  change carried Executable.id c (((u.payload env).profiledBinaries.take _).map _) k = _
  rw [carried, carried, Upload.payload_executables]
  by_cases hnil : batchStacks u.symlists = []
  · rw [if_pos hnil]
    rfl
  · have hid : (stamp (u.request env) (u.executableRow env)).id = (u.executableRow env).id := rfl
    rw [if_neg hnil]
    by_cases hk : (u.executableRow env).id = k <;> simp [bindLimit, hid, hk, hc.stamp]

theorem carried_of_mem {ρ : Type} {key : ρ → Int64} {c : ρ → ℤ} {rows : List ρ}
    (h : (rows.map key).Nodup) {r : ρ} (hr : r ∈ rows) : carried key c rows (key r) = c r := by
  rw [carried, Table.filter_of_nodup h hr]
  simp

theorem carried_own {c : Executable → ℤ} {u : Upload} (h : u.Resolves env) :
    carried Executable.id c (u.payload env).profiledBinaries (u.executableId env) =
      c (u.executableRow env) := by
  rw [Upload.payload_executables, if_neg (Upload.batchStacks_ne h)]
  have hnodup : ([u.executableRow env].map Executable.id).Nodup := List.nodup_singleton _
  exact carried_of_mem hnodup (List.mem_singleton_self (u.executableRow env))

theorem payload_count_pos {u : Upload} {n : StackNode} (h : n ∈ (u.payload env).stackNodes) :
    0 < n.sampleCount := by
  have hcarried := carried_of_mem (c := StackNode.sampleCount) u.nodes_nodup h
  rw [← hcarried, carried_nodes]
  obtain ⟨o, ho, hid⟩ := Upload.mem_payload_node_ids.mp (List.mem_map_of_mem h)
  refine List.sum_pos _ (fun x hx ↦ ?_) ?_
  · obtain ⟨m, hm, rfl⟩ := List.mem_map.mp hx
    rw [(Upload.occurrence_refs (List.mem_filter.mp hm).1).2.2.2]
    decide
  · have hmem : o ∈ (u.occurrences env).filter fun m ↦ m.id = n.id := by simp [ho, hid]
    exact List.ne_nil_of_mem (List.mem_map_of_mem hmem)

theorem carried_le_sum {ρ : Type} (key : ρ → Int64) {c : ρ → ℤ} {rows : List ρ}
    (h : ∀ r ∈ rows, 0 ≤ c r) (k : Int64) : carried key c rows k ≤ (rows.map c).sum := by
  apply (List.filter_sublist.map c).sum_le_sum
  intro x hx
  obtain ⟨r, hr, rfl⟩ := List.mem_map.mp hx
  exact h r hr

theorem SumsFit.of_totals {us : List Upload}
    (hnodes : (us.map fun u ↦ ((u.payload env).stackNodes.map StackNode.sampleCount).sum).sum <
      2 ^ 63)
    (hexecutables : ∀ c ∈ counters,
      (us.map fun u ↦ ((u.payload env).profiledBinaries.map c).sum).sum < 2 ^ 63) :
    SumsFit env us where
  nodes k := by
    refine (List.sum_le_sum fun u _ ↦ ?_).trans_lt hnodes
    exact carried_le_sum _ (fun n hn ↦ (payload_count_pos hn).le) k
  executables c hc k := by
    refine (List.sum_le_sum fun u _ ↦ ?_).trans_lt (hexecutables c hc)
    refine carried_le_sum _ (fun e he ↦ ?_) k
    rw [Upload.payload_executables] at he
    split at he
    · cases he
    · rw [List.mem_singleton.mp he]
      exact (counter_of_mem hc).nonneg env u

section Totals

variable {s : System Upload Db SqlError}

theorem Replay.node_weight (h : Replay env s) (k : Int64) :
    s.store.stackNode.weight StackNode.sampleCount k = nodeTotal env (s.past 3) k := by
  obtain ⟨us, hus, hsame⟩ := h.nodes
  rw [hsame.weight, Table.weight_upsertAll addStackNode _ (fun _ _ ↦ rfl), sum_flatMap, nodeTotal,
    ← (hus.map _).sum_eq]
  simp only [carried_nodes]
  exact zero_add _

theorem upsert_requests_weight {us vs : List Upload} (h : us.Perm vs) {c : Executable → ℤ}
    (hc : Counter c) (k : Int64) :
    (Table.empty.upsertAll addExecutable
      (us.flatMap fun u ↦ (u.request env).executables)).weight c k =
        executableTotal env c vs k := by
  rw [Table.weight_upsertAll addExecutable _ hc.add, sum_flatMap, executableTotal,
    ← (h.map _).sum_eq]
  exact (zero_add _).trans (congrArg List.sum (List.map_congr_left fun u _ ↦
    carried_request hc u k))

theorem Replay.executable_weight (h : Replay env s) {c : Executable → ℤ} (hc : Counter c)
    (k : Int64) :
    s.store.executable.weight c k = executableTotal env c (s.past 2) k := by
  obtain ⟨us, hus, htable⟩ := h.executables
  rw [htable, upsert_requests_weight hus hc]

theorem Replay.has_node (h : Replay env s) (k : Int64) :
    s.store.stackNode.Has k ↔ ∃ u ∈ s.past 3, k ∈ (u.payload env).stackNodes.map StackNode.id := by
  obtain ⟨us, hus, hsame⟩ := h.nodes
  rw [hsame.has_iff, Table.has_upsertAll]
  simp only [Upload.mem_payload_node_ids, List.mem_flatMap, hus.mem_iff]
  constructor
  · intro hx
    obtain ⟨⟨⟩⟩ | ⟨n, ⟨u, hu, hn⟩, hk⟩ := hx
    exact ⟨u, hu, n, hn, hk⟩
  · intro hx
    obtain ⟨u, hu, n, hn, hk⟩ := hx
    exact .inr ⟨n, ⟨u, hu, hn⟩, hk⟩

theorem Replay.has_executable (h : Replay env s) (k : Int64) :
    s.store.executable.Has k ↔ ∃ u ∈ s.past 2, u.executableId env = k := by
  obtain ⟨us, hus, hsame⟩ := h.executables
  rw [hsame, Table.has_upsertAll]
  simp only [List.mem_flatMap, hus.mem_iff]
  constructor
  · intro hx
    obtain ⟨⟨⟩⟩ | ⟨e, ⟨u, hu, he⟩, hk⟩ := hx
    rw [Upload.request_executables (h.resolves u (past_mono (by omega) hu))] at he
    rw [List.mem_singleton.mp he] at hk
    exact ⟨u, hu, hk⟩
  · intro hx
    obtain ⟨u, hu, hk⟩ := hx
    refine .inr ⟨stamp (u.request env) (u.executableRow env), ⟨u, hu, ?_⟩, hk⟩
    rw [Upload.request_executables (h.resolves u (past_mono (by omega) hu))]
    exact List.mem_singleton_self _

theorem Replay.has_data_iff (h : Replay env s) (k : Int64) :
    s.store.stackNodeData.Has k ↔ ∃ u ∈ s.past 1, ∃ d ∈ u.frameRows env, d.id = k := by
  obtain ⟨us, hus, hsame⟩ := h.datas
  rw [hsame.has_iff, Table.has_upsertAll]
  simp only [List.mem_flatMap, hus.mem_iff]
  constructor
  · intro hx
    obtain ⟨⟨⟩⟩ | ⟨d, ⟨u, hu, hd⟩, hk⟩ := hx
    exact ⟨u, hu, d, hd, hk⟩
  · intro hx
    obtain ⟨u, hu, d, hd, hk⟩ := hx
    exact .inr ⟨d, ⟨u, hu, hd⟩, hk⟩

theorem sum_past_le {us : List Upload} {f : Upload → ℤ} (hf : ∀ u, 0 ≤ f u)
    (hreq : s.jobs.map Job.request = us) {i : ℕ} {j : Job Upload SqlError}
    (hj : s.jobs[i]? = some j) :
    ((s.past (j.stage + 1)).map f).sum + f j.request ≤ (us.map f).sum := by
  have hsub := System.past_sublist
    (⟨s.store, s.jobs.set i { j with stage := j.stage + 1 }⟩ : System Upload Db SqlError)
    (j.stage + 1)
  have hreq' : ({ j with stage := j.stage + 1 } : Job Upload SqlError).request = j.request := rfl
  rw [show (s.jobs.set i { j with stage := j.stage + 1 }).map Job.request = us from
    (System.set_requests hj hreq').trans hreq] at hsub
  have hle := (hsub.map f).sum_le_sum fun x hx ↦ by
    obtain ⟨u, _, rfl⟩ := List.mem_map.mp hx
    exact hf u
  rw [((System.past_commit hj s.store).map f).sum_eq, List.map_cons, List.sum_cons] at hle
  omega

end Totals

end Sto
