import Sto.Regular
import Sto.CountNesting

namespace Sto

open Library

variable {env : Externals} {pg : Postgres} {s : System Upload Db SqlError} {us : List Upload}

/-- What the requests carry for a node, which is less than the payloads do where the row
limit cuts in. -/
def requestTotal (env : Externals) (us : List Upload) (k : Int64) : ℤ :=
  (us.map fun u ↦ carried StackNode.id StackNode.sampleCount (u.request env).nodes k).sum

/-- Where the rows and the counts of a state come from, however the uploads are
interleaved, limited or refused. -/
structure Provenance (env : Externals) (s : System Upload Db SqlError) : Prop where
  resolves : ∀ u ∈ s.past 1, u.Resolves env
  datas : ∀ d ∈ s.store.stackNodeData.rows, ∃ u ∈ s.past 1, d ∈ u.frameRows env
  executables : ∃ us : List Upload, us.Perm (s.past 2) ∧ s.store.executable =
    Table.empty.upsertAll addExecutable (us.flatMap fun u ↦ (u.request env).executables)
  nodes : ∃ us : List Upload, us.Perm (s.past 3) ∧ s.store.stackNode =
    Table.empty.upsertAll addStackNode (us.flatMap fun u ↦ (u.request env).nodes)

theorem Provenance.start (us : List Upload) : Provenance env (System.start Db.empty us) where
  resolves u hu := by rw [System.past_start] at hu; cases hu
  datas d hd := by cases hd
  executables := ⟨[], by rw [System.past_start], rfl⟩
  nodes := ⟨[], by rw [System.past_start], rfl⟩

theorem Provenance.fail (h : Provenance env s) {i : ℕ} {j : Job Upload SqlError}
    (hj : s.jobs[i]? = some j) (e : SqlError) :
    Provenance env ⟨s.store, s.jobs.set i { j with error := some e }⟩ where
  resolves := by simpa only [System.past_fail hj] using h.resolves
  datas := by simpa only [System.past_fail hj] using h.datas
  executables := by simpa only [System.past_fail hj] using h.executables
  nodes := by simpa only [System.past_fail hj] using h.nodes

theorem Provenance.commit (h : Provenance env s) {i : ℕ} {j : Job Upload SqlError}
    {tx : Db → Except SqlError Db} {st : Db} (hj : s.jobs[i]? = some j)
    (htx : (program pg env j.request)[j.stage]? = some tx) (hst : tx s.store = .ok st) :
    Provenance env ⟨st, s.jobs.set i { j with stage := j.stage + 1 }⟩ := by
  obtain ⟨u, n, e⟩ := j
  dsimp only at htx
  obtain ⟨hn, rfl⟩ | ⟨hn, rfl⟩ | ⟨hn, rfl⟩ := program_cases htx <;> subst hn
  · have hres := resolves_of_insert hst
    obtain ⟨ds, hds, rfl⟩ := insertStackNodeData_result hst
    refine ⟨fun v hv ↦ ?_, fun d hd ↦ ?_, ?_, ?_⟩
    · rcases List.mem_cons.mp ((System.past_commit hj _).mem_iff.mp hv) with rfl | hv
      · exact hres
      · exact h.resolves v hv
    · obtain hd | hd := mem_upsertAll_first hd
      · obtain ⟨v, hv, hd⟩ := h.datas d hd
        exact ⟨v, (System.past_commit hj _).mem_iff.mpr (List.mem_cons_of_mem _ hv), hd⟩
      · exact ⟨u, (System.past_commit hj _).mem_iff.mpr List.mem_cons_self,
          payload_data_source (Upload.mem_request_datas (hds.subset hd))⟩
    · simpa only [System.past_commit_ne hj _ (show 2 ≠ 0 + 1 by omega)] using h.executables
    · simpa only [System.past_commit_ne hj _ (show 3 ≠ 0 + 1 by omega)] using h.nodes
  · obtain ⟨us, hus, htable⟩ := h.executables
    obtain ⟨_, _, _, rfl⟩ := insertExecutable_ok.mp hst
    refine ⟨?_, ?_, ⟨us ++ [u], exists_order hj _ hus, ?_⟩, ?_⟩
    · simpa only [System.past_commit_ne hj _ (show 1 ≠ 1 + 1 by omega)] using h.resolves
    · simpa only [System.past_commit_ne hj _ (show 1 ≠ 1 + 1 by omega)] using h.datas
    · rw [List.flatMap_append, Table.upsertAll_append, List.flatMap_singleton, ← htable]
    · simpa only [System.past_commit_ne hj _ (show 3 ≠ 1 + 1 by omega)] using h.nodes
  · obtain ⟨us, hus, htable⟩ := h.nodes
    obtain ⟨_, _, _, rfl, _⟩ := insertStackNode_ok.mp hst
    refine ⟨?_, ?_, ?_, ⟨us ++ [u], exists_order hj _ hus, ?_⟩⟩
    · simpa only [System.past_commit_ne hj _ (show 1 ≠ 2 + 1 by omega)] using h.resolves
    · simpa only [System.past_commit_ne hj _ (show 1 ≠ 2 + 1 by omega)] using h.datas
    · simpa only [System.past_commit_ne hj _ (show 2 ≠ 2 + 1 by omega)] using h.executables
    · rw [List.flatMap_append, Table.upsertAll_append, List.flatMap_singleton, ← htable]

theorem provenance_run (pg : Postgres) (env : Externals) (us : List Upload) (sched : List ℕ) :
    Provenance env (reached pg env us sched) :=
  (System.run_induction (P := Provenance env) (.start us)
    (fun _ _ _ _ _ h _ hj _ htx hst ↦ h.commit hj htx hst)
    (fun _ _ _ _ e h _ hj _ _ _ ↦ h.fail hj e) sched).1

/-- Every upload has run to its end, and none was refused. -/
def Acknowledged (pg : Postgres) (env : Externals) (s : System Upload Db SqlError) : Prop :=
  ∀ j ∈ s.jobs, j.error = none ∧ j.next (program pg env) = none

instance (s : System Upload Db SqlError) : Decidable (Acknowledged pg env s) :=
  inferInstanceAs (Decidable (∀ j ∈ s.jobs, j.error = none ∧ j.next (program pg env) = none))

theorem past_of_acknowledged {sched : List ℕ} (h : Acknowledged pg env (reached pg env us sched))
    {k : ℕ} (hk : k ≤ 3) : (reached pg env us sched).past k = us := by
  rw [System.past, List.filter_eq_self.mpr, run_requests]
  intro j hj
  obtain ⟨hnone, hnext⟩ := h j hj
  rw [Job.next, hnone] at hnext
  exact decide_eq_true (hk.trans (List.getElem?_eq_none_iff.mp hnext))

theorem executableRow_count_pos {u : Upload} (h : batchStacks u.symlists ≠ []) :
    0 < (u.executableRow env).sampleCount := by
  have hlen := List.length_pos_iff.mpr h
  change (0 : ℤ) < 0 + ((batchStacks u.symlists).length : ℤ)
  omega

namespace Provenance

variable (h : Provenance env s)

include h

theorem executable_weight {c : Executable → ℤ} (hc : Counter c) (k : Int64) :
    s.store.executable.weight c k = executableTotal env c (s.past 2) k := by
  obtain ⟨us, hus, htable⟩ := h.executables
  rw [htable, upsert_requests_weight hus hc]

theorem node_weight (k : Int64) :
    s.store.stackNode.weight StackNode.sampleCount k = requestTotal env (s.past 3) k := by
  obtain ⟨us, hus, htable⟩ := h.nodes
  rw [htable, Table.weight_upsertAll addStackNode _ (fun _ _ ↦ rfl), sum_flatMap, requestTotal,
    ← (hus.map _).sum_eq]
  exact zero_add _

theorem request_executables {u : Upload} (hu : u ∈ s.past 2) :
    (u.request env).executables = [stamp (u.request env) (u.executableRow env)] :=
  Upload.request_executables (h.resolves u (past_mono (by omega) hu))

theorem has_executable {u : Upload} (hu : u ∈ s.past 2) :
    s.store.executable.Has (u.executableId env) := by
  obtain ⟨us, hus, htable⟩ := h.executables
  rw [htable]
  refine Table.has_upsertAll.mpr (.inr ⟨stamp (u.request env) (u.executableRow env), ?_, rfl⟩)
  refine List.mem_flatMap.mpr ⟨u, hus.mem_iff.mpr hu, ?_⟩
  rw [h.request_executables hu]
  exact List.mem_singleton_self _

theorem executable_row {r : Executable} (hr : r ∈ s.store.executable.rows) :
    ∃ u ∈ s.past 2, u.executableId env = r.id ∧ u.args.binary = r.basename ∧
      u.args.version = r.buildId ∧ u.args.eventType.toString = r.event := by
  obtain ⟨us, hus, htable⟩ := h.executables
  rw [htable] at hr
  obtain ⟨y, ⟨⟨⟩⟩ | hy, hid, hcolumns⟩ := Table.exists_source
    (f := fun e : Executable ↦ (e.basename, e.buildId, e.event)) (fun _ _ ↦ rfl) hr
  simp only [Prod.mk.injEq] at hcolumns
  obtain ⟨u, hu, hy⟩ := List.mem_flatMap.mp hy
  have hu := hus.mem_iff.mp hu
  rw [h.request_executables hu, List.mem_singleton] at hy
  subst hy
  exact ⟨u, hu, hid, hcolumns.1, hcolumns.2.1, hcolumns.2.2⟩

theorem executable_count_pos {r : Executable} (hr : r ∈ s.store.executable.rows) :
    0 < r.sampleCount := by
  obtain ⟨u, hu, hid, _⟩ := h.executable_row hr
  have hres := h.resolves u (past_mono (by omega) hu)
  rw [← Table.weight_of_mem Executable.sampleCount hr, h.executable_weight .sampleCount]
  refine sum_pos_of_mem (fun v _ ↦ carried_executables_nonneg .sampleCount v r.id) hu ?_
  rw [← hid, carried_own hres]
  exact executableRow_count_pos (Upload.batchStacks_ne hres)

theorem node_count_pos {n : StackNode} (hn : n ∈ s.store.stackNode.rows) : 0 < n.sampleCount := by
  rw [← Table.weight_of_mem StackNode.sampleCount hn, h.node_weight]
  obtain ⟨us, hus, htable⟩ := h.nodes
  rw [htable] at hn
  obtain ⟨y, ⟨⟨⟩⟩ | hy, hid, _⟩ :=
    Table.exists_source (f := StackNode.executableId) (fun _ _ ↦ rfl) hn
  obtain ⟨u, hu, hy⟩ := List.mem_flatMap.mp hy
  refine sum_pos_of_mem (fun v _ ↦ (carried_nodes_request v n.id).1) (hus.mem_iff.mp hu) ?_
  rw [← hid, carried_of_mem u.request_nodes_nodup hy]
  exact payload_count_pos (Upload.mem_request_nodes hy)

theorem node_row {n : StackNode} (hn : n ∈ s.store.stackNode.rows) :
    ∃ u ∈ s.past 3, ∃ o ∈ u.occurrences env, o.id = n.id ∧ o.executableId = n.executableId := by
  obtain ⟨us, hus, htable⟩ := h.nodes
  rw [htable] at hn
  obtain ⟨y, ⟨⟨⟩⟩ | hy, hid, hexe⟩ :=
    Table.exists_source (f := StackNode.executableId) (fun _ _ ↦ rfl) hn
  obtain ⟨u, hu, hy⟩ := List.mem_flatMap.mp hy
  obtain ⟨o, ho, hoid, _, _, hoexe⟩ := Upload.payload_node_source (Upload.mem_request_nodes hy)
  exact ⟨u, hus.mem_iff.mp hu, o, ho, hoid.trans hid, hoexe.trans hexe⟩

end Provenance

theorem payload_node_executable {u : Upload} {n : StackNode} (h : n ∈ (u.payload env).stackNodes) :
    n.executableId = u.executableId env := by
  obtain ⟨o, ho, _, _, _, hexe⟩ := Upload.payload_node_source h
  rw [← hexe, (Upload.occurrence_refs ho).2.2.1]

section Sums

variable {q : StackNode → Bool}

/-- The choice of a node looks at what its id stands for. -/
def ChoosesByRefs (q : StackNode → Bool) : Prop :=
  ∀ a b : StackNode, a.parentId = b.parentId → a.stackNodeDataId = b.stackNodeDataId →
    a.executableId = b.executableId → q a = q b

theorem sum_payload_nodes {u : Upload} (hids : NodeIdsDistinct env [u]) (hq : ChoosesByRefs q) :
    (((u.payload env).stackNodes.filter q).map StackNode.sampleCount).sum =
      (u.occurrences env).countP q := by
  have hkey : ∀ r ∈ u.occurrences env,
      ∀ x ∈ (Table.empty : Table StackNode.id).rows ++ u.occurrences env,
        x.id = r.id → q x = q r := by
    intro r hr x hx hid
    rw [← List.flatMap_singleton (f := Upload.occurrences env)] at hr
    have hx' : x ∈ [u].flatMap (Upload.occurrences env) := by simpa [Table.empty] using hx
    obtain ⟨hparent, hdata, hexe⟩ := hids x hx' r hr hid
    exact hq x r hparent hdata hexe
  have hsum := Table.sum_filter_upsertAll addStackNode StackNode.sampleCount (fun _ _ ↦ rfl) q
    (fun _ _ ↦ hq _ _ rfl rfl rfl) .empty (u.occurrences env) hkey
  have hcount := @sum_counts env [u] q
  rw [List.flatMap_singleton] at hcount
  rw [((u.payload_nodes.filter _).map _).sum_eq, hsum, hcount]
  exact zero_add _

theorem request_ids_distinct (hids : NodeIdsDistinct env us) {a b : StackNode}
    (ha : a ∈ us.flatMap fun u ↦ (u.request env).nodes)
    (hb : b ∈ us.flatMap fun u ↦ (u.request env).nodes) (hid : a.id = b.id) :
    a.parentId = b.parentId ∧ a.stackNodeDataId = b.stackNodeDataId ∧
      a.executableId = b.executableId := by
  obtain ⟨u, hu, ha⟩ := List.mem_flatMap.mp ha
  obtain ⟨v, hv, hb⟩ := List.mem_flatMap.mp hb
  obtain ⟨o, ho, hoid, hop, hod, hoe⟩ := Upload.payload_node_source (Upload.mem_request_nodes ha)
  obtain ⟨x, hx, hxid, hxp, hxd, hxe⟩ := Upload.payload_node_source (Upload.mem_request_nodes hb)
  rw [← hop, ← hod, ← hoe, ← hxp, ← hxd, ← hxe]
  exact hids o (List.mem_flatMap.mpr ⟨u, hu, ho⟩) x (List.mem_flatMap.mpr ⟨v, hv, hx⟩)
    (hoid.trans (hid.trans hxid.symm))

theorem Provenance.sum_nodes (h : Provenance env s) (hids : NodeIdsDistinct env us)
    (hsub : ∀ u ∈ s.past 3, u ∈ us) (hq : ChoosesByRefs q) :
    ((s.store.stackNode.rows.filter q).map StackNode.sampleCount).sum = ((s.past 3).map fun u ↦
      (((u.request env).nodes.filter q).map StackNode.sampleCount).sum).sum := by
  obtain ⟨vs, hvs, htable⟩ := h.nodes
  have hall : ∀ n ∈ vs.flatMap fun u ↦ (u.request env).nodes,
      n ∈ us.flatMap fun u ↦ (u.request env).nodes := by
    intro n hn
    obtain ⟨u, hu, hn⟩ := List.mem_flatMap.mp hn
    exact List.mem_flatMap.mpr ⟨u, hsub u (hvs.mem_iff.mp hu), hn⟩
  have hkey : ∀ r ∈ vs.flatMap fun u ↦ (u.request env).nodes,
      ∀ x ∈ (Table.empty : Table StackNode.id).rows ++ vs.flatMap fun u ↦ (u.request env).nodes,
        x.id = r.id → q x = q r := by
    intro r hr x hx hid
    obtain ⟨hparent, hdata, hexe⟩ := request_ids_distinct hids (hall x hx) (hall r hr) hid
    exact hq x r hparent hdata hexe
  have hsum := Table.sum_filter_upsertAll addStackNode StackNode.sampleCount (fun _ _ ↦ rfl) q
    (fun _ _ ↦ hq _ _ rfl rfl rfl) .empty _ hkey
  rw [htable, hsum, sum_flatMap, (hvs.map _).sum_eq]
  exact zero_add _

end Sums

end Sto
