import Sto.Upload

namespace Sto

open Library

variable {env : Externals} {pg : Postgres} {u : Upload} {db : Db}

/-- Postgres takes the texts of the payload, and its frames fit into the index. -/
structure Upload.Acceptable (pg : Postgres) (env : Externals) (u : Upload) : Prop where
  event : pg.text u.args.eventType.toString = true
  version : u.args.version.all pg.text = true
  binary : pg.text u.args.binary = true
  frames : ∀ d ∈ (u.payload env).stackNodeDatas,
    pg.text d.symbol = true ∧ d.file.all pg.text = true ∧ pg.indexable d = true

theorem bigint_iff {x : ℤ} : bigint x = true ↔ -2 ^ 63 ≤ x ∧ x < 2 ^ 63 := by
  simp [bigint]

structure Room (stored added : ℤ) : Prop where
  stored_nonneg : 0 ≤ stored
  added_nonneg : 0 ≤ added
  sum_lt : stored + added < 2 ^ 63

theorem Room.bigint_added {x y : ℤ} (h : Room x y) : bigint y = true := by
  obtain ⟨hx, hy, hsum⟩ := h
  exact bigint_iff.mpr (by omega)

theorem Room.bigint_sum {x y : ℤ} (h : Room x y) : bigint (x + y) = true := by
  obtain ⟨hx, hy, hsum⟩ := h
  exact bigint_iff.mpr (by omega)

def counters : List (Executable → ℤ) :=
  [Executable.sampleCount, Executable.rawDataSize, Executable.processedDataSize]

def Upload.RoomForExecutable (env : Externals) (u : Upload) (t : Table Executable.id) : Prop :=
  ∀ c ∈ counters, Room (t.weight c (u.executableId env)) (c (u.executableRow env))

def Upload.RoomForNodes (env : Externals) (u : Upload) (t : Table StackNode.id) : Prop :=
  ∀ n ∈ (u.payload env).stackNodes, Room (t.weight StackNode.sampleCount n.id) n.sampleCount

namespace Upload

theorem datas_accepted (ha : u.Acceptable pg env) (hres : u.Resolves env) :
    (stackNodeDataColumns pg).Admits (u.request env).datas ∧
      ∀ d ∈ (u.request env).datas, pg.indexable d = true := by
  refine ⟨⟨?_, ?_, fun d hd ↦ ?_⟩, fun d hd ↦ (ha.frames d (mem_request_datas hd)).2.2⟩
  · exact mt request_datas_eq_nil.mp (not_not.mpr hres)
  · have hlen : (u.request env).datas.length ≤ bindLimit / 4 := List.length_take_le _ _
    simp only [stackNodeDataColumns, bindLimit, maxParameters] at hlen ⊢
    omega
  · obtain ⟨hs, hf, _⟩ := ha.frames d (mem_request_datas hd)
    simp [stackNodeDataColumns, hs, hf]

theorem executables_accepted (ha : u.Acceptable pg env) (hres : u.Resolves env)
    {t : Table Executable.id} (hroom : u.RoomForExecutable env t) :
    (executableColumns pg).Admits (u.request env).executables ∧
      ∀ e ∈ (u.request env).executables,
        (executableColumns pg).storable (addExecutable.absorb (t.lookup e.id) e) = true := by
  have hsamples := hroom Executable.sampleCount (by simp [counters])
  have hraw := hroom Executable.rawDataSize (by simp [counters])
  have hprocessed := hroom Executable.processedDataSize (by simp [counters])
  rw [request_executables hres]
  refine ⟨⟨by simp, by simp [executableColumns, maxParameters], fun e he ↦ ?_⟩, fun e he ↦ ?_⟩ <;>
    obtain rfl := List.mem_singleton.mp he <;>
    simp only [executableColumns, Bool.and_eq_true]
  · exact ⟨⟨⟨ha.event, ha.version⟩, ha.binary⟩, ⟨hsamples.bigint_added, hraw.bigint_added⟩,
      hprocessed.bigint_added⟩
  · rw [Table.weight_absorb addExecutable Executable.sampleCount fun _ _ ↦ rfl,
      Table.weight_absorb addExecutable Executable.rawDataSize fun _ _ ↦ rfl,
      Table.weight_absorb addExecutable Executable.processedDataSize fun _ _ ↦ rfl]
    exact ⟨⟨hsamples.bigint_sum, hraw.bigint_sum⟩, hprocessed.bigint_sum⟩

theorem nodes_accepted (hres : u.Resolves env) {t : Table StackNode.id}
    (hroom : u.RoomForNodes env t) :
    stackNodeColumns.Admits (u.request env).nodes ∧
      ∀ n ∈ (u.request env).nodes,
        stackNodeColumns.storable (addStackNode.absorb (t.lookup n.id) n) = true := by
  have hroom' := fun n hn ↦ hroom n (mem_request_nodes hn)
  refine ⟨⟨?_, ?_, fun n hn ↦ (hroom' n hn).bigint_added⟩, fun n hn ↦ ?_⟩
  · exact mt request_nodes_eq_nil.mp (not_not.mpr hres)
  · have hlen : (u.request env).nodes.length ≤ bindLimit / 4 := List.length_take_le _ _
    simp only [stackNodeColumns, bindLimit, maxParameters] at hlen ⊢
    omega
  · simp only [stackNodeColumns]
    rw [Table.weight_absorb addStackNode StackNode.sampleCount fun _ _ ↦ rfl]
    exact (hroom' n hn).bigint_sum

theorem node_resolves (hl : (u.payload env).stackNodes.length ≤ bindLimit / 4)
    (hdata : ∀ d ∈ u.frameRows env, db.stackNodeData.Has d.id)
    (hexe : db.executable.Has (u.executableId env)) {n : StackNode}
    (hn : n ∈ (u.request env).nodes) :
    ({ db with stackNode := db.stackNode.upsertAll addStackNode (u.request env).nodes } :
      Db).resolves n = true := by
  obtain ⟨o, ho, _, hp, hd, he⟩ := payload_node_source (mem_request_nodes hn)
  obtain ⟨hparent, ⟨d, hdmem, hdid⟩, hid, _⟩ := occurrence_refs ho
  refine Db.resolves_iff.mpr ⟨fun p hparentId ↦ Table.has_upsertAll.mpr (.inr ?_), ?_, ?_⟩
  · rw [request_nodes hl]
    exact List.mem_map.mp (mem_payload_node_ids.mpr (hparent p (hp.trans hparentId)))
  · rw [← hd, ← hdid]
    exact hdata d hdmem
  · rw [← he, hid]
    exact hexe

theorem references_hold (hl : (u.payload env).stackNodes.length ≤ bindLimit / 4)
    (hres : u.Resolves env)
    (hdata : ∀ d ∈ u.frameRows env, ((u.request env).applyTo db).stackNodeData.Has d.id)
    {n : StackNode} (hn : n ∈ (u.request env).nodes) :
    ((u.request env).applyTo db).resolves n = true := by
  let before : Db := { (u.request env).applyTo db with stackNode := db.stackNode }
  have hexe : before.executable.Has (u.executableId env) := by
    refine Table.has_upsertAll.mpr (.inr ⟨stamp (u.request env) (u.executableRow env), ?_, rfl⟩)
    rw [request_executables hres]
    exact List.mem_singleton_self _
  exact @node_resolves env u before hl hdata hexe n hn

end Upload

end Sto
