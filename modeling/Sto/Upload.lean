import Sto.Aggregation
import Sto.Ingest

namespace Sto

open Library

instance : Std.Associative addStackNode.op :=
  ⟨fun a b c ↦ by simp [addStackNode, add_assoc]⟩

instance : Std.Associative addExecutable.op :=
  ⟨fun a b c ↦ by simp [addExecutable, add_assoc]⟩

instance {κ ρ : Type} {key : ρ → κ} : Std.Associative (Merge.first : Merge key).op :=
  ⟨fun _ _ _ ↦ rfl⟩

/-- A batch on its way to the server, with everything that decides what the server sees. -/
structure Upload where
  args : Args
  symlists : List (List (List SymbolizedResult))
  order : Arrangement
  utcNow : Timestamp
  dbNow : Timestamp

namespace Upload

variable (env : Externals)

def payload (u : Upload) : StoData := processAndSinkData env u.order u.args u.symlists

def request (u : Upload) : Request := ⟨u.payload env, u.utcNow, u.dbNow⟩

def executableId (u : Upload) : Int64 := (executableOf env u.args).id

def paths (u : Upload) : List (List Frame) := u.symlists.map (resolvedPath env)

def occurrences (u : Upload) : List StackNode := batchNodes env (u.executableId env) u.symlists

def frameRows (u : Upload) : List StackNodeData := batchDatas env u.symlists

def Resolves (u : Upload) : Prop := ∃ path ∈ u.paths env, path ≠ []

/-- The payload is one that the server takes in whole. -/
def WithinLimit (u : Upload) : Prop :=
  (u.payload env).stackNodes.length ≤ bindLimit / 4 ∧
    (u.payload env).stackNodeDatas.length ≤ bindLimit / 4

instance (u : Upload) : Decidable (u.WithinLimit env) :=
  inferInstanceAs (Decidable ((u.payload env).stackNodes.length ≤ bindLimit / 4 ∧
    (u.payload env).stackNodeDatas.length ≤ bindLimit / 4))

theorem occurrences_eq (u : Upload) :
    u.occurrences env = (u.paths env).flatMap (pathNodes env (u.executableId env) none) := by
  rw [occurrences, batchNodes, paths, List.flatMap_map]

theorem frameRows_eq (u : Upload) : u.frameRows env = (u.paths env).flatten.map (dataRow env) := by
  rw [frameRows, batchDatas, paths, List.map_flatten, List.map_map, List.flatMap]
  rfl

variable {env}

theorem request_nodes {u : Upload} (h : (u.payload env).stackNodes.length ≤ bindLimit / 4) :
    (u.request env).nodes = (u.payload env).stackNodes := List.take_of_length_le h

theorem request_datas {u : Upload} (h : u.WithinLimit env) :
    (u.request env).datas = (u.payload env).stackNodeDatas := List.take_of_length_le h.2

theorem mem_request_nodes {u : Upload} {n : StackNode} (h : n ∈ (u.request env).nodes) :
    n ∈ (u.payload env).stackNodes := List.mem_of_mem_take h

theorem mem_request_datas {u : Upload} {d : StackNodeData} (h : d ∈ (u.request env).datas) :
    d ∈ (u.payload env).stackNodeDatas := List.mem_of_mem_take h

theorem resolves_iff_frameRows {u : Upload} : u.Resolves env ↔ u.frameRows env ≠ [] := by
  rw [frameRows_eq, Ne, List.map_eq_nil_iff, List.flatten_eq_nil_iff, Resolves]
  push Not
  rfl

theorem resolves_iff_occurrences {u : Upload} : u.Resolves env ↔ u.occurrences env ≠ [] := by
  rw [occurrences_eq, Ne, List.flatMap_eq_nil_iff, Resolves]
  push Not
  refine exists_congr fun path ↦ and_congr_right fun _ ↦ ?_
  cases path <;> simp [pathNodes]

theorem payload_nodes (u : Upload) : (u.payload env).stackNodes.Perm
    ((Table.empty : Table StackNode.id).upsertAll addStackNode (u.occurrences env)).rows :=
  payload_stackNodes env u.order u.args u.symlists

theorem payload_datas (u : Upload) : (u.payload env).stackNodeDatas.Perm
    ((Table.empty : Table StackNodeData.id).upsertAll .first (u.frameRows env)).rows :=
  payload_stackNodeDatas env u.order u.args u.symlists

theorem nodes_same {u : Upload} (h : u.WithinLimit env) (t : Table StackNode.id) :
    (t.upsertAll addStackNode (u.request env).nodes).Same
      (t.upsertAll addStackNode (u.occurrences env)) := by
  rw [request_nodes h.1]
  exact Table.upsertAll_gathered _ t u.payload_nodes

theorem datas_same {u : Upload} (h : u.WithinLimit env) (t : Table StackNodeData.id) :
    (t.upsertAll .first (u.request env).datas).Same (t.upsertAll .first (u.frameRows env)) := by
  rw [request_datas h]
  exact Table.upsertAll_gathered _ t u.payload_datas

theorem nodes_nodup (u : Upload) : ((u.payload env).stackNodes.map StackNode.id).Nodup :=
  u.payload_nodes.map _ |>.nodup_iff.mpr (Table.nodup _)

theorem datas_nodup (u : Upload) : ((u.payload env).stackNodeDatas.map StackNodeData.id).Nodup :=
  u.payload_datas.map _ |>.nodup_iff.mpr (Table.nodup _)

theorem mem_payload_node_ids {u : Upload} {k : Int64} :
    k ∈ (u.payload env).stackNodes.map StackNode.id ↔ ∃ o ∈ u.occurrences env, o.id = k := by
  rw [(u.payload_nodes.map StackNode.id).mem_iff]
  change (Table.upsertAll _ _ _).Has k ↔ _
  rw [Table.has_upsertAll]
  exact ⟨fun h ↦ h.resolve_left (by rintro ⟨⟩), .inr⟩

theorem mem_payload_data_ids {u : Upload} {k : Int64} :
    k ∈ (u.payload env).stackNodeDatas.map StackNodeData.id ↔ ∃ d ∈ u.frameRows env, d.id = k := by
  rw [(u.payload_datas.map StackNodeData.id).mem_iff]
  change (Table.upsertAll _ _ _).Has k ↔ _
  rw [Table.has_upsertAll]
  exact ⟨fun h ↦ h.resolve_left (by rintro ⟨⟩), .inr⟩

def executableRow (env : Externals) (u : Upload) : Executable :=
  { hits env (executableOf env u.args) (batchStacks u.symlists) with
    processedDataSize := env.stoSize ((gather env u.args u.symlists).dataOut u.order) }

theorem payload_executables (u : Upload) :
    (u.payload env).profiledBinaries =
      if batchStacks u.symlists = [] then [] else [u.executableRow env] :=
  payload_profiledBinaries env u.order u.args u.symlists

theorem batchStacks_ne {u : Upload} (h : u.Resolves env) : batchStacks u.symlists ≠ [] := by
  obtain ⟨path, hpath, hne⟩ := h
  obtain ⟨symlist, hmem, rfl⟩ := List.mem_map.mp hpath
  intro hnil
  have hs := List.flatMap_eq_nil_iff.mp hnil symlist hmem
  simp [resolvedPath, hs] at hne

theorem request_executables {u : Upload} (h : u.Resolves env) :
    (u.request env).executables = [stamp (u.request env) (u.executableRow env)] := by
  rw [Request.executables]
  change ((u.payload env).profiledBinaries.take _).map _ = _
  rw [payload_executables, if_neg (batchStacks_ne h)]
  rfl

theorem request_nodes_nodup (u : Upload) : ((u.request env).nodes.map StackNode.id).Nodup :=
  u.nodes_nodup.sublist ((List.take_sublist _ _).map _)

theorem payload_datas_eq_nil {u : Upload} :
    (u.payload env).stackNodeDatas = [] ↔ ¬ u.Resolves env := by
  rw [resolves_iff_frameRows, not_not, ← List.map_eq_nil_iff (f := StackNodeData.id),
    List.eq_nil_iff_forall_not_mem]
  simp [mem_payload_data_ids, List.eq_nil_iff_forall_not_mem]

theorem payload_nodes_eq_nil {u : Upload} :
    (u.payload env).stackNodes = [] ↔ ¬ u.Resolves env := by
  rw [resolves_iff_occurrences, not_not, ← List.map_eq_nil_iff (f := StackNode.id),
    List.eq_nil_iff_forall_not_mem]
  simp [mem_payload_node_ids, List.eq_nil_iff_forall_not_mem]

theorem take_limit_eq_nil {α : Type} {l : List α} : l.take (bindLimit / 4) = [] ↔ l = [] :=
  List.take_eq_nil_iff.trans (or_iff_right (by simp [bindLimit]))

theorem request_datas_eq_nil {u : Upload} : (u.request env).datas = [] ↔ ¬ u.Resolves env :=
  take_limit_eq_nil.trans payload_datas_eq_nil

theorem request_nodes_eq_nil {u : Upload} : (u.request env).nodes = [] ↔ ¬ u.Resolves env :=
  take_limit_eq_nil.trans payload_nodes_eq_nil

theorem executables_nodup {u : Upload} (h : u.Resolves env) :
    ((u.request env).executables.map Executable.id).Nodup := by
  rw [request_executables h]
  exact List.nodup_singleton _

theorem mem_frameRows {u : Upload} {d : StackNodeData} (h : d ∈ u.frameRows env) :
    d = dataRow env ⟨d.symbol, d.file, d.lineNumber⟩ := by
  rw [frameRows_eq] at h
  obtain ⟨f, _, rfl⟩ := List.mem_map.mp h
  rfl

theorem pathNodes_refs {e : Int64} {p : Option Int64} {path : List Frame} {n : StackNode}
    (h : n ∈ pathNodes env e p path) :
    (n.parentId = p ∨ ∃ m ∈ pathNodes env e p path, n.parentId = some m.id) ∧
      ∃ f ∈ path, n.stackNodeDataId = (dataRow env f).id := by
  induction path generalizing p with
  | nil => cases h
  | cons f path ih =>
    rcases List.mem_cons.mp h with rfl | h
    · exact ⟨.inl rfl, f, by simp, rfl⟩
    · obtain ⟨hp, g, hg, hd⟩ := ih h
      refine ⟨.inr ?_, g, by simp [hg], hd⟩
      rcases hp with hp | ⟨m, hm, hp⟩
      · exact ⟨_, List.mem_cons_self, hp⟩
      · exact ⟨m, List.mem_cons_of_mem _ hm, hp⟩

theorem occurrence_refs {u : Upload} {n : StackNode} (h : n ∈ u.occurrences env) :
    (∀ p, n.parentId = some p → ∃ m ∈ u.occurrences env, m.id = p) ∧
      (∃ d ∈ u.frameRows env, d.id = n.stackNodeDataId) ∧ n.executableId = u.executableId env ∧
      n.sampleCount = 1 := by
  have hcount := batchNodes_count env h
  rw [occurrences_eq] at h ⊢
  rw [frameRows_eq]
  obtain ⟨path, hpath, hn⟩ := List.mem_flatMap.mp h
  obtain ⟨hp, f, hf, hd⟩ := pathNodes_refs hn
  refine ⟨fun p hparent ↦ ?_, ⟨dataRow env f, ?_, hd.symm⟩, hcount.2, hcount.1⟩
  · rcases hp with hp | ⟨m, hm, hp⟩
    · rw [hp] at hparent
      cases hparent
    · exact ⟨m, List.mem_flatMap.mpr ⟨path, hpath, hm⟩, Option.some_inj.mp (hp.symm.trans hparent)⟩
  · exact List.mem_map_of_mem (List.mem_flatten.mpr ⟨path, hpath, hf⟩)

theorem payload_node_source {u : Upload} {n : StackNode} (h : n ∈ (u.payload env).stackNodes) :
    ∃ o ∈ u.occurrences env, o.id = n.id ∧ o.parentId = n.parentId ∧
      o.stackNodeDataId = n.stackNodeDataId ∧ o.executableId = n.executableId := by
  have hrow := u.payload_nodes.mem_iff.mp h
  obtain ⟨o, ho, hk, hf⟩ := Table.exists_source
    (f := fun n : StackNode ↦ (n.parentId, n.stackNodeDataId, n.executableId)) (fun _ _ ↦ rfl) hrow
  obtain ho | ho := ho
  · cases ho
  · simp only [Prod.mk.injEq] at hf
    exact ⟨o, ho, hk, hf.1, hf.2.1, hf.2.2⟩

end Upload

def samplesOf (env : Externals) (us : List Upload) (e : Int64) : List (List Frame) :=
  (us.filter fun u ↦ u.executableId env = e).flatMap (Upload.paths env)

def demoExternals : Externals where
  hash64 bytes := bytes.foldl (fun h b ↦ h * 31 + b.toUInt64) 7
  tryDemangle s := s
  stackSize s := s.length
  stoSize d := d.stackNodes.length
  blazesym _ _ := []

def demoUpload : Upload where
  args := ⟨1, .cycles, "demo", none⟩
  symlists := [[[⟨"main", "/src/main.c", 3⟩]]]
  order := .asIs
  utcNow := 0
  dbNow := 0

theorem demoUpload_payload : demoUpload.payload demoExternals =
    { stackNodes := [⟨6289059828643931365, none, 2465835249415133397, 9544298, 1⟩]
      stackNodeDatas := [⟨2465835249415133397, "main", some "/src/main.c", some 3⟩]
      profiledBinaries := [⟨9544298, "Cycles", none, "demo", none, none, 1, 1, 1⟩] } := by
  decide +kernel

theorem demoUpload_withinLimit : demoUpload.WithinLimit demoExternals := by
  rw [Upload.WithinLimit, demoUpload_payload]
  decide

def demoCall (order : Arrangement) : Upload :=
  { demoUpload with
    symlists := [[[⟨"work", "/src/main.c", 9⟩], [⟨"main", "/src/main.c", 3⟩]]]
    order := order }

theorem demoCall_payload : (demoCall .asIs).payload demoExternals =
    { stackNodes :=
        [⟨6289059828643931365, none, 2465835249415133397, 9544298, 1⟩,
          ⟨1905402208037065555, some 6289059828643931365, 8448817412599526695, 9544298, 1⟩]
      stackNodeDatas :=
        [⟨2465835249415133397, "main", some "/src/main.c", some 3⟩,
          ⟨8448817412599526695, "work", some "/src/main.c", some 9⟩]
      profiledBinaries := [⟨9544298, "Cycles", none, "demo", none, none, 2, 2, 2⟩] } := by
  decide +kernel

theorem demoCall_withinLimit : (demoCall .asIs).WithinLimit demoExternals := by
  rw [Upload.WithinLimit, demoCall_payload]
  decide

end Sto
