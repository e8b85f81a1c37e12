import Sto.ConcurrentIngest
import Sto.Regular

namespace Sto

open Library

variable {env : Externals} {pg : Postgres} {u u₁ u₂ w : Upload} {us : List Upload} {db : Db}

/-- The samples of `w` are those of `u₁` followed by those of `u₂`. -/
structure Upload.Joins (w u₁ u₂ : Upload) : Prop where
  args₁ : u₁.args = w.args
  args₂ : u₂.args = w.args
  symlists : w.symlists = u₁.symlists ++ u₂.symlists

theorem Db.Fits.applyTo (h : db.Fits env (u :: us)) : ((u.request env).applyTo db).Fits env us where
  nodes k := by
    have hcarried := (@carried_nodes_request env u k).2
    have hsum := h.nodes k
    rw [nodeTotal, List.map_cons, List.sum_cons, ← nodeTotal] at hsum
    rw [Request.applyTo, upsert_nodes_weight]
    omega
  executables c hc k := by
    rw [Request.applyTo, upsert_executables_weight (counter_of_mem hc), add_assoc]
    exact h.executables c hc k

theorem Db.Regular.ingest_whole (h : db.Regular env) (hfit : db.Fits env (u :: us))
    (hl : u.WithinLimit env) (hres : u.Resolves env) (ha : u.Acceptable pg env) :
    dataIngest pg (u.request env) db = ((u.request env).applyTo db, none) := by
  refine (h.ingest hfit hres ha).1 fun n hn _ ↦ Upload.references_hold hl.1 hres (fun d hd ↦ ?_) hn
  obtain ⟨x, hx, hid⟩ := List.mem_map.mp (Upload.mem_payload_data_ids.mpr ⟨d, hd, rfl⟩)
  exact Table.has_upsertAll.mpr (.inr ⟨x, (Upload.request_datas hl).symm ▸ hx, hid⟩)

namespace Upload.Joins

variable (h : w.Joins u₁ u₂)

include h

theorem executableId₁ : u₁.executableId env = w.executableId env := by
  rw [Upload.executableId, Upload.executableId, h.args₁]

theorem executableId₂ : u₂.executableId env = w.executableId env := by
  rw [Upload.executableId, Upload.executableId, h.args₂]

theorem paths : w.paths env = u₁.paths env ++ u₂.paths env := by
  rw [Upload.paths, h.symlists, List.map_append]
  rfl

theorem occurrences : w.occurrences env = u₁.occurrences env ++ u₂.occurrences env := by
  simp only [Upload.occurrences_eq, h.executableId₁, h.executableId₂, h.paths, List.flatMap_append]

theorem frameRows : w.frameRows env = u₁.frameRows env ++ u₂.frameRows env := by
  simp only [Upload.frameRows_eq, h.paths, List.flatten_append, List.map_append]

theorem resolves (hres : u₁.Resolves env) : w.Resolves env := by
  obtain ⟨path, hpath, hne⟩ := hres
  exact ⟨path, h.paths ▸ List.mem_append_left _ hpath, hne⟩

end Upload.Joins

theorem withinLimit_of_subset {u w : Upload} (hl : w.WithinLimit env)
    (hnodes : ∀ n ∈ u.occurrences env, n ∈ w.occurrences env)
    (hdatas : ∀ d ∈ u.frameRows env, d ∈ w.frameRows env) : u.WithinLimit env := by
  refine ⟨?_, ?_⟩
  · have hsub : (u.payload env).stackNodes.map StackNode.id ⊆
        (w.payload env).stackNodes.map StackNode.id := fun k hk ↦ by
      obtain ⟨n, hn, hid⟩ := Upload.mem_payload_node_ids.mp hk
      exact Upload.mem_payload_node_ids.mpr ⟨n, hnodes n hn, hid⟩
    have hle := (List.subperm_of_subset u.nodes_nodup hsub).length_le
    rw [List.length_map, List.length_map] at hle
    exact hle.trans hl.1
  · have hsub : (u.payload env).stackNodeDatas.map StackNodeData.id ⊆
        (w.payload env).stackNodeDatas.map StackNodeData.id := fun k hk ↦ by
      obtain ⟨d, hd, hid⟩ := Upload.mem_payload_data_ids.mp hk
      exact Upload.mem_payload_data_ids.mpr ⟨d, hdatas d hd, hid⟩
    have hle := (List.subperm_of_subset u.datas_nodup hsub).length_le
    rw [List.length_map, List.length_map] at hle
    exact hle.trans hl.2

theorem Upload.Joins.withinLimit (h : w.Joins u₁ u₂) (hl : w.WithinLimit env) :
    u₁.WithinLimit env ∧ u₂.WithinLimit env := by
  constructor <;> refine withinLimit_of_subset hl (fun n hn ↦ ?_) fun d hd ↦ ?_
  · exact h.occurrences ▸ List.mem_append_left _ hn
  · exact h.frameRows ▸ List.mem_append_left _ hd
  · exact h.occurrences ▸ List.mem_append_right _ hn
  · exact h.frameRows ▸ List.mem_append_right _ hd

def Executable.profile (e : Executable) : Executable :=
  { e with processedDataSize := 0, updatedAt := none, createdAt := none }

structure Db.SameProfiles (a b : Db) : Prop where
  datas : a.stackNodeData.Same b.stackNodeData
  executables : ∀ k, (a.executable.lookup k).map Executable.profile =
    (b.executable.lookup k).map Executable.profile
  nodes : a.stackNode.Same b.stackNode

theorem Upload.Joins.profile (h : w.Joins u₁ u₂) (o : Option Executable) :
    (addExecutable.absorb
        (some (addExecutable.absorb o (stamp (u₁.request env) (u₁.executableRow env))))
        (stamp (u₂.request env) (u₂.executableRow env))).profile =
      (addExecutable.absorb o (stamp (w.request env) (w.executableRow env))).profile := by
  have hstacks : batchStacks w.symlists = batchStacks u₁.symlists ++ batchStacks u₂.symlists := by
    rw [batchStacks, h.symlists, List.flatMap_append]
    rfl
  cases o <;>
    simp [Merge.absorb, addExecutable, Executable.profile, stamp, Upload.executableRow, hits,
      hstacks, h.args₁, h.args₂, executableOf, add_assoc]

theorem Upload.Joins.sameProfiles (h : w.Joins u₁ u₂) (hl : w.WithinLimit env)
    (hres₁ : u₁.Resolves env) (hres₂ : u₂.Resolves env) (db : Db) :
    ((u₂.request env).applyTo ((u₁.request env).applyTo db)).SameProfiles
      ((w.request env).applyTo db) := by
  obtain ⟨hl₁, hl₂⟩ := h.withinLimit hl
  refine ⟨?_, fun k ↦ ?_, ?_⟩
  · have hsplit := ((Upload.datas_same hl₁ db.stackNodeData).upsertAll .first
      (u₂.request env).datas).trans (Upload.datas_same hl₂ _)
    rw [← Table.upsertAll_append _ _ (u₁.frameRows env), ← h.frameRows] at hsplit
    exact hsplit.trans (Upload.datas_same hl _).symm
  · simp only [Request.applyTo, Upload.request_executables hres₁, Upload.request_executables hres₂,
      Upload.request_executables (h.resolves hres₁), Table.lookup_upsertAll]
    have hid₁ : (stamp (u₁.request env) (u₁.executableRow env)).id = w.executableId env :=
      h.executableId₁
    have hid₂ : (stamp (u₂.request env) (u₂.executableRow env)).id = w.executableId env :=
      h.executableId₂
    have hid : (stamp (w.request env) (w.executableRow env)).id = w.executableId env := rfl
    by_cases hk : w.executableId env = k
    · simp [hid₁, hid₂, hid, hk, h.profile]
    · simp [hid₁, hid₂, hid, hk]
  · have hsplit := ((Upload.nodes_same hl₁ db.stackNode).upsertAll addStackNode
      (u₂.request env).nodes).trans (Upload.nodes_same hl₂ _)
    rw [← Table.upsertAll_append _ _ (u₁.occurrences env), ← h.occurrences] at hsplit
    exact hsplit.trans (Upload.nodes_same hl _).symm

/-- Two batches leave what their samples in one batch would leave. None of the three
ingests is refused when Postgres takes their texts and the counters stay in range. -/
theorem batch_boundaries_do_not_matter (pg : Postgres) (us : List Upload) (sched : List ℕ)
    (h : w.Joins u₁ u₂) (hl : w.WithinLimit env) (hres₁ : u₁.Resolves env)
    (hres₂ : u₂.Resolves env) :
    let db := (reached pg env us sched).store
    let first := dataIngest pg (u₁.request env) db
    let second := dataIngest pg (u₂.request env) first.1
    let whole := dataIngest pg (w.request env) db
    (first.2 = none → second.2 = none → whole.2 = none → second.1.SameProfiles whole.1) ∧
      (u₁.Acceptable pg env → u₂.Acceptable pg env → w.Acceptable pg env →
        db.Fits env [u₁, u₂] → db.Fits env [w] →
          first.2 = none ∧ second.2 = none ∧ whole.2 = none) := by
  intro db first second whole
  obtain ⟨hl₁, hl₂⟩ := h.withinLimit hl
  have hregular : db.Regular env := regular_run pg env us sched
  have hregular₁ := hregular.applyTo u₁
  refine ⟨fun hfirst hsecond hwhole ↦ ?_, fun ha₁ ha₂ ha hfits hfit ↦ ?_⟩
  · have hfirst' : first.1 = (u₁.request env).applyTo db :=
      dataIngest_eq (hregular.frames.append u₁).underOneId hfirst
    have hsecond' : second.1 = (u₂.request env).applyTo first.1 := by
      refine dataIngest_eq ?_ hsecond
      rw [hfirst']
      exact (hregular₁.frames.append u₂).underOneId
    have hwhole' : whole.1 = (w.request env).applyTo db :=
      dataIngest_eq (hregular.frames.append w).underOneId hwhole
    rw [hsecond', hfirst', hwhole']
    exact h.sameProfiles hl hres₁ hres₂ db
  · have hfirst : first = ((u₁.request env).applyTo db, none) :=
      hregular.ingest_whole hfits hl₁ hres₁ ha₁
    refine ⟨by rw [hfirst], ?_, ?_⟩
    · change (dataIngest pg (u₂.request env) first.1).2 = none
      rw [hfirst, hregular₁.ingest_whole hfits.applyTo hl₂ hres₂ ha₂]
    · change (dataIngest pg (w.request env) db).2 = none
      rw [hregular.ingest_whole hfit hl (h.resolves hres₁) ha]

def demoJoined : Upload :=
  { demoUpload with symlists := demoUpload.symlists ++ demoUpload.symlists }

theorem demoJoined_payload : demoJoined.payload demoExternals =
    { stackNodes := [⟨6289059828643931365, none, 2465835249415133397, 9544298, 2⟩]
      stackNodeDatas := [⟨2465835249415133397, "main", some "/src/main.c", some 3⟩]
      profiledBinaries := [⟨9544298, "Cycles", none, "demo", none, none, 2, 2, 1⟩] } := by
  decide +kernel

theorem demo_fits {us : List Upload} (h : SumsFit demoExternals us) :
    Db.empty.Fits demoExternals us where
  nodes k := (zero_add _).trans_lt (h.nodes k)
  executables c hc k := (zero_add _).trans_lt (h.executables c hc k)

theorem demoJoined_fits : SumsFit demoExternals [demoJoined] :=
  .of_totals (by decide +kernel) (by decide +kernel)

theorem batch_boundaries_do_not_matter_demo :
    let first := dataIngest lenientPostgres (demoUpload.request demoExternals) .empty
    let second := dataIngest lenientPostgres (demoUpload.request demoExternals) first.1
    let whole := dataIngest lenientPostgres (demoJoined.request demoExternals) .empty
    first.2 = none ∧ second.2 = none ∧ whole.2 = none ∧ second.1.SameProfiles whole.1 := by
  have hl : demoJoined.WithinLimit demoExternals := by
    rw [Upload.WithinLimit, demoJoined_payload]
    decide
  have hres : demoUpload.Resolves demoExternals := by decide +kernel
  have hjoins : demoJoined.Joins demoUpload demoUpload := ⟨rfl, rfl, rfl⟩
  obtain ⟨hsame, hok⟩ := batch_boundaries_do_not_matter lenientPostgres [] [] hjoins hl hres hres
  obtain ⟨hfirst, hsecond, hwhole⟩ := hok demoUpload_acceptable demoUpload_acceptable
    ⟨rfl, rfl, rfl, fun _ _ ↦ ⟨rfl, by simp [lenientPostgres], rfl⟩⟩ (demo_fits demoUploads_fit)
    (demo_fits demoJoined_fits)
  exact ⟨hfirst, hsecond, hwhole, hsame hfirst hsecond hwhole⟩

end Sto
