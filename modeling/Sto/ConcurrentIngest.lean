import Sto.Totals

namespace Sto

open Library

variable {env : Externals} {pg : Postgres}

section Success

variable {s : System Upload Db SqlError} {us : List Upload} {i : ℕ} {j : Job Upload SqlError}

theorem room_of_totals {f : Upload → ℤ} (hf : ∀ u, 0 ≤ f u) (hfit : (us.map f).sum < 2 ^ 63)
    (hreq : s.jobs.map Job.request = us) (hj : s.jobs[i]? = some j) :
    Room ((s.past (j.stage + 1)).map f).sum (f j.request) where
  stored_nonneg := totals_nonneg hf _
  added_nonneg := hf _
  sum_lt := (sum_past_le hf hreq hj).trans_lt hfit

theorem Replay.room_for_executable (h : Replay env s) (hsum : SumsFit env us)
    (hreq : s.jobs.map Job.request = us) (hj : s.jobs[i]? = some j) (hstage : j.stage = 1)
    (hres : j.request.Resolves env) : j.request.RoomForExecutable env s.store.executable := by
  intro c hc
  have hcounter := counter_of_mem hc
  have hroom := room_of_totals
    (fun u ↦ carried_executables_nonneg hcounter u (j.request.executableId env))
    (hsum.executables c hc _) hreq hj
  rw [hstage, carried_own hres] at hroom
  rw [h.executable_weight hcounter]
  exact hroom

theorem Replay.room_for_nodes (h : Replay env s) (hsum : SumsFit env us)
    (hreq : s.jobs.map Job.request = us) (hj : s.jobs[i]? = some j) (hstage : j.stage = 2) :
    j.request.RoomForNodes env s.store.stackNode := by
  intro n hn
  have hroom := room_of_totals (fun u : Upload ↦ carried_nodes_nonneg u n.id) (hsum.nodes n.id)
    hreq hj
  rw [hstage, carried_of_mem j.request.nodes_nodup hn] at hroom
  rw [h.node_weight]
  exact hroom

theorem Replay.step_succeeds (h : Replay env s) (hsum : SumsFit env us)
    (hreq : s.jobs.map Job.request = us) (hj : s.jobs[i]? = some j)
    (hl : j.request.WithinLimit env) (hres : j.request.Resolves env)
    (ha : j.request.Acceptable pg env) {tx : Db → Except SqlError Db}
    (htx : (program pg env j.request)[j.stage]? = some tx) : ∃ st, tx s.store = .ok st := by
  obtain ⟨_, rfl⟩ | ⟨hstage, rfl⟩ | ⟨hstage, rfl⟩ := program_cases htx
  · obtain ⟨hadmitted, hindexable⟩ := Upload.datas_accepted ha hres
    have hframes := (h.frameRows.append j.request).underOneId
    exact ⟨_, insertStackNodeData_of_admits hframes hadmitted hindexable⟩
  · obtain ⟨hadmitted, hfit⟩ :=
      Upload.executables_accepted ha hres (h.room_for_executable hsum hreq hj hstage hres)
    exact ⟨_, insertExecutable_ok.mpr ⟨hadmitted, Upload.executables_nodup hres, hfit, rfl⟩⟩
  · obtain ⟨hadmitted, hfit⟩ :=
      Upload.nodes_accepted hres (h.room_for_nodes hsum hreq hj hstage)
    have hpast : j.request ∈ s.past 2 :=
      System.mem_past.mpr ⟨j, List.mem_of_getElem? hj, hstage.ge, rfl⟩
    refine ⟨_, insertStackNode_ok.mpr
      ⟨hadmitted, j.request.request_nodes_nodup, hfit, rfl, fun n hn _ ↦ ?_⟩⟩
    refine Upload.node_resolves hl.1 (fun d hd ↦ ?_) ((h.has_executable _).mpr ⟨_, hpast, rfl⟩) hn
    exact (h.has_data_iff _).mpr ⟨_, past_mono (by omega) hpast, d, hd, rfl⟩

end Success

/-- An upload that resolves a frame is never refused, whatever becomes of the others. -/
theorem resolving_run {us : List Upload} (hl : ∀ u ∈ us, u.WithinLimit env)
    (ha : ∀ u ∈ us, u.Resolves env → u.Acceptable pg env) (hsum : SumsFit env us)
    (sched : List ℕ) :
    ∀ j ∈ (reached pg env us sched).jobs,
      j.request.Resolves env → j.error = none := by
  have hstart : ∀ j ∈ (System.start Db.empty us : System Upload Db SqlError).jobs,
      j.request.Resolves env → j.error = none := by
    intro j hj _
    obtain ⟨u, _, rfl⟩ := List.mem_map.mp hj
    rfl
  refine ((System.run_induction
    (P := fun s ↦ Replay env s ∧ ∀ j ∈ s.jobs, j.request.Resolves env → j.error = none)
    ⟨.start us, hstart⟩ ?_ ?_ sched).1).2
  · intro s i j tx st hx hreq hj herr htx hst
    obtain ⟨h, hnone⟩ := hx
    refine ⟨h.commit (hl _ (mem_of_getElem (hreq.trans (start_requests us)) hj)) hj htx hst, ?_⟩
    intro j' hj' hres
    rcases List.mem_or_eq_of_mem_set hj' with hj' | rfl
    · exact hnone j' hj' hres
    · exact herr
  · intro s i j tx e hx hreq hj herr htx hst
    obtain ⟨h, hnone⟩ := hx
    refine ⟨h.fail hj e, ?_⟩
    intro j' hj' hres
    rcases List.mem_or_eq_of_mem_set hj' with hj' | rfl
    · exact hnone j' hj' hres
    · have hreq' := hreq.trans (start_requests us)
      have hmem := mem_of_getElem hreq' hj
      obtain ⟨st, hok⟩ := h.step_succeeds hsum hreq' hj (hl _ hmem) hres (ha _ hmem hres) htx
      rw [hok] at hst
      cases hst

instance (u : Upload) : Decidable (u.Resolves env) :=
  inferInstanceAs (Decidable (∃ path ∈ u.paths env, path ≠ []))

/-- When nothing is left to run, the uploads that resolve a frame have committed
everything, and the others nothing. -/
theorem past_of_finished {us : List Upload} (hl : ∀ u ∈ us, u.WithinLimit env)
    (ha : ∀ u ∈ us, u.Resolves env → u.Acceptable pg env) (hsum : SumsFit env us)
    (sched : List ℕ)
    (hfin : ∀ j ∈ (reached pg env us sched).jobs,
      j.next (program pg env) = none) {k : ℕ} (hk : 1 ≤ k) (hk' : k ≤ 3) :
    (reached pg env us sched).past k =
      us.filter fun u ↦ u.Resolves env := by
  have hnone := resolving_run hl ha hsum sched
  have hreplay := replay_run pg hl sched
  have hreq := run_requests pg env us sched
  generalize reached pg env us sched = s at *
  rw [← hreq, List.filter_map, System.past]
  refine congrArg _ (List.filter_congr fun j hj ↦ ?_)
  refine decide_eq_decide.mpr ⟨fun hstage ↦ ?_, fun hres ↦ ?_⟩
  · exact hreplay.resolves _ (System.mem_past.mpr ⟨j, hj, hk.trans hstage, rfl⟩)
  · have hnext := hfin j hj
    rw [Job.next, hnone j hj hres] at hnext
    exact hk'.trans (List.getElem?_eq_none_iff.mp hnext)

/-- Each id that some payload carries has a row, and its counters are the sums of what the
payloads carry for it. -/
structure Db.AddsUp (env : Externals) (us : List Upload) (db : Db) : Prop where
  has_data : ∀ k, db.stackNodeData.Has k ↔
    ∃ u ∈ us, k ∈ (u.payload env).stackNodeDatas.map StackNodeData.id
  has_executable : ∀ k, db.executable.Has k ↔
    ∃ u ∈ us, k ∈ (u.payload env).profiledBinaries.map Executable.id
  has_node : ∀ k, db.stackNode.Has k ↔ ∃ u ∈ us, k ∈ (u.payload env).stackNodes.map StackNode.id
  nodes : ∀ k, db.stackNode.weight StackNode.sampleCount k = nodeTotal env us k
  executables : ∀ c ∈ counters, ∀ k, db.executable.weight c k = executableTotal env c us k

theorem mem_payload_executable_ids {u : Upload} (h : u.Resolves env) {k : Int64} :
    k ∈ (u.payload env).profiledBinaries.map Executable.id ↔ u.executableId env = k := by
  rw [Upload.payload_executables, if_neg (Upload.batchStacks_ne h), List.map_singleton,
    List.mem_singleton, eq_comm]
  rfl

theorem Replay.addsUp {s : System Upload Db SqlError} (h : Replay env s) {us : List Upload}
    (hpast : ∀ k, 1 ≤ k → k ≤ 3 → s.past k = us) : s.store.AddsUp env us := by
  have hdata := hpast 1 (by omega) (by omega)
  have hexe := hpast 2 (by omega) (by omega)
  have hnode := hpast 3 (by omega) (by omega)
  refine ⟨fun k ↦ ?_, fun k ↦ ?_, fun k ↦ ?_, fun k ↦ ?_, fun c hc k ↦ ?_⟩
  · rw [h.has_data_iff, hdata]
    simp only [Upload.mem_payload_data_ids]
  · rw [h.has_executable, hexe]
    refine exists_congr fun u ↦ and_congr_right fun hu ↦ ?_
    rw [mem_payload_executable_ids (h.resolves u (hdata ▸ hu))]
  · rw [h.has_node, hnode]
  · rw [h.node_weight, hnode]
  · rw [h.executable_weight (counter_of_mem hc), hexe]

/-- No transaction of any interleaving is refused, and the last state adds up. -/
theorem concurrent_ingests_add_up {us : List Upload} (hl : ∀ u ∈ us, u.WithinLimit env)
    (hres : ∀ u ∈ us, u.Resolves env) (ha : ∀ u ∈ us, u.Acceptable pg env)
    (hsum : SumsFit env us) (sched : List ℕ) :
    (∀ j ∈ (reached pg env us sched).jobs, j.error = none) ∧
      ((∀ j ∈ (reached pg env us sched).jobs,
          j.next (program pg env) = none) →
        (reached pg env us sched).store.AddsUp env us) := by
  refine ⟨fun j hj ↦ ?_, fun hfin ↦ ?_⟩
  · refine resolving_run hl (fun u hu _ ↦ ha u hu) hsum sched j hj (hres _ ?_)
    have hmem := List.mem_map_of_mem (f := Job.request) hj
    rwa [run_requests] at hmem
  · apply (replay_run pg hl sched).addsUp
    intro k hk hk'
    rw [past_of_finished hl (fun u hu _ ↦ ha u hu) hsum sched hfin hk hk',
      List.filter_eq_self.mpr fun u hu ↦ decide_eq_true (hres u hu)]

theorem demoUpload_acceptable : demoUpload.Acceptable lenientPostgres demoExternals where
  event := rfl
  version := rfl
  binary := rfl
  frames _ _ := ⟨rfl, by simp [lenientPostgres], rfl⟩

theorem demoUploads_fit : SumsFit demoExternals [demoUpload, demoUpload] :=
  .of_totals (by decide +kernel) (by decide +kernel)

theorem concurrent_ingests_add_up_twice :
    let s := reached lenientPostgres demoExternals [demoUpload, demoUpload] [0, 1, 1, 0, 0, 1]
    (∀ j ∈ s.jobs, j.error = none) ∧
      ((∀ j ∈ s.jobs, j.next (program lenientPostgres demoExternals) = none) →
        s.store.AddsUp demoExternals [demoUpload, demoUpload]) := by
  refine concurrent_ingests_add_up ?_ ?_ ?_ demoUploads_fit [0, 1, 1, 0, 0, 1] <;>
    intro u hu <;> obtain rfl : u = demoUpload := by simpa using hu
  · exact demoUpload_withinLimit
  · decide +kernel
  · exact demoUpload_acceptable

end Sto
