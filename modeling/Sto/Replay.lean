import Sto.Upload

namespace Sto

open Library

variable {env : Externals} {pg : Postgres}

/-- Every stored frame is filed under the id of its own text. -/
def FrameRows (env : Externals) (ds : List StackNodeData) : Prop :=
  ∀ d ∈ ds, d = dataRow env ⟨d.symbol, d.file, d.lineNumber⟩

theorem FrameRows.underOneId {ds : List StackNodeData} (h : FrameRows env ds) :
    FramesUnderOneId ds := by
  intro a ha b hb hs hf hl
  rw [h a ha, h b hb, hs, hf, hl]

theorem mem_upsertAll_first {κ ρ : Type} [DecidableEq κ] {key : ρ → κ} {t : Table key}
    {rs : List ρ} {x : ρ} (h : x ∈ (t.upsertAll .first rs).rows) : x ∈ t.rows ∨ x ∈ rs := by
  obtain ⟨y, hy, _, he⟩ := Table.exists_source (f := id) (fun _ _ ↦ rfl) h
  exact (show y = x from he) ▸ hy

theorem payload_data_source {u : Upload} {d : StackNodeData}
    (h : d ∈ (u.payload env).stackNodeDatas) : d ∈ u.frameRows env := by
  obtain ⟨⟨⟩⟩ | hd := mem_upsertAll_first (u.payload_datas.mem_iff.mp h)
  exact hd

theorem frameRows_payload (u : Upload) : FrameRows env (u.payload env).stackNodeDatas := by
  intro d hd
  exact Upload.mem_frameRows (payload_data_source hd)

theorem FrameRows.append {ds : List StackNodeData} (h : FrameRows env ds) (u : Upload) :
    FrameRows env (ds ++ (u.request env).datas) := by
  intro d hd
  rcases List.mem_append.mp hd with hd | hd
  · exact h d hd
  · exact frameRows_payload u d (Upload.mem_request_datas hd)

def program (pg : Postgres) (env : Externals) (u : Upload) : List (Db → Except SqlError Db) :=
  transactions pg (u.request env)

/-- The state that an interleaving of uploads leads to, from an empty database. -/
abbrev reached (pg : Postgres) (env : Externals) (us : List Upload) (sched : List ℕ) :
    System Upload Db SqlError :=
  (System.start Db.empty us).run (program pg env) sched

theorem program_cases {u : Upload} {n : ℕ} {tx : Db → Except SqlError Db}
    (h : (program pg env u)[n]? = some tx) :
    (n = 0 ∧ tx = insertStackNodeData pg (u.request env)) ∨
    (n = 1 ∧ tx = insertExecutable pg (u.request env)) ∨
    (n = 2 ∧ tx = insertStackNode (u.request env)) := by
  match n, h with
  | 0, h => exact .inl ⟨rfl, (Option.some_inj.mp h).symm⟩
  | 1, h => exact .inr (.inl ⟨rfl, (Option.some_inj.mp h).symm⟩)
  | 2, h => exact .inr (.inr ⟨rfl, (Option.some_inj.mp h).symm⟩)

/-- Each table is what its inserts, in the order of their commits and one occurrence at a
time, make of an empty one. -/
structure Replay (env : Externals) (s : System Upload Db SqlError) : Prop where
  datas : ∃ us : List Upload, us.Perm (s.past 1) ∧
    s.store.stackNodeData.Same (Table.empty.upsertAll .first (us.flatMap (Upload.frameRows env)))
  executables : ∃ us : List Upload, us.Perm (s.past 2) ∧ s.store.executable =
    Table.empty.upsertAll addExecutable (us.flatMap fun u ↦ (u.request env).executables)
  nodes : ∃ us : List Upload, us.Perm (s.past 3) ∧
    s.store.stackNode.Same
      (Table.empty.upsertAll addStackNode (us.flatMap (Upload.occurrences env)))
  resolves : ∀ u ∈ s.past 1, u.Resolves env

theorem Replay.start (us : List Upload) : Replay env (System.start Db.empty us) where
  datas := ⟨[], by rw [System.past_start], .refl _⟩
  executables := ⟨[], by rw [System.past_start], rfl⟩
  nodes := ⟨[], by rw [System.past_start], .refl _⟩
  resolves u hu := by rw [System.past_start] at hu; cases hu

theorem Replay.frameRows {s : System Upload Db SqlError} (h : Replay env s) :
    FrameRows env s.store.stackNodeData.rows := by
  intro d hd
  obtain ⟨us, _, hus⟩ := h.datas
  obtain hd | hd := mem_upsertAll_first (hus.perm.mem_iff.mp hd)
  · cases hd
  · obtain ⟨u, _, hd⟩ := List.mem_flatMap.mp hd
    exact Upload.mem_frameRows hd

theorem past_mono {s : System Upload Db SqlError} {k l : ℕ} (hkl : k ≤ l) {u : Upload}
    (h : u ∈ s.past l) : u ∈ s.past k := by
  obtain ⟨j, hj, hstage, rfl⟩ := System.mem_past.mp h
  exact System.mem_past.mpr ⟨j, hj, hkl.trans hstage, rfl⟩

theorem exists_order {s : System Upload Db SqlError} {i : ℕ} {j : Job Upload SqlError}
    (hj : s.jobs[i]? = some j) (st : Db) {us : List Upload} (h : us.Perm (s.past (j.stage + 1))) :
    (us ++ [j.request]).Perm
      ((⟨st, s.jobs.set i { j with stage := j.stage + 1 }⟩ : System Upload Db SqlError).past
        (j.stage + 1)) :=
  (List.perm_append_singleton _ _).trans ((h.cons _).trans (System.past_commit hj st).symm)

theorem resolves_of_insert {u : Upload} {db db' : Db}
    (h : insertStackNodeData pg (u.request env) db = .ok db') : u.Resolves env := by
  obtain ⟨_, ht, _⟩ := except_map_ok.mp h
  obtain ⟨⟨hne, _⟩, _⟩ := insertOrSkip_ok.mp ht
  exact not_not.mp (mt Upload.request_datas_eq_nil.mpr hne)

theorem Replay.commit {s : System Upload Db SqlError} (h : Replay env s) {i : ℕ}
    {j : Job Upload SqlError} {tx : Db → Except SqlError Db} {st : Db}
    (hl : j.request.WithinLimit env) (hj : s.jobs[i]? = some j)
    (htx : (program pg env j.request)[j.stage]? = some tx) (hst : tx s.store = .ok st) :
    Replay env ⟨st, s.jobs.set i { j with stage := j.stage + 1 }⟩ := by
  have hframes := (h.frameRows.append j.request).underOneId
  obtain ⟨u, n, e⟩ := j
  dsimp only at hl htx hframes
  obtain ⟨hn, rfl⟩ | ⟨hn, rfl⟩ | ⟨hn, rfl⟩ := program_cases htx <;> subst hn
  · obtain ⟨us, hus, hsame⟩ := h.datas
    have hres := resolves_of_insert hst
    obtain rfl := insertStackNodeData_eq hframes hst
    refine ⟨⟨us ++ [u], exists_order hj _ hus, ?_⟩, ?_, ?_, ?_⟩
    · rw [List.flatMap_append, Table.upsertAll_append, List.flatMap_singleton]
      exact (Upload.datas_same hl _).trans (hsame.upsertAll _ _)
    · simpa only [System.past_commit_ne hj _ (show 2 ≠ 0 + 1 by omega)] using h.executables
    · simpa only [System.past_commit_ne hj _ (show 3 ≠ 0 + 1 by omega)] using h.nodes
    · intro v hv
      rcases List.mem_cons.mp ((System.past_commit hj _).mem_iff.mp hv) with rfl | hv
      · exact hres
      · exact h.resolves v hv
  · obtain ⟨us, hus, hsame⟩ := h.executables
    obtain ⟨_, _, _, rfl⟩ := insertExecutable_ok.mp hst
    refine ⟨?_, ⟨us ++ [u], exists_order hj _ hus, ?_⟩, ?_, ?_⟩
    · simpa only [System.past_commit_ne hj _ (show 1 ≠ 1 + 1 by omega)] using h.datas
    · rw [List.flatMap_append, Table.upsertAll_append, List.flatMap_singleton, ← hsame]
    · simpa only [System.past_commit_ne hj _ (show 3 ≠ 1 + 1 by omega)] using h.nodes
    · simpa only [System.past_commit_ne hj _ (show 1 ≠ 1 + 1 by omega)] using h.resolves
  · obtain ⟨us, hus, hsame⟩ := h.nodes
    obtain ⟨_, _, _, rfl, _⟩ := insertStackNode_ok.mp hst
    refine ⟨?_, ?_, ⟨us ++ [u], exists_order hj _ hus, ?_⟩, ?_⟩
    · simpa only [System.past_commit_ne hj _ (show 1 ≠ 2 + 1 by omega)] using h.datas
    · simpa only [System.past_commit_ne hj _ (show 2 ≠ 2 + 1 by omega)] using h.executables
    · rw [List.flatMap_append, Table.upsertAll_append, List.flatMap_singleton]
      exact (Upload.nodes_same hl _).trans (hsame.upsertAll _ _)
    · simpa only [System.past_commit_ne hj _ (show 1 ≠ 2 + 1 by omega)] using h.resolves

theorem Replay.fail {s : System Upload Db SqlError} (h : Replay env s) {i : ℕ}
    {j : Job Upload SqlError} (hj : s.jobs[i]? = some j) (e : SqlError) :
    Replay env ⟨s.store, s.jobs.set i { j with error := some e }⟩ where
  datas := by simpa only [System.past_fail hj] using h.datas
  executables := by simpa only [System.past_fail hj] using h.executables
  nodes := by simpa only [System.past_fail hj] using h.nodes
  resolves := by simpa only [System.past_fail hj] using h.resolves

theorem mem_of_getElem {s : System Upload Db SqlError} {us : List Upload} {i : ℕ}
    {j : Job Upload SqlError} (h : s.jobs.map Job.request = us) (hj : s.jobs[i]? = some j) :
    j.request ∈ us := h ▸ List.mem_map_of_mem (List.mem_of_getElem? hj)

theorem start_requests (us : List Upload) :
    (System.start Db.empty us : System Upload Db SqlError).jobs.map Job.request = us := by
  simp [System.start, Job.start, Function.comp_def]

theorem run_requests (pg : Postgres) (env : Externals) (us : List Upload) (sched : List ℕ) :
    (reached pg env us sched).jobs.map Job.request = us :=
  (System.run_induction (P := fun _ ↦ True) trivial (fun _ _ _ _ _ _ _ _ _ _ _ ↦ trivial)
    (fun _ _ _ _ _ _ _ _ _ _ _ ↦ trivial) sched).2.trans (start_requests us)

theorem past_subset (pg : Postgres) (env : Externals) (us : List Upload) (sched : List ℕ) {k : ℕ}
    {u : Upload} (h : u ∈ (reached pg env us sched).past k) : u ∈ us := by
  have hmem := (System.past_sublist _ k).subset h
  rwa [run_requests] at hmem

theorem replay_run (pg : Postgres) {us : List Upload} (hl : ∀ u ∈ us, u.WithinLimit env)
    (sched : List ℕ) :
    Replay env (reached pg env us sched) := by
  refine (System.run_induction (P := Replay env) (.start us) ?_ ?_ sched).1
  · intro s i j tx st h hreq hj _ htx hst
    exact h.commit (hl _ (mem_of_getElem (hreq.trans (start_requests us)) hj)) hj htx hst
  · intro s i j tx e h _ hj _ _ _
    exact h.fail hj e

end Sto
