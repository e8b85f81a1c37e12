import Sto.SerialIngest
import Sto.Provenance

namespace Sto

open Library

variable {env : Externals} {pg : Postgres}

structure Executable.Evolves (a b : Executable) : Prop where
  id : b.id = a.id
  event : b.event = a.event
  buildId : b.buildId = a.buildId
  basename : b.basename = a.basename
  createdAt : b.createdAt = a.createdAt
  sampleCount : a.sampleCount ≤ b.sampleCount
  rawDataSize : a.rawDataSize ≤ b.rawDataSize
  processedDataSize : a.processedDataSize ≤ b.processedDataSize

namespace Executable

theorem Evolves.refl (a : Executable) : a.Evolves a :=
  ⟨rfl, rfl, rfl, rfl, rfl, le_rfl, le_rfl, le_rfl⟩

theorem Evolves.trans {a b c : Executable} (h : a.Evolves b) (h' : b.Evolves c) : a.Evolves c where
  id := h'.id.trans h.id
  event := h'.event.trans h.event
  buildId := h'.buildId.trans h.buildId
  basename := h'.basename.trans h.basename
  createdAt := h'.createdAt.trans h.createdAt
  sampleCount := h.sampleCount.trans h'.sampleCount
  rawDataSize := h.rawDataSize.trans h'.rawDataSize
  processedDataSize := h.processedDataSize.trans h'.processedDataSize

theorem evolves_op (a : Executable) {r : Executable} (h : ∀ c ∈ counters, 0 ≤ c r) :
    a.Evolves (addExecutable.op a r) where
  id := rfl
  event := rfl
  buildId := rfl
  basename := rfl
  createdAt := rfl
  sampleCount := Int.le_add_of_nonneg_right (h Executable.sampleCount (by simp [counters]))
  rawDataSize := Int.le_add_of_nonneg_right (h Executable.rawDataSize (by simp [counters]))
  processedDataSize :=
    Int.le_add_of_nonneg_right (h Executable.processedDataSize (by simp [counters]))

theorem evolves_absorbAll (a : Executable) (rs : List Executable)
    (h : ∀ r ∈ rs, ∀ c ∈ counters, 0 ≤ c r) :
    ∃ b, addExecutable.absorbAll (some a) rs = some b ∧ a.Evolves b ∧
      (b = a ∨ ∃ r ∈ rs, b.updatedAt = r.updatedAt) := by
  induction rs generalizing a with
  | nil => exact ⟨a, rfl, .refl a, .inl rfl⟩
  | cons r rs ih =>
    rw [List.forall_mem_cons] at h
    obtain ⟨b, hb, hevolves, hupdated⟩ := ih (addExecutable.op a r) h.2
    refine ⟨b, hb, (a.evolves_op h.1).trans hevolves, .inr ?_⟩
    obtain rfl | ⟨x, hx, hupdated⟩ := hupdated
    · exact ⟨r, List.mem_cons_self, rfl⟩
    · exact ⟨x, List.mem_cons_of_mem _ hx, hupdated⟩

end Executable

theorem request_executable_cases {u : Upload} {r : Executable}
    (h : r ∈ (u.request env).executables) :
    r = stamp (u.request env) (u.executableRow env) := by
  obtain ⟨e, he, rfl⟩ := List.mem_map.mp h
  have hmem := List.mem_of_mem_take he
  change e ∈ (u.payload env).profiledBinaries at hmem
  rw [Upload.payload_executables] at hmem
  split at hmem
  · cases hmem
  · rw [List.mem_singleton.mp hmem]

theorem request_counters_nonneg {u : Upload} {r : Executable}
    (h : r ∈ (u.request env).executables) : ∀ c ∈ counters, 0 ≤ c r := by
  intro c hc
  rw [request_executable_cases h, (counter_of_mem hc).stamp]
  exact (counter_of_mem hc).nonneg env u

theorem grows_run (pg : Postgres) (env : Externals) (s : System Upload Db SqlError)
    (sched : List ℕ) : s.store.Grows (s.run (program pg env) sched).store :=
  (System.run_induction (P := fun s' : System Upload Db SqlError ↦ s.store.Grows s'.store)
    (.refl _)
    (fun _ _ _ _ _ h _ _ _ htx hst ↦ h.trans (grows_transaction (List.mem_of_getElem? htx) hst))
    (fun _ _ _ _ _ h _ _ _ _ _ ↦ h) sched).1

theorem reached_append (pg : Postgres) (env : Externals) (us : List Upload) (a b : List ℕ) :
    reached pg env us (a ++ b) = (reached pg env us a).run (program pg env) b :=
  System.run_append _ _ a b

theorem reached_arrivals (pg : Postgres) (env : Externals) {us : List Upload} {sched : List ℕ}
    (hbounded : ∀ i ∈ sched, i < us.length) (news : List Upload) :
    reached pg env (us ++ news) sched = ⟨(reached pg env us sched).store,
      (reached pg env us sched).jobs ++ news.map Job.start⟩ := by
  have hrun : (⟨Db.empty, us.map Job.start ++ news.map Job.start⟩ :
      System Upload Db SqlError).run (program pg env) sched = ⟨(reached pg env us sched).store,
        (reached pg env us sched).jobs ++ news.map Job.start⟩ := by
    apply System.run_arrivals (s := System.start Db.empty us)
    intro i hi
    rw [System.start, List.length_map]
    exact hbounded i hi
  rw [← hrun, reached, System.start, List.map_append]

theorem evolves_transaction {u : Upload} {i : ℕ} {tx : Db → Except SqlError Db} {db db' : Db}
    (htx : (program pg env u)[i]? = some tx) (h : tx db = .ok db') {e : Int64} {a : Executable}
    (ha : db.executable.lookup e = some a) :
    ∃ b, db'.executable.lookup e = some b ∧ a.Evolves b ∧
      (b = a ∨ u.executableId env = e ∧ b.updatedAt = some u.utcNow) := by
  obtain ⟨_, rfl⟩ | ⟨_, rfl⟩ | ⟨_, rfl⟩ := program_cases htx
  · obtain ⟨_, _, rfl⟩ := insertStackNodeData_result h
    exact ⟨a, ha, .refl a, .inl rfl⟩
  · obtain ⟨_, _, _, rfl⟩ := insertExecutable_ok.mp h
    dsimp only
    rw [Table.lookup_upsertAll, ha]
    obtain ⟨b, hb, hevolves, hupdated⟩ := a.evolves_absorbAll
      ((u.request env).executables.filter fun r ↦ r.id = e)
      fun r hr ↦ request_counters_nonneg (List.mem_filter.mp hr).1
    refine ⟨b, hb, hevolves, hupdated.imp_right fun hx ↦ ?_⟩
    obtain ⟨r, hr, hb⟩ := hx
    obtain ⟨hr, hid⟩ := List.mem_filter.mp hr
    have hid := of_decide_eq_true hid
    rw [request_executable_cases hr] at hid hb
    exact ⟨hid, hb⟩
  · obtain ⟨_, _, _, rfl, _⟩ := insertStackNode_ok.mp h
    exact ⟨a, ha, .refl a, .inl rfl⟩

/-- However uploads are interleaved, an executable's row stays and only evolves. -/
theorem executable_over_time (pg : Postgres) (env : Externals) (s : System Upload Db SqlError)
    (sched : List ℕ) {e : Int64} {a : Executable} (ha : selectExecutable e s.store = some a) :
    ∃ b, selectExecutable e (s.run (program pg env) sched).store = some b ∧ a.Evolves b ∧
      (b = a ∨ ∃ u ∈ s.jobs.map Job.request, u.executableId env = e ∧
        b.updatedAt = some u.utcNow) := by
  refine (System.run_induction (P := fun s' : System Upload Db SqlError ↦
    ∃ b, selectExecutable e s'.store = some b ∧ a.Evolves b ∧
      (b = a ∨ ∃ u ∈ s.jobs.map Job.request, u.executableId env = e ∧
        b.updatedAt = some u.utcNow)) ⟨a, ha, .refl a, .inl rfl⟩ ?_ ?_ sched).1
  · intro s' i j tx st hx hreq hj _ htx hst
    obtain ⟨b, hb, hevolves, hupdated⟩ := hx
    obtain ⟨c, hc, hevolves', hupdated'⟩ := evolves_transaction htx hst hb
    refine ⟨c, hc, hevolves.trans hevolves', ?_⟩
    obtain rfl | hlast := hupdated'
    · exact hupdated
    · exact .inr ⟨j.request, hreq ▸ List.mem_map_of_mem (List.mem_of_getElem? hj), hlast⟩
  · intro s' i j tx e h _ _ _ _ _
    exact h

theorem metadata_ok {e : Int64} {db : Db} {a : Executable} :
    metadata e db = .ok a ↔ selectExecutable e db = some a := by
  rw [metadata]
  cases selectExecutable e db <;> simp

/-- `GET /data/<id>` at two moments, with any transactions of any uploads between them: the
answer stands for the same release, none of its counters has gone down, and when it has
changed, it names the clock reading of an upload. -/
theorem metadata_over_time (pg : Postgres) (env : Externals) (s : System Upload Db SqlError)
    (sched : List ℕ) {e : Int64} {a : Executable} (h : metadata e s.store = .ok a) :
    ∃ b, metadata e (s.run (program pg env) sched).store = .ok b ∧ a.Evolves b ∧
      (b = a ∨ ∃ u ∈ s.jobs.map Job.request, u.executableId env = e ∧
        b.updatedAt = some u.utcNow) := by
  obtain ⟨b, hb, hevolves⟩ := executable_over_time pg env s sched (metadata_ok.mp h)
  exact ⟨b, metadata_ok.mpr hb, hevolves⟩

theorem metadata_over_time_demo :
    let s := reached lenientPostgres demoExternals [demoUpload, demoUpload] [0, 0, 0]
    let a : Executable := ⟨9544298, "Cycles", none, "demo", some 0, some 0, 1, 1, 1⟩
    ∃ b, metadata 9544298
        (s.run (program lenientPostgres demoExternals) [1, 1, 1]).store = .ok b ∧ a.Evolves b ∧
      (b = a ∨ ∃ u ∈ s.jobs.map Job.request, u.executableId demoExternals = 9544298 ∧
        b.updatedAt = some u.utcNow) := by
  intro s a
  apply metadata_over_time
  decide +kernel

end Sto
