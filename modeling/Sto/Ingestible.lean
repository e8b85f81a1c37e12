import Sto.BatchSplit
import Sto.Profiles

namespace Sto

open Library

variable {env : Externals} {pg : Postgres} {u : Upload} {r : Request} {db : Db}

/-- Each of the three `VALUES` is followed by a tuple. -/
structure Request.WellFormed (r : Request) : Prop where
  datas : r.datas ≠ []
  executables : r.executables ≠ []
  nodes : r.nodes ≠ []

theorem insertStackNodeData_syntaxError :
    insertStackNodeData pg r db = .error .syntaxError ↔ r.datas = [] := by
  rw [← insertOrSkip_syntaxError (c := stackNodeDataColumns pg) (t := db.stackNodeData)]
  change Except.map _ (insertOrSkip _ r.datas _) = _ ↔ _
  cases insertOrSkip (stackNodeDataColumns pg) r.datas db.stackNodeData <;> simp [Except.map]

theorem insertExecutable_syntaxError :
    insertExecutable pg r db = .error .syntaxError ↔ r.executables = [] := by
  rw [← insertOrUpdate_syntaxError (c := executableColumns pg) (m := addExecutable)
    (t := db.executable)]
  change Except.map _ (insertOrUpdate _ _ r.executables _) = _ ↔ _
  cases insertOrUpdate (executableColumns pg) addExecutable r.executables db.executable <;>
    simp [Except.map]

theorem insertStackNode_syntaxError :
    insertStackNode r db = .error .syntaxError ↔ r.nodes = [] := by
  rw [← insertOrUpdate_syntaxError (c := stackNodeColumns) (m := addStackNode) (t := db.stackNode)]
  change Except.bind (insertOrUpdate _ _ r.nodes _) _ = _ ↔ _
  cases insertOrUpdate stackNodeColumns addStackNode r.nodes db.stackNode with
  | error e => simp [Except.bind]
  | ok t =>
    simp only [Except.bind, commitStackNode, reduceCtorEq, iff_false]
    split <;> simp

theorem Request.WellFormed.no_syntaxError (h : r.WellFormed) :
    (dataIngest pg r db).2 ≠ some .syntaxError := by
  obtain ⟨e, he, hd⟩ | ⟨db₁, _, ⟨e, he, hd⟩ | ⟨db₂, _, ⟨e, he, hd⟩ | ⟨db₃, _, hd⟩⟩⟩ :=
    dataIngest_cases pg r db <;> rw [hd]
  · intro hsyntax
    rw [Option.some_inj.mp hsyntax] at he
    exact h.datas (insertStackNodeData_syntaxError.mp he)
  · intro hsyntax
    rw [Option.some_inj.mp hsyntax] at he
    exact h.executables (insertExecutable_syntaxError.mp he)
  · intro hsyntax
    rw [Option.some_inj.mp hsyntax] at he
    exact h.nodes (insertStackNode_syntaxError.mp he)
  · exact nofun

theorem dataIngest_no_datas (h : r.datas = []) :
    dataIngest pg r db = (db, some .syntaxError) := by
  have herror : insertStackNodeData pg r db = .error .syntaxError :=
    insertStackNodeData_syntaxError.mpr h
  simp only [dataIngest, transactions, serial, herror]

theorem Upload.wellFormed_iff : (u.request env).WellFormed ↔ u.Resolves env := by
  constructor
  · intro h
    exact not_not.mp (mt Upload.request_datas_eq_nil.mpr h.datas)
  · intro hres
    refine ⟨mt Upload.request_datas_eq_nil.mp (not_not.mpr hres), ?_,
      mt Upload.request_nodes_eq_nil.mp (not_not.mpr hres)⟩
    rw [Upload.request_executables hres]
    exact List.cons_ne_nil _ _

def Upload.Recorded (env : Externals) (u : Upload) (before after : Db) : Prop :=
  ∀ c ∈ [Executable.sampleCount, Executable.rawDataSize],
    after.executable.weight c (u.executableId env) =
      before.executable.weight c (u.executableId env) + c (u.executableRow env)

theorem counts_addresses (hne : u.symlists ≠ [])
    (haddr : ∀ symlist ∈ u.symlists, symlist ≠ []) : 0 < (u.executableRow env).sampleCount := by
  obtain ⟨symlist, hmem⟩ := List.exists_mem_of_ne_nil _ hne
  apply executableRow_count_pos
  intro hnil
  exact haddr symlist hmem (List.reverse_eq_nil_iff.mp (List.flatMap_eq_nil_iff.mp hnil _ hmem))

/-- A batch can be ingested exactly when one of its addresses symbolizes to a frame. What
the server can still refuse then are values, and where it takes them the counters are
recorded. -/
theorem batch_is_ingestible_iff (pg : Postgres) (us : List Upload) (sched : List ℕ)
    (hne : u.symlists ≠ []) (haddr : ∀ symlist ∈ u.symlists, symlist ≠ [])
    (hl : u.WithinLimit env) :
    let db := (reached pg env us sched).store
    let result := dataIngest pg (u.request env) db
    ((u.request env).WellFormed ↔ u.Resolves env) ∧
    (result.2 ≠ some .syntaxError ↔ u.Resolves env) ∧
    ((u.Resolves env → u.Acceptable pg env) → db.Fits env [u] →
      (result.2 = none ↔ u.Resolves env) ∧ (u.Recorded env db result.1 ↔ u.Resolves env)) := by
  intro db result
  have hrefused : ¬ u.Resolves env → result = (db, some .syntaxError) := fun hres ↦
    dataIngest_no_datas (Upload.request_datas_eq_nil.mpr hres)
  refine ⟨Upload.wellFormed_iff, ⟨fun hok ↦ ?_, fun hres ↦ ?_⟩, fun ha hfit ↦ ?_⟩
  · by_contra hres
    exact hok (congrArg Prod.snd (hrefused hres))
  · exact (Upload.wellFormed_iff.mpr hres).no_syntaxError
  · have hwhole : u.Resolves env → result = ((u.request env).applyTo db, none) := fun hres ↦
      (regular_run pg env us sched).ingest_whole hfit hl hres (ha hres)
    refine ⟨⟨fun hok ↦ ?_, fun hres ↦ congrArg Prod.snd (hwhole hres)⟩,
      fun hrec ↦ ?_, fun hres c hc ↦ ?_⟩
    · by_contra hres
      rw [hrefused hres] at hok
      cases hok
    · by_contra hres
      have hcount := hrec Executable.sampleCount (by simp)
      have hpos := @counts_addresses env u hne haddr
      rw [hrefused hres] at hcount
      dsimp only at hcount
      omega
    · have hmem : c ∈ counters := by
        simp only [List.mem_cons, List.not_mem_nil, or_false] at hc
        rcases hc with rfl | rfl <;> simp [counters]
      rw [hwhole hres, Request.applyTo]
      dsimp only
      rw [upsert_executables_weight (counter_of_mem hmem), carried_own hres]

def unresolvedUpload : Upload := { demoUpload with symlists := [[[]]] }

theorem unresolved_batch_is_refused :
    unresolvedUpload.WithinLimit demoExternals ∧
      (dataIngest lenientPostgres (unresolvedUpload.request demoExternals) .empty).2 =
        some .syntaxError ∧
      ¬ unresolvedUpload.Recorded demoExternals .empty
        (dataIngest lenientPostgres (unresolvedUpload.request demoExternals) .empty).1 := by
  refine ⟨by decide +kernel, by decide +kernel, fun h ↦ ?_⟩
  have hcount := h Executable.sampleCount (by simp)
  revert hcount
  decide +kernel

def demoGaps : Upload :=
  { demoUpload with
    symlists := [[[⟨"main", "/src/main.c", 3⟩]], [[], [⟨"main", "/src/main.c", 3⟩]], [[]]] }

theorem batch_is_ingestible_iff_demo :
    let result := dataIngest lenientPostgres (demoGaps.request demoExternals) .empty
    (demoGaps.request demoExternals).WellFormed ∧ result.2 = none ∧
      demoGaps.Recorded demoExternals .empty result.1 := by
  have hres : demoGaps.Resolves demoExternals := by
    decide +kernel
  have ha : demoGaps.Acceptable lenientPostgres demoExternals :=
    ⟨rfl, rfl, rfl, fun _ _ ↦ ⟨rfl, by simp [lenientPostgres], rfl⟩⟩
  have hl : demoGaps.WithinLimit demoExternals := by
    decide +kernel
  have hsum : SumsFit demoExternals [demoGaps] :=
    .of_totals (by decide +kernel) (by decide +kernel)
  obtain ⟨hwell, _, hok⟩ := batch_is_ingestible_iff lenientPostgres [] [] (u := demoGaps)
    (by decide) (by decide) hl
  obtain ⟨hnone, hrecorded⟩ := hok (fun _ ↦ ha) (demo_fits hsum)
  exact ⟨hwell.mpr hres, hnone.mpr hres, hrecorded.mpr hres⟩

end Sto
