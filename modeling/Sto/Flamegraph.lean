import Sto.EndToEnd

namespace Sto

open Library

variable {env : Externals} {us : List Upload} {id : Int64}

/-- The prefix tree of the resolved samples of an executable, under a root that counts
those that have a frame. -/
structure IsCallTree (env : Externals) (us : List Upload) (id : Int64) (t : D3FlamegraphData) :
    Prop where
  name : ∃ u ∈ us, u.executableId env = id ∧ t.name = u.args.binary
  value : t.value = (samplesOf env us id).countP fun path ↦ path ≠ []
  filename : t.filename = none
  lineNumber : t.lineNumber = none
  children : ∃ ts, t.children = some ts ∧
    PrefixForest (drawFrame env) (samplesOf env us id) [] ts

theorem Ingested.executable_row {db : Db} (h : Ingested env us db) {pb : Executable}
    (hpb : selectExecutable id db = some pb) :
    ∃ u ∈ us, u.executableId env = id ∧ pb.basename = u.args.binary := by
  obtain ⟨hmem, rfl⟩ := Table.lookup_eq_some.mp hpb
  obtain ⟨u, hu, hexe, hname⟩ := h.executable_rows pb hmem
  exact ⟨u, hu, hexe, hname.symm⟩

theorem exists_sample_iff : (∃ path ∈ samplesOf env us id, path ≠ []) ↔
    ∃ u ∈ us, u.Resolves env ∧ u.executableId env = id := by
  simp only [mem_samplesOf]
  constructor
  · intro hx
    obtain ⟨path, ⟨u, hu, hexe, hpath⟩, hne⟩ := hx
    exact ⟨u, hu, ⟨path, hpath, hne⟩, hexe⟩
  · intro hx
    obtain ⟨u, hu, ⟨path, hpath, hne⟩, hexe⟩ := hx
    exact ⟨path, ⟨u, hu, hexe, hpath⟩, hne⟩

/-- The handler returns the call tree of exactly those executables of which some sample
resolves and no batch loses rows to the limit. -/
theorem dag_is_the_call_tree_iff (pg : Postgres)
    (ha : ∀ u ∈ us, u.Resolves env → u.Acceptable pg env) (hsum : SumsFit env us)
    (hframes : FramesDistinct env us) (hids : NodeIdsDistinct env us) (rows iter : Arrangement)
    (hid : id ≠ 123) :
    let db := stored pg env us
    (∃ t, getDag rows iter id db db db = .ok t ∧ IsCallTree env us id t) ↔
      (∃ path ∈ samplesOf env us id, path ≠ []) ∧ LosesNothing env us id := by
  intro db
  have h : Ingested env us db := stored_ingested ha hsum
  have hreg : db.Regular env := stored_regular pg env us
  have hfound : (∃ pb, selectExecutable id db = some pb) ↔
      ∃ path ∈ samplesOf env us id, path ≠ [] := by
    rw [exists_sample_iff, selectExecutable, ← Table.has_iff_lookup, h.has_executable]
  rw [← counted_iff_losesNothing pg ha hsum hids]
  constructor
  · intro hx
    obtain ⟨t, ht, htree⟩ := hx
    rw [getDag, if_neg hid] at ht
    cases hpb : selectExecutable id db with
    | none =>
      rw [hpb] at ht
      cases ht
    | some pb =>
      rw [hpb] at ht
      obtain ⟨ts, hchildren, hforest⟩ := htree.children
      exact ⟨hfound.mp ⟨pb, hpb⟩, h.counted_of_tree hreg hframes hids ht hchildren hforest⟩
  · intro hx
    obtain ⟨hsample, hcounted⟩ := hx
    obtain ⟨pb, hpb⟩ := hfound.mpr hsample
    obtain ⟨path, hpath, _⟩ := hsample
    have hselects := h.selects (stored_foreignKeys pg env us) hframes hids hcounted rows
    obtain ⟨ts, hts, hok⟩ := hselects.renderDag iter (List.ne_nil_of_mem hpath) pb
    refine ⟨drawRoot pb ts, ?_, h.executable_row hpb, ?_, rfl, rfl, ts, rfl, hts⟩
    · rw [getDag, if_neg hid, hpb]
      exact hok
    · exact sum_values hts

theorem demoCall_fits : SumsFit demoExternals [demoCall .asIs] :=
  .of_totals (by decide +kernel) (by decide +kernel)

theorem dag_is_the_call_tree_iff_demo :
    let db := stored lenientPostgres demoExternals [demoCall .asIs]
    ∃ t, getDag .asIs .reversed 9544298 db db db = .ok t ∧
      IsCallTree demoExternals [demoCall .asIs] 9544298 t := by
  have hl : ∀ u ∈ [demoCall .asIs], u.WithinLimit demoExternals := by
    intro u hu
    rw [List.mem_singleton.mp hu]
    exact demoCall_withinLimit
  have ha : ∀ u ∈ [demoCall .asIs], u.Resolves demoExternals →
      u.Acceptable lenientPostgres demoExternals := by
    intro u hu _
    rw [List.mem_singleton.mp hu]
    exact ⟨rfl, rfl, rfl, fun _ _ ↦ ⟨rfl, by simp [lenientPostgres], rfl⟩⟩
  have hframes : FramesDistinct demoExternals [demoCall .asIs] := by
    decide +kernel
  have hsample : ∃ path ∈ samplesOf demoExternals [demoCall .asIs] 9544298, path ≠ [] := by
    decide +kernel
  exact (dag_is_the_call_tree_iff lenientPostgres ha demoCall_fits hframes demoCall_nodeIds .asIs
    .reversed (by decide)).mpr ⟨hsample, losesNothing_of_withinLimit hl _⟩

/-- The only address of the only sample resolves to nothing: the first insert has no tuple,
and the executable is never stored. -/
theorem unresolved_executable_has_no_dag :
    let u : Upload := { demoUpload with symlists := [[[]]] }
    let db := stored lenientPostgres demoExternals [u]
    u.WithinLimit demoExternals ∧ u.executableId demoExternals ≠ 123 ∧
      ∀ t, getDag .asIs .asIs (u.executableId demoExternals) db db db ≠ .ok t := by
  intro u db
  have hid : u.executableId demoExternals ≠ 123 := by decide +kernel
  have hnone : selectExecutable (u.executableId demoExternals) db = none := by decide +kernel
  refine ⟨by decide +kernel, hid, fun t ht ↦ ?_⟩
  rw [getDag, if_neg hid, hnone] at ht
  cases ht

end Sto
